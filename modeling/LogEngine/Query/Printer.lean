import LogEngine.Query.Accepts

namespace LogEngine.Query
open Lib

def Node.isOr : Node → Bool
  | .or _ _ => true
  | _ => false

def Node.isOperator : Node → Bool
  | .and _ _ => true
  | .or _ _ => true
  | _ => false

/-- A text in parentheses where they are needed. -/
def group (needed : Bool) (text : String) : String :=
  if needed then "(" ++ text ++ ")" else text

/-- The text of a query: a right operand is parenthesised when it is an operator node, a left
one when it is an `OrNode` under an `AndNode`. -/
def render : Node → String
  | .and left right =>
    group left.isOr (render left) ++ " AND " ++ group right.isOperator (render right)
  | .or left right => render left ++ " OR " ++ group right.isOperator (render right)
  | .term token => token
  | .field field value => field ++ ":" ++ value

/-- A text without whitespace and parentheses. -/
def Plain (s : String) : Prop := ∀ c ∈ s.toList, isSpace c = false ∧ isParen c = false

instance (s : String) : Decidable (Plain s) := List.decidableBAll _ _

/-- The trees that have a text: terms as `Parse` builds them, fields that the lexer keeps in
one token. -/
def Printable : Node → Prop
  | .and left right => Printable left ∧ Printable right
  | .or left right => Printable left ∧ Printable right
  | .term token =>
    token ≠ "" ∧ toLower token = token ∧ Plain token ∧ containsRune token ':' = false
  | .field field value => Plain field ∧ Plain value ∧ containsRune field ':' = false

instance decidablePrintable : (node : Node) → Decidable (Printable node)
  | .and left right =>
    @instDecidableAnd _ _ (decidablePrintable left) (decidablePrintable right)
  | .or left right =>
    @instDecidableAnd _ _ (decidablePrintable left) (decidablePrintable right)
  | .term _ => inferInstanceAs (Decidable (_ ∧ _))
  | .field _ _ => inferInstanceAs (Decidable (_ ∧ _))

theorem lex_infix {op sep : String} (hsep : sep.toList = ' ' :: (op.toList ++ [' ']))
    (hop : lexRunes op.toList = [op.toList]) (a b : String) :
    lex (a ++ sep ++ b) = lex a ++ op :: lex b := by
  have htext : (a ++ sep ++ b).toList = a.toList ++ ' ' :: (op.toList ++ ' ' :: b.toList) := by
    simp [String.toList_append, hsep]
  rw [lex_eq, htext, lexRunes_append_cons isSpace_space, lexRunes_append_cons isSpace_space, hop,
    List.map_append, List.map_append, List.map_singleton, String.ofList_toList, ← lex_eq, ← lex_eq,
    List.singleton_append]

theorem lex_and (a b : String) : lex (a ++ " AND " ++ b) = lex a ++ "AND" :: lex b :=
  lex_infix (by decide +kernel) (by decide +kernel) a b

theorem lex_or (a b : String) : lex (a ++ " OR " ++ b) = lex a ++ "OR" :: lex b :=
  lex_infix (by decide +kernel) (by decide +kernel) a b

theorem lex_parens (a : String) : lex ("(" ++ a ++ ")") = "(" :: (lex a ++ [")"]) := by
  have htext : ("(" ++ a ++ ")").toList = [] ++ '(' :: (a.toList ++ ')' :: []) := by
    simp [String.toList_append]
  rw [lex_eq, htext, lexRunes_paren rfl, lexRunes_paren rfl, List.map_append, List.map_cons,
    List.map_append, List.map_cons, ← lex_eq]
  rfl

theorem leaf_term {token : String} (hlower : toLower token = token)
    (hcolon : containsRune token ':' = false) : leaf token = .term token := by
  rw [leaf, hcolon, hlower]
  rfl

theorem leaf_field {field : String} (hcolon : containsRune field ':' = false) (value : String) :
    leaf (field ++ ":" ++ value) = .field field value := by
  have htext : (field ++ ":" ++ value).toList = field.toList ++ ':' :: value.toList := by
    simp [String.toList_append]
  have hfield : ∀ c ∈ field.toList, decide (c ≠ ':') = true := by
    intro c hc
    rw [decide_eq_true_eq]
    rintro rfl
    simp [containsRune, hc] at hcolon
  have htoken : containsRune (field ++ ":" ++ value) ':' = true := by
    simp [containsRune, htext]
  rw [leaf, htoken, if_pos rfl, splitAtRune, htext, List.takeWhile_append_of_pos hfield,
    List.dropWhile_append_of_pos hfield]
  simp

theorem ident_of_lower {token : String} (hlower : toLower token = token) (h : Plain token) :
    Ident token := by
  have hupper : toLower "AND" ≠ "AND" ∧ toLower "OR" ≠ "OR" := by decide +kernel
  refine ⟨?_, ?_, ?_, ?_⟩
  · rintro rfl
    exact hupper.1 hlower
  · rintro rfl
    exact hupper.2 hlower
  · rintro rfl
    simp [Plain, isParen] at h
  · rintro rfl
    simp [Plain, isParen] at h

theorem ident_of_colon {token : String} (h : containsRune token ':' = true) : Ident token := by
  refine ⟨?_, ?_, ?_, ?_⟩ <;> rintro rfl <;> exact absurd h (by decide +kernel)

/-- How a tree's text is read back, by the context it can stand in without parentheses. -/
structure Reads (node : Node) : Prop where
  or : OrExpr Ident (lex (render node)) node
  and : node.isOr = false → AndExpr Ident (lex (render node)) node
  atom : node.isOperator = false → Atom Ident (lex (render node)) node

theorem Reads.of_atom {node : Node} (h : Atom Ident (lex (render node)) node) : Reads node :=
  ⟨.one (.one h), fun _ => .one h, fun _ => h⟩

theorem Reads.rightOperand {node : Node} (h : Reads node) :
    Atom Ident (lex (group node.isOperator (render node))) node := by
  cases hop : node.isOperator with
  | false => exact h.atom hop
  | true =>
    rw [group, if_pos rfl, lex_parens]
    exact .group h.or

theorem Reads.leftOperand {node : Node} (h : Reads node) :
    AndExpr Ident (lex (group node.isOr (render node))) node := by
  cases hor : node.isOr with
  | false => exact h.and hor
  | true =>
    rw [group, if_pos rfl, lex_parens]
    exact .one (.group h.or)

theorem Reads.andNode {left right : Node} (hleft : Reads left) (hright : Reads right) :
    Reads (.and left right) := by
  have hand : AndExpr Ident (lex (render (.and left right))) (.and left right) := by
    rw [render, lex_and]
    exact .more hleft.leftOperand hright.rightOperand
  exact ⟨.one hand, fun _ => hand, fun h => Bool.noConfusion h⟩

theorem Reads.orNode {left right : Node} (hleft : Reads left) (hright : Reads right) :
    Reads (.or left right) := by
  have hor : OrExpr Ident (lex (render (.or left right))) (.or left right) := by
    rw [render, lex_or]
    exact .more hleft.or (.one hright.rightOperand)
  exact ⟨hor, fun h => Bool.noConfusion h, fun h => Bool.noConfusion h⟩

theorem Reads.termNode {token : String} (h : Printable (.term token)) : Reads (.term token) := by
  obtain ⟨hne, hlower, hplain, hcolon⟩ := h
  have hatom : Atom Ident [token] (leaf token) := .term (ident_of_lower hlower hplain)
  rw [leaf_term hlower hcolon] at hatom
  refine .of_atom ?_
  rwa [render, lex_word hne hplain]

theorem Reads.fieldNode {field value : String} (h : Printable (.field field value)) :
    Reads (.field field value) := by
  obtain ⟨hfield, hvalue, hcolon⟩ := h
  have htext : (field ++ ":" ++ value).toList = field.toList ++ ':' :: value.toList := by
    simp [String.toList_append]
  have hplain : Plain (field ++ ":" ++ value) := by
    intro c hc
    rw [htext, List.mem_append, List.mem_cons] at hc
    rcases hc with hc | rfl | hc
    · exact hfield c hc
    · decide +kernel
    · exact hvalue c hc
  have hne : field ++ ":" ++ value ≠ "" := by
    rw [ne_eq, ← String.toList_eq_nil_iff, htext]
    simp
  have hatom : Atom Ident [field ++ ":" ++ value] (leaf (field ++ ":" ++ value)) :=
    .term (ident_of_colon (by simp [containsRune, htext]))
  rw [leaf_field hcolon] at hatom
  refine .of_atom ?_
  rwa [render, lex_word hne hplain]

theorem Printable.reads {node : Node} (h : Printable node) : Reads node := by
  induction node with
  | and left right ihl ihr => exact (ihl h.1).andNode (ihr h.2)
  | or left right ihl ihr => exact (ihl h.1).orNode (ihr h.2)
  | term token => exact .termNode h
  | field field value => exact .fieldNode h

/-- Parsing the text of a tree gives the tree. -/
theorem parse_render (node : Node) (h : Printable node) :
    parse (render node) = .ok (some node) :=
  (parse_ok_iff _ _).mpr (.inr ⟨node, rfl, h.reads.or.lax⟩)

theorem parse_render_nested :
    parse (render (.and (.or (.term "disk") (.field "level" "a:b"))
      (.and (.term "full") (.term "and")))) =
      .ok (some (.and (.or (.term "disk") (.field "level" "a:b"))
        (.and (.term "full") (.term "and")))) :=
  parse_render _ (by decide +kernel)

example : render (.and (.or (.term "disk") (.field "level" "a:b"))
    (.and (.term "full") (.term "and"))) = "(disk OR level:a:b) AND (full AND and)" := by
  decide +kernel

end LogEngine.Query
