import Mathlib.Data.List.Chain
import LogEngine.Query.Grammar

namespace LogEngine.Query
open Lib

section Terminates

/-- From the depth `fuel` on the function has one result, which is not for want of depth. -/
def Settles (f : Nat → ParseResult) (fuel : Nat) : Prop :=
  ∃ result, result ≠ .error .outOfFuel ∧ ∀ n ≥ fuel, f n = result

theorem Settles.mono {f : Nat → ParseResult} {a b : Nat} (h : Settles f a) (hab : a ≤ b) :
    Settles f b := by
  obtain ⟨result, hne, hall⟩ := h
  exact ⟨result, hne, fun n hn => hall n (hab.trans hn)⟩

theorem Settles.const {f : Nat → ParseResult} {result : ParseResult} {fuel : Nat}
    (h : ∀ n, f (n + 1) = result) (hne : result ≠ .error .outOfFuel) : Settles f (fuel + 1) := by
  refine ⟨result, hne, fun n hn => ?_⟩
  obtain ⟨n, rfl⟩ := Nat.exists_eq_add_of_le' (Nat.le_of_add_left_le hn)
  exact h n

/-- A call followed by another one on its result. -/
theorem Settles.seq {f g : Nat → ParseResult} {h : Node → List String → Nat → ParseResult}
    {fuel : Nat} (hg : Settles g fuel)
    (hh : ∀ node rest n, g n = .ok (node, rest) → Settles (h node rest) fuel)
    (herr : ∀ n err, g n = .error err → f (n + 1) = .error err)
    (hok : ∀ n node rest, g n = .ok (node, rest) → f (n + 1) = h node rest n) :
    Settles f (fuel + 1) := by
  obtain ⟨middle, hne, hall⟩ := hg
  cases middle with
  | error err =>
    refine ⟨.error err, hne, fun n hn => ?_⟩
    obtain ⟨n, rfl⟩ := Nat.exists_eq_add_of_le' (Nat.le_of_add_left_le hn)
    exact herr n err (hall n (by omega))
  | ok pair =>
    obtain ⟨node, rest⟩ := pair
    obtain ⟨result, hne', hall'⟩ := hh node rest fuel (hall fuel le_rfl)
    refine ⟨result, hne', fun n hn => ?_⟩
    obtain ⟨n, rfl⟩ := Nat.exists_eq_add_of_le' (Nat.le_of_add_left_le hn)
    rw [hok n node rest (hall n (by omega)), hall' n (by omega)]

theorem OrExpr.ne_nil {Ident : String → Prop} {ts : List String} {node : Node}
    (h : OrExpr Ident ts node) : ts ≠ [] := by
  refine expr_induction (P := fun ts _ => ts ≠ []) (Q := fun ts _ => ts ≠ [])
    (R := fun ts _ => ts ≠ []) id ?_ id ?_ ?_ ?_ h <;> simp

theorem parseAtom_shortens {n : Nat} {ts rest : List String} {node : Node}
    (h : parseAtom n ts = .ok (node, rest)) : rest.length < ts.length := by
  obtain ⟨us, rfl, hus⟩ := (parse_sound n).2.2.2.2 h
  have hpos := List.length_pos_of_ne_nil (OrExpr.one (.one hus)).ne_nil
  rw [List.length_append]
  omega

theorem parseAnd_shortens {n : Nat} {ts rest : List String} {node : Node}
    (h : parseAnd n ts = .ok (node, rest)) : rest.length < ts.length := by
  obtain ⟨us, rfl, hus⟩ := (parse_sound n).2.2.1 h
  have hpos := List.length_pos_of_ne_nil (OrExpr.one hus).ne_nil
  rw [List.length_append]
  omega

/-- The depth that each function of the parser needs for a number of tokens. -/
structure Deep (ts : List String) : Prop where
  atom : Settles (parseAtom · ts) (4 * ts.length + 1)
  andLoop : ∀ left, Settles (parseAndLoop · left ts) (4 * ts.length + 1)
  and : Settles (parseAnd · ts) (4 * ts.length + 2)
  orLoop : ∀ left, Settles (parseOrLoop · left ts) (4 * ts.length + 2)
  or : Settles (parseOr · ts) (4 * ts.length + 3)

variable {ts : List String}

theorem settles_atom (h : ∀ us, us.length < ts.length → Deep us) :
    Settles (parseAtom · ts) (4 * ts.length + 1) := by
  cases ts with
  | nil => exact .const (fun n => by rw [parseAtom]) (by simp)
  | cons tok ts =>
    by_cases hop : tok = "AND" ∨ tok = "OR"
    · exact .const (fun n => by rw [parseAtom, if_pos hop]) (by simp)
    by_cases hopen : tok = "("
    · have hgroup := (h ts (by simp)).or.mono
        (show 4 * ts.length + 3 ≤ 4 * (tok :: ts).length by simp only [List.length_cons]; omega)
      refine hgroup.seq (h := fun node rest _ =>
        if rest.head? = some ")" then .ok (node, rest.tail) else .error .expectedClose) ?_ ?_ ?_
      · intro node rest n _
        refine ⟨_, ?_, fun _ _ => rfl⟩
        split <;> simp
      · intro n err herr
        simp only [parseAtom, if_neg hop, if_pos hopen, herr]
      · intro n node rest hok
        simp only [parseAtom, if_neg hop, if_pos hopen, hok]
    · exact .const (fun n => by rw [parseAtom, if_neg hop, if_neg hopen]) (by simp)

theorem settles_andLoop (h : ∀ us, us.length < ts.length → Deep us) (left : Node) :
    Settles (parseAndLoop · left ts) (4 * ts.length + 1) := by
  by_cases hop : ts.head? = some "AND"
  · obtain ⟨tail, rfl⟩ := List.head?_eq_some_iff.mp hop
    have hatom := (h tail (by simp)).atom.mono
      (show 4 * tail.length + 1 ≤ 4 * ("AND" :: tail).length by simp only [List.length_cons]; omega)
    refine hatom.seq (h := fun right rest n => parseAndLoop n (.and left right) rest) ?_ ?_ ?_
    · intro right rest n hok
      have hlt := parseAtom_shortens hok
      exact ((h rest (by simp only [List.length_cons]; omega)).andLoop _).mono
        (by simp only [List.length_cons]; omega)
    · intro n err herr
      simp only [parseAndLoop, if_pos hop, List.tail_cons, herr]
    · intro n right rest hok
      simp only [parseAndLoop, if_pos hop, List.tail_cons, hok]
  · exact .const (fun n => by rw [parseAndLoop, if_neg hop]) (by simp)

theorem settles_and (hatom : Settles (parseAtom · ts) (4 * ts.length + 1))
    (h : ∀ us, us.length < ts.length → Deep us) :
    Settles (parseAnd · ts) (4 * ts.length + 2) := by
  refine hatom.seq (h := fun left rest n => parseAndLoop n left rest) ?_ ?_ ?_
  · intro left rest n hok
    have hlt := parseAtom_shortens hok
    exact ((h rest hlt).andLoop left).mono (by omega)
  · intro n err herr
    simp only [parseAnd, herr]
  · intro n left rest hok
    simp only [parseAnd, hok]

theorem settles_orLoop (h : ∀ us, us.length < ts.length → Deep us) (left : Node) :
    Settles (parseOrLoop · left ts) (4 * ts.length + 2) := by
  by_cases hop : ts.head? = some "OR"
  · obtain ⟨tail, rfl⟩ := List.head?_eq_some_iff.mp hop
    have hand := (h tail (by simp)).and.mono
      (show 4 * tail.length + 2 ≤ 4 * ("OR" :: tail).length + 1 by
        simp only [List.length_cons]; omega)
    refine hand.seq (h := fun right rest n => parseOrLoop n (.or left right) rest) ?_ ?_ ?_
    · intro right rest n hok
      have hlt := parseAnd_shortens hok
      exact ((h rest (by simp only [List.length_cons]; omega)).orLoop _).mono
        (by simp only [List.length_cons]; omega)
    · intro n err herr
      simp only [parseOrLoop, if_pos hop, List.tail_cons, herr]
    · intro n right rest hok
      simp only [parseOrLoop, if_pos hop, List.tail_cons, hok]
  · exact .const (fun n => by rw [parseOrLoop, if_neg hop]) (by simp)

theorem settles_or (hand : Settles (parseAnd · ts) (4 * ts.length + 2))
    (h : ∀ us, us.length < ts.length → Deep us) :
    Settles (parseOr · ts) (4 * ts.length + 3) := by
  refine hand.seq (h := fun left rest n => parseOrLoop n left rest) ?_ ?_ ?_
  · intro left rest n hok
    have hlt := parseAnd_shortens hok
    exact ((h rest hlt).orLoop left).mono (by omega)
  · intro n err herr
    simp only [parseOr, herr]
  · intro n left rest hok
    simp only [parseOr, hok]

/-- The parser terminates on every token list. -/
theorem deep (ts : List String) : Deep ts := by
  induction hn : ts.length using Nat.strongRecOn generalizing ts with
  | ind n ih =>
    have hshorter : ∀ us, us.length < ts.length → Deep us :=
      fun us hus => ih us.length (hn ▸ hus) us rfl
    have hatom := settles_atom hshorter
    have hand := settles_and hatom hshorter
    exact ⟨hatom, settles_andLoop hshorter, hand, settles_orLoop hshorter,
      settles_or hand hshorter⟩

end Terminates

/-- The parser accepts a token list exactly when it is derivable with every operand that
`parseAtom` takes for a term. -/
theorem parseOr_ok_iff {ts : List String} {node : Node} :
    parseOr (4 * ts.length + 4) ts = .ok (node, []) ↔ OrExpr Operand ts node := by
  constructor
  · intro h
    obtain ⟨us, hus, hor⟩ := (parse_sound _).1 h
    rw [List.append_nil] at hus
    exact hus ▸ hor
  · intro h
    obtain ⟨result, -, hall⟩ := (deep ts).or
    have hresult : result = .ok (node, []) := Yields.unique ⟨_, hall⟩ h.accepted
    exact (hall _ (by omega)).trans hresult

/-- A closing parenthesis stands where the grammar has one: not where an operand is due. -/
def Follows (a b : String) : Prop := b = ")" → ¬ (a = "(" ∨ a = "AND" ∨ a = "OR")

instance (a b : String) : Decidable (Follows a b) := inferInstanceAs (Decidable (_ → _))

/-- No closing parenthesis is the first token or comes directly after an opening one or an
operator. -/
def ClosesGroups (ts : List String) : Prop := ("(" :: ts).IsChain Follows

instance (ts : List String) : Decidable (ClosesGroups ts) :=
  inferInstanceAs (Decidable (List.IsChain _ _))

theorem follows_of_ne {a b : String} (h : b ≠ ")") : Follows a b := fun hb => absurd hb h

theorem closesGroups_join {ts us : List String} {op : String} (hop : op = "AND" ∨ op = "OR") :
    ClosesGroups (ts ++ op :: us) ↔ ClosesGroups ts ∧ ClosesGroups us := by
  have hne : op ≠ ")" := by
    rcases hop with rfl | rfl <;> decide
  have hfront : ("(" :: (ts ++ [op])).IsChain Follows ↔ ("(" :: ts).IsChain Follows := by
    rw [← List.cons_append, List.isChain_append]
    simp [follows_of_ne hne]
  have hback : (op :: us).IsChain Follows ↔ ("(" :: us).IsChain Follows := by
    cases us with
    | nil => simp
    | cons u us =>
      rw [List.isChain_cons_cons, List.isChain_cons_cons]
      rcases hop with rfl | rfl <;> simp [Follows]
  rw [ClosesGroups, ← List.cons_append, List.isChain_split, List.cons_append, hfront, hback]
  rfl

theorem closesGroups_group {ts : List String} (h : ClosesGroups ("(" :: (ts ++ [")"]))) :
    ClosesGroups ts := by
  rw [ClosesGroups, List.isChain_cons_cons, ← List.cons_append, List.isChain_append] at h
  exact h.2.1

/-- Where every closing parenthesis is in its place, what the parser accepts is in the grammar. -/
theorem OrExpr.strict {ts : List String} {node : Node} (h : OrExpr Operand ts node) :
    ClosesGroups ts → OrExpr Ident ts node := by
  refine expr_induction (P := fun ts node => ClosesGroups ts → OrExpr Ident ts node)
    (Q := fun ts node => ClosesGroups ts → AndExpr Ident ts node)
    (R := fun ts node => ClosesGroups ts → Atom Ident ts node) ?_ ?_ ?_ ?_ ?_ ?_ h
  · exact fun hand hts => .one (hand hts)
  · intro ts us left right hleft hright hall
    obtain ⟨hts, hus⟩ := (closesGroups_join (.inr rfl)).mp hall
    exact .more (hleft hts) (hright hus)
  · exact fun hatom hts => .one (hatom hts)
  · intro ts us left right hleft hright hall
    obtain ⟨hts, hus⟩ := (closesGroups_join (.inl rfl)).mp hall
    exact .more (hleft hts) (hright hus)
  · exact fun hor hts => .group (hor (closesGroups_group hts))
  · intro tok htok hts
    refine .term ⟨htok.1, htok.2.1, htok.2.2, fun hclose => ?_⟩
    rw [ClosesGroups, List.isChain_cons_cons] at hts
    exact hts.1 hclose (.inl rfl)

/-- The last token of an expression ends an operand. -/
def EndsOperand (ts : List String) : Prop :=
  ∃ init last, ts = init ++ [last] ∧ ¬ (last = "(" ∨ last = "AND" ∨ last = "OR")

theorem EndsOperand.append {us : List String} (h : EndsOperand us) (ts : List String) :
    EndsOperand (ts ++ us) := by
  obtain ⟨init, last, rfl, hlast⟩ := h
  exact ⟨ts ++ init, last, (List.append_assoc ..).symm, hlast⟩

theorem EndsOperand.cons {us : List String} (h : EndsOperand us) (t : String) :
    EndsOperand (t :: us) := h.append [t]

theorem closesGroups_close {ts : List String} (h : ClosesGroups ts) (hend : EndsOperand ts) :
    ClosesGroups ("(" :: (ts ++ [")"])) := by
  rw [ClosesGroups, List.isChain_cons_cons, ← List.cons_append, List.isChain_append]
  obtain ⟨init, last, rfl, hlast⟩ := hend
  refine ⟨follows_of_ne (by decide), h, by simp, ?_⟩
  rw [← List.cons_append, List.getLast?_concat]
  simpa [Follows] using hlast

/-- In the grammar every closing parenthesis is in its place. -/
theorem OrExpr.closesGroups {ts : List String} {node : Node} (h : OrExpr Ident ts node) :
    ClosesGroups ts := by
  refine (expr_induction (P := fun ts _ => ClosesGroups ts ∧ EndsOperand ts)
    (Q := fun ts _ => ClosesGroups ts ∧ EndsOperand ts)
    (R := fun ts _ => ClosesGroups ts ∧ EndsOperand ts) id ?_ id ?_ ?_ ?_ h).1
  · intro ts us left right hleft hright
    exact ⟨(closesGroups_join (.inr rfl)).mpr ⟨hleft.1, hright.1⟩, (hright.2.cons "OR").append ts⟩
  · intro ts us left right hleft hright
    exact ⟨(closesGroups_join (.inl rfl)).mpr ⟨hleft.1, hright.1⟩, (hright.2.cons "AND").append ts⟩
  · intro ts node hor
    refine ⟨closesGroups_close hor.1 hor.2, "(" :: ts, ")", rfl, by decide⟩
  · intro tok htok
    refine ⟨?_, [], tok, rfl, by simp [htok.1, htok.2.1, htok.2.2.1]⟩
    rw [ClosesGroups, List.isChain_cons_cons]
    exact ⟨follows_of_ne htok.2.2.2, .singleton _⟩

theorem OrExpr.lax {ts : List String} {node : Node} (h : OrExpr Ident ts node) :
    OrExpr Operand ts node :=
  expr_induction .one .more .one .more .group (fun htok => .term ⟨htok.1, htok.2.1, htok.2.2.1⟩) h

/-- The answer that the documented grammar gives for a query. -/
def Derives (query : String) (ast : Option Node) : Prop :=
  (trimSpace query = "" ∧ ast = none) ∨ ∃ node, ast = some node ∧ OrExpr Ident (lex query) node

theorem lex_blank {query : String} (h : trimSpace query = "") : lex query = [] := by
  rw [← lex_trimSpace, h]
  decide +kernel

theorem parse_ok_iff (query : String) (ast : Option Node) :
    parse query = .ok ast ↔ (trimSpace query = "" ∧ ast = none) ∨
      ∃ node, ast = some node ∧ OrExpr Operand (lex query) node := by
  rw [parse]
  by_cases hblank : trimSpace query = ""
  · have hnone : ∀ node, ¬ OrExpr Operand (lex query) node :=
      fun node h => h.ne_nil (lex_blank hblank)
    simp [hblank, hnone, eq_comm]
  · simp only [hblank, if_false, false_and, false_or, lex_trimSpace, ← parseOr_ok_iff]
    rcases parseOr (4 * (lex query).length + 4) (lex query) with err | ⟨node, _ | ⟨tok, rest⟩⟩
    · simp
    · simp [eq_comm]
    · simp

/-- The positions of the source and the token list give one parser, and it always ends. -/
theorem cursor_parse_eq (query : String) {fuel : Nat}
    (hfuel : 4 * (lex query).length + 4 ≤ fuel) :
    Cursor.parse fuel query = (parse query).mapError .err := by
  rw [Cursor.parse, parse, lex_trimSpace]
  by_cases hblank : trimSpace query = ""
  · simp only [hblank, if_true]
    rfl
  · simp only [hblank, if_false]
    obtain ⟨result, -, hall⟩ := (deep (lex query)).or
    have hlow : parseOr (4 * (lex query).length + 4) (lex query) = result := hall _ (by omega)
    have hhigh : parseOr fuel (lex query) = result := hall _ (by omega)
    have hsim := (Cursor.parse_sim (empty_not_mem_lex query) fuel).1 0
    rw [List.drop_zero, hhigh, ← hlow] at hsim
    rcases hsim.inv with ⟨err, hrun, hresult⟩ | ⟨node, pos, hrun, hresult⟩
    · rw [hrun, hresult]
      rfl
    · rw [hrun, hresult]
      cases hrest : (lex query).drop pos with
      | nil =>
        have hnone : (lex query)[pos]? = none := by
          rw [← List.head?_drop, hrest, List.head?_nil]
        simp only [hnone]
        rfl
      | cons tok rest =>
        have hsome : (lex query)[pos]? = some tok := by
          rw [← List.head?_drop, hrest, List.head?_cons]
        have hpos : (lex query).length - (rest.length + 1) = pos := by
          have hlen := congrArg List.length hrest
          rw [List.length_drop, List.length_cons] at hlen
          omega
        simp only [hsome, hpos]
        rfl

theorem parse_ne_outOfFuel (query : String) : parse query ≠ .error .outOfFuel := by
  rw [parse]
  by_cases hblank : trimSpace query = ""
  · simp [hblank]
  · simp only [hblank, if_false]
    obtain ⟨result, hne, hall⟩ := (deep (lex (trimSpace query))).or
    have hrun : parseOr (4 * (lex (trimSpace query)).length + 4) (lex (trimSpace query)) = result :=
      hall _ (by omega)
    rw [hrun]
    rcases result with err | ⟨node, _ | ⟨tok, rest⟩⟩
    · simpa using hne
    · simp
    · simp

/-- `Parse` always ends without an index out of range. It agrees with the grammar exactly when
no closing parenthesis stands where an operand is due, or when the query would be refused even
if such a parenthesis were a term. -/
theorem parse_grammar_iff (query : String) :
    (∀ fuel ≥ 4 * (lex query).length + 4,
      Cursor.parse fuel query = (parse query).mapError .err) ∧
    parse query ≠ .error .outOfFuel ∧
    ((∀ ast, parse query = .ok ast ↔ Derives query ast) ↔
      ClosesGroups (lex query) ∨ ∀ node, ¬ OrExpr Operand (lex query) node) := by
  refine ⟨fun fuel hfuel => cursor_parse_eq query hfuel, parse_ne_outOfFuel query, ?_, ?_⟩
  · intro hall
    by_contra hnot
    obtain ⟨hmisplaced, haccepted⟩ := not_or.mp hnot
    obtain ⟨node, hnode⟩ := not_forall_not.mp haccepted
    rcases (hall (some node)).mp ((parse_ok_iff query _).mpr (.inr ⟨node, rfl, hnode⟩)) with
      ⟨-, hnone⟩ | ⟨other, -, hother⟩
    · cases hnone
    · exact hmisplaced hother.closesGroups
  · intro hcond ast
    rw [parse_ok_iff, Derives]
    refine or_congr_right (exists_congr fun node => and_congr_right fun _ => ?_)
    refine ⟨fun h => h.strict (hcond.resolve_right fun hnone => hnone node h), OrExpr.lax⟩

theorem parse_grammar_grouped :
    ∀ ast, parse "disk AND (full OR level:error)" = .ok ast ↔
      Derives "disk AND (full OR level:error)" ast :=
  (parse_grammar_iff _).2.2.mpr (.inl (by decide +kernel))

/-- A lone closing parenthesis is searched for as a word. -/
theorem parse_takes_paren :
    (parse ") AND disk").toOption = some (some (.and (.term ")") (.term "disk"))) ∧
      ∀ ast, ¬ Derives ") AND disk" ast := by
  refine ⟨by decide +kernel, fun ast h => ?_⟩
  have hlex : lex ") AND disk" = [")", "AND", "disk"] := by decide +kernel
  rcases h with ⟨hblank, -⟩ | ⟨node, -, hnode⟩
  · exact absurd hblank (by decide +kernel)
  · rw [hlex] at hnode
    exact absurd hnode.closesGroups (by decide)

end LogEngine.Query
