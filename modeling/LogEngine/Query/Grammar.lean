import LogEngine.Query.Cursor

namespace LogEngine.Query
open Lib

/- The documented grammar over tokens, with the node each derivation determines. The repeated
operands are written left-recursively; `Ident` says which tokens are terms. -/
mutual

inductive OrExpr (Ident : String → Prop) : List String → Node → Prop
  | one {ts : List String} {node : Node} : AndExpr Ident ts node → OrExpr Ident ts node
  | more {ts us : List String} {left right : Node} : OrExpr Ident ts left →
      AndExpr Ident us right → OrExpr Ident (ts ++ "OR" :: us) (.or left right)

inductive AndExpr (Ident : String → Prop) : List String → Node → Prop
  | one {ts : List String} {node : Node} : Atom Ident ts node → AndExpr Ident ts node
  | more {ts us : List String} {left right : Node} : AndExpr Ident ts left →
      Atom Ident us right → AndExpr Ident (ts ++ "AND" :: us) (.and left right)

inductive Atom (Ident : String → Prop) : List String → Node → Prop
  | group {ts : List String} {node : Node} : OrExpr Ident ts node →
      Atom Ident ("(" :: (ts ++ [")"])) node
  | term {tok : String} : Ident tok → Atom Ident [tok] (leaf tok)

end

/-- Induction over derivations: a property of each nonterminal, shown for each production. -/
theorem expr_induction {Ident : String → Prop} {P Q R : List String → Node → Prop}
    (orOne : ∀ {ts node}, Q ts node → P ts node)
    (orMore : ∀ {ts us left right}, P ts left → Q us right → P (ts ++ "OR" :: us) (.or left right))
    (andOne : ∀ {ts node}, R ts node → Q ts node)
    (andMore : ∀ {ts us left right}, Q ts left → R us right →
      Q (ts ++ "AND" :: us) (.and left right))
    (group : ∀ {ts node}, P ts node → R ("(" :: (ts ++ [")"])) node)
    (term : ∀ {tok}, Ident tok → R [tok] (leaf tok)) {ts : List String} {node : Node}
    (h : OrExpr Ident ts node) : P ts node :=
  @OrExpr.rec Ident (fun ts node _ => P ts node) (fun ts node _ => Q ts node)
    (fun ts node _ => R ts node) (fun _ => orOne) (fun _ _ => orMore) (fun _ => andOne)
    (fun _ _ => andMore) (fun _ => group) term ts node h

/-- The terms of the grammar: every token but the operators and the parentheses. -/
def Ident (tok : String) : Prop := tok ≠ "AND" ∧ tok ≠ "OR" ∧ tok ≠ "(" ∧ tok ≠ ")"

/-- The tokens that `parseAtom` takes for a term. -/
def Operand (tok : String) : Prop := tok ≠ "AND" ∧ tok ≠ "OR" ∧ tok ≠ "("

section Sound

/-- A result of the parser on `ts`: what it took derives the node. -/
def Took (Expr : List String → Node → Prop) (ts : List String) (node : Node)
    (rest : List String) : Prop :=
  ∃ us, ts = us ++ rest ∧ Expr us node

/-- A result of a loop with the left operand `left`. -/
def Extends (Expr : List String → Node → Prop) (left : Node) (ts : List String) (node : Node)
    (rest : List String) : Prop :=
  ∃ us, ts = us ++ rest ∧ ∀ front, Expr front left → Expr (front ++ us) node

variable {Expr : List String → Node → Prop}

theorem Extends.refl (left : Node) (ts : List String) : Extends Expr left ts left ts :=
  ⟨[], rfl, fun front h => by rwa [List.append_nil]⟩

/-- One turn of a loop: an operator, an operand and what the further turns take. -/
theorem Extends.turn {Arg : List String → Node → Prop} {op : String} {join : Node → Node → Node}
    (hjoin : ∀ {ts us l r}, Expr ts l → Arg us r → Expr (ts ++ op :: us) (join l r))
    {left right node : Node} {ts mid rest : List String} (harg : Took Arg ts right mid)
    (hrest : Extends Expr (join left right) mid node rest) :
    Extends Expr left (op :: ts) node rest := by
  obtain ⟨us, rfl, hus⟩ := harg
  obtain ⟨vs, rfl, hvs⟩ := hrest
  refine ⟨op :: us ++ vs, by simp, fun front hfront => ?_⟩
  rw [← List.append_assoc]
  exact hvs _ (hjoin hfront hus)

theorem Took.extend {Arg : List String → Node → Prop} (hone : ∀ {ts l}, Arg ts l → Expr ts l)
    {left node : Node} {ts mid rest : List String} (harg : Took Arg ts left mid)
    (hrest : Extends Expr left mid node rest) : Took Expr ts node rest := by
  obtain ⟨us, rfl, hus⟩ := harg
  obtain ⟨vs, rfl, hvs⟩ := hrest
  exact ⟨us ++ vs, by simp, hvs us (hone hus)⟩

theorem Took.group {ts rest : List String} {node : Node}
    (h : Took (OrExpr Operand) ts node (")" :: rest)) :
    Took (Atom Operand) ("(" :: ts) node rest := by
  obtain ⟨us, rfl, hus⟩ := h
  exact ⟨"(" :: (us ++ [")"]), by simp, .group hus⟩

theorem parseAtom_sound {n : Nat} {ts rest : List String} {node : Node}
    (hor : ∀ {ts node rest}, parseOr n ts = .ok (node, rest) →
      Took (OrExpr Operand) ts node rest)
    (h : parseAtom (n + 1) ts = .ok (node, rest)) : Took (Atom Operand) ts node rest := by
  cases ts with
  | nil =>
    rw [parseAtom] at h
    cases h
  | cons tok ts =>
    rw [parseAtom] at h
    split at h
    · cases h
    · rename_i hop
      split at h
      · rename_i hopen
        split at h
        · cases h
        · rename_i inner mid hinner
          split at h
          · rename_i hclose
            cases h
            obtain ⟨tail, rfl⟩ := List.head?_eq_some_iff.mp hclose
            rw [hopen]
            exact (hor hinner).group
          · cases h
      · rename_i hopen
        cases h
        obtain ⟨hand, hor⟩ := not_or.mp hop
        exact ⟨[tok], rfl, .term ⟨hand, hor, hopen⟩⟩

theorem parseAnd_sound {n : Nat} {ts rest : List String} {node : Node}
    (hatom : ∀ {ts node rest}, parseAtom n ts = .ok (node, rest) →
      Took (Atom Operand) ts node rest)
    (hloop : ∀ {left ts node rest}, parseAndLoop n left ts = .ok (node, rest) →
      Extends (AndExpr Operand) left ts node rest)
    (h : parseAnd (n + 1) ts = .ok (node, rest)) : Took (AndExpr Operand) ts node rest := by
  rw [parseAnd] at h
  split at h
  · cases h
  · rename_i left mid hleft
    exact (hatom hleft).extend .one (hloop h)

theorem parseAndLoop_sound {n : Nat} {left : Node} {ts rest : List String} {node : Node}
    (hatom : ∀ {ts node rest}, parseAtom n ts = .ok (node, rest) →
      Took (Atom Operand) ts node rest)
    (hloop : ∀ {left ts node rest}, parseAndLoop n left ts = .ok (node, rest) →
      Extends (AndExpr Operand) left ts node rest)
    (h : parseAndLoop (n + 1) left ts = .ok (node, rest)) :
    Extends (AndExpr Operand) left ts node rest := by
  rw [parseAndLoop] at h
  split at h
  · rename_i hop
    obtain ⟨tail, rfl⟩ := List.head?_eq_some_iff.mp hop
    split at h
    · cases h
    · rename_i right mid hright
      exact .turn .more (hatom hright) (hloop h)
  · cases h
    exact .refl _ _

theorem parseOr_sound {n : Nat} {ts rest : List String} {node : Node}
    (hand : ∀ {ts node rest}, parseAnd n ts = .ok (node, rest) →
      Took (AndExpr Operand) ts node rest)
    (hloop : ∀ {left ts node rest}, parseOrLoop n left ts = .ok (node, rest) →
      Extends (OrExpr Operand) left ts node rest)
    (h : parseOr (n + 1) ts = .ok (node, rest)) : Took (OrExpr Operand) ts node rest := by
  rw [parseOr] at h
  split at h
  · cases h
  · rename_i left mid hleft
    exact (hand hleft).extend .one (hloop h)

theorem parseOrLoop_sound {n : Nat} {left : Node} {ts rest : List String} {node : Node}
    (hand : ∀ {ts node rest}, parseAnd n ts = .ok (node, rest) →
      Took (AndExpr Operand) ts node rest)
    (hloop : ∀ {left ts node rest}, parseOrLoop n left ts = .ok (node, rest) →
      Extends (OrExpr Operand) left ts node rest)
    (h : parseOrLoop (n + 1) left ts = .ok (node, rest)) :
    Extends (OrExpr Operand) left ts node rest := by
  rw [parseOrLoop] at h
  split at h
  · rename_i hop
    obtain ⟨tail, rfl⟩ := List.head?_eq_some_iff.mp hop
    split at h
    · cases h
    · rename_i right mid hright
      exact .turn .more (hand hright) (hloop h)
  · cases h
    exact .refl _ _

/-- What the parser returns is derived from the tokens it took, by induction on the depth. -/
theorem parse_sound (n : Nat) :
    (∀ {ts node rest}, parseOr n ts = .ok (node, rest) → Took (OrExpr Operand) ts node rest) ∧
    (∀ {left ts node rest}, parseOrLoop n left ts = .ok (node, rest) →
      Extends (OrExpr Operand) left ts node rest) ∧
    (∀ {ts node rest}, parseAnd n ts = .ok (node, rest) → Took (AndExpr Operand) ts node rest) ∧
    (∀ {left ts node rest}, parseAndLoop n left ts = .ok (node, rest) →
      Extends (AndExpr Operand) left ts node rest) ∧
    ∀ {ts node rest}, parseAtom n ts = .ok (node, rest) → Took (Atom Operand) ts node rest := by
  induction n with
  | zero => simp [parseOr, parseOrLoop, parseAnd, parseAndLoop, parseAtom]
  | succ n ih =>
    obtain ⟨hor, horLoop, hand, handLoop, hatom⟩ := ih
    exact ⟨parseOr_sound hand horLoop, parseOrLoop_sound hand horLoop,
      parseAnd_sound hatom handLoop, parseAndLoop_sound hatom handLoop, parseAtom_sound hor⟩

end Sound

section Complete

/-- With enough depth the function returns `result`. -/
def Yields (f : Nat → ParseResult) (result : ParseResult) : Prop :=
  ∃ fuel, ∀ n ≥ fuel, f n = result

variable {result : ParseResult}

theorem Yields.unique {f : Nat → ParseResult} {other : ParseResult} (h : Yields f result)
    (h' : Yields f other) : result = other := by
  obtain ⟨m, hm⟩ := h
  obtain ⟨n, hn⟩ := h'
  rw [← hm (max m n) (Nat.le_max_left m n), hn (max m n) (Nat.le_max_right m n)]

/-- A function whose call with one more level is made of two calls below. -/
theorem Yields.seq {f g h : Nat → ParseResult} {middle : ParseResult} (hg : Yields g middle)
    (hh : Yields h result) (hf : ∀ n, g n = middle → f (n + 1) = h n) : Yields f result := by
  obtain ⟨m, hm⟩ := hg
  obtain ⟨k, hk⟩ := hh
  refine ⟨max m k + 1, fun n hn => ?_⟩
  obtain ⟨n, rfl⟩ := Nat.exists_eq_add_of_le' (Nat.le_of_add_left_le hn)
  rw [hf n (hm n (by omega)), hk n (by omega)]

theorem Yields.const {f : Nat → ParseResult} (h : ∀ n, f (n + 1) = result) : Yields f result := by
  refine ⟨1, fun n hn => ?_⟩
  obtain ⟨n, rfl⟩ := Nat.exists_eq_add_of_le' hn
  exact h n

theorem yields_or {ts rest : List String} {left : Node}
    (hand : Yields (parseAnd · ts) (.ok (left, rest)))
    (hloop : Yields (parseOrLoop · left rest) result) : Yields (parseOr · ts) result :=
  hand.seq hloop fun n h => by simp only [parseOr, h]

theorem yields_and {ts rest : List String} {left : Node}
    (hatom : Yields (parseAtom · ts) (.ok (left, rest)))
    (hloop : Yields (parseAndLoop · left rest) result) : Yields (parseAnd · ts) result :=
  hatom.seq hloop fun n h => by simp only [parseAnd, h]

theorem yields_orLoop {ts rest : List String} {left right : Node}
    (hand : Yields (parseAnd · ts) (.ok (right, rest)))
    (hloop : Yields (parseOrLoop · (.or left right) rest) result) :
    Yields (parseOrLoop · left ("OR" :: ts)) result :=
  hand.seq hloop fun n h => by simp [parseOrLoop, h]

theorem yields_andLoop {ts rest : List String} {left right : Node}
    (hatom : Yields (parseAtom · ts) (.ok (right, rest)))
    (hloop : Yields (parseAndLoop · (.and left right) rest) result) :
    Yields (parseAndLoop · left ("AND" :: ts)) result :=
  hatom.seq hloop fun n h => by simp [parseAndLoop, h]

theorem yields_orLoop_end {ts : List String} (left : Node) (h : ts.head? ≠ some "OR") :
    Yields (parseOrLoop · left ts) (.ok (left, ts)) :=
  .const fun n => by rw [parseOrLoop, if_neg h]

theorem yields_andLoop_end {ts : List String} (left : Node) (h : ts.head? ≠ some "AND") :
    Yields (parseAndLoop · left ts) (.ok (left, ts)) :=
  .const fun n => by rw [parseAndLoop, if_neg h]

theorem yields_group {ts rest : List String} {node : Node}
    (h : Yields (parseOr · ts) (.ok (node, ")" :: rest))) :
    Yields (parseAtom · ("(" :: ts)) (.ok (node, rest)) := by
  have hdone : Yields (fun _ => .ok (node, rest)) (.ok (node, rest)) := ⟨0, fun _ _ => rfl⟩
  exact h.seq hdone fun n h => by simp [parseAtom, h]

theorem yields_term {tok : String} (h : Operand tok) (rest : List String) :
    Yields (parseAtom · (tok :: rest)) (.ok (leaf tok, rest)) :=
  .const fun n => by rw [parseAtom, if_neg (not_or.mpr ⟨h.1, h.2.1⟩), if_neg h.2.2]

/-- What the grammar derives the parser accepts. An expression reaches the end of its loop with
its node as the left operand, so the statement is about all that can come after it. -/
theorem OrExpr.yields {ts : List String} {node : Node} (h : OrExpr Operand ts node) :
    ∀ rest result, rest.head? ≠ some "AND" → Yields (parseOrLoop · node rest) result →
      Yields (parseOr · (ts ++ rest)) result := by
  refine expr_induction
    (P := fun ts node => ∀ rest result, rest.head? ≠ some "AND" →
      Yields (parseOrLoop · node rest) result → Yields (parseOr · (ts ++ rest)) result)
    (Q := fun ts node => ∀ rest result, Yields (parseAndLoop · node rest) result →
      Yields (parseAnd · (ts ++ rest)) result)
    (R := fun ts node => ∀ rest, Yields (parseAtom · (ts ++ rest)) (.ok (node, rest)))
    ?_ ?_ ?_ ?_ ?_ ?_ h
  · intro ts node hand rest result hrest hloop
    exact yields_or (hand rest _ (yields_andLoop_end node hrest)) hloop
  · intro ts us left right hleft hright rest result hrest hloop
    rw [List.append_assoc, List.cons_append]
    refine hleft _ _ (by simp) ?_
    exact yields_orLoop (hright rest _ (yields_andLoop_end right hrest)) hloop
  · intro ts node hatom rest result hloop
    exact yields_and (hatom rest) hloop
  · intro ts us left right hleft hright rest result hloop
    rw [List.append_assoc, List.cons_append]
    exact hleft _ _ (yields_andLoop (hright rest) hloop)
  · intro ts node hor rest
    rw [List.cons_append, List.append_assoc, List.singleton_append]
    exact yields_group (hor _ _ (by simp) (yields_orLoop_end node (by simp)))
  · intro tok htok rest
    exact yields_term htok rest

theorem OrExpr.accepted {ts : List String} {node : Node} (h : OrExpr Operand ts node) :
    Yields (parseOr · ts) (.ok (node, [])) := by
  have hall := h.yields [] _ (by simp) (yields_orLoop_end node (by simp))
  rwa [List.append_nil] at hall

end Complete

end LogEngine.Query
