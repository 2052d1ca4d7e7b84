import LogEngine.Query.Lexer

namespace LogEngine.Query
open Lib

/-- What a run of the parser can end in other than a node: an error it returns, or an index
past the token list. -/
inductive Fault where
  | err (err : ParseError)
  | indexOutOfRange (pos : Nat)
  deriving DecidableEq

namespace Cursor

def peek (tokens : List String) (pos : Nat) : String := (tokens[pos]?).getD ""

/-- `queryParser.consume`, which does not test the index. -/
def consume (tokens : List String) (pos : Nat) : Except Fault (String × Nat) :=
  match tokens[pos]? with
  | none => .error (.indexOutOfRange pos)
  | some t => .ok (t, pos + 1)

/- The parser as it is written, on a fixed token list with a position. -/
mutual

def parseOr (tokens : List String) : Nat → Nat → Except Fault (Node × Nat)
  | 0, _ => .error (.err .outOfFuel)
  | n + 1, pos =>
    match parseAnd tokens n pos with
    | .error fault => .error fault
    | .ok (left, pos) => parseOrLoop tokens n left pos

def parseOrLoop (tokens : List String) : Nat → Node → Nat → Except Fault (Node × Nat)
  | 0, _, _ => .error (.err .outOfFuel)
  | n + 1, left, pos =>
    if peek tokens pos = "OR" then
      match consume tokens pos with
      | .error fault => .error fault
      | .ok (_, pos) =>
        match parseAnd tokens n pos with
        | .error fault => .error fault
        | .ok (right, pos) => parseOrLoop tokens n (.or left right) pos
    else .ok (left, pos)

def parseAnd (tokens : List String) : Nat → Nat → Except Fault (Node × Nat)
  | 0, _ => .error (.err .outOfFuel)
  | n + 1, pos =>
    match parseAtom tokens n pos with
    | .error fault => .error fault
    | .ok (left, pos) => parseAndLoop tokens n left pos

def parseAndLoop (tokens : List String) : Nat → Node → Nat → Except Fault (Node × Nat)
  | 0, _, _ => .error (.err .outOfFuel)
  | n + 1, left, pos =>
    if peek tokens pos = "AND" then
      match consume tokens pos with
      | .error fault => .error fault
      | .ok (_, pos) =>
        match parseAtom tokens n pos with
        | .error fault => .error fault
        | .ok (right, pos) => parseAndLoop tokens n (.and left right) pos
    else .ok (left, pos)

def parseAtom (tokens : List String) : Nat → Nat → Except Fault (Node × Nat)
  | 0, _ => .error (.err .outOfFuel)
  | n + 1, pos =>
    let tok := peek tokens pos
    if tok = "" then .error (.err .unexpectedEnd)
    else if tok = "AND" ∨ tok = "OR" then .error (.err (.unexpectedOperator tok))
    else if tok = "(" then
      match consume tokens pos with
      | .error fault => .error fault
      | .ok (_, pos) =>
        match parseOr tokens n pos with
        | .error fault => .error fault
        | .ok (node, pos) =>
          if peek tokens pos ≠ ")" then .error (.err .expectedClose)
          else
            match consume tokens pos with
            | .error fault => .error fault
            | .ok (_, pos) => .ok (node, pos)
    else
      match consume tokens pos with
      | .error fault => .error fault
      | .ok (_, pos) => .ok (leaf tok, pos)

end

/-- `Parse`, with a bound on the depth of its calls. -/
def parse (fuel : Nat) (query : String) : Except Fault (Option Node) :=
  let query := trimSpace query
  if query = "" then .ok none
  else
    let tokens := lex query
    match parseOr tokens fuel 0 with
    | .error fault => .error fault
    | .ok (node, pos) =>
      match tokens[pos]? with
      | some tok => .error (.err (.unexpectedToken tok pos))
      | none => .ok (some node)

/-- A run on positions and one on the tokens that are left end alike. -/
inductive Sim (tokens : List String) : Except Fault (Node × Nat) → ParseResult → Prop
  | err (err : ParseError) : Sim tokens (.error (.err err)) (.error err)
  | ok (node : Node) (pos : Nat) : Sim tokens (.ok (node, pos)) (.ok (node, tokens.drop pos))

variable {tokens : List String}

theorem Sim.inv {run : Except Fault (Node × Nat)} {result : ParseResult}
    (h : Sim tokens run result) :
    (∃ err, run = .error (.err err) ∧ result = .error err) ∨
      ∃ node pos, run = .ok (node, pos) ∧ result = .ok (node, tokens.drop pos) := by
  cases h with
  | err err => exact .inl ⟨err, rfl, rfl⟩
  | ok node pos => exact .inr ⟨node, pos, rfl, rfl⟩

theorem peek_eq {pos : Nat} {t : String} (ht : t ≠ "") :
    peek tokens pos = t ↔ (tokens.drop pos).head? = some t := by
  rw [List.head?_drop, peek]
  cases tokens[pos]? with
  | none => simp [ht.symm]
  | some u => simp

theorem consume_eq {pos : Nat} {t : String} (h : (tokens.drop pos).head? = some t) :
    consume tokens pos = .ok (t, pos + 1) ∧ tokens.drop (pos + 1) = (tokens.drop pos).tail := by
  rw [List.head?_drop] at h
  rw [consume, h, List.tail_drop]
  exact ⟨rfl, rfl⟩

theorem parseOr_sim {n pos : Nat}
    (hand : ∀ pos, Sim tokens (parseAnd tokens n pos) (Query.parseAnd n (tokens.drop pos)))
    (hloop : ∀ left pos, Sim tokens (parseOrLoop tokens n left pos)
      (Query.parseOrLoop n left (tokens.drop pos))) :
    Sim tokens (parseOr tokens (n + 1) pos) (Query.parseOr (n + 1) (tokens.drop pos)) := by
  rw [parseOr, Query.parseOr]
  rcases (hand pos).inv with ⟨err, hrun, hresult⟩ | ⟨left, pos, hrun, hresult⟩
  · rw [hrun, hresult]
    exact .err err
  · rw [hrun, hresult]
    exact hloop left pos

theorem parseOrLoop_sim {n : Nat} {left : Node} {pos : Nat}
    (hand : ∀ pos, Sim tokens (parseAnd tokens n pos) (Query.parseAnd n (tokens.drop pos)))
    (hloop : ∀ left pos, Sim tokens (parseOrLoop tokens n left pos)
      (Query.parseOrLoop n left (tokens.drop pos))) :
    Sim tokens (parseOrLoop tokens (n + 1) left pos)
      (Query.parseOrLoop (n + 1) left (tokens.drop pos)) := by
  rw [parseOrLoop, Query.parseOrLoop]
  by_cases hop : (tokens.drop pos).head? = some "OR"
  · obtain ⟨hconsume, htail⟩ := consume_eq hop
    rw [if_pos ((peek_eq (by decide)).mpr hop), if_pos hop, hconsume, ← htail]
    dsimp only
    rcases (hand (pos + 1)).inv with ⟨err, hrun, hresult⟩ | ⟨right, pos, hrun, hresult⟩
    · rw [hrun, hresult]
      exact .err err
    · rw [hrun, hresult]
      exact hloop (.or left right) pos
  · rw [if_neg (fun h => hop ((peek_eq (by decide)).mp h)), if_neg hop]
    exact .ok left pos

theorem parseAnd_sim {n pos : Nat}
    (hatom : ∀ pos, Sim tokens (parseAtom tokens n pos) (Query.parseAtom n (tokens.drop pos)))
    (hloop : ∀ left pos, Sim tokens (parseAndLoop tokens n left pos)
      (Query.parseAndLoop n left (tokens.drop pos))) :
    Sim tokens (parseAnd tokens (n + 1) pos) (Query.parseAnd (n + 1) (tokens.drop pos)) := by
  rw [parseAnd, Query.parseAnd]
  rcases (hatom pos).inv with ⟨err, hrun, hresult⟩ | ⟨left, pos, hrun, hresult⟩
  · rw [hrun, hresult]
    exact .err err
  · rw [hrun, hresult]
    exact hloop left pos

theorem parseAndLoop_sim {n : Nat} {left : Node} {pos : Nat}
    (hatom : ∀ pos, Sim tokens (parseAtom tokens n pos) (Query.parseAtom n (tokens.drop pos)))
    (hloop : ∀ left pos, Sim tokens (parseAndLoop tokens n left pos)
      (Query.parseAndLoop n left (tokens.drop pos))) :
    Sim tokens (parseAndLoop tokens (n + 1) left pos)
      (Query.parseAndLoop (n + 1) left (tokens.drop pos)) := by
  rw [parseAndLoop, Query.parseAndLoop]
  by_cases hop : (tokens.drop pos).head? = some "AND"
  · obtain ⟨hconsume, htail⟩ := consume_eq hop
    rw [if_pos ((peek_eq (by decide)).mpr hop), if_pos hop, hconsume, ← htail]
    dsimp only
    rcases (hatom (pos + 1)).inv with ⟨err, hrun, hresult⟩ | ⟨right, pos, hrun, hresult⟩
    · rw [hrun, hresult]
      exact .err err
    · rw [hrun, hresult]
      exact hloop (.and left right) pos
  · rw [if_neg (fun h => hop ((peek_eq (by decide)).mp h)), if_neg hop]
    exact .ok left pos

theorem parseAtom_sim (hne : "" ∉ tokens) {n pos : Nat}
    (hor : ∀ pos, Sim tokens (parseOr tokens n pos) (Query.parseOr n (tokens.drop pos))) :
    Sim tokens (parseAtom tokens (n + 1) pos) (Query.parseAtom (n + 1) (tokens.drop pos)) := by
  rw [parseAtom]
  cases hdrop : tokens.drop pos with
  | nil =>
    have hpeek : peek tokens pos = "" := by
      rw [peek, ← List.head?_drop, hdrop]
      rfl
    simp only [hpeek, if_true, Query.parseAtom]
    exact .err _
  | cons tok ts =>
    have hhead : (tokens.drop pos).head? = some tok := by rw [hdrop, List.head?_cons]
    have hmem : tok ∈ tokens := List.mem_of_mem_drop (hdrop ▸ List.mem_cons_self)
    have htok : tok ≠ "" := fun h => hne (h ▸ hmem)
    obtain ⟨hconsume, htail⟩ := consume_eq hhead
    rw [hdrop, List.tail_cons] at htail
    simp only [(peek_eq htok).mpr hhead, if_neg htok, Query.parseAtom, hconsume, ← htail]
    split
    · exact .err _
    · split
      · rcases (hor (pos + 1)).inv with ⟨err, hrun, hresult⟩ | ⟨node, pos, hrun, hresult⟩
        · rw [hrun, hresult]
          exact .err err
        · rw [hrun, hresult]
          dsimp only
          by_cases hclose : (tokens.drop pos).head? = some ")"
          · obtain ⟨hlast, hrest⟩ := consume_eq hclose
            simp only [(peek_eq (by decide)).mpr hclose, hclose, hlast, ← hrest, ne_eq,
              not_true_eq_false, if_false, if_true]
            exact .ok node (pos + 1)
          · have hpeek : peek tokens pos ≠ ")" := fun h => hclose ((peek_eq (by decide)).mp h)
            simp only [hpeek, hclose, ne_eq, not_false_eq_true, if_true, if_false]
            exact .err _
      · exact .ok _ (pos + 1)

/-- The parser never indexes past the tokens, and does what the one on lists does. -/
theorem parse_sim (hne : "" ∉ tokens) (n : Nat) :
    (∀ pos, Sim tokens (parseOr tokens n pos) (Query.parseOr n (tokens.drop pos))) ∧
    (∀ left pos, Sim tokens (parseOrLoop tokens n left pos)
      (Query.parseOrLoop n left (tokens.drop pos))) ∧
    (∀ pos, Sim tokens (parseAnd tokens n pos) (Query.parseAnd n (tokens.drop pos))) ∧
    (∀ left pos, Sim tokens (parseAndLoop tokens n left pos)
      (Query.parseAndLoop n left (tokens.drop pos))) ∧
    ∀ pos, Sim tokens (parseAtom tokens n pos) (Query.parseAtom n (tokens.drop pos)) := by
  induction n with
  | zero =>
    simp only [parseOr, parseOrLoop, parseAnd, parseAndLoop, parseAtom, Query.parseOr,
      Query.parseOrLoop, Query.parseAnd, Query.parseAndLoop, Query.parseAtom]
    exact ⟨fun _ => .err _, fun _ _ => .err _, fun _ => .err _, fun _ _ => .err _, fun _ => .err _⟩
  | succ n ih =>
    obtain ⟨hor, horLoop, hand, handLoop, hatom⟩ := ih
    exact ⟨fun _ => parseOr_sim hand horLoop, fun _ _ => parseOrLoop_sim hand horLoop,
      fun _ => parseAnd_sim hatom handLoop, fun _ _ => parseAndLoop_sim hatom handLoop,
      fun _ => parseAtom_sim hne hor⟩

end Cursor
end LogEngine.Query
