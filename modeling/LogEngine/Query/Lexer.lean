import LogEngine.Lib.Words
import LogEngine.Query.Parser

namespace LogEngine.Query
open Lib

def isParen (c : Char) : Bool := c = '(' || c = ')'

/-- A rune after both replacements of `lex`. -/
def pad (c : Char) : List Char := if isParen c then [' ', c, ' '] else [c]

/-- `lex` on the runes of a query. -/
def lexRunes (cs : List Char) : List (List Char) := runs isSpace (cs.flatMap pad)

theorem lex_eq (query : String) : lex query = (lexRunes query.toList).map String.ofList := by
  have hpad : ∀ c : Char, (if c = '(' then " ( ".toList else [c]).flatMap
      (fun d => if d = ')' then " ) ".toList else [d]) = pad c := by
    intro c
    by_cases hopen : c = '('
    · subst hopen
      rfl
    · by_cases hclose : c = ')'
      · subst hclose
        rfl
      · simp [pad, isParen, hopen, hclose]
  simp only [lex, fields, replaceRune, pieces_ofList, String.toList_ofList, List.flatMap_assoc,
    hpad, lexRunes]

theorem isSpace_space : isSpace ' ' = true := by decide +kernel

theorem isSpace_paren {c : Char} (h : isParen c = true) : isSpace c = false := by
  simp only [isParen, Bool.or_eq_true, decide_eq_true_eq] at h
  rcases h with rfl | rfl <;> decide +kernel

theorem isParen_space {c : Char} (h : isSpace c = true) : isParen c = false := by
  by_contra hparen
  rw [isSpace_paren (Bool.not_eq_false _ ▸ hparen)] at h
  cases h

theorem pad_other {c : Char} (h : isParen c = false) : pad c = [c] := if_neg (by simp [h])

theorem flatMap_pad {cs : List Char} (h : ∀ c ∈ cs, isParen c = false) : cs.flatMap pad = cs := by
  induction cs with
  | nil => rfl
  | cons c cs ih =>
    rw [List.flatMap_cons, pad_other (h c List.mem_cons_self),
      ih (fun d hd => h d (List.mem_cons_of_mem _ hd)), List.singleton_append]

theorem lexRunes_append_cons {c : Char} (h : isSpace c = true) (as bs : List Char) :
    lexRunes (as ++ c :: bs) = lexRunes as ++ lexRunes bs := by
  rw [lexRunes, List.flatMap_append, List.flatMap_cons, pad_other (isParen_space h),
    List.singleton_append, runs_append_cons h]
  rfl

/-- A parenthesis is a token of its own wherever it stands. -/
theorem lexRunes_paren {c : Char} (h : isParen c = true) (as bs : List Char) :
    lexRunes (as ++ c :: bs) = lexRunes as ++ [c] :: lexRunes bs := by
  have hpad : pad c = [' ', c, ' '] := if_pos h
  rw [lexRunes, List.flatMap_append, List.flatMap_cons, hpad]
  simp only [List.cons_append, List.nil_append]
  have hone : runs isSpace [c] = [[c]] := runs_word (by simp) (by simpa using isSpace_paren h)
  have hrest := runs_append_cons isSpace_space [c] (bs.flatMap pad)
  rw [hone] at hrest
  rw [runs_append_cons isSpace_space]
  exact congrArg (runs isSpace (as.flatMap pad) ++ ·) hrest

theorem lexRunes_word {w : List Char} (hne : w ≠ [])
    (h : ∀ c ∈ w, isSpace c = false ∧ isParen c = false) : lexRunes w = [w] := by
  rw [lexRunes, flatMap_pad (fun c hc => (h c hc).2), runs_word hne (fun c hc => (h c hc).1)]

theorem lex_word {w : String} (hne : w ≠ "")
    (h : ∀ c ∈ w.toList, isSpace c = false ∧ isParen c = false) : lex w = [w] := by
  rw [lex_eq, lexRunes_word (fun hnil => hne (String.toList_eq_nil_iff.mp hnil)) h,
    List.map_singleton, String.ofList_toList]

/-- No token is empty, so `peek` returns the empty string only at the end. -/
theorem empty_not_mem_lex (query : String) : "" ∉ lex query := fun h => (mem_pieces h).1 rfl

/-- Trimming a query loses no token. -/
theorem lex_trimSpace (query : String) : lex (trimSpace query) = lex query := by
  obtain ⟨before, after, hsplit, hbefore, hafter⟩ := trimSpace_split query
  rw [lex_eq query, hsplit, lex_eq, lexRunes, lexRunes, List.flatMap_append, List.flatMap_append,
    flatMap_pad (fun c hc => isParen_space (hbefore c hc)),
    flatMap_pad (fun c hc => isParen_space (hafter c hc)), runs_append_blank hafter,
    runs_blank_append hbefore]

end LogEngine.Query
