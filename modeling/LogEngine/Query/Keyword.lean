import LogEngine.Query.Accepts
import LogEngine.Query.Executor

namespace LogEngine.Query
open Lib

/-- The code points of white space. -/
def spaceCodes : List Nat :=
  [9, 10, 11, 12, 13, 32, 133, 160, 5760, 8192, 8193, 8194, 8195, 8196, 8197, 8198, 8199, 8200,
    8201, 8202, 8232, 8233, 8239, 8287, 12288]

/-- White space has no case and is no word. -/
theorem lowerRune_space {c : Char} (h : isSpace c = true) : isAlnum (lowerRune c) = false := by
  have hmem : c.toNat ∈ spaceCodes := by
    simp only [isSpace, Bool.or_eq_true, Bool.and_eq_true, decide_eq_true_eq, beq_iff_eq] at h
    simp only [spaceCodes, List.mem_cons, List.not_mem_nil, or_false]
    omega
  have hall : ∀ n ∈ spaceCodes, isAlnum (Char.ofNat (mapCode lowerTable n)) = false := by
    decide +kernel
  exact hall c.toNat hmem

/-- The words of a text, by the words between its spaces. -/
theorem tokenize_fields (s : String) : tokenize s = (fields s).flatMap tokenize := by
  have hword : ∀ w : List Char, tokenize (String.ofList w) =
      (runs (fun c => !isAlnum c) (w.map lowerRune)).map String.ofList := by
    intro w
    rw [tokenize, toLower, String.toList_ofList, alnumRuns, pieces_ofList]
  have hruns := runs_map (p := isSpace) (q := fun c => !isAlnum c) (f := lowerRune)
    (fun c hc => by simp only [lowerRune_space hc, Bool.not_false]) s.toList
  rw [tokenize, toLower, alnumRuns, pieces_ofList, hruns, List.map_flatMap, fields,
    pieces_eq, List.flatMap_map]
  simp only [hword]

theorem tokenize_alnum {w t : String} (h : t ∈ tokenize w) : ∀ c ∈ t.toList, isAlnum c = true := by
  intro c hc
  have hkept := (mem_pieces h).2 c hc
  simpa using hkept

/-- A word between spaces is found by its lower case when that is all letters and digits. -/
theorem mem_tokenize_iff {m w : String} (hw : w ∈ fields m) :
    toLower w ∈ tokenize m ↔ ∀ c ∈ w.toList, isAlnum (lowerRune c) = true := by
  have hrunes : (toLower w).toList = w.toList.map lowerRune := String.toList_ofList
  constructor
  · intro h c hc
    refine tokenize_alnum h (lowerRune c) ?_
    rw [hrunes]
    exact List.mem_map_of_mem hc
  · intro h
    rw [tokenize_fields, List.mem_flatMap]
    refine ⟨w, hw, ?_⟩
    have hne : toLower w ≠ "" := by
      rw [ne_eq, ← String.toList_eq_nil_iff, hrunes, List.map_eq_nil_iff,
        String.toList_eq_nil_iff]
      exact (mem_pieces hw).1
    have hword : tokenize w = [toLower w] := by
      refine pieces_word hne fun c hc => ?_
      rw [hrunes] at hc
      obtain ⟨d, hd, rfl⟩ := List.mem_map.mp hc
      rw [h d hd]
      rfl
    rw [hword]
    exact List.mem_singleton_self _

theorem parse_word {w : String} (hne : w ≠ "") (hspace : ∀ c ∈ w.toList, isSpace c = false)
    (hplain : ∀ c ∈ w.toList, c ≠ '(' ∧ c ≠ ')' ∧ c ≠ ':') (hop : w ≠ "AND" ∧ w ≠ "OR") :
    parse w = .ok (some (.term (toLower w))) := by
  have hlex : lex w = [w] := by
    refine lex_word hne fun c hc => ⟨hspace c hc, ?_⟩
    simp [isParen, (hplain c hc).1, (hplain c hc).2.1]
  have hopen : w ≠ "(" := by
    rintro rfl
    exact (hplain '(' (by simp)).1 rfl
  have hcolon : containsRune w ':' = false := by
    rw [containsRune, List.contains_eq_mem, decide_eq_false_iff_not]
    exact fun hc => (hplain ':' hc).2.2 rfl
  have hleaf : leaf w = .term (toLower w) := by
    rw [leaf, hcolon]
    rfl
  have hatom : Atom Operand [w] (leaf w) := .term ⟨hop.1, hop.2, hopen⟩
  exact (parse_ok_iff w _).mpr (.inr ⟨_, rfl, hlex ▸ hleaf ▸ .one (.one hatom)⟩)

/-- Searching for a word of a message finds the message exactly when every rune of the word is
an ASCII letter or digit after lower-casing. -/
theorem keyword_found_iff {m w : String} (hw : w ∈ fields m)
    (hplain : ∀ c ∈ w.toList, c ≠ '(' ∧ c ≠ ')' ∧ c ≠ ':') (hop : w ≠ "AND" ∧ w ≠ "OR") :
    (∃ ast, parse w = .ok ast ∧ ∀ e : LogEntry, e.message = m → matchesNode e ast = true) ↔
      ∀ c ∈ w.toList, isAlnum (lowerRune c) = true := by
  obtain ⟨hne, hspace⟩ := mem_pieces hw
  rw [parse_word hne hspace hplain hop, ← mem_tokenize_iff hw]
  constructor
  · rintro ⟨ast, hast, hall⟩
    cases hast
    have hmatch := hall ⟨"", 0, 0, "", "", "", m, .empty⟩ rfl
    simpa [matchesNode, matchesTree] using hmatch
  · intro h
    refine ⟨_, rfl, fun e he => ?_⟩
    simpa [matchesNode, matchesTree, he] using h

theorem keyword_found_disk :
    ∃ ast, parse "Disk" = .ok ast ∧
      ∀ e : LogEntry, e.message = "Disk full: 99%" → matchesNode e ast = true :=
  (keyword_found_iff (by decide +kernel) (by simp) (by simp)).mpr
    (List.all_eq_true.mp (by decide +kernel))

/-- A hyphenated word of the message is a term that no message has. -/
theorem keyword_misses_hyphen :
    "time-out" ∈ fields "read time-out" ∧
      (parse "time-out").toOption = some (some (.term "time-out")) ∧
      tokenize "read time-out" = ["read", "time", "out"] ∧
      matchesNode ⟨"", 0, 0, "", "", "", "read time-out", .empty⟩ (some (.term "time-out")) =
        false := by
  decide +kernel

end LogEngine.Query
