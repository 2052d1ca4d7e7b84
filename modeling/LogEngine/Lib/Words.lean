import Mathlib.Data.List.TakeWhile
import LogEngine.Lib.Strings

namespace LogEngine.Lib

section Runs

variable {α β : Type}

/-- The non-empty runs between the elements satisfying `p`. -/
def runs (p : α → Bool) (cs : List α) : List (List α) :=
  (cs.splitOnP p).filter (fun w => !w.isEmpty)

@[simp] theorem runs_nil (p : α → Bool) : runs p [] = [] := rfl

theorem runs_append_cons {p : α → Bool} {sep : α} (h : p sep = true) (as bs : List α) :
    runs p (as ++ sep :: bs) = runs p as ++ runs p bs := by
  rw [runs, List.splitOnP_append_cons as bs h, List.filter_append]
  rfl

theorem runs_cons {p : α → Bool} {sep : α} (h : p sep = true) (bs : List α) :
    runs p (sep :: bs) = runs p bs :=
  runs_append_cons h [] bs

theorem runs_word {p : α → Bool} {w : List α} (hne : w ≠ []) (h : ∀ c ∈ w, p c = false) :
    runs p w = [w] := by
  rw [runs, List.splitOnP_eq_singleton h]
  simp [hne]

theorem runs_blank_append {p : α → Bool} {as : List α} (h : ∀ c ∈ as, p c = true) (bs : List α) :
    runs p (as ++ bs) = runs p bs := by
  induction as with
  | nil => rfl
  | cons a as ih =>
    rw [List.cons_append, runs_cons (h a List.mem_cons_self),
      ih (fun c hc => h c (List.mem_cons_of_mem _ hc))]

theorem runs_append_blank {p : α → Bool} {bs : List α} (h : ∀ c ∈ bs, p c = true) (as : List α) :
    runs p (as ++ bs) = runs p as := by
  induction bs generalizing as with
  | nil => rw [List.append_nil]
  | cons b bs ih =>
    rw [runs_append_cons (h b List.mem_cons_self)]
    have hblank := ih (fun c hc => h c (List.mem_cons_of_mem _ hc)) []
    rw [List.nil_append, runs_nil] at hblank
    rw [hblank, List.append_nil]

/-- A text is one run to its first separator, or altogether. -/
theorem runs_cases (p : α → Bool) (cs : List α) :
    (∀ c ∈ cs, p c = false) ∨
      ∃ w sep rest, cs = w ++ sep :: rest ∧ p sep = true ∧ ∀ c ∈ w, p c = false := by
  induction cs with
  | nil => exact .inl (by simp)
  | cons c cs ih =>
    by_cases hc : p c = true
    · exact .inr ⟨[], c, cs, rfl, hc, by simp⟩
    · rw [Bool.not_eq_true] at hc
      rcases ih with hall | ⟨w, sep, rest, rfl, hsep, hw⟩
      · exact .inl (List.forall_mem_cons.mpr ⟨hc, hall⟩)
      · exact .inr ⟨c :: w, sep, rest, rfl, hsep, List.forall_mem_cons.mpr ⟨hc, hw⟩⟩

theorem mem_runs {p : α → Bool} {cs w : List α} (h : w ∈ runs p cs) :
    w ≠ [] ∧ ∀ c ∈ w, p c = false := by
  induction hn : cs.length using Nat.strongRecOn generalizing cs with
  | ind n ih =>
    rcases runs_cases p cs with hall | ⟨v, sep, rest, rfl, hsep, hv⟩
    · by_cases hcs : cs = []
      · subst hcs
        simp at h
      · rw [runs_word hcs hall, List.mem_singleton] at h
        exact h ▸ ⟨hcs, hall⟩
    · rw [runs_append_cons hsep, List.mem_append] at h
      rcases h with h | h
      · by_cases hnil : v = []
        · subst hnil
          simp at h
        · rw [runs_word hnil hv, List.mem_singleton] at h
          exact h ▸ ⟨hnil, hv⟩
      · have hlt : rest.length < n := by
          simp only [← hn, List.length_append, List.length_cons]
          omega
        exact ih rest.length hlt h rfl

/-- Mapping first and cutting at more places is cutting each run further. -/
theorem runs_map {p : α → Bool} {q : β → Bool} {f : α → β}
    (hpq : ∀ c, p c = true → q (f c) = true) (cs : List α) :
    runs q (cs.map f) = (runs p cs).flatMap (fun w => runs q (w.map f)) := by
  induction hn : cs.length using Nat.strongRecOn generalizing cs with
  | ind n ih =>
    have hword : ∀ w : List α, (∀ c ∈ w, p c = false) →
        runs q (w.map f) = (runs p w).flatMap (fun w => runs q (w.map f)) := by
      intro w hw
      by_cases hnil : w = []
      · subst hnil
        rfl
      · rw [runs_word hnil hw, List.flatMap_singleton]
    rcases runs_cases p cs with hall | ⟨w, sep, rest, rfl, hsep, hw⟩
    · exact hword cs hall
    · have hlt : rest.length < n := by
        simp only [← hn, List.length_append, List.length_cons]
        omega
      have hrest := ih rest.length hlt rest rfl
      rw [List.map_append, List.map_cons, runs_append_cons (hpq sep hsep), hrest,
        runs_append_cons hsep, List.flatMap_append, hword w hw]

end Runs

theorem pieces_ofList (p : Char → Bool) (cs : List Char) :
    pieces p (String.ofList cs) = (runs p cs).map String.ofList := by
  rw [pieces, String.toList_ofList]
  rfl

theorem pieces_eq (p : Char → Bool) (s : String) :
    pieces p s = (runs p s.toList).map String.ofList := rfl

theorem mem_pieces {p : Char → Bool} {s w : String} (h : w ∈ pieces p s) :
    w ≠ "" ∧ ∀ c ∈ w.toList, p c = false := by
  obtain ⟨cs, hcs, rfl⟩ := List.mem_map.mp h
  rw [ne_eq, ← String.toList_eq_nil_iff, String.toList_ofList]
  exact mem_runs hcs

theorem pieces_word {p : Char → Bool} {w : String} (hne : w ≠ "")
    (h : ∀ c ∈ w.toList, p c = false) : pieces p w = [w] := by
  rw [pieces_eq, runs_word (fun hnil => hne (String.toList_eq_nil_iff.mp hnil)) h,
    List.map_singleton, String.ofList_toList]

theorem dropWhile_split {α : Type} (p : α → Bool) (l : List α) :
    ∃ blank, l = blank ++ l.dropWhile p ∧ ∀ c ∈ blank, p c = true :=
  ⟨l.takeWhile p, List.takeWhile_append_dropWhile.symm, fun _ hc => List.mem_takeWhile_imp hc⟩

/-- What `strings.TrimSpace` cuts off. -/
theorem trimSpace_split (s : String) :
    ∃ before after, s.toList = before ++ (trimSpace s).toList ++ after ∧
      (∀ c ∈ before, isSpace c = true) ∧ ∀ c ∈ after, isSpace c = true := by
  obtain ⟨before, hbefore, hblank⟩ := dropWhile_split isSpace s.toList
  obtain ⟨after, hafter, hblank'⟩ :=
    dropWhile_split isSpace (s.toList.dropWhile isSpace).reverse
  refine ⟨before, after.reverse, ?_, hblank, fun c hc => hblank' c (List.mem_reverse.mp hc)⟩
  have hrest := congrArg List.reverse hafter
  rw [List.reverse_reverse, List.reverse_append] at hrest
  rw [trimSpace, String.toList_ofList, List.append_assoc, ← hrest]
  exact hbefore

end LogEngine.Lib
