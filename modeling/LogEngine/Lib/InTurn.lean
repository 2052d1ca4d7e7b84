import Mathlib.Data.List.Basic

namespace LogEngine.Lib

variable {ω α β : Type}

/-- Asks one after the other until there is an answer: the world afterwards, how many gave no
answer, and the answer. -/
def inTurn (ask : ω → α → ω × Option β) : ω → List α → ω × Nat × Option β
  | w, [] => (w, 0, none)
  | w, a :: as =>
    match (ask w a).2 with
    | some b => ((ask w a).1, 0, some b)
    | none =>
      let rest := inTurn ask (ask w a).1 as
      (rest.1, rest.2.1 + 1, rest.2.2)

variable {ask : ω → α → ω × Option β}

theorem inTurn_answered {w : ω} {a : α} {b : β} (h : (ask w a).2 = some b) (as : List α) :
    inTurn ask w (a :: as) = ((ask w a).1, 0, some b) := by
  simp only [inTurn, h]

theorem inTurn_passed {w : ω} {a : α} (h : (ask w a).2 = none) (as : List α) :
    inTurn ask w (a :: as) = ((inTurn ask (ask w a).1 as).1,
      (inTurn ask (ask w a).1 as).2.1 + 1, (inTurn ask (ask w a).1 as).2.2) := by
  simp only [inTurn, h]

/-- Those who pass and change nothing are all asked. -/
theorem inTurn_nobody {w : ω} {as : List α} (h : ∀ a ∈ as, ask w a = (w, none)) :
    inTurn ask w as = (w, as.length, none) := by
  induction as with
  | nil => rfl
  | cons a as ih =>
    obtain ⟨ha, has⟩ := List.forall_mem_cons.mp h
    rw [inTurn_passed (by rw [ha]), ha, ih has, List.length_cons]

variable (ask) in
/-- One who answers is found, if nobody before them does and the world stays such that they do. -/
theorem inTurn_found {I : ω → Prop} {l : α} {as : List α} [DecidableEq α] {w : ω} (hw : I w)
    (hl : l ∈ as) (hothers : ∀ w a, I w → a ∈ as → a ≠ l → (ask w a).2 = none ∧ I (ask w a).1)
    (hanswers : ∀ w, I w → (ask w l).2 ≠ none) :
    ∃ w', I w' ∧ inTurn ask w as = ((ask w' l).1, as.idxOf l, (ask w' l).2) := by
  induction as generalizing w with
  | nil => cases hl
  | cons a as ih =>
    by_cases heq : a = l
    · subst heq
      obtain ⟨b, hb⟩ := Option.ne_none_iff_exists'.mp (hanswers w hw)
      exact ⟨w, hw, by rw [inTurn_answered hb, List.idxOf_cons_self, hb]⟩
    · obtain ⟨hpass, hnext⟩ := hothers w a hw List.mem_cons_self heq
      have hin : l ∈ as := (List.mem_cons.mp hl).resolve_left (Ne.symm heq)
      obtain ⟨w', hw', hrest⟩ := ih hnext hin
        (fun v x hv hx => hothers v x hv (List.mem_cons_of_mem _ hx))
      refine ⟨w', hw', ?_⟩
      rw [inTurn_passed hpass, hrest, List.idxOf_cons_ne _ heq]

end LogEngine.Lib
