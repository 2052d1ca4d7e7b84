import Mathlib.Algebra.BigOperators.Group.Finset.Basic
import Mathlib.Algebra.BigOperators.Group.Finset.Piecewise
import Mathlib.Algebra.Order.BigOperators.Group.Finset
import Mathlib.Data.List.Basic
import Mathlib.Data.List.Perm.Basic
import Mathlib.Data.Multiset.AddSub

namespace LogEngine.Lib

variable {α β : Type} {f : α → List β}

theorem flatMap_filter_nonempty (f : α → List β) (l : List α) :
    (l.filter (fun a => !(f a).isEmpty)).flatMap f = l.flatMap f := by
  induction l with
  | nil => rfl
  | cons a l ih =>
    rw [List.filter_cons, List.flatMap_cons]
    cases hf : f a with
    | nil => simpa [hf] using ih
    | cons b bs => simp [hf, ih]

/-- Lists without repetitions that contain all keys with values have the same values. -/
theorem flatMap_perm_of_support {l₁ l₂ : List α} (h₁ : l₁.Nodup) (h₂ : l₂.Nodup)
    (hs₁ : ∀ a, a ∉ l₁ → f a = []) (hs₂ : ∀ a, a ∉ l₂ → f a = []) :
    (l₁.flatMap f).Perm (l₂.flatMap f) := by
  rw [← flatMap_filter_nonempty f l₁, ← flatMap_filter_nonempty f l₂]
  refine List.Perm.flatMap_right f ?_
  refine (List.perm_ext_iff_of_nodup (h₁.filter _) (h₂.filter _)).mpr (fun a => ?_)
  have hboth : f a ≠ [] → a ∈ l₁ ∧ a ∈ l₂ := fun hne =>
    ⟨not_imp_comm.mp (hs₁ a) hne, not_imp_comm.mp (hs₂ a) hne⟩
  simp only [List.mem_filter, Bool.not_eq_true', List.isEmpty_eq_false_iff]
  constructor
  · exact fun h => ⟨(hboth h.2).2, h.2⟩
  · exact fun h => ⟨(hboth h.2).1, h.2⟩

/-- A key that gains a value. -/
theorem flatMap_perm_add [DecidableEq α] {l : List α} (hl : l.Nodup) {a : α} (ha : a ∈ l)
    (f : α → List β) (b : β) :
    (l.flatMap (fun x => if x = a then f x ++ [b] else f x)).Perm (b :: l.flatMap f) := by
  induction l with
  | nil => cases ha
  | cons x l ih =>
    obtain ⟨hx, hl⟩ := List.nodup_cons.mp hl
    rw [List.flatMap_cons, List.flatMap_cons]
    by_cases heq : x = a
    · subst heq
      have hrest : l.flatMap (fun y => if y = x then f y ++ [b] else f y) = l.flatMap f :=
        List.flatMap_congr (fun y hy => if_neg (ne_of_mem_of_not_mem hy hx))
      rw [if_pos rfl, hrest, List.append_assoc]
      exact List.perm_middle
    · rw [if_neg heq]
      have hin := (List.mem_cons.mp ha).resolve_left (Ne.symm heq)
      exact ((ih hl hin).append_left _).trans List.perm_middle

theorem coe_concat (l : List α) (a : α) :
    ((l ++ [a] : List α) : Multiset α) = a ::ₘ (l : Multiset α) := by
  rw [Multiset.cons_coe, Multiset.coe_eq_coe]
  exact List.perm_append_singleton a l

/-- A bag is within another if it is so key by key. -/
theorem le_of_keys {κ : Type} [DecidableEq κ] [DecidableEq α] (key : α → κ) {s t : Multiset α}
    (h : ∀ k, s.filter (fun a => key a = k) ≤ t.filter (fun a => key a = k)) : s ≤ t := by
  rw [Multiset.le_iff_count]
  intro a
  have ha := Multiset.count_le_of_le a (h (key a))
  rwa [Multiset.count_filter, Multiset.count_filter, if_pos rfl, if_pos rfl] at ha

/-- What is handed out to keys, to each at most one, is handed out once. -/
theorem sum_countP_le {ι : Type} [Fintype ι] {R : α → ι → Prop} [∀ x j, Decidable (R x j)]
    (hR : ∀ x j k, R x j → R x k → j = k) (f : α → β) (p : β → Bool) (l : List α) :
    ∑ j, (l.filterMap (fun x => if R x j then some (f x) else none)).countP p ≤
      l.countP (fun x => p (f x)) := by
  induction l with
  | nil => simp
  | cons x l ih =>
    have hcons : ∀ j, ((x :: l).filterMap (fun x => if R x j then some (f x) else none)).countP p =
        (l.filterMap (fun x => if R x j then some (f x) else none)).countP p +
          if R x j ∧ p (f x) then 1 else 0 := by
      intro j
      by_cases hj : R x j
      · simp [hj, List.countP_cons]
      · simp [hj]
    have hone : ∑ j, (if R x j ∧ p (f x) then 1 else 0) ≤ if p (f x) then 1 else 0 := by
      rw [← Finset.card_filter]
      split
      · refine Finset.card_le_one.mpr (fun j hj k hk => ?_)
        exact hR x j k (Finset.mem_filter.mp hj).2.1 (Finset.mem_filter.mp hk).2.1
      · simp [*]
    simp only [hcons, Finset.sum_add_distrib, List.countP_cons]
    exact Nat.add_le_add ih hone

end LogEngine.Lib
