import Mathlib.Data.List.Basic

namespace LogEngine.Lib

variable {α β ε : Type}

theorem mapM_ok {l : List α} {f : α → Except ε β} {g : α → β}
    (h : ∀ a ∈ l, f a = .ok (g a)) : l.mapM f = .ok (l.map g) := by
  induction l with
  | nil => rfl
  | cons a l ih =>
    obtain ⟨ha, hl⟩ := List.forall_mem_cons.mp h
    rw [List.mapM_cons, ha, ih hl]
    rfl

theorem mapM_error {l : List α} {f : α → Except ε β} {a : α} (ha : a ∈ l)
    (h : ∃ err, f a = .error err) : ∃ err, l.mapM f = .error err := by
  induction l with
  | nil => cases ha
  | cons b l ih =>
    rw [List.mapM_cons]
    cases hb : f b with
    | error err => exact ⟨err, rfl⟩
    | ok y =>
      rcases List.mem_cons.mp ha with rfl | ha
      · obtain ⟨err, herr⟩ := h
        rw [hb] at herr
        cases herr
      · obtain ⟨err, herr⟩ := ih ha
        rw [herr]
        exact ⟨err, rfl⟩

theorem map_set_same {f : α → β} {l : List α} {k : Nat} {a b : α} (h : l[k]? = some a)
    (hf : f b = f a) : (l.set k b).map f = l.map f := by
  obtain ⟨hlt, hget⟩ := List.getElem?_eq_some_iff.mp h
  have hmap : k < (l.map f).length := by simpa using hlt
  have hself : f b = (l.map f)[k] := by rw [List.getElem_map, hget, hf]
  rw [List.map_set, hself, List.set_getElem_self]

/-- A relation that holds between any two different elements of a list holds along the list
exactly when those that occur twice are in it with themselves. -/
theorem pairwise_iff_twice [DecidableEq α] {R : α → α → Prop} {l : List α}
    (hne : ∀ a ∈ l, ∀ b ∈ l, a ≠ b → R a b) :
    l.Pairwise R ↔ ∀ a, 2 ≤ l.count a → R a a := by
  induction l with
  | nil => simp
  | cons x l ih =>
    have hne' : ∀ a ∈ l, ∀ b ∈ l, a ≠ b → R a b :=
      fun a ha b hb => hne a (List.mem_cons_of_mem _ ha) b (List.mem_cons_of_mem _ hb)
    rw [List.pairwise_cons, ih hne']
    constructor
    · intro hgiven a ha
      obtain ⟨hx, hl⟩ := hgiven
      by_cases hax : a = x
      · subst hax
        rw [List.count_cons_self] at ha
        exact hx a (List.count_pos_iff.mp (by omega))
      · rw [List.count_cons_of_ne (Ne.symm hax)] at ha
        exact hl a ha
    · intro hgiven
      refine ⟨fun b hb => ?_, fun a ha => hgiven a (Nat.le_trans ha List.count_le_count_cons)⟩
      by_cases hxb : x = b
      · subst hxb
        refine hgiven x ?_
        have := List.count_pos_iff.mpr hb
        rw [List.count_cons_self]
        omega
      · exact hne x List.mem_cons_self b (List.mem_cons_of_mem _ hb) hxb

end LogEngine.Lib
