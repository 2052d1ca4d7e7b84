import Mathlib.Order.Nat

namespace LogEngine.Lib

variable {α : Type} (next : α → Option α)

/-- The points that a walk along `next` visits, at most `fuel` of them. -/
def walk : Nat → α → List α
  | 0, _ => []
  | fuel + 1, a => a :: match next a with
    | none => []
    | some b => walk fuel b

/-- The walk comes to its end within `fuel` points. -/
def walkEnds : Nat → α → Bool
  | 0, _ => false
  | fuel + 1, a =>
    match next a with
    | none => true
    | some b => walkEnds fuel b

/-- Every step goes down. -/
def Descends (rank : α → Nat) : Prop := ∀ a b, next a = some b → rank b < rank a

variable {next} {rank : α → Nat}

theorem Descends.walk_le (h : Descends next rank) (fuel : Nat) (a : α) :
    ∀ x ∈ walk next fuel a, rank x ≤ rank a := by
  induction fuel generalizing a with
  | zero => simp [walk]
  | succ fuel ih =>
    intro x hx
    rcases List.mem_cons.mp hx with rfl | hx
    · exact Nat.le_refl _
    · cases hb : next a with
      | none => simp [hb] at hx
      | some b =>
        simp only [hb] at hx
        exact (ih b x hx).trans (h a b hb).le

theorem Descends.walk_nodup (h : Descends next rank) (fuel : Nat) (a : α) :
    (walk next fuel a).Nodup := by
  induction fuel generalizing a with
  | zero => exact .nil
  | succ fuel ih =>
    rw [walk, List.nodup_cons]
    cases hb : next a with
    | none => simp
    | some b =>
      refine ⟨?_, ih b⟩
      intro hmem
      exact absurd (h a b hb) (Nat.not_lt.mpr (h.walk_le fuel b a hmem))

theorem Descends.walkEnds (h : Descends next rank) {fuel : Nat} {a : α} (hfuel : rank a < fuel) :
    walkEnds next fuel a = true := by
  induction fuel generalizing a with
  | zero => omega
  | succ fuel ih =>
    rw [Lib.walkEnds]
    cases hb : next a with
    | none => rfl
    | some b =>
      have hlt := h a b hb
      exact ih (by omega)

/-- Where every walk ends, the number of points left is a rank. -/
theorem exists_rank (h : ∀ a, ∃ fuel, walkEnds next fuel a = true) :
    ∃ rank, Descends next rank := by
  refine ⟨fun a => Nat.find (h a), ?_⟩
  intro a b hb
  have hend := Nat.find_spec (h a)
  cases hfuel : Nat.find (h a) with
  | zero =>
    rw [hfuel] at hend
    cases hend
  | succ fuel =>
    rw [hfuel, walkEnds, hb] at hend
    calc Nat.find (h b) ≤ fuel := Nat.find_min' (h b) hend
      _ < Nat.find (h a) := by omega

/-- A walk that can always go on does not end. -/
theorem walkEnds_never (h : ∀ a, (next a).isSome = true) (fuel : Nat) (a : α) :
    walkEnds next fuel a = false := by
  induction fuel generalizing a with
  | zero => rfl
  | succ fuel ih =>
    obtain ⟨b, hb⟩ := Option.isSome_iff_exists.mp (h a)
    rw [walkEnds, hb]
    exact ih b

/-- All walks end and visit no point twice exactly when there is a rank. -/
theorem walks_end_iff :
    (∀ a, (∀ fuel, (walk next fuel a).Nodup) ∧ ∃ fuel, walkEnds next fuel a = true) ↔
      ∃ rank, Descends next rank := by
  constructor
  · intro h
    exact exists_rank (fun a => (h a).2)
  · intro hgiven a
    obtain ⟨rank, h⟩ := hgiven
    exact ⟨fun fuel => h.walk_nodup fuel a, rank a + 1, h.walkEnds (Nat.lt_succ_self _)⟩

end LogEngine.Lib
