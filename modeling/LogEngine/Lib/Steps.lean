import Mathlib.Data.Option.Basic

namespace LogEngine.Lib

variable {σ γ : Type}

/-- Every step of a run is taken in a state in which it may be taken. A step may fail for good. -/
def EachStep (step : σ → γ → Option σ) (ok : σ → γ → Prop) : σ → List γ → Prop
  | _, [] => True
  | s, c :: cs => ok s c ∧ ∀ t ∈ step s c, EachStep step ok t cs

instance EachStep.decidable {step : σ → γ → Option σ} {ok : σ → γ → Prop}
    [∀ s c, Decidable (ok s c)] : (s : σ) → (cs : List γ) → Decidable (EachStep step ok s cs)
  | _, [] => isTrue trivial
  | s, c :: cs => @instDecidableAnd _ _ inferInstance
      (@Option.decidableForallMem _ _ (fun t => EachStep.decidable t cs) (step s c))

/-- What a run of steps never lowers is at the end no lower than at the start. -/
theorem le_foldl {step : σ → γ → σ} {count : σ → Nat} (h : ∀ s c, count s ≤ count (step s c))
    (s : σ) (cs : List γ) : count s ≤ count (cs.foldl step s) := by
  induction cs generalizing s with
  | nil => exact Nat.le_refl _
  | cons c cs ih => exact Nat.le_trans (h s c) (ih (step s c))

/-- Something that each step may drop or bring is there in the end exactly when it was there
or was brought at some point and no step from then on dropped it. -/
theorem present_iff (held keep gain : Nat → Prop)
    (hstep : ∀ k, held (k + 1) ↔ (held k ∧ keep k) ∨ gain k) (n : Nat) :
    held n ↔ ∃ j ≤ n, ((j = 0 ∧ held 0) ∨ ∃ i, j = i + 1 ∧ gain i) ∧
      ∀ k, j ≤ k → k < n → keep k := by
  induction n with
  | zero =>
    constructor
    · intro h
      exact ⟨0, Nat.le_refl 0, .inl ⟨rfl, h⟩, fun k _ hk => absurd hk (Nat.not_lt_zero k)⟩
    · intro hgiven
      obtain ⟨j, hj, hor, _⟩ := hgiven
      rcases hor with ⟨_, h⟩ | ⟨i, hi, _⟩
      · exact h
      · omega
  | succ n ih =>
    rw [hstep n, ih]
    constructor
    · intro hor
      rcases hor with ⟨⟨j, hj, hor, hkeep⟩, hlast⟩ | hgain
      · refine ⟨j, by omega, hor, fun k hjk hk => ?_⟩
        rcases Nat.lt_succ_iff_lt_or_eq.mp hk with hlt | heq
        · exact hkeep k hjk hlt
        · exact heq ▸ hlast
      · exact ⟨n + 1, Nat.le_refl _, .inr ⟨n, rfl, hgain⟩, fun k hjk hk => by omega⟩
    · intro hgiven
      obtain ⟨j, hj, hor, hkeep⟩ := hgiven
      by_cases hjn : j ≤ n
      · exact .inl ⟨⟨j, hjn, hor, fun k hjk hk => hkeep k hjk (by omega)⟩,
          hkeep n hjn (Nat.lt_succ_self n)⟩
      · rcases hor with ⟨hzero, -⟩ | ⟨i, hi, hgain⟩
        · omega
        · have hin : i = n := by omega
          exact .inr (hin ▸ hgain)

end LogEngine.Lib
