import LogEngine.Lib.Steps

namespace LogEngine.Lib

variable {σ τ γ ρ : Type} {step : σ → γ → Option (σ × ρ)} {ok : σ → γ → Prop}
  {spec : τ → γ → ρ → τ → Prop}

/-- The replies of a machine to a list of calls. A call may stop it for good. -/
def replies (step : σ → γ → Option (σ × ρ)) : σ → List γ → Option (σ × List ρ)
  | s, [] => some (s, [])
  | s, c :: cs => (step s c).bind (fun x =>
      (replies step x.1 cs).map (fun y => (y.1, x.2 :: y.2)))

/-- Every call is made in a state in which it may be made. -/
def Guarded (step : σ → γ → Option (σ × ρ)) (ok : σ → γ → Prop) : σ → List γ → Prop :=
  EachStep (fun s c => (step s c).map Prod.fst) ok

instance [∀ s c, Decidable (ok s c)] (s : σ) (cs : List γ) : Decidable (Guarded step ok s cs) :=
  EachStep.decidable s cs

/-- The replies to a list of calls that a specification allows. -/
inductive Allows (spec : τ → γ → ρ → τ → Prop) : τ → List γ → List ρ → τ → Prop
  | nil (t : τ) : Allows spec t [] [] t
  | cons {t u v : τ} {c : γ} {r : ρ} {cs : List γ} {rs : List ρ} :
      spec t c r u → Allows spec u cs rs v → Allows spec t (c :: cs) (r :: rs) v

/-- A machine that follows its specification through a relation of their states: it answers each
call that may be made, with a reply that the specification allows. -/
def Simulates (step : σ → γ → Option (σ × ρ)) (ok : σ → γ → Prop)
    (spec : τ → γ → ρ → τ → Prop) (R : σ → τ → Prop) : Prop :=
  ∀ s t c, R s t → ok s c → ∃ s' r t', step s c = some (s', r) ∧ spec t c r t' ∧ R s' t'

theorem Simulates.replies {R : σ → τ → Prop} (h : Simulates step ok spec R) {s : σ} {t : τ}
    {cs : List γ} (hst : R s t) (hok : Guarded step ok s cs) :
    ∃ s' rs t', replies step s cs = some (s', rs) ∧ Allows spec t cs rs t' ∧ R s' t' := by
  induction cs generalizing s t with
  | nil => exact ⟨s, [], t, rfl, .nil t, hst⟩
  | cons c cs ih =>
    obtain ⟨u, r, v, hstep, hspec, hrel⟩ := h s t c hst hok.1
    have hnext := hok.2 u (congrArg (Option.map Prod.fst) hstep)
    obtain ⟨s', rs, t', hrun, hallows, hend⟩ := ih hrel hnext
    refine ⟨s', r :: rs, t', ?_, .cons hspec hallows, hend⟩
    rw [Lib.replies, hstep, Option.bind_some, hrun, Option.map_some]

/-- A condition on the calls themselves may be added to the guard. -/
theorem Guarded.and {p : γ → Prop} {s : σ} {cs : List γ} (h : Guarded step ok s cs)
    (hp : ∀ c ∈ cs, p c) : Guarded step (fun s c => ok s c ∧ p c) s cs := by
  induction cs generalizing s with
  | nil => trivial
  | cons c cs ih =>
    obtain ⟨hc, hcs⟩ := List.forall_mem_cons.mp hp
    exact ⟨⟨h.1, hc⟩, fun x hx => ih (h.2 x hx) hcs⟩

end LogEngine.Lib
