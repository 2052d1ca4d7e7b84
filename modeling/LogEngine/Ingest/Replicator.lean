import LogEngine.Ingest.Replication
import LogEngine.Packages

namespace LogEngine.Replication
open Lib Storage Ingest

def channelCapacity : Nat := 256

/-- How long a drain goroutine goes on sending once it has noticed the cancellation. -/
def flushTimeout : Int := 2 * 1000000000

/-- Where a drain goroutine is: before it has its client, at the outer select, with a job it got
there, at the inner select, with a job it got there, or returned. -/
inductive Phase where
  | connecting
  | waiting
  | sending (job : ReplicaJob)
  | flushing (deadline : Int)
  | flushSending (deadline : Int) (job : ReplicaJob)
  | returned
  deriving DecidableEq

/-- The job that the goroutine has taken from its channel and not sent yet. -/
def Phase.held : Phase → List ReplicaJob
  | .sending job => [job]
  | .flushSending _ job => [job]
  | _ => []

def Phase.deadline : Phase → Option Int
  | .flushing deadline => some deadline
  | .flushSending deadline _ => some deadline
  | _ => none

/-- The channel of one address with its goroutine, all jobs that `Enqueue` has put into it, and
those that the replica has handled. -/
structure Channel where
  queue : List ReplicaJob
  phase : Phase
  accepted : List ReplicaJob
  delivered : List ReplicaJob
  deriving DecidableEq

def Channel.new : Channel := ⟨[], .connecting, [], []⟩

/-- The send of `Enqueue`, which drops the job when the channel is full. -/
def Channel.offer (c : Channel) (job : ReplicaJob) : Channel :=
  if c.queue.length < channelCapacity then
    { c with queue := c.queue ++ [job], accepted := c.accepted ++ [job] }
  else c

/-- The steps of `drain`: `NewClient`; the two cases of the outer select and the send in the second;
the two cases of the inner select and the send in the first. -/
inductive DrainStep where
  | connect (ok : Bool)
  | notice (now : Int)
  | receive
  | send
  | flush
  | flushSend (now : Int)
  | finish
  deriving DecidableEq

/-- The goroutine after a `send`, which the replica handles if the context is live. -/
def Channel.sent (c : Channel) (phase : Phase) (job : ReplicaJob) (live : Bool) : Channel :=
  { c with phase, delivered := if live then c.delivered ++ [job] else c.delivered }

/-- One step of `drain`, where it can be taken. Both cases of the outer select may be ready. -/
def Channel.drain (cancelled : Bool) (c : Channel) : DrainStep → Option Channel
  | .connect ok =>
    if c.phase = .connecting then some { c with phase := if ok then .waiting else .returned }
    else none
  | .notice now =>
    if c.phase = .waiting ∧ cancelled = true then
      some { c with phase := .flushing (now + flushTimeout) }
    else none
  | .receive =>
    match c.phase, c.queue with
    | .waiting, job :: queue => some { c with queue, phase := .sending job }
    | _, _ => none
  | .send =>
    match c.phase with
    | .sending job => some (c.sent .waiting job !cancelled)
    | _ => none
  | .flush =>
    match c.phase, c.queue with
    | .flushing deadline, job :: queue => some { c with queue, phase := .flushSending deadline job }
    | _, _ => none
  | .flushSend now =>
    match c.phase with
    | .flushSending deadline job => some (c.sent (.flushing deadline) job (decide (now < deadline)))
    | _ => none
  | .finish =>
    match c.phase, c.queue with
    | .flushing _, [] => some { c with phase := .returned }
    | _, _ => none

/-- The client is there; the outer branch sends before the cancellation; the inner one sends before
its deadline. -/
def Channel.Prompt (cancelled : Bool) (c : Channel) : DrainStep → Prop
  | .connect ok => ok = true
  | .send => cancelled = false
  | .flushSend now => ∀ deadline ∈ c.phase.deadline, now < deadline
  | _ => True

instance (cancelled : Bool) (c : Channel) : (step : DrainStep) → Decidable (c.Prompt cancelled step)
  | .connect ok => inferInstanceAs (Decidable (ok = true))
  | .send => inferInstanceAs (Decidable (cancelled = false))
  | .flushSend now =>
    inferInstanceAs (Decidable (∀ deadline ∈ c.phase.deadline, now < deadline))
  | .notice _ => .isTrue trivial
  | .receive => .isTrue trivial
  | .flush => .isTrue trivial
  | .finish => .isTrue trivial

section Channel

variable {cancelled : Bool} {c c' : Channel} {step : DrainStep}

/-- All that a step of `drain` can do. -/
theorem Channel.drain_cases (h : c.drain cancelled step = some c') :
    (∃ ok, step = .connect ok ∧ c.phase = .connecting ∧
      c' = { c with phase := if ok then .waiting else .returned }) ∨
    (∃ now, step = .notice now ∧ c.phase = .waiting ∧ cancelled = true ∧
      c' = { c with phase := .flushing (now + flushTimeout) }) ∨
    (∃ job queue, step = .receive ∧ c.phase = .waiting ∧ c.queue = job :: queue ∧
      c' = { c with queue, phase := .sending job }) ∨
    (∃ job, step = .send ∧ c.phase = .sending job ∧ c' = c.sent .waiting job !cancelled) ∨
    (∃ deadline job queue, step = .flush ∧ c.phase = .flushing deadline ∧
      c.queue = job :: queue ∧ c' = { c with queue, phase := .flushSending deadline job }) ∨
    (∃ now deadline job, step = .flushSend now ∧ c.phase = .flushSending deadline job ∧
      c' = c.sent (.flushing deadline) job (decide (now < deadline))) ∨
    (∃ deadline, step = .finish ∧ c.phase = .flushing deadline ∧ c.queue = [] ∧
      c' = { c with phase := .returned }) := by
  cases step with
  | connect ok =>
    simp only [drain] at h
    split at h
    · exact .inl ⟨ok, rfl, by assumption, (Option.some.inj h).symm⟩
    · cases h
  | notice now =>
    simp only [drain] at h
    split at h
    · rename_i hand
      exact .inr (.inl ⟨now, rfl, hand.1, hand.2, (Option.some.inj h).symm⟩)
    · cases h
  | receive =>
    simp only [drain] at h
    split at h
    · exact .inr (.inr (.inl ⟨_, _, rfl, by assumption, by assumption, (Option.some.inj h).symm⟩))
    · cases h
  | send =>
    simp only [drain] at h
    split at h
    · exact .inr (.inr (.inr (.inl ⟨_, rfl, by assumption, (Option.some.inj h).symm⟩)))
    · cases h
  | flush =>
    simp only [drain] at h
    split at h
    · exact .inr (.inr (.inr (.inr (.inl
        ⟨_, _, _, rfl, by assumption, by assumption, (Option.some.inj h).symm⟩))))
    · cases h
  | flushSend now =>
    simp only [drain] at h
    split at h
    · exact .inr (.inr (.inr (.inr (.inr (.inl
        ⟨now, _, _, rfl, by assumption, (Option.some.inj h).symm⟩)))))
    · cases h
  | finish =>
    simp only [drain] at h
    split at h
    · exact .inr (.inr (.inr (.inr (.inr (.inr
        ⟨_, rfl, by assumption, by assumption, (Option.some.inj h).symm⟩)))))
    · cases h

/-- Nothing is lost so far: what was accepted is delivered, in the goroutine's hands or in the
queue, in this order. -/
structure Channel.Whole (cancelled : Bool) (c : Channel) : Prop where
  all : c.delivered ++ c.phase.held ++ c.queue = c.accepted
  unsent : c.phase = .connecting → c.delivered = []
  drained : c.phase = .returned → c.queue = []
  stays : cancelled = false → c.phase ≠ .returned ∧ c.phase.deadline = none

/-- The jobs that are delivered or can still be. -/
def Channel.left (c : Channel) : Nat :=
  c.delivered.length + c.phase.held.length + (if c.phase = .returned then 0 else c.queue.length)

def Channel.Lossy (c : Channel) : Prop := c.left < c.accepted.length

/-- A prompt step loses nothing. -/
theorem Channel.Whole.prompt (h : c.Whole cancelled) (hstep : c.drain cancelled step = some c')
    (hprompt : c.Prompt cancelled step) : c'.Whole cancelled := by
  obtain ⟨hall, -, -, hstays⟩ := h
  obtain ⟨ok, rfl, hphase, rfl⟩ | ⟨now, rfl, hphase, hcancelled, rfl⟩ |
    ⟨job, queue, rfl, hphase, hqueue, rfl⟩ | ⟨job, rfl, hphase, rfl⟩ |
    ⟨deadline, job, queue, rfl, hphase, hqueue, rfl⟩ | ⟨now, deadline, job, rfl, hphase, rfl⟩ |
    ⟨deadline, rfl, hphase, hqueue, rfl⟩ := drain_cases hstep
  all_goals rw [hphase] at hall hstays
  · cases hprompt
    exact ⟨hall, by simp, by simp, fun _ => ⟨by simp, rfl⟩⟩
  · exact ⟨hall, by simp, by simp, fun hlive => absurd hcancelled (by simp [hlive])⟩
  · rw [hqueue] at hall
    exact ⟨by simpa [Phase.held] using hall, by simp, by simp, fun _ => ⟨by simp, rfl⟩⟩
  · cases hprompt
    exact ⟨by simpa [Phase.held, sent] using hall, by simp [sent], by simp [sent],
      fun _ => ⟨by simp [sent], rfl⟩⟩
  · rw [hqueue] at hall
    exact ⟨by simpa [Phase.held] using hall, by simp, by simp,
      fun hlive => absurd (hstays hlive).2 (by simp [Phase.deadline])⟩
  · have hlive : now < deadline := hprompt deadline (by rw [hphase]; rfl)
    exact ⟨by simpa [Phase.held, sent, hlive] using hall, by simp [sent], by simp [sent],
      fun hlive => absurd (hstays hlive).2 (by simp [Phase.deadline])⟩
  · exact ⟨hall, by simp, fun _ => hqueue,
      fun hlive => absurd (hstays hlive).2 (by simp [Phase.deadline])⟩

/-- Any other step loses a job. -/
theorem Channel.Whole.late (h : c.Whole cancelled) (hsome : c.accepted ≠ [])
    (hstep : c.drain cancelled step = some c') (hlate : ¬ c.Prompt cancelled step) : c'.Lossy := by
  have hlength := congrArg List.length h.all
  have hpos := List.length_pos_of_ne_nil hsome
  obtain ⟨ok, rfl, hphase, rfl⟩ | ⟨now, rfl, -⟩ | ⟨job, queue, rfl, -⟩ | ⟨job, rfl, hphase, rfl⟩ |
    ⟨deadline, job, queue, rfl, -⟩ | ⟨now, deadline, job, rfl, hphase, rfl⟩ |
    ⟨deadline, rfl, -⟩ := drain_cases hstep
  · have hfailed : ok = false := by simpa [Prompt] using hlate
    simp [Lossy, left, hfailed, h.unsent hphase, Phase.held, hpos]
  · exact absurd trivial hlate
  · exact absurd trivial hlate
  · have hcancelled : cancelled = true := by simpa [Prompt] using hlate
    simp only [hphase, Phase.held, List.length_append, List.length_singleton] at hlength
    simp only [Lossy, left, sent, hcancelled, Phase.held, Bool.not_true, Bool.false_eq_true,
      reduceCtorEq, if_false, List.length_nil]
    omega
  · exact absurd trivial hlate
  · have hpassed : ¬ now < deadline := by simpa [Prompt, hphase, Phase.deadline] using hlate
    simp only [hphase, Phase.held, List.length_append, List.length_singleton] at hlength
    simp only [Lossy, left, sent, hpassed, Phase.held, decide_false, Bool.false_eq_true,
      reduceCtorEq, if_false, List.length_nil]
    omega
  · exact absurd trivial hlate

/-- A lost job stays lost. -/
theorem Channel.Lossy.drain (h : c.Lossy) (hstep : c.drain cancelled step = some c') :
    c'.Lossy := by
  simp only [Lossy, left] at h ⊢
  obtain ⟨ok, rfl, hphase, rfl⟩ | ⟨now, rfl, hphase, -, rfl⟩ |
    ⟨job, queue, rfl, hphase, hqueue, rfl⟩ | ⟨job, rfl, hphase, rfl⟩ |
    ⟨deadline, job, queue, rfl, hphase, hqueue, rfl⟩ | ⟨now, deadline, job, rfl, hphase, rfl⟩ |
    ⟨deadline, rfl, hphase, hqueue, rfl⟩ := drain_cases hstep
  · cases ok <;> simp [hphase, Phase.held] at h ⊢ <;> omega
  · simpa [hphase, Phase.held] using h
  · simp only [hphase, hqueue, Phase.held, reduceCtorEq, if_false, List.length_cons,
      List.length_nil] at h ⊢
    omega
  · cases cancelled <;> simp [hphase, Phase.held, sent] at h ⊢ <;> omega
  · simp only [hphase, hqueue, Phase.held, reduceCtorEq, if_false, List.length_cons,
      List.length_nil] at h ⊢
    omega
  · by_cases hlive : now < deadline <;> simp [hphase, Phase.held, sent, hlive] at h ⊢ <;> omega
  · simpa [hphase, hqueue, Phase.held] using h

theorem Channel.Whole.offer (h : c.Whole false) (job : ReplicaJob) : (c.offer job).Whole false := by
  unfold Channel.offer
  split
  · obtain ⟨hall, hunsent, hdrained, hstays⟩ := h
    refine ⟨?_, hunsent, fun hret => absurd hret (hstays rfl).1, hstays⟩
    rw [← hall, ← List.append_assoc]
  · exact h

theorem Channel.Lossy.offer (h : c.Lossy) (job : ReplicaJob) : (c.offer job).Lossy := by
  unfold Channel.offer
  split
  · simp only [Lossy, left] at h ⊢
    split at h
    · rename_i hret
      simp only [hret, if_true, List.length_append, List.length_singleton] at h ⊢
      omega
    · rename_i hret
      simp only [hret, if_false, List.length_append, List.length_singleton] at h ⊢
      omega
  · exact h

end Channel

/-- A call of `Enqueue`, or a step of the drain goroutine of an address. -/
inductive Event where
  | enqueue (job : ReplicaJob)
  | drain (addr : String) (step : DrainStep)

/-- `Replicator`: its channels, and whether its context is cancelled. -/
structure Replicator where
  channels : GoMap String Channel
  cancelled : Bool

namespace Replicator

def new : Replicator := ⟨.empty, false⟩

/-- `getOrCreateChannel`. -/
def channel (r : Replicator) (addr : String) : Channel := (r.channels.get addr).getD .new

/-- One step; a goroutine can only run where it was started, and where its step can be taken. -/
def step (r : Replicator) : Event → Option Replicator
  | .enqueue job =>
    some { r with channels := r.channels.set job.addr ((r.channel job.addr).offer job) }
  | .drain addr step =>
    (r.channels.get addr).bind (fun c => (c.drain r.cancelled step).map
      (fun c' => { r with channels := r.channels.set addr c' }))

def run (r : Replicator) : List Event → Option Replicator
  | [] => some r
  | e :: events => (r.step e).bind (fun r' => r'.run events)

/-- `Stop` up to the return of all goroutines, with the steps that they take in it. -/
def stop (r : Replicator) (steps : List (String × DrainStep)) : Option Replicator :=
  run { r with cancelled := true } (steps.map (fun s => .drain s.1 s.2))

def Returned (r : Replicator) : Prop :=
  ∀ addr c, r.channels.get addr = some c → c.phase = .returned

instance (r : Replicator) : Decidable r.Returned :=
  decidable_of_iff (∀ addr ∈ r.channels.keys, ∀ c ∈ r.channels.get addr, c.phase = .returned)
    ⟨fun h addr c hc => h addr (r.channels.mem_keys_iff.mpr ⟨c, hc⟩) c hc,
      fun h addr _ c hc => h addr c hc⟩

/-- Every replica has handled the accepted jobs, each once and in their order. -/
def Flushed (r : Replicator) : Prop :=
  ∀ addr c, r.channels.get addr = some c → c.delivered = c.accepted

def Prompt (r : Replicator) : Event → Prop
  | .enqueue _ => True
  | .drain addr step => ∀ c ∈ r.channels.get addr, c.Prompt r.cancelled step

instance (r : Replicator) : (e : Event) → Decidable (r.Prompt e)
  | .enqueue _ => .isTrue trivial
  | .drain addr step =>
    inferInstanceAs (Decidable (∀ c ∈ r.channels.get addr, c.Prompt r.cancelled step))

def AllPrompt (r : Replicator) : List Event → Prop
  | [] => True
  | e :: events => r.Prompt e ∧ ∀ r' ∈ r.step e, r'.AllPrompt events

instance AllPrompt.decidable : (r : Replicator) → (events : List Event) →
    Decidable (r.AllPrompt events)
  | _, [] => .isTrue trivial
  | r, e :: events => @instDecidableAnd _ _ inferInstance
      (@Option.decidableForallMem _ _ (fun r' => AllPrompt.decidable r' events) (r.step e))

/-- No channel has lost a job. A channel is made for the first job that it accepts. -/
def Whole (r : Replicator) : Prop :=
  ∀ addr c, r.channels.get addr = some c → c.Whole r.cancelled ∧ c.accepted ≠ []

def Lossy (r : Replicator) : Prop := ∃ addr c, r.channels.get addr = some c ∧ c.Lossy

variable {r r' t : Replicator} {e : Event} {events : List Event}

theorem accepted_offer (c : Channel) (job : ReplicaJob) (h : c.queue = [] ∨ c.accepted ≠ []) :
    (c.offer job).accepted ≠ [] := by
  unfold Channel.offer
  split
  · simp
  · rename_i hfull
    refine h.resolve_left (fun hempty => hfull ?_)
    rw [hempty]
    decide

theorem Whole.enqueue (h : r.Whole) (hlive : r.cancelled = false) (job : ReplicaJob)
    (hstep : r.step (.enqueue job) = some r') : r'.Whole := by
  cases hstep
  intro addr c hc
  simp only [GoMap.get_set] at hc
  split at hc
  · cases hc
    rw [hlive]
    unfold channel
    cases hget : r.channels.get job.addr with
    | none =>
      have hnew : Channel.new.Whole false :=
        ⟨rfl, fun _ => rfl, fun _ => rfl, fun _ => ⟨by decide, rfl⟩⟩
      exact ⟨hnew.offer job, accepted_offer _ job (.inl rfl)⟩
    | some c =>
      obtain ⟨hwhole, hsome⟩ := h _ c hget
      rw [hlive] at hwhole
      exact ⟨hwhole.offer job, accepted_offer _ job (.inr hsome)⟩
  · exact h addr c hc

theorem accepted_drain {cancelled : Bool} {c c' : Channel} {step : DrainStep}
    (h : c.drain cancelled step = some c') : c'.accepted = c.accepted := by
  obtain ⟨ok, rfl, -, rfl⟩ | ⟨now, rfl, -, -, rfl⟩ | ⟨job, queue, rfl, -, -, rfl⟩ |
    ⟨job, rfl, -, rfl⟩ | ⟨deadline, job, queue, rfl, -, -, rfl⟩ |
    ⟨now, deadline, job, rfl, -, rfl⟩ | ⟨deadline, rfl, -, -, rfl⟩ := Channel.drain_cases h <;> rfl

/-- A prompt step of a goroutine loses nothing, any other loses a job. -/
theorem Whole.drain (h : r.Whole) {addr : String} {step : DrainStep}
    (hstep : r.step (.drain addr step) = some r') :
    (r.Prompt (.drain addr step) → r'.Whole) ∧ (¬ r.Prompt (.drain addr step) → r'.Lossy) := by
  obtain ⟨c, hc, hstep⟩ := Option.bind_eq_some_iff.mp hstep
  obtain ⟨c', hc', rfl⟩ := Option.map_eq_some_iff.mp hstep
  obtain ⟨hwhole, hsome⟩ := h addr c hc
  constructor
  · intro hprompt addr' d hd
    simp only [GoMap.get_set] at hd
    split at hd
    · cases hd
      exact ⟨hwhole.prompt hc' (hprompt c hc), accepted_drain hc' ▸ hsome⟩
    · exact h addr' d hd
  · intro hlate
    refine ⟨addr, c', GoMap.get_set_self .., hwhole.late hsome hc' (fun hprompt => hlate ?_)⟩
    intro d hd
    rw [hc] at hd
    cases hd
    exact hprompt

theorem Lossy.step (h : r.Lossy) (hstep : r.step e = some r') : r'.Lossy := by
  obtain ⟨addr, c, hc, hlossy⟩ := h
  cases e with
  | enqueue job =>
    cases hstep
    by_cases heq : addr = job.addr
    · refine ⟨addr, c.offer job, ?_, hlossy.offer job⟩
      simp only [GoMap.get_set, channel, ← heq, hc, Option.getD_some, if_true]
    · exact ⟨addr, c, by simp only [GoMap.get_set, if_neg heq, hc], hlossy⟩
  | drain addr' step =>
    obtain ⟨d, hd, hstep⟩ := Option.bind_eq_some_iff.mp hstep
    obtain ⟨d', hd', rfl⟩ := Option.map_eq_some_iff.mp hstep
    by_cases heq : addr = addr'
    · rw [← heq, hc] at hd
      cases hd
      exact ⟨addr, d', by simp only [GoMap.get_set, if_pos heq], hlossy.drain hd'⟩
    · exact ⟨addr, c, by simp only [GoMap.get_set, if_neg heq, hc], hlossy⟩

theorem Lossy.run (h : r.Lossy) (hrun : r.run events = some t) : t.Lossy := by
  induction events generalizing r with
  | nil =>
    cases hrun
    exact h
  | cons e events ih =>
    obtain ⟨r', hstep, hrun⟩ := Option.bind_eq_some_iff.mp hrun
    exact ih (h.step hstep) hrun

theorem step_cancelled (h : r.step e = some r') : r'.cancelled = r.cancelled := by
  cases e with
  | enqueue job =>
    cases h
    rfl
  | drain addr step =>
    obtain ⟨c, -, h⟩ := Option.bind_eq_some_iff.mp h
    obtain ⟨c', -, rfl⟩ := Option.map_eq_some_iff.mp h
    rfl

/-- Before `Stop`, or without new jobs, a run loses nothing exactly when all its steps are
prompt. -/
theorem Whole.run (h : r.Whole) (hevents : r.cancelled = true → ∀ job, .enqueue job ∉ events)
    (hrun : r.run events = some t) :
    (r.AllPrompt events → t.Whole) ∧ (¬ r.AllPrompt events → t.Lossy) := by
  induction events generalizing r with
  | nil =>
    cases hrun
    exact ⟨fun _ => h, fun hlate => absurd trivial hlate⟩
  | cons e events ih =>
    obtain ⟨r', hstep, hrun⟩ := Option.bind_eq_some_iff.mp hrun
    have hstart : (r.Prompt e → r'.Whole) ∧ (¬ r.Prompt e → r'.Lossy) := by
      cases e with
      | drain addr step => exact h.drain hstep
      | enqueue job =>
        have hlive : r.cancelled = false :=
          Bool.eq_false_iff.mpr (fun hc => hevents hc job List.mem_cons_self)
        exact ⟨fun _ => h.enqueue hlive job hstep, fun hlate => absurd trivial hlate⟩
    have hrest : r.AllPrompt (e :: events) ↔ r.Prompt e ∧ r'.AllPrompt events := by
      simp only [AllPrompt, hstep, Option.mem_def, Option.some.injEq, forall_eq']
    rw [hrest]
    by_cases hprompt : r.Prompt e
    · have hevents' : r'.cancelled = true → ∀ job, .enqueue job ∉ events := by
        intro hc job hmem
        rw [step_cancelled hstep] at hc
        exact hevents hc job (List.mem_cons_of_mem _ hmem)
      rw [and_iff_right hprompt]
      exact ih (hstart.1 hprompt) hevents' hrun
    · exact ⟨fun hand => absurd hand.1 hprompt, fun _ => (hstart.2 hprompt).run hrun⟩

theorem Whole.cancel (h : r.Whole) : Whole { r with cancelled := true } := by
  intro addr c hc
  obtain ⟨⟨hall, hunsent, hdrained, -⟩, hsome⟩ := h addr c hc
  exact ⟨⟨hall, hunsent, hdrained, by simp⟩, hsome⟩

theorem Whole.flushed (h : r.Whole) (hreturned : r.Returned) : r.Flushed := by
  intro addr c hc
  have hall := (h addr c hc).1.all
  rw [hreturned addr c hc, (h addr c hc).1.drained (hreturned addr c hc)] at hall
  simpa [Phase.held] using hall

theorem Lossy.not_flushed (h : r.Lossy) : ¬ r.Flushed := by
  intro hflushed
  obtain ⟨addr, c, hc, hlossy⟩ := h
  rw [Channel.Lossy, Channel.left, hflushed addr c hc] at hlossy
  omega

end Replicator

/-- When `Stop` returns, every accepted job has been delivered, once and in order, exactly when no
connection failed, no job was sent by the outer branch after the cancellation, and none by the
inner branch after its deadline. -/
theorem stop_flushes_iff {before : List Event} {steps : List (String × DrainStep)}
    {r t : Replicator} (hbefore : Replicator.new.run before = some r)
    (hstop : r.stop steps = some t) (hreturned : t.Returned) :
    t.Flushed ↔ Replicator.new.AllPrompt before ∧
      Replicator.AllPrompt { r with cancelled := true } (steps.map (fun s => .drain s.1 s.2)) := by
  have hnew : Replicator.new.Whole := by
    intro addr c hc
    cases hc
  have hcancel : Replicator.Lossy r → t.Lossy := by
    intro hlossy
    exact Replicator.Lossy.run (r := { r with cancelled := true }) hlossy hstop
  obtain ⟨hwhole, hlossy⟩ := hnew.run (fun hc => absurd hc (by decide)) hbefore
  by_cases hearly : Replicator.new.AllPrompt before
  · rw [and_iff_right hearly]
    have hdrain : ∀ job, Event.enqueue job ∉ steps.map (fun s => Event.drain s.1 s.2) := by
      intro job hmem
      obtain ⟨s, -, hs⟩ := List.mem_map.mp hmem
      cases hs
    obtain ⟨hlate, hlate'⟩ := (hwhole hearly).cancel.run (fun _ => hdrain) hstop
    constructor
    · intro hflushed
      by_contra hnot
      exact (hlate' hnot).not_flushed hflushed
    · intro hprompt
      exact (hlate hprompt).flushed hreturned
  · exact iff_of_false (hcancel (hlossy hearly)).not_flushed (fun hand => hearly hand.1)

def sampleJob (id addr : String) : ReplicaJob := ⟨line id "t" "api" "up" 1, 0, addr⟩

/-- Two replicas: one job is sent before `Stop`, the others while it waits. -/
def twoReplicas : List Event :=
  [.enqueue (sampleJob "1" "host-b"), .drain "host-b" (.connect true), .drain "host-b" .receive,
    .enqueue (sampleJob "2" "host-b"), .drain "host-b" .send, .enqueue (sampleJob "3" "host-c")]

def flushBoth : List (String × DrainStep) :=
  [("host-b", .notice 10), ("host-c", .connect true), ("host-b", .flush), ("host-c", .notice 20),
    ("host-b", .flushSend 30), ("host-b", .finish), ("host-c", .flush), ("host-c", .flushSend 40),
    ("host-c", .finish)]

theorem twoReplicas_run : (Replicator.new.run twoReplicas).isSome = true := by decide +kernel

theorem flushBoth_run :
    (((Replicator.new.run twoReplicas).get twoReplicas_run).stop flushBoth).isSome = true := by
  decide +kernel

theorem stop_flushes_both :
    ∃ r t, Replicator.new.run twoReplicas = some r ∧ r.stop flushBoth = some t ∧ t.Flushed := by
  have hbefore := (Option.some_get twoReplicas_run).symm
  have hstop := (Option.some_get flushBoth_run).symm
  refine ⟨_, _, hbefore, hstop, (stop_flushes_iff hbefore hstop ?_).mpr ?_⟩ <;> decide +kernel

/-- The outer select takes the waiting job after the cancellation, and its send fails. -/
theorem stop_loses_job :
    ∃ r t, Replicator.new.run [.enqueue (sampleJob "1" "host-b"),
        .drain "host-b" (.connect true)] = some r ∧
      r.stop [("host-b", .receive), ("host-b", .send), ("host-b", .notice 10),
        ("host-b", .finish)] = some t ∧ t.Returned ∧
      t.channels.get "host-b" = some ⟨[], .returned, [sampleJob "1" "host-b"], []⟩ := by
  refine ⟨_, _, rfl, rfl, ?_, ?_⟩ <;> decide +kernel

end LogEngine.Replication
