import LogEngine.Storage.Preserved

namespace LogEngine.Concurrent
open Lib Storage

variable {B : BloomPackage} {P : ProtoPackage} {log : String → List LogEntry}

/-- Where the compactor is when it is inside no merge and no deletion: at rest, at a closed segment
of a merge pass with the run collected so far, or at one of a retention pass. -/
inductive Stage where
  | idle
  | scan (threshold : Int) (run rest : List String)
  | retain (cutoff : Int64) (rest : List String)

/-- The closed segments that a pass still has to do with. -/
def Stage.segments : Stage → List String
  | .idle => []
  | .scan _ run rest => run ++ rest
  | .retain _ rest => rest

/-- `runMergePass` up to its loop. -/
def Stage.merge (s : Store B) (threshold : Int) : Stage :=
  if threshold ≤ 0 then .idle
  else
    let closed := s.manager.listClosedSegments
    if closed.length < 2 then .idle else .scan threshold [] closed

/-- `runRetentionPass` up to its loop. -/
def Stage.retention (s : Store B) (now : Int64) (days : Int) : Stage :=
  if days ≤ 0 then .idle else .retain (retentionCutoff now days) s.manager.listClosedSegments

/-- A node's handlers and its compactor. A handler waits between `AppendWithPath` and `Index.Add`;
`steps` is what the compactor has still to do of the merge or deletion it is in. The last two fields
record which entries were acknowledged, and which were in a segment that retention deletes. -/
structure System (B : BloomPackage) where
  store : Store B
  waiting : List (LogEntry × String)
  steps : List (Step B)
  stage : Stage
  acked : List LogEntry
  deleted : List LogEntry

/-- One step of some goroutine. -/
inductive Action where
  | append (e : LogEntry)
  | add (k : Nat)
  | merge (threshold : Int)
  | retain (now : Int64) (days : Int)
  | compact

/-- A rotation in the action finds a segment number left. -/
def Action.NumberLeft (P : ProtoPackage) (s : Store B) : Action → Prop
  | .append e => SeqLeft P s e
  | .add _ | .merge _ | .retain _ _ | .compact => True

instance (s : Store B) : (action : Action) → Decidable (action.NumberLeft P s)
  | .append e => inferInstanceAs (Decidable (SeqLeft P s e))
  | .add _ | .merge _ | .retain _ _ | .compact => isTrue trivial

namespace System

/-- The node before any handler or pass, with the entries it has stored. -/
def init (s : Store B) (stored : List LogEntry) : System B := ⟨s, [], [], .idle, stored, []⟩

/-- The compactor is between two passes. -/
def resting (σ : System B) : Bool :=
  match σ.steps, σ.stage with
  | [], .idle => true
  | _, _ => false

/-- The compactor goes on by one step, or by one segment of its pass. -/
def compact (P : ProtoPackage) (σ : System B) : System B :=
  match σ.steps with
  | st :: steps => { σ with store := Step.apply σ.store st, steps }
  | [] =>
    match σ.stage with
    | .idle => σ
    | .scan _ run [] => { σ with steps := flush P σ.store noFaults run, stage := .idle }
    | .scan threshold run (path :: rest) =>
      if isSmall σ.store.disk threshold {} path then
        { σ with stage := .scan threshold (run ++ [path]) rest }
      else { σ with steps := flush P σ.store noFaults run, stage := .scan threshold [] rest }
    | .retain _ [] => { σ with stage := .idle }
    | .retain cutoff (path :: rest) =>
      let steps := retainOne P σ.store cutoff path
      { σ with
        steps, stage := .retain cutoff rest
        deleted := σ.deleted ++ if steps.isEmpty then [] else entriesAt P σ.store.disk path }

/-- `writeLocal` in its two halves, and the compactor. An action that cannot happen now changes
nothing. -/
def step (P : ProtoPackage) (σ : System B) : Action → System B
  | .append e =>
    match σ.store.appendWithPath P e with
    | (s, some path) => { σ with store := s, waiting := σ.waiting ++ [(e, path)] }
    | (s, none) => { σ with store := s }
  | .add k =>
    match σ.waiting[k]? with
    | some (e, path) =>
      { σ with
        store := ⟨σ.store.disk, σ.store.manager, σ.store.index.add e path⟩
        waiting := σ.waiting.eraseIdx k, acked := σ.acked ++ [e] }
    | none => σ
  | .merge threshold => if σ.resting then { σ with stage := .merge σ.store threshold } else σ
  | .retain now days => if σ.resting then { σ with stage := .retention σ.store now days } else σ
  | .compact => σ.compact P

def run (P : ProtoPackage) (σ : System B) (actions : List Action) : System B :=
  actions.foldl (step P) σ

/-- All handlers have answered and the compactor is at rest. -/
def finished (σ : System B) : Bool := σ.waiting.isEmpty && σ.resting

/-- The acknowledged entries whose segment retention did not delete. -/
def remaining (σ : System B) : List LogEntry := σ.acked.filter (fun e => e ∉ σ.deleted)

/-- The entries that were stored, acknowledged or not. -/
def appended (σ : System B) : List LogEntry := σ.acked ++ σ.waiting.map Prod.fst

/-- Every rotation of a run finds a segment number left. -/
def NumbersLeft (P : ProtoPackage) : System B → List Action → Prop :=
  EachStep (fun σ action => some (σ.step P action)) (fun σ action => action.NumberLeft P σ.store)

instance (σ : System B) (actions : List Action) : Decidable (σ.NumbersLeft P actions) :=
  EachStep.decidable σ actions

end System

section Alone

/-- The compactor alone does the steps of the block it is in. -/
theorem compact_steps (σ : System B) (steps : List (Step B)) (hsteps : σ.steps = steps) :
    (System.compact P)^[steps.length] σ = { σ with store := σ.store.run steps, steps := [] } := by
  induction steps generalizing σ with
  | nil =>
    cases σ
    subst hsteps
    rfl
  | cons st steps ih =>
    have hone : σ.compact P = { σ with store := Step.apply σ.store st, steps } := by
      simp only [System.compact, hsteps]
    rw [List.length_cons, Function.iterate_succ_apply, hone, ih _ rfl, run_cons]

theorem scan_alone (threshold : Int) (σ : System B) (run rest : List String)
    (hsteps : σ.steps = []) (hstage : σ.stage = .scan threshold run rest) :
    ∃ n, (System.compact P)^[n] σ =
      { σ with
        store := σ.store.run (mergeLoop P threshold noFaults σ.store run rest)
        stage := .idle } := by
  induction rest generalizing σ run with
  | nil =>
    have hone : σ.compact P =
        { σ with steps := flush P σ.store noFaults run, stage := .idle } := by
      simp only [System.compact, hsteps, hstage]
    refine ⟨(flush P σ.store noFaults run).length + 1, ?_⟩
    rw [Function.iterate_succ_apply, hone, compact_steps _ (flush P σ.store noFaults run) rfl,
      hsteps]
    rfl
  | cons path rest ih =>
    simp only [mergeLoop]
    split
    · rename_i hsmall
      have hone : σ.compact P = { σ with stage := .scan threshold (run ++ [path]) rest } := by
        have hsmall' : isSmall σ.store.disk threshold {} path = true := hsmall
        simp only [System.compact, hsteps, hstage, if_pos hsmall']
      obtain ⟨n, hn⟩ := ih { σ with stage := .scan threshold (run ++ [path]) rest } (run ++ [path])
        hsteps rfl
      exact ⟨n + 1, by rw [Function.iterate_succ_apply, hone, hn]⟩
    · rename_i hlarge
      have hone : σ.compact P = { σ with
          steps := flush P σ.store noFaults run, stage := .scan threshold [] rest } := by
        have hlarge' : ¬ isSmall σ.store.disk threshold {} path = true := hlarge
        simp only [System.compact, hsteps, hstage, if_neg hlarge']
      obtain ⟨n, hn⟩ := ih { σ with
        store := σ.store.run (flush P σ.store noFaults run), steps := []
        stage := .scan threshold [] rest } [] rfl rfl
      refine ⟨n + ((flush P σ.store noFaults run).length + 1), ?_⟩
      rw [Function.iterate_add_apply, Function.iterate_succ_apply, hone,
        compact_steps _ (flush P σ.store noFaults run) rfl, hn, run_append, hsteps]

theorem retain_alone (cutoff : Int64) (σ : System B) (rest : List String)
    (hsteps : σ.steps = []) (hstage : σ.stage = .retain cutoff rest) :
    ∃ n gone, (System.compact P)^[n] σ =
      { σ with
        store := σ.store.run (retentionLoop P cutoff σ.store rest)
        stage := .idle, deleted := σ.deleted ++ gone } := by
  induction rest generalizing σ with
  | nil =>
    refine ⟨1, [], ?_⟩
    rw [Function.iterate_one, List.append_nil]
    simp only [System.compact, hsteps, hstage, retentionLoop, run_nil]
  | cons path rest ih =>
    generalize hblock : retainOne P σ.store cutoff path = block
    obtain ⟨lost, hone⟩ : ∃ lost, σ.compact P = { σ with
        steps := block, stage := .retain cutoff rest, deleted := σ.deleted ++ lost } := by
      simp only [System.compact, hsteps, hstage, hblock]
      exact ⟨_, rfl⟩
    obtain ⟨n, gone, hn⟩ := ih { σ with
      store := σ.store.run block, steps := [], stage := .retain cutoff rest
      deleted := σ.deleted ++ lost } rfl rfl
    refine ⟨n + (block.length + 1), lost ++ gone, ?_⟩
    rw [Function.iterate_add_apply, Function.iterate_succ_apply, hone,
      compact_steps _ block rfl, hn, List.append_assoc, hsteps]
    simp only [retentionLoop, hblock, run_append]

theorem run_compacts (σ : System B) (n : Nat) :
    σ.run P (List.replicate n .compact) = (System.compact P)^[n] σ := by
  induction n generalizing σ with
  | zero => rfl
  | succ n ih =>
    rw [List.replicate_succ, Function.iterate_succ_apply]
    exact ih (σ.compact P)

theorem resting_iff {σ : System B} : σ.resting = true ↔ σ.steps = [] ∧ σ.stage = .idle := by
  unfold System.resting
  split <;> simp_all

/-- With no handler in between, a merge pass of the compactor is `runMergePass`. -/
theorem merge_alone {σ : System B} (h : σ.resting = true) (threshold : Int) :
    ∃ n, σ.run P (.merge threshold :: List.replicate n .compact) =
      { σ with store := σ.store.run (runMergePass P σ.store threshold noFaults) } := by
  obtain ⟨hsteps, hstage⟩ := resting_iff.mp h
  have hstart : ∀ n, σ.run P (.merge threshold :: List.replicate n .compact) =
      (System.compact P)^[n] { σ with stage := .merge σ.store threshold } := by
    intro n
    rw [← run_compacts, System.run, List.foldl_cons, System.step, if_pos h]
    rfl
  simp only [hstart, Stage.merge, runMergePass]
  split
  · exact ⟨0, by rw [← hstage]; rfl⟩
  split
  · exact ⟨0, by rw [← hstage]; rfl⟩
  · obtain ⟨n, hn⟩ := scan_alone (P := P) threshold
      { σ with stage := .scan threshold [] σ.store.manager.listClosedSegments } [] _ hsteps rfl
    exact ⟨n, by rw [hn, hstage]⟩

/-- With no handler in between, a retention pass of the compactor is `runRetentionPass`. -/
theorem retention_alone {σ : System B} (h : σ.resting = true) (now : Int64) (days : Int) :
    ∃ n gone, σ.run P (.retain now days :: List.replicate n .compact) =
      { σ with
        store := σ.store.run (runRetentionPass P σ.store now days)
        deleted := σ.deleted ++ gone } := by
  obtain ⟨hsteps, hstage⟩ := resting_iff.mp h
  have hstart : ∀ n, σ.run P (.retain now days :: List.replicate n .compact) =
      (System.compact P)^[n] { σ with stage := .retention σ.store now days } := by
    intro n
    rw [← run_compacts, System.run, List.foldl_cons, System.step, if_pos h]
    rfl
  simp only [hstart, Stage.retention, runRetentionPass]
  split
  · exact ⟨0, [], by rw [← hstage, List.append_nil]; rfl⟩
  · obtain ⟨n, gone, hn⟩ := retain_alone (P := P) (retentionCutoff now days) { σ with
      stage := .retain (retentionCutoff now days) σ.store.manager.listClosedSegments } _ hsteps rfl
    exact ⟨n, gone, by rw [hn, hstage]⟩

end Alone

end LogEngine.Concurrent
