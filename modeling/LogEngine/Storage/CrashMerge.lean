import LogEngine.Storage.Durable
import LogEngine.Storage.Preserved
import LogEngine.Storage.Rotation

namespace LogEngine.Storage
open Lib

variable {B : BloomPackage} {P : ProtoPackage} {log : String → List LogEntry} {s : Store B}

section Reindexed

theorem flush_reindexed (s : Store B) (index : Index) (faults : String → MergeFaults)
    (run : List String) :
    flush P ⟨s.disk, s.manager, index⟩ faults run = flush P s faults run := by
  cases run <;> rfl

theorem mergeLoop_reindexed (s : Store B) (index : Index) (threshold : Int)
    (faults : String → MergeFaults) (run rest : List String) :
    mergeLoop P threshold faults ⟨s.disk, s.manager, index⟩ run rest =
      mergeLoop P threshold faults s run rest := by
  induction rest generalizing s index run with
  | nil => exact flush_reindexed s index faults run
  | cons path rest ih =>
    simp only [mergeLoop, flush_reindexed]
    obtain ⟨index', hindex⟩ := run_reindexed s index (flush P s faults run)
    rw [hindex, ih s, ih (s.run (flush P s faults run))]

/-- Some index knows the log. -/
theorem Logged.reindexed (h : Logged P s log) (hnodup : s.manager.paths.Nodup) :
    ∃ index, Kept P ⟨s.disk, s.manager, index⟩ log := by
  have hnone : Catalogued Index.new (fun _ => []) := ⟨[], Index.new_rep, by simp⟩
  refine ⟨s.manager.paths.foldl (fun i p => i.addAll p (log p)) Index.new, h.congr rfl rfl, hnodup,
    (hnone.addEach s.manager.paths log).congr (fun p e => ?_)⟩
  split
  · rfl
  · rename_i hp
    rw [h.unlisted p hp]

/-- A merge pass keeps the entries, whether or not they are indexed. -/
theorem Logged.mergePass (hP : P.Inverts) (h : Logged P s log) (hnodup : s.manager.paths.Nodup)
    (threshold : Int) (faults : String → MergeFaults) :
    ∃ log', Logged P (s.run (runMergePass P s threshold faults)) log' ∧
      ∀ e, (∃ p, e ∈ log' p) ↔ ∃ p, e ∈ log p := by
  obtain ⟨index, hkept⟩ := h.reindexed hnodup
  obtain ⟨log', hkept', hsame⟩ := hkept.mergePass hP threshold faults
  refine ⟨log', ?_, fun e => ?_⟩
  · have hlogged := hkept'.logged
    obtain ⟨index', hindex⟩ := run_reindexed s index (runMergePass P s threshold faults)
    simp only [runMergePass, mergeLoop_reindexed] at hlogged hindex ⊢
    rw [hindex] at hlogged
    exact hlogged.congr rfl rfl
  · rw [← hkept'.mem_sequence, hsame, hkept.mem_sequence]

end Reindexed

section Cut

/-- As long as the segment files are those of a log, a crash leaves that log. -/
theorem Logged.crashed (h : Logged P s log) {n : UInt64}
    (hlast : s.manager.paths.getLast? = some (segmentName n)) :
    Crashed P s.disk log n [] := by
  obtain ⟨m, -, -, hlast', hmark⟩ := h.active
  rw [hlast, Option.some.injEq] at hlast'
  refine ⟨by rw [hmark, hlast'], ?_, ?_, ?_⟩
  · rw [h.files _ (segmentName_isSeg n), if_pos (List.mem_of_getLast? hlast), List.append_nil]
  · intro p hp _
    rw [h.files p hp]
    split
    · exact .inl rfl
    · rename_i hnot
      exact .inr ⟨rfl, h.unlisted p hnot⟩
  · exact fun p e he => ⟨h.segs p (h.mem_paths he), h.writable p e he⟩

/-- A merge changes the segment files only when it goes through. -/
theorem mergeRun_kinds (s : Store B) (f : MergeFaults) (newPath : String) (olds : List String) :
    (∃ part, ∀ st ∈ mergeRun P s f (newPath :: olds), st ∈ mergeWrite P (tmpPath newPath) part ∨
      (∃ p, st = .indexRemove p) ∨ ∃ e p, st = .indexAdd e p) ∨
    ∃ all, readSegments P s.disk (newPath :: olds) = .ok all ∧
      mergeRun P s f (newPath :: olds) =
        mergeWrite P (tmpPath newPath) all ++ (newPath :: olds).map .indexRemove ++
          .rename (tmpPath newPath) newPath ::
            mergeCommit s.manager.bloomEnabled (!f.writeBloom) newPath olds all := by
  rcases mergeRun_outcome (P := P) s f newPath olds with
    ⟨part, hpart⟩ | ⟨all, hall, -, heq | heq⟩
  · exact .inl ⟨part, fun st hst => .inl (hpart st hst)⟩
  · refine .inl ⟨all, fun st hst => ?_⟩
    rw [heq] at hst
    rcases List.mem_append.mp hst with hst | hst
    · rcases List.mem_append.mp hst with hst | hst
      · exact .inl hst
      · obtain ⟨p, -, rfl⟩ := List.mem_map.mp hst
        exact .inr (.inl ⟨p, rfl⟩)
    · rcases List.mem_cons.mp hst with rfl | hst
      · exact .inl List.mem_cons_self
      · obtain ⟨p, -, hst⟩ := List.mem_flatMap.mp hst
        split at hst
        · cases hst
        · obtain ⟨e, -, rfl⟩ := List.mem_map.mp hst
          exact .inr (.inr ⟨e, p, rfl⟩)
  · exact .inr ⟨all, hall, heq⟩

/-- The log when a merge has been renamed and some of its old segments are gone. -/
def partlyFolded (log : String → List LogEntry) (newPath : String) (olds : List String)
    (gone : String → Bool) : String → List LogEntry :=
  fun p => if p = newPath then (newPath :: olds).flatMap log else if gone p then [] else log p

theorem mem_partlyFolded {newPath : String} {olds : List String} {gone : String → Bool}
    (hgone : ∀ p, ∀ e ∈ log p, gone p = true → p ∈ olds) {e : LogEntry} :
    (∃ p, e ∈ partlyFolded log newPath olds gone p) ↔ ∃ p, e ∈ log p := by
  unfold partlyFolded
  constructor
  · intro h
    obtain ⟨p, hp⟩ := h
    split at hp
    · obtain ⟨q, -, hq⟩ := List.mem_flatMap.mp hp
      exact ⟨q, hq⟩
    · split at hp
      · cases hp
      · exact ⟨p, hp⟩
  · intro h
    obtain ⟨p, hp⟩ := h
    by_cases hin : p ∈ newPath :: olds
    · exact ⟨newPath, by rw [if_pos rfl]; exact List.mem_flatMap.mpr ⟨p, hin, hp⟩⟩
    · obtain ⟨hne, hold⟩ := not_or.mp (List.mem_cons.not.mp hin)
      refine ⟨p, ?_⟩
      rw [if_neg hne, if_neg (fun hg => hold (hgone p e hp hg))]
      exact hp

/-- A merge that is stopped after its rename. -/
theorem Logged.cutCommit (hP : P.Inverts) (h : Logged P s log) {n : UInt64} {newPath : String}
    {olds : List String} {all : List LogEntry}
    (hlisted : ∀ p ∈ newPath :: olds, p ∈ s.manager.paths) (hnew : newPath ∉ olds)
    (hactive : segmentName n ∉ newPath :: olds)
    (hlast : s.manager.paths.getLast? = some (segmentName n))
    (hall : readSegments P s.disk (newPath :: olds) = .ok all) {enabled ok : Bool}
    {post steps : List (Step B)} (hpost : post <+: mergeCommit enabled ok newPath olds all)
    (hsteps : steps = mergeWrite P (tmpPath newPath) all ++ (newPath :: olds).map .indexRemove ++
      .rename (tmpPath newPath) newPath :: post)
    (hmark : (s.run steps).disk.marker = s.disk.marker) :
    ∃ log', Crashed P (s.run steps).disk log' n [] ∧
      ∀ e, (∃ p, e ∈ log' p) ↔ ∃ p, e ∈ log p := by
  have hcontent := (h.read hP hall hlisted).1
  have hcompacts : ∀ st ∈ post, Step.Compacts (newPath :: olds) st := fun st hst =>
    mergeCommit_compacts List.mem_cons_self (fun q hq => List.mem_cons_of_mem _ hq) enabled ok all
      st (hpost.subset hst)
  have hold : ∀ p, IsSeg p → post.any (Step.removes p) = true → p ∈ olds := by
    intro p hp hany
    obtain ⟨st, hst, hremoves⟩ := List.any_eq_true.mp hany
    by_contra hnot
    rw [(mergeCommit_changes hp st (hpost.subset hst)).2 hnot] at hremoves
    cases hremoves
  have hget : ∀ p, IsSeg p → (s.run steps).disk.files.get p =
      if post.any (Step.removes p) then none
      else if p = newPath then some (all.flatMap (record P)) else s.disk.files.get p := by
    intro p hp
    obtain ⟨hmerged, -, hothers⟩ := merged_run (P := P) s newPath olds all
    rw [hsteps, List.append_cons, run_append, unreplaced_get hcompacts hp
      (fun st hst => (mergeCommit_changes hp st (hpost.subset hst)).1)]
    split
    · rfl
    split
    · rename_i heq
      rw [heq, hmerged]
    · rename_i hne
      exact hothers p hp hne
  have hcrashed := h.crashed hlast
  obtain ⟨hne, hnold⟩ := not_or.mp (List.mem_cons.not.mp hactive)
  refine ⟨partlyFolded log newPath olds (fun p => post.any (Step.removes p)),
    ⟨hmark.trans hcrashed.marker, ?_, ?_, ?_⟩, fun e => mem_partlyFolded (fun p x hx hany =>
      hold p (h.segs p (h.mem_paths hx)) hany)⟩
  · have hkept : ¬ post.any (Step.removes (segmentName n)) = true :=
      fun hany => hnold (hold _ (segmentName_isSeg n) hany)
    rw [hget _ (segmentName_isSeg n), if_neg hkept, if_neg hne, hcrashed.active, partlyFolded,
      if_neg hne, if_neg hkept]
  · intro p hp hpn
    rw [hget p hp, partlyFolded]
    by_cases hpnew : p = newPath
    · have hkept : ¬ post.any (Step.removes p) = true := fun hany => hnew (hpnew ▸ hold p hp hany)
      rw [if_neg hkept, if_pos hpnew, if_pos hpnew, hcontent]
      exact .inl rfl
    · rw [if_neg hpnew, if_neg hpnew]
      by_cases hgone : post.any (Step.removes p) = true
      · rw [if_pos hgone, if_pos hgone]
        exact .inr ⟨rfl, rfl⟩
      · rw [if_neg hgone, if_neg hgone]
        exact hcrashed.others p hp hpn
  · intro p e he
    unfold partlyFolded at he
    split at he
    · rename_i heq
      obtain ⟨q, hq, heq'⟩ := List.mem_flatMap.mp he
      exact ⟨heq ▸ h.segs _ (hlisted _ List.mem_cons_self), h.writable q e heq'⟩
    · split at he
      · cases he
      · exact hcrashed.segs p e he

/-- One run of a merge pass, stopped anywhere. -/
theorem Logged.cutRun (hP : P.Inverts) (h : Logged P s log) {n : UInt64}
    (hlast : s.manager.paths.getLast? = some (segmentName n)) {run : List String}
    (hlisted : ∀ p ∈ run, p ∈ s.manager.paths) (hnodup : run.Nodup)
    (hactive : segmentName n ∉ run) (f : MergeFaults) {pre : List (Step B)}
    (hpre : pre <+: mergeRun P s f run) :
    ∃ log', Crashed P (s.run pre).disk log' n [] ∧ ∀ e, (∃ p, e ∈ log' p) ↔ ∃ p, e ∈ log p := by
  cases run with
  | nil =>
    rw [List.prefix_nil.mp hpre]
    exact ⟨log, h.crashed hlast, fun e => Iff.rfl⟩
  | cons newPath olds =>
    have hplain : ∀ (part : List LogEntry) (pre : List (Step B)), (∀ st ∈ pre,
        st ∈ mergeWrite P (tmpPath newPath) part ∨ (∃ p, st = .indexRemove p) ∨
          ∃ e p, st = .indexAdd e p) →
        ∃ log', Crashed P (s.run pre).disk log' n [] ∧
          ∀ e, (∃ p, e ∈ log' p) ↔ ∃ p, e ∈ log p := by
      intro part pre hkinds
      obtain ⟨hlogged, hman⟩ := h.uncommitted hkinds
      exact ⟨log, hlogged.crashed (hman ▸ hlast), fun e => Iff.rfl⟩
    have hmark : (s.run pre).disk.marker = s.disk.marker := compacts_marker (fun st hst =>
      mergeRun_compacts (fun p hp => hp) s f st (hpre.subset hst)) s
    rcases mergeRun_kinds (P := P) s f newPath olds with ⟨part, hkinds⟩ | ⟨all, hall, heq⟩
    · exact hplain part pre (fun st hst => hkinds st (hpre.subset hst))
    rw [heq] at hpre
    have hfront : ∀ st ∈ (mergeWrite P (tmpPath newPath) all ++
        (newPath :: olds).map .indexRemove : List (Step B)),
        st ∈ mergeWrite P (tmpPath newPath) all ∨ (∃ p, st = .indexRemove p) ∨
          ∃ e p, st = .indexAdd e p := by
      intro st hst
      rcases List.mem_append.mp hst with hst | hst
      · exact .inl hst
      · obtain ⟨p, -, rfl⟩ := List.mem_map.mp hst
        exact .inr (.inl ⟨p, rfl⟩)
    rcases prefix_append_cases hpre with hpre | ⟨pre', hpre', hsplit⟩
    · exact hplain all pre (fun st hst => hfront st (hpre.subset hst))
    cases pre' with
    | nil =>
      rw [List.append_nil] at hsplit
      exact hplain all pre (fun st hst => hfront st (hsplit ▸ hst))
    | cons st post =>
      obtain ⟨rfl, hpost⟩ := List.cons_prefix_cons.mp hpre'
      have hnew := (List.nodup_cons.mp hnodup).1
      exact h.cutCommit hP hlisted hnew hactive hlast hall hpost hsplit hmark

theorem Logged.flush (hP : P.Inverts) (h : Logged P s log) (hnodup : s.manager.paths.Nodup)
    {front run back : List String} (hpaths : s.manager.paths = front ++ run ++ back)
    (hback : back ≠ []) (faults : String → MergeFaults) :
    ∃ log' front', Logged P (s.run (Storage.flush P s faults run)) log' ∧
      (s.run (Storage.flush P s faults run)).manager.paths.Nodup ∧
      (s.run (Storage.flush P s faults run)).manager.paths = front' ++ back ∧
      ∀ e, (∃ p, e ∈ log' p) ↔ ∃ p, e ∈ log p := by
  obtain ⟨index, hkept⟩ := h.reindexed hnodup
  obtain ⟨log', front', hkept', hpaths', hsame⟩ := hkept.flush hP hpaths hback faults
  have hmem : ∀ e, (∃ p, e ∈ log' p) ↔ ∃ p, e ∈ log p := by
    intro e
    rw [← hkept'.mem_sequence, hsame, hkept.mem_sequence]
  rw [flush_reindexed] at hkept' hpaths'
  obtain ⟨index', hindex⟩ := run_reindexed s index (Storage.flush P s faults run)
  rw [hindex] at hkept' hpaths'
  exact ⟨log', front', hkept'.logged.congr rfl rfl, hkept'.nodup, hpaths', hmem⟩

theorem Logged.cutFlush (hP : P.Inverts) (h : Logged P s log) (hnodup : s.manager.paths.Nodup)
    {front run rest : List String} {n : UInt64}
    (hpaths : s.manager.paths = front ++ run ++ (rest ++ [segmentName n]))
    (faults : String → MergeFaults) {pre : List (Step B)}
    (hpre : pre <+: Storage.flush P s faults run) :
    ∃ log', Crashed P (s.run pre).disk log' n [] ∧ ∀ e, (∃ p, e ∈ log' p) ↔ ∃ p, e ∈ log p := by
  have hlast : s.manager.paths.getLast? = some (segmentName n) := by
    rw [hpaths, ← List.append_assoc, List.getLast?_concat]
  unfold Storage.flush at hpre
  split at hpre
  · have hlisted : ∀ p ∈ run, p ∈ s.manager.paths := by
      intro p hp
      rw [hpaths]
      exact List.mem_append_left _ (List.mem_append_right _ hp)
    rw [hpaths] at hnodup
    obtain ⟨hleft, -, hright⟩ := List.nodup_append.mp hnodup
    refine h.cutRun hP hlast hlisted (List.nodup_append.mp hleft).2.1 ?_ _ hpre
    exact fun hin => hright _ (List.mem_append_right _ hin) _
      (List.mem_append_right _ (List.mem_singleton_self _)) rfl
  · rw [List.prefix_nil.mp hpre]
    exact ⟨log, h.crashed hlast, fun e => Iff.rfl⟩

/-- The loop of a merge pass, stopped anywhere: the runs before are done, the one it stops in is
not. -/
theorem Logged.cutLoop (hP : P.Inverts) {threshold : Int} {faults : String → MergeFaults}
    (h : Logged P s log) (hnodup : s.manager.paths.Nodup) {front run rest : List String}
    {n : UInt64} (hpaths : s.manager.paths = front ++ run ++ (rest ++ [segmentName n]))
    {pre : List (Step B)}
    (hpre : pre <+: mergeLoop P threshold faults s run rest) :
    ∃ log', Crashed P (s.run pre).disk log' n [] ∧ ∀ e, (∃ p, e ∈ log' p) ↔ ∃ p, e ∈ log p := by
  induction rest generalizing s log front run pre with
  | nil => exact h.cutFlush hP hnodup hpaths faults hpre
  | cons path rest ih =>
    simp only [mergeLoop] at hpre
    split at hpre
    · have hlonger : s.manager.paths = front ++ (run ++ [path]) ++ (rest ++ [segmentName n]) := by
        rw [hpaths]
        simp
      exact ih h hnodup hlonger hpre
    · rcases prefix_append_cases hpre with hpre | ⟨pre', hpre', rfl⟩
      · exact h.cutFlush hP hnodup hpaths faults hpre
      · obtain ⟨log₁, front₁, hlogged, hnodup₁, hpaths₁, hsame₁⟩ :=
          h.flush hP hnodup hpaths (by simp) faults
        have hnext : (s.run (Storage.flush P s faults run)).manager.paths =
            front₁ ++ [path] ++ [] ++ (rest ++ [segmentName n]) := by
          rw [hpaths₁]
          simp
        obtain ⟨log₂, hcrashed, hsame₂⟩ := ih hlogged hnodup₁ hnext hpre'
        rw [run_append]
        exact ⟨log₂, hcrashed, fun e => (hsame₂ e).trans (hsame₁ e)⟩

/-- A merge pass, stopped anywhere, leaves the entries in the directory. -/
theorem Logged.cutPass (hP : P.Inverts) (h : Logged P s log) (hnodup : s.manager.paths.Nodup)
    {n : UInt64} (hlast : s.manager.paths.getLast? = some (segmentName n)) {threshold : Int}
    {faults : String → MergeFaults} {pre : List (Step B)}
    (hpre : pre <+: runMergePass P s threshold faults) :
    ∃ log', Crashed P (s.run pre).disk log' n [] ∧ ∀ e, (∃ p, e ∈ log' p) ↔ ∃ p, e ∈ log p := by
  have hnone : pre <+: [] → ∃ log', Crashed P (s.run pre).disk log' n [] ∧
      ∀ e, (∃ p, e ∈ log' p) ↔ ∃ p, e ∈ log p := by
    intro hnil
    rw [List.prefix_nil.mp hnil]
    exact ⟨log, h.crashed hlast, fun e => Iff.rfl⟩
  simp only [runMergePass] at hpre
  split at hpre
  · exact hnone hpre
  split at hpre
  · exact hnone hpre
  · obtain ⟨closed, hcat⟩ := List.getLast?_eq_some_iff.mp hlast
    have hclosed : s.manager.listClosedSegments = closed := by
      rw [Manager.listClosedSegments, hcat, List.dropLast_concat]
    have hpaths : s.manager.paths = [] ++ [] ++ (closed ++ [segmentName n]) := hcat
    rw [hclosed] at hpre
    exact h.cutLoop hP hnodup hpaths hpre

end Cut

/-- What happens to a directory in which merge passes may be cut short: appends, whole passes, and
passes that stop after some of their steps, with `NewManager` on what they leave. -/
inductive CrashEvent where
  | append (e : LogEntry) (bloomOk : Bool)
  | merge (threshold : Int) (faults : String → MergeFaults)
  | crash (threshold : Int) (faults : String → MergeFaults) (done : Nat) (maxSegmentBytes : Int)
      (bloomEnabled : Bool)

/-- The manager that is opened on the directory of a pass that stops after `done` steps. -/
def crashed (P : ProtoPackage) (s : Store B) (threshold : Int) (faults : String → MergeFaults)
    (done : Nat) (maxSegmentBytes : Int) (bloomEnabled : Bool) : Option (Store B) :=
  newManager B (s.run ((runMergePass P s threshold faults).take done)).disk maxSegmentBytes
    bloomEnabled

namespace CrashEvent

def apply (P : ProtoPackage) (s : Store B) : CrashEvent → Option (Store B)
  | .append e bloomOk => some (s.run (appendLocked P s e bloomOk).1)
  | .merge threshold faults => some (s.run (runMergePass P s threshold faults))
  | .crash threshold faults done maxSegmentBytes bloomEnabled =>
    crashed P s threshold faults done maxSegmentBytes bloomEnabled

def run (P : ProtoPackage) (s : Store B) : List CrashEvent → Option (Store B)
  | [] => some s
  | ev :: evs => (ev.apply P s).bind (fun t => run P t evs)

/-- The entries that are stored: those whose record has a length in 32 bits. -/
def stored (P : ProtoPackage) : CrashEvent → List LogEntry
  | .append e _ => if Writable P e then [e] else []
  | .merge _ _ | .crash _ _ _ _ _ => []

/-- A rotation in the event finds a segment number left. -/
def NumberLeft (P : ProtoPackage) (s : Store B) : CrashEvent → Prop
  | .append e _ => SeqLeft P s e
  | .merge _ _ | .crash _ _ _ _ _ => True

instance (s : Store B) : (ev : CrashEvent) → Decidable (ev.NumberLeft P s)
  | .append e _ => inferInstanceAs (Decidable (SeqLeft P s e))
  | .merge _ _ | .crash _ _ _ _ _ => isTrue trivial

def NumbersLeft (P : ProtoPackage) : Store B → List CrashEvent → Prop :=
  EachStep (fun s (ev : CrashEvent) => ev.apply P s) (fun s ev => ev.NumberLeft P s)

instance (s : Store B) (evs : List CrashEvent) : Decidable (CrashEvent.NumbersLeft P s evs) :=
  EachStep.decidable s evs

end CrashEvent

/-- A manager over a directory with the entries stored in it. -/
structure Stores (P : ProtoPackage) (s : Store B) (stored : List LogEntry) : Prop where
  layout : Layout s
  named : ∀ p ∈ s.manager.paths, ∃ k, p = segmentName k
  logged : ∃ log, Logged P s log ∧ ∀ e, (∃ p, e ∈ log p) ↔ e ∈ stored

section Events

variable {stored : List LogEntry}

/-- The store is read back as a whole exactly when every entry fits. -/
theorem Stores.readAll_iff (hP : P.Inverts) (h : Stores P s stored) :
    (∃ all, s.readAll P = .ok all ∧ ∀ e, e ∈ all ↔ e ∈ stored) ↔ ∀ e ∈ stored, Fits P e := by
  obtain ⟨log, hlogged, hmem⟩ := h.logged
  constructor
  · intro hread e he
    obtain ⟨all, hall, -⟩ := hread
    obtain ⟨p, hp⟩ := (hmem e).mpr he
    exact hlogged.fits hP hall (hlogged.mem_paths hp) e hp
  · intro hfits
    have hfits' : ∀ p, ∀ e ∈ log p, Fits P e := fun p e he => hfits e ((hmem e).mp ⟨p, he⟩)
    refine ⟨_, hlogged.readAll_eq hP hfits', fun e => ?_⟩
    rw [← hmem, List.mem_flatMap]
    constructor
    · intro hin
      obtain ⟨p, -, he⟩ := hin
      exact ⟨p, he⟩
    · intro hin
      obtain ⟨p, he⟩ := hin
      exact ⟨p, hlogged.mem_paths he, he⟩

theorem Stores.append (h : Stores P s stored) {e : LogEntry} (bloomOk : Bool)
    (hseq : SeqLeft P s e) :
    Stores P (s.run (appendLocked P s e bloomOk).1)
      (stored ++ if Writable P e then [e] else []) := by
  obtain ⟨log, hlogged, hmem⟩ := h.logged
  obtain ⟨n, size, hactive, -⟩ := hlogged.active
  refine ⟨h.layout.append bloomOk hseq, fun p hp => ?_, ?_⟩
  · rcases append_paths hactive bloomOk p hp with hp | hp
    · exact h.named p hp
    · exact ⟨_, hp⟩
  · by_cases he : Writable P e
    · obtain ⟨path, hlogged', -, -⟩ := hlogged.append he bloomOk
      refine ⟨_, hlogged', fun x => ?_⟩
      rw [mem_addTo, hmem, if_pos he, List.mem_append, List.mem_singleton]
    · rw [appendLocked_refused hactive he, if_neg he, List.append_nil]
      exact ⟨log, ((rotateIfFull_opened e bloomOk hactive).logged hlogged).1, hmem⟩

theorem Stores.merge (hP : P.Inverts) (h : Stores P s stored) (threshold : Int)
    (faults : String → MergeFaults) :
    Stores P (s.run (runMergePass P s threshold faults)) stored := by
  obtain ⟨log, hlogged, hmem⟩ := h.logged
  have hcompacts := runMergePass_compacts (P := P) s threshold faults
  obtain ⟨log', hlogged', hsame⟩ := hlogged.mergePass hP h.layout.nodup threshold faults
  exact ⟨h.layout.compact hcompacts, fun p hp => h.named p (compacts_paths hcompacts s p hp),
    log', hlogged', fun e => (hsame e).trans (hmem e)⟩

/-- A merge pass that is cut short loses nothing, and the active segment stays active. -/
theorem Stores.crash (hP : P.Inverts) (h : Stores P s stored) (threshold : Int)
    (faults : String → MergeFaults) (done : Nat) (maxSegmentBytes : Int) (bloomEnabled : Bool) :
    ∃ t, crashed P s threshold faults done maxSegmentBytes bloomEnabled = some t ∧
      t.manager.active.map Segment.path = s.manager.active.map Segment.path ∧
      Stores P t stored := by
  obtain ⟨log, hlogged, hmem⟩ := h.logged
  obtain ⟨n, size, hactive, hlast, -⟩ := hlogged.active
  have hpre := List.take_prefix done (runMergePass P s threshold faults)
  obtain ⟨log', hcrashed, hsame⟩ := hlogged.cutPass hP h.layout.nodup hlast hpre
  have hfile : ((s.run ((runMergePass P s threshold faults).take done)).disk.files.get
      (segmentName n)).isSome = true := by
    rw [hcrashed.active]
    rfl
  obtain ⟨t, ht, hmounted⟩ :=
    newManager_marked (B := B) hcrashed.marker hfile maxSegmentBytes bloomEnabled
  obtain ⟨size', hactive'⟩ := hmounted.active
  have hsub : ∀ p, IsSeg p → ((s.run ((runMergePass P s threshold faults).take done)).disk.files.get
      p).isSome = true → p ∈ s.manager.paths := by
    refine run_preserves (I := fun u => ∀ p, IsSeg p → (u.disk.files.get p).isSome = true →
      p ∈ s.manager.paths) ?_ ?_
    · intro u st hst hu p hp hsome
      have hcompacts := runMergePass_compacts s threshold faults st (hpre.subset hst)
      rcases compacts_isSome hcompacts hp hsome with hsome | hclosed
      · exact hu p hp hsome
      · exact List.dropLast_subset _ hclosed
    · intro p hp hsome
      rw [hlogged.files p hp] at hsome
      split at hsome
      · assumption
      · cases hsome
  refine ⟨t, ht, by rw [hactive, hactive']; rfl,
    h.layout.mounted h.named hcrashed.marker hfile hsub ht, ?_, log', hmounted.logged hcrashed,
    fun e => (hsame e).trans (hmem e)⟩
  intro p hp
  obtain ⟨hseg, hsome⟩ := (hmounted.paths p).mp hp
  exact h.named p (hsub p hseg hsome)

theorem Stores.event (hP : P.Inverts) (h : Stores P s stored) {ev : CrashEvent}
    (hleft : ev.NumberLeft P s) :
    ∃ t, ev.apply P s = some t ∧ Stores P t (stored ++ ev.stored P) := by
  cases ev with
  | append e bloomOk => exact ⟨_, rfl, h.append bloomOk hleft⟩
  | merge threshold faults =>
    refine ⟨_, rfl, ?_⟩
    rw [CrashEvent.stored, List.append_nil]
    exact h.merge hP threshold faults
  | crash threshold faults done maxSegmentBytes bloomEnabled =>
    obtain ⟨t, ht, -, hstores⟩ := h.crash hP threshold faults done maxSegmentBytes bloomEnabled
    rw [CrashEvent.stored, List.append_nil]
    exact ⟨t, ht, hstores⟩

/-- However often passes are cut short, the directory keeps what was appended. -/
theorem Stores.run (hP : P.Inverts) {evs : List CrashEvent} (h : Stores P s stored)
    (hleft : CrashEvent.NumbersLeft P s evs) :
    ∃ t, CrashEvent.run P s evs = some t ∧
      Stores P t (stored ++ evs.flatMap (CrashEvent.stored P)) := by
  induction evs generalizing s stored with
  | nil => exact ⟨s, rfl, by simpa using h⟩
  | cons ev evs ih =>
    obtain ⟨hnow, hlater⟩ := hleft
    obtain ⟨u, hu, hstores⟩ := h.event hP hnow
    obtain ⟨t, ht, hstores'⟩ := ih hstores (hlater u hu)
    refine ⟨t, ?_, ?_⟩
    · rw [CrashEvent.run, hu]
      exact ht
    · rw [List.flatMap_cons, ← List.append_assoc]
      exact hstores'

theorem fresh_stores (P : ProtoPackage) (B : BloomPackage) (maxSegmentBytes : Int)
    (bloomEnabled : Bool) : Stores P (fresh B maxSegmentBytes bloomEnabled) [] := by
  obtain ⟨hlayout, hkept, hnamed, -⟩ := fresh_steady P B maxSegmentBytes bloomEnabled
  exact ⟨hlayout, hnamed, _, hkept.logged, by simp⟩

end Events

/-- A merge pass may be cut short after any step, on a directory in which this has happened any
number of times before: the manager opens on what is left with the same segment active, and reads
back exactly the entries appended, precisely when these are not too large to be read. -/
theorem merge_crash_safe_iff (hP : P.Inverts) (B : BloomPackage) (maxSegmentBytes : Int)
    (bloomEnabled : Bool) {evs : List CrashEvent}
    (hleft : CrashEvent.NumbersLeft P (fresh B maxSegmentBytes bloomEnabled) evs) (threshold : Int)
    (faults : String → MergeFaults) (done : Nat) (maxSegmentBytes' : Int) (bloomEnabled' : Bool) :
    ∃ s t, CrashEvent.run P (fresh B maxSegmentBytes bloomEnabled) evs = some s ∧
      crashed P s threshold faults done maxSegmentBytes' bloomEnabled' = some t ∧
      t.manager.active.map Segment.path = s.manager.active.map Segment.path ∧
      ((∃ all, t.readAll P = .ok all ∧ ∀ e, e ∈ all ↔ e ∈ evs.flatMap (CrashEvent.stored P)) ↔
        ∀ e ∈ evs.flatMap (CrashEvent.stored P), Fits P e) := by
  obtain ⟨s, hs, hstores⟩ := (fresh_stores P B maxSegmentBytes bloomEnabled).run hP hleft
  obtain ⟨t, ht, hactive, hstores'⟩ :=
    hstores.crash hP threshold faults done maxSegmentBytes' bloomEnabled'
  exact ⟨s, t, hs, ht, hactive, hstores'.readAll_iff hP⟩

/-- Four lines in segments of one record each; a merge of the first three stops when it has removed
one of the old segments, and one more line is appended. -/
def halfMerged : List CrashEvent :=
  [.append (line "a" "" "orders" "disk full" 1) true,
    .append (line "b" "" "orders" "link down" 2) true,
    .append (line "c" "" "orders" "disk full" 3) true,
    .append (line "d" "" "orders" "link up" 4) true, .crash 1000 noFaults 14 40 false,
    .append (line "e" "" "orders" "disk full" 5) true]

theorem merge_crash_safe_twice :
    ∃ s t : Store exactFilter, CrashEvent.run protobuf (fresh exactFilter 40 false) halfMerged =
        some s ∧
      crashed protobuf s 1000 noFaults 9 40 false = some t ∧
      ∃ all, t.readAll protobuf = .ok all ∧
        ∀ e, e ∈ all ↔ e ∈ halfMerged.flatMap (CrashEvent.stored protobuf) := by
  have hleft : CrashEvent.NumbersLeft protobuf (fresh exactFilter 40 false) halfMerged := by
    decide +kernel
  obtain ⟨s, t, hs, ht, -, hread⟩ :=
    merge_crash_safe_iff protobuf_inverts exactFilter 40 false hleft 1000 noFaults 9 40 false
  exact ⟨s, t, hs, ht, hread.mpr (by decide +kernel)⟩

/-- A line that is stored but too long to be read back. -/
theorem crash_unreadable :
    ∃ s t : Store exactFilter,
      CrashEvent.run protobuf (fresh exactFilter 1000 false) [.append longLine true] = some s ∧
      crashed protobuf s 1000 noFaults 0 1000 false = some t ∧
      longLine ∈ CrashEvent.stored protobuf (.append longLine true) ∧
      ∀ all, t.readAll protobuf ≠ .ok all := by
  obtain ⟨hwritable, hlarge⟩ := longLine_size
  have hleft : CrashEvent.NumbersLeft protobuf (fresh exactFilter 1000 false)
      [.append longLine true] := ⟨fun _ _ _ => by decide +kernel, fun _ _ => trivial⟩
  obtain ⟨s, hs, hstores⟩ :=
    (fresh_stores protobuf exactFilter 1000 false).run protobuf_inverts hleft
  obtain ⟨t, ht, -, hstores'⟩ := hstores.crash protobuf_inverts 1000 noFaults 0 1000 false
  have hmem : longLine ∈ CrashEvent.stored protobuf (.append longLine true) := by
    rw [CrashEvent.stored, if_pos hwritable]
    exact List.mem_singleton_self _
  refine ⟨s, t, hs, ht, hmem, fun all hall => hlarge ?_⟩
  obtain ⟨log, hlogged, hstored⟩ := hstores'.logged
  rw [List.nil_append, List.flatMap_cons, List.flatMap_nil, List.append_nil] at hstored
  obtain ⟨p, hp⟩ := (hstored longLine).mpr hmem
  exact hlogged.fits protobuf_inverts hall (hlogged.mem_paths hp) longLine hp

end LogEngine.Storage
