import LogEngine.Storage.Preserved
import LogEngine.Storage.Retention
import LogEngine.Storage.Stale

namespace LogEngine.Storage
open Lib

variable {B : BloomPackage} {P : ProtoPackage} {a : String} {log : String → List LogEntry}
  {s : Store B}

section Merge

variable {newPath : String} {olds : List String} {all : List LogEntry}

/-- With filters on, the last section of a merge drops the filter of the merged segment and loads
the sidecar in its place. -/
theorem finishMerge_reloads {u : Store B} (hon : u.manager.bloomEnabled = true) {p : String}
    {bf : B.Filter} (h : (u.finishMerge newPath olds).manager.blooms.get p = some bf) :
    p = newPath ∧ readBloom B u.disk newPath = some bf ∨
      p ≠ newPath ∧ p ∉ olds ∧ u.manager.blooms.get p = some bf := by
  have hdelete := GoMap.get_delete (olds.foldl GoMap.delete u.manager.blooms) newPath p
  rw [foldl_delete_get] at hdelete
  simp only [Store.finishMerge, hon, if_true, Manager.loadBloom] at h
  have hkept : (olds.foldl GoMap.delete u.manager.blooms |>.delete newPath).get p = some bf →
      p ≠ newPath ∧ p ∉ olds ∧ u.manager.blooms.get p = some bf := by
    intro hget
    rw [hdelete] at hget
    by_cases heq : p = newPath
    · simp [heq] at hget
    · by_cases hold : p ∈ olds
      · simp [hold] at hget
      · exact ⟨heq, hold, by simpa [heq, hold] using hget⟩
  split at h
  · rename_i bf' hread
    rw [GoMap.get_set] at h
    split at h
    · rename_i heq
      exact .inl ⟨heq, hread.trans h⟩
    · exact .inr (hkept h)
  · exact .inr (hkept h)

/-- The last section of a merge whose sidecar covers the merged segment. The filter of the old
segment may be stale until then. -/
theorem Filters.finished (hs : Filters P a s) {u : Store B} (hon : s.manager.bloomEnabled = true)
    (hman : u.manager = s.manager)
    (hothers : ∀ p, IsSeg p → p ≠ newPath → u.disk.files.get p = s.disk.files.get p ∧
      u.disk.files.get (bloomPath p) = s.disk.files.get (bloomPath p))
    (hcovered : Covered B P u.disk newPath) (hseg : IsSeg newPath) (hopen : newPath ≠ a)
    (hlisted : newPath ∈ s.manager.paths) (hnot : newPath ∉ olds) :
    Filters P a (u.finishMerge newPath olds) := by
  obtain ⟨hdisk, hpaths, -, -⟩ := finishMerge_layout u newPath olds
  rw [hman] at hpaths
  have hcases : ∀ p bf, (u.finishMerge newPath olds).manager.blooms.get p = some bf →
      p = newPath ∧ readBloom B u.disk newPath = some bf ∨
        p ≠ newPath ∧ p ∉ olds ∧ s.manager.blooms.get p = some bf := by
    intro p bf hbf
    rw [← hman]
    exact finishMerge_reloads (by rw [hman, hon]) hbf
  refine ⟨?_, ?_, ?_, ?_, ?_⟩
  · intro p bf hbf
    rw [hdisk]
    rcases hcases p bf hbf with ⟨heq, hread⟩ | ⟨hne, -, hold⟩
    · exact heq ▸ ⟨hseg, hcovered bf hread⟩
    · obtain ⟨hp, hcovers⟩ := hs.memory p bf hold
      exact ⟨hp, by rwa [entriesAt_congr (hothers p hp hne).1]⟩
  · intro p bf hbf
    rw [hpaths, List.mem_filter, decide_eq_true_eq]
    rcases hcases p bf hbf with ⟨heq, -⟩ | ⟨-, hold, hin⟩
    · exact heq ▸ ⟨hlisted, hnot⟩
    · exact ⟨hs.listed p bf hin, hold⟩
  · intro p bf _
    rw [finishMerge_enabled, hman, hon]
  · rw [Option.eq_none_iff_forall_ne_some]
    intro bf hbf
    rcases hcases a bf hbf with ⟨heq, -⟩ | ⟨-, -, hold⟩
    · exact hopen heq.symm
    · rw [hs.idle] at hold
      cases hold
  · intro p hp hne
    rw [hdisk]
    by_cases heq : p = newPath
    · exact heq ▸ hcovered
    · exact (hs.sidecars p hp hne).congr (hothers p hp heq).1 (hothers p hp heq).2

/-- The sidecar that a merge leaves covers the merged entries. -/
theorem mergeBloom_covered (hP : P.Inverts) (hB : B.Sound) (hB' : B.RoundTrips) {t : Store B}
    (hseg : IsSeg newPath) (hall : ∀ e ∈ all, Writable P e)
    (hfile : t.disk.files.get newPath = some (all.flatMap (record P))) :
    Covered B P (t.run (if true = true ∧ all.flatMap tokenizeEntry ≠ [] then
      writeBloom newPath (bloomOf B all) true else [])).disk newPath := by
  intro bf hbf
  have hcovers : Covers bf all := by
    by_cases htokens : all.flatMap tokenizeEntry = []
    · intro tok htok
      rw [segmentTokens, htokens] at htok
      cases htok
    · rw [if_pos ⟨rfl, htokens⟩, writeBloom_read hB'] at hbf
      cases hbf
      exact bloomOf_covers hB all
  refine hcovers.subset (mem_of_records hP hall ?_)
  split
  · rw [writeBloom_segs hseg, hfile]
  · exact hfile

/-- What a merge does to the segments other than the first of its run, up to its last section. -/
theorem mergeBloom_others (t : Store B) (all : List LogEntry) (hseg : IsSeg newPath) {p : String}
    (hp : IsSeg p) (hne : p ≠ newPath) (c : Prop) [Decidable c] :
    (t.run (if c then writeBloom newPath (bloomOf B all) true else [])).disk.files.get p =
        t.disk.files.get p ∧
      (t.run (if c then writeBloom newPath (bloomOf B all) true else [])).disk.files.get
        (bloomPath p) = t.disk.files.get (bloomPath p) := by
  split
  · refine ⟨writeBloom_segs hp, run_get t (fun st hst => ?_)⟩
    have htmp := (tmpPath_touch hp (.inr rfl : tmpPath (bloomPath newPath) = tmpPath newPath ∨ _)).2
    have hbloom : bloomPath p ≠ bloomPath newPath := fun h => hne (bloomPath_inj hp hseg h)
    simp only [writeBloom, if_true, List.mem_cons, List.not_mem_nil, or_false] at hst
    rcases hst with rfl | rfl | rfl <;> simp [Step.touches, htmp, hbloom]
  · exact ⟨rfl, rfl⟩

/-- A merge up to the rename touches no sidecar. -/
theorem merged_sidecars (s : Store B) (newPath : String) (olds : List String)
    (all : List LogEntry) (hseg : IsSeg newPath) {p : String} (hp : IsSeg p) :
    (s.run (mergeWrite P (tmpPath newPath) all ++ (newPath :: olds).map .indexRemove ++
      [.rename (tmpPath newPath) newPath])).disk.files.get (bloomPath p) =
        s.disk.files.get (bloomPath p) := by
  have htmp := (tmpPath_touch (q := newPath) hp (.inl rfl)).2
  have hbloom : bloomPath p ≠ newPath := fun h => bloomPath_not_seg p (h ▸ hseg)
  refine run_get s (fun st hst => ?_)
  rw [List.mem_append, List.mem_append] at hst
  rcases hst with (hst | hst) | hst
  · exact (mergeWrite_keeps _ all st hst).2 _ htmp
  · obtain ⟨q, -, rfl⟩ := List.mem_map.mp hst
    simp [Step.touches]
  · rw [List.mem_singleton.mp hst]
    simp [Step.touches, htmp, hbloom]

theorem Filters.removes (hs : Filters P a s) (hsegs : ∀ q ∈ olds, IsSeg q) :
    Filters P a (s.run (olds.flatMap (fun op => [.remove op, .remove (bloomPath op)]))) := by
  induction olds generalizing s with
  | nil => exact hs
  | cons op olds ih =>
    obtain ⟨hop, hrest⟩ := List.forall_mem_cons.mp hsegs
    exact ih ((hs.remove hop (.inl rfl)).remove hop (.inr (.inl rfl))) hrest

/-- A merge that goes through leaves filters that cover their segments, if it can write its
sidecar. -/
theorem Filters.committed (hP : P.Inverts) (hB : B.Sound) (hB' : B.RoundTrips)
    (hs : Filters P a s) (hon : s.manager.bloomEnabled = true)
    (hrun : ∀ p ∈ newPath :: olds, IsSeg p) (hnot : newPath ∉ olds) (hopen : newPath ≠ a)
    (hlisted : newPath ∈ s.manager.paths) (hall : ∀ e ∈ all, Writable P e) :
    Filters P a (s.run (mergeWrite P (tmpPath newPath) all ++
      (newPath :: olds).map .indexRemove ++ .rename (tmpPath newPath) newPath ::
        mergeCommit true true newPath olds all)) := by
  obtain ⟨hseg, hsegs⟩ := List.forall_mem_cons.mp hrun
  obtain ⟨hfile, hman, hothers⟩ := merged_run (P := P) s newPath olds all
  have hsidecars := fun p hp => @merged_sidecars B P s newPath olds all hseg p hp
  rw [List.append_cons, run_append, mergeCommit, run_append, run_append, run_append, run_cons,
    run_nil]
  refine Filters.removes ?_ hsegs
  generalize s.run (mergeWrite P (tmpPath newPath) all ++ (newPath :: olds).map .indexRemove ++
    [.rename (tmpPath newPath) newPath]) = t at *
  have hcovered := mergeBloom_covered hP hB hB' hseg hall hfile
  have hkept := fun p hp hne => mergeBloom_others t all (p := p) hseg hp hne
    (true = true ∧ all.flatMap tokenizeEntry ≠ [])
  have hbloom : ∀ st ∈ (if true = true ∧ all.flatMap tokenizeEntry ≠ [] then
      writeBloom newPath (bloomOf B all) true else []), Step.keepsManager st = true := by
    intro st hst
    split at hst
    · exact (writeBloom_keeps newPath _ true st hst).1
    · cases hst
  have hmanager := run_manager t hbloom
  generalize t.run (if true = true ∧ all.flatMap tokenizeEntry ≠ [] then
    writeBloom newPath (bloomOf B all) true else []) = u at *
  have hindex : ∀ st ∈ all.map (fun e => (Step.indexAdd e newPath : Step B)),
      st.keepsManager = true ∧ st.touches = [] := by
    intro st hst
    obtain ⟨e, -, rfl⟩ := List.mem_map.mp hst
    exact ⟨rfl, rfl⟩
  have hget : ∀ q, (u.run (all.map (fun e => .indexAdd e newPath))).disk.files.get q =
      u.disk.files.get q := fun q => run_get u (fun st hst => by simp [(hindex st hst).2])
  refine hs.finished hon ?_ ?_ ?_ hseg hopen hlisted hnot
  · rw [run_manager u (fun st hst => (hindex st hst).1), hmanager, hman]
  · intro p hp hne
    rw [hget, hget, (hkept p hp hne).1, (hkept p hp hne).2]
    exact ⟨hothers p hp hne, hsidecars p hp⟩
  · exact hcovered.congr (hget newPath) (hget _)

/-- A merge that gives up changes no segment and no filter. -/
theorem Filters.plain (hs : Filters P a s) {steps : List (Step B)} {closed : List String}
    (hopen : a ∉ closed) (hseg : ∀ q ∈ closed, IsSeg q)
    (hsteps : ∀ st ∈ steps, Step.Compacts closed st)
    (hplain : ∀ st ∈ steps, Step.plain st = true) : Filters P a (s.run steps) := by
  have hcompacts : Along (fun (_ : Store B) st => Step.Compacts closed st) s steps :=
    .of_forall (fun _ st hst => hsteps st hst)
  refine Along.preserves (I := fun t => Filters P a t) ?_ hs
    (hcompacts.and ((built_of_plain (P := P) hplain).and (mergeSafe_of_plain (P := P) hplain)))
  intro t st ht hnext
  obtain ⟨hst, hbuilt, hsafe⟩ := hnext
  exact ht.compact_step hopen hseg hst hbuilt hsafe

theorem compacts_manager {closed : List String} {steps : List (Step B)}
    (hsteps : ∀ st ∈ steps, Step.Compacts closed st) (s : Store B) :
    (s.run steps).manager.active = s.manager.active ∧
      (s.run steps).manager.bloomEnabled = s.manager.bloomEnabled := by
  refine run_preserves (I := fun t => t.manager.active = s.manager.active ∧
    t.manager.bloomEnabled = s.manager.bloomEnabled) ?_ ⟨rfl, rfl⟩
  intro t st hst h
  have hcompacts := hsteps st hst
  refine ⟨(compact_step_manager hcompacts t).1.trans h.1, ?_⟩
  cases st with
  | finishMerge newPath olds => exact (finishMerge_enabled t newPath olds).trans h.2
  | mark | openActive | grow | setBloom | loadSegment => exact hcompacts.elim
  | deleteSegment q => exact h.2
  | _ =>
    rw [manager_apply t rfl]
    exact h.2

theorem Filters.mergeRun (hP : P.Inverts) (hB : B.Sound) (hB' : B.RoundTrips)
    (hf : Filters P a s) (hs : Kept P s log) (hon : s.manager.bloomEnabled = true)
    {front run back : List String} (hpaths : s.manager.paths = front ++ run ++ back)
    (ha : a ∈ back) {f : MergeFaults} (hbloom : f.writeBloom = false) :
    Filters P a (s.run (mergeRun P s f run)) := by
  cases run with
  | nil => exact hf
  | cons newPath olds =>
    have hnodup := hs.nodup
    rw [hpaths] at hnodup
    obtain ⟨hnot, hout, -⟩ := filter_run hnodup
    have hopen := hout a (List.mem_append_right _ ha)
    have hlisted : ∀ p ∈ newPath :: olds, p ∈ s.manager.paths := by
      intro p hp
      rw [hpaths]
      exact List.mem_append_left _ (List.mem_append_right _ hp)
    have hsegs : ∀ p ∈ newPath :: olds, IsSeg p := fun p hp => hs.logged.segs p (hlisted p hp)
    rcases mergeRun_cases (P := P) s f newPath olds with hplain | ⟨all, -, hwrites, heq⟩
    · exact hf.plain hopen hsegs (mergeRun_compacts (fun p hp => hp) s f) hplain
    · rw [heq, hon, hbloom]
      exact hf.committed hP hB hB' hon hsegs hnot
        (fun h => hopen (h ▸ List.mem_cons_self)) (hlisted _ List.mem_cons_self)
        (writable_of_failedAppend hwrites)

theorem Filters.flush (hP : P.Inverts) (hB : B.Sound) (hB' : B.RoundTrips)
    {faults : String → MergeFaults} (hfaults : ∀ p, (faults p).writeBloom = false)
    (hf : Filters P a s) (hs : Kept P s log) (hon : s.manager.bloomEnabled = true)
    {front run back : List String} (hpaths : s.manager.paths = front ++ run ++ back)
    (ha : a ∈ back) : Filters P a (s.run (flush P s faults run)) := by
  unfold Storage.flush
  split
  · exact hf.mergeRun hP hB hB' hs hon hpaths ha (hfaults _)
  · exact hf

/-- The loop of a merge pass keeps every filter right between its runs. -/
theorem Filters.mergeLoop (hP : P.Inverts) (hB : B.Sound) (hB' : B.RoundTrips) (threshold : Int)
    {faults : String → MergeFaults} (hfaults : ∀ p, (faults p).writeBloom = false)
    (hf : Filters P a s) (hs : Kept P s log) (hon : s.manager.bloomEnabled = true)
    {front run rest back : List String}
    (hpaths : s.manager.paths = front ++ run ++ (rest ++ back)) (ha : a ∈ back) :
    Filters P a (s.run (mergeLoop P threshold faults s run rest)) := by
  induction rest generalizing s log front run with
  | nil => exact hf.flush hP hB hB' hfaults hs hon hpaths ha
  | cons path rest ih =>
    simp only [Storage.mergeLoop]
    split
    · have hlonger : s.manager.paths = front ++ (run ++ [path]) ++ (rest ++ back) := by
        rw [hpaths]
        simp
      exact ih hf hs hon hlonger
    · have hback : path :: rest ++ back ≠ [] := by simp
      obtain ⟨log₁, front₁, hkept₁, hpaths₁, -⟩ := hs.flush hP hpaths hback faults
      have hnext : (s.run (Storage.flush P s faults run)).manager.paths =
          front₁ ++ [path] ++ [] ++ (rest ++ back) := by
        rw [hpaths₁]
        simp
      have hf₁ := hf.flush hP hB hB' hfaults hs hon hpaths (List.mem_append_right _ ha)
      have hcompacts : ∀ st ∈ Storage.flush P s faults run, Step.Compacts run st :=
        flush_compacts (fun p hp => hp) s faults
      have hon₁ := (compacts_manager hcompacts s).2.trans hon
      rw [run_append]
      exact ih hf₁ hkept₁ hon₁ hnext

theorem Filters.mergePass (hP : P.Inverts) (hB : B.Sound) (hB' : B.RoundTrips) (threshold : Int)
    {faults : String → MergeFaults} (hfaults : ∀ p, (faults p).writeBloom = false)
    (hf : Filters P a s) (hs : Kept P s log) (hon : s.manager.bloomEnabled = true)
    (ha : s.manager.paths.getLast? = some a) :
    Filters P a (s.run (runMergePass P s threshold faults)) := by
  simp only [runMergePass]
  split
  · exact hf
  split
  · exact hf
  · obtain ⟨closed, hcat⟩ := List.getLast?_eq_some_iff.mp ha
    have hclosed : s.manager.listClosedSegments = closed := by
      rw [Manager.listClosedSegments, hcat, List.dropLast_concat]
    have hpaths : s.manager.paths = [] ++ [] ++ (closed ++ [a]) := hcat
    rw [hclosed]
    exact hf.mergeLoop hP hB hB' threshold hfaults hs hon hpaths (List.mem_singleton_self a)

end Merge

section Runs

variable {accepted : List LogEntry}

/-- The filters of a node that has them always, or never. -/
structure Screened (P : ProtoPackage) (bloom : Bool) (s : Store B) : Prop where
  flag : s.manager.bloomEnabled = bloom
  covered : bloom = true → ∀ seg, s.manager.active = some seg → Filters P seg.path s
  bloomless : bloom = false → ∀ p, s.manager.blooms.get p = none

/-- A steady node whose filters cover their segments is in order. -/
theorem Steady.running (h : Steady P s log accepted)
    (hf : ∀ seg, s.manager.active = some seg → Filters P seg.path s) : Running P s := by
  obtain ⟨n, size, hactive, hlast, hmark⟩ := h.kept.logged.active
  have hseg : ∀ seg, s.manager.active = some seg → seg.path = segmentName n := by
    intro seg hseg
    rw [hactive] at hseg
    exact (Option.some.inj hseg) ▸ rfl
  have hnumbered : ∀ p ∈ s.manager.paths, Numbered p := by
    intro p hp
    obtain ⟨k, hk⟩ := h.named p hp
    have hlt := h.layout.listed k (hk ▸ hp)
    rw [UInt64.lt_iff_toNat_lt] at hlt
    have hmax := s.manager.nextSeq.toNat_lt
    exact ⟨k, hk, by omega⟩
  have hfiles : ∀ p, IsSeg p → (s.disk.files.get p).isSome = true → p ∈ s.manager.paths := by
    intro p hp hsome
    rw [h.kept.logged.files p hp] at hsome
    by_contra hnot
    rw [if_neg hnot] at hsome
    cases hsome
  refine ⟨h.layout, hnumbered, fun seg hs => ?_, fun hnone => ?_⟩
  · refine ⟨hf seg hs, fun p hp hsome => hnumbered p (hfiles p hp hsome), ?_, ?_, .inl ?_⟩
    · rw [hseg seg hs, h.kept.logged.files _ (segmentName_isSeg n),
        if_pos (List.mem_of_getLast? hlast)]
      rfl
    · exact hseg seg hs ▸ segmentName_isSeg n
    · rw [hseg seg hs, hmark]
  · rw [hmark] at hnone
    cases hnone

/-- A node that can read what it has accepted can be restarted. -/
theorem Steady.starts (hP : P.Inverts) (h : Steady P s log accepted)
    (hfits : ∀ e ∈ accepted, Fits P e) (maxSegmentBytes : Int) (bloomEnabled : Bool) :
    ∃ t, start P B s.disk maxSegmentBytes bloomEnabled = some t := by
  obtain ⟨n, size, -, hlast, hmark⟩ := h.kept.logged.active
  have hlog := h.fits_iff.mpr hfits
  have hfile : (s.disk.files.get (segmentName n)).isSome = true := by
    rw [h.kept.logged.files _ (segmentName_isSeg n), if_pos (List.mem_of_getLast? hlast)]
    rfl
  exact (start_marked hmark hfile maxSegmentBytes bloomEnabled).1.mpr
    (h.kept.logged.readable hP hlog).1.decodes

theorem ingest_run (e : LogEntry) {seg : Segment} (hactive : s.manager.active = some seg) :
    (s.ingest P e).disk = (s.run (appendLocked P s e true).1).disk ∧
      (s.ingest P e).manager = (s.run (appendLocked P s e true).1).manager := by
  by_cases he : Writable P e
  · rw [ingest_eq hactive he]
    exact ⟨rfl, rfl⟩
  · rw [ingest_refused hactive he, appendLocked_refused hactive he]
    exact ⟨rfl, rfl⟩

theorem append_enabled (e : LogEntry) (ok : Bool) {seg : Segment}
    (hactive : s.manager.active = some seg) :
    (s.run (appendLocked P s e ok).1).manager.bloomEnabled = s.manager.bloomEnabled := by
  by_cases he : Writable P e
  · exact (append_spec ok hactive he).bloomEnabled
  · rw [appendLocked_refused hactive he]
    exact (rotateIfFull_opened e ok hactive).bloomEnabled

theorem compacts_run_bloomless {closed : List String} {steps : List (Step B)}
    (hsteps : ∀ st ∈ steps, Step.Compacts closed st) (hoff : s.manager.bloomEnabled = false)
    (hnone : ∀ p, s.manager.blooms.get p = none) :
    (s.run steps).manager.bloomEnabled = false ∧
      ∀ p, (s.run steps).manager.blooms.get p = none :=
  run_preserves (I := fun t => t.manager.bloomEnabled = false ∧
    ∀ p, t.manager.blooms.get p = none)
    (fun _ st hst h => compacts_bloomless (hsteps st hst) h.1 h.2) ⟨hoff, hnone⟩

theorem newManager_blooms {d : Disk} {maxSegmentBytes : Int} {bloomEnabled : Bool} {t : Store B}
    (h : newManager B d maxSegmentBytes bloomEnabled = some t) :
    t.manager.bloomEnabled = bloomEnabled ∧
      (bloomEnabled = false → ∀ p, t.manager.blooms.get p = none) := by
  have hload : ∀ (m : Manager B) (d : Disk), m.bloomEnabled = bloomEnabled → m.blooms = .empty →
      (m.loadBlooms d).bloomEnabled = bloomEnabled ∧
        (bloomEnabled = false → ∀ p, (m.loadBlooms d).blooms.get p = none) := by
    intro m d hflag hempty
    refine ⟨(loadBlooms_layout m d).bloomEnabled.trans hflag, fun hoff p => ?_⟩
    rw [Option.eq_none_iff_forall_ne_some]
    intro bf hbf
    rcases loadBlooms_get hbf with hbf | ⟨hon, -⟩
    · rw [hempty] at hbf
      cases hbf
    · rw [hflag, hoff] at hon
      cases hon
  rcases newManager_cases h with ⟨-, u, hu, -, hman⟩ | ⟨path, size, -, -, -, hman⟩
  · rw [hman]
    refine hload u.manager u.disk ?_ ?_
    · rw [hu, (openNewSegment_run _ _).2.2.2.2.1]
      rfl
    · rw [hu, openNewSegment_blooms]
      rfl
  · rw [hman]
    exact hload _ d rfl rfl

/-- A condition under which no action leaves a stale filter behind: merges can write their
sidecars, and the node is restarted with the setting it had. -/
def Action.Screens (bloom : Bool) : Action → Prop
  | .merge _ faults => bloom = true → ∀ p, (faults p).writeBloom = false
  | .restart _ bloomEnabled => bloomEnabled = bloom
  | .ingest _ | .retain _ _ => True

theorem Screened.action (hP : P.Inverts) (hB : B.Sound) (hB' : B.RoundTrips) {bloom : Bool}
    (hs : Screened P bloom s) (h : Steady P s log accepted) {a : Action} {t : Store B}
    (ht : a.apply P s = some t) (hleft : a.NumberLeft P s) (hscreens : a.Screens bloom) :
    Screened P bloom t := by
  obtain ⟨seg, hactive, hlast⟩ := h.layout.active
  cases a with
  | ingest e =>
    cases ht
    obtain ⟨hdisk, hman⟩ := ingest_run (P := P) e hactive
    refine ⟨by rw [hman, append_enabled e true hactive, hs.flag], fun hon => ?_, fun hoff p => ?_⟩
    · have hok : ∀ seg, s.manager.active = some seg → mustRotate P s seg e = true →
          Rotates P s seg.path true := fun _ _ _ => .inl ⟨hs.flag.trans hon, rfl⟩
      have hrun := ((h.running (hs.covered hon)).append hB hB' hleft hok).2.congr hdisk hman
      exact fun seg hseg => (hrun.held seg hseg).filters
    · rw [hman, append_blooms hactive (hs.flag.trans hoff)]
      exact hs.bloomless hoff p
  | merge threshold faults =>
    cases ht
    have hcompacts := runMergePass_compacts (P := P) s threshold faults
    obtain ⟨hact, hflag⟩ := compacts_manager hcompacts s
    refine ⟨hflag.trans hs.flag, fun hon seg' hseg' => ?_, fun hoff => ?_⟩
    · rw [hact, hactive] at hseg'
      obtain rfl := Option.some.inj hseg'
      exact (hs.covered hon seg hactive).mergePass hP hB hB' threshold (hscreens hon) h.kept
        (hs.flag.trans hon) hlast
    · exact (compacts_run_bloomless hcompacts (hs.flag.trans hoff) (hs.bloomless hoff)).2
  | retain now days =>
    cases ht
    have hcompacts := runRetentionPass_compacts (P := P) s now days
    have hplain := runRetentionPass_plain (P := P) s now days
    refine ⟨(compacts_manager hcompacts s).2.trans hs.flag, fun hon => ?_, fun hoff => ?_⟩
    · have hrun := (h.running (hs.covered hon)).compact hcompacts (built_of_plain hplain)
        (mergeSafe_of_plain hplain)
      exact fun seg hseg => (hrun.held seg hseg).filters
    · exact (compacts_run_bloomless hcompacts (hs.flag.trans hoff) (hs.bloomless hoff)).2
  | restart maxSegmentBytes bloomEnabled =>
    obtain ⟨u, hu, hdisk, hman⟩ := start_newManager ht
    obtain rfl : bloomEnabled = bloom := hscreens
    obtain ⟨hflag, hbloomless⟩ := newManager_blooms hu
    refine ⟨by rw [hman, hflag], fun hon => ?_, fun hoff p => by rw [hman, hbloomless hoff]⟩
    have hdormant := (h.running (hs.covered hon)).observed.dormant
    have hrun := (hdormant.start hu).congr hdisk hman
    exact fun seg hseg => (hrun.held seg hseg).filters

theorem fresh_screened (P : ProtoPackage) (B : BloomPackage) (maxSegmentBytes : Int)
    (bloom : Bool) : Screened P bloom (fresh B maxSegmentBytes bloom) := by
  have hnew := newManager_empty B maxSegmentBytes bloom
  obtain ⟨hflag, hbloomless⟩ := newManager_blooms hnew
  have hrun := (dormant_empty B P).start hnew
  exact ⟨hflag, fun _ seg hseg => (hrun.held seg hseg).filters, hbloomless⟩

end Runs

end LogEngine.Storage
