import LogEngine.Storage.Filters

namespace LogEngine.Storage
open Lib

variable {B : BloomPackage} {P : ProtoPackage}

/-- The temp file of a merge holds the records of the merged entries. -/
theorem mergeWrite_get (s : Store B) (tmp : String) (all : List LogEntry) :
    (s.run (mergeWrite P tmp all)).disk.files.get tmp = some (all.flatMap (record P)) := by
  have hsteps : (mergeWrite P tmp all : List (Step B)) =
      .remove tmp :: .create tmp :: (all.map (record P)).map (fun c => .append tmp c) := by
    simp [mergeWrite]
  have hempty : (Step.apply (Step.apply s (.remove tmp)) (.create tmp)).disk.files.get tmp =
      some [] := by
    simp [Step.apply, Disk.create, Disk.remove]
  rw [hsteps, run_cons, run_cons, appends_run _ _ hempty, List.nil_append, List.flatMap_def]

theorem writable_of_failedAppend {f : MergeFaults} {all : List LogEntry}
    (h : failedAppend P f all = none) : ∀ e ∈ all, Writable P e := by
  intro e he
  obtain ⟨k, hk⟩ := List.mem_iff_getElem?.mp he
  have hmem : (e, k) ∈ all.zipIdx := List.mem_zipIdx_iff_getElem?.mpr hk
  have hwrites := List.findIdx?_eq_none_iff.mp h (e, k) hmem
  simp only [Bool.or_eq_false_iff, writeRecord] at hwrites
  split at hwrites
  · simp at hwrites
  · unfold Writable
    omega

/-- A file of records reads as no other entries. -/
theorem mem_of_records (hP : P.Inverts) {d : Disk} {p : String} {all : List LogEntry}
    (hall : ∀ e ∈ all, Writable P e) (hp : d.files.get p = some (all.flatMap (record P))) :
    ∀ e ∈ entriesAt P d p, e ∈ all := by
  cases hdec : decodeSegment P (all.flatMap (record P)) with
  | error err => simp [entriesAt, readSegment, hp, hdec]
  | ok es =>
    have hsplit : decodeSegment P (all.flatMap (record P) ++ []) = .ok es := by
      rwa [List.append_nil]
    obtain ⟨-, more, hmore, heq⟩ := records_readable hP hall hsplit
    cases hmore
    rw [entriesAt_some hp hdec, heq, List.append_nil]
    exact fun e he => he

theorem writeBloom_built (hB : B.RoundTrips) {s : Store B} {path : String} (hpath : IsSeg path)
    {bf : B.Filter} (hcovers : Covers bf (entriesAt P s.disk path)) (ok : Bool) :
    Along (Built P) s (writeBloom path bf ok) := by
  cases ok with
  | false => exact ⟨trivial, trivial, trivial⟩
  | true =>
    refine ⟨trivial, trivial, ?_, trivial⟩
    intro q hq heq bf' hbf'
    have hqp := bloomPath_inj hpath hq heq
    subst hqp
    simp only [Step.apply, Disk.append, Disk.write, GoMap.get_set, if_true, Option.getD_some,
      List.nil_append, Option.bind_some, hB bf, Option.some.injEq] at hbf'
    subst hbf'
    have hne : path ≠ tmpPath (bloomPath path) := (tmpPath_touch hq (.inr rfl)).1
    rwa [entriesAt_congr (get_apply _ (by simpa [Step.touches] using hne)),
      entriesAt_congr (get_apply _ (by simpa [Step.touches] using hne))]

/-- The steps that `Built` says nothing about. -/
def Step.plain : Step B → Bool
  | .rename _ _ | .finishMerge _ _ => false
  | _ => true

theorem built_of_plain {s : Store B} {steps : List (Step B)}
    (h : ∀ st ∈ steps, Step.plain st = true) : Along (Built P) s steps := by
  refine .of_forall (fun t st hst => ?_)
  have hplain := h st hst
  cases st with
  | rename | finishMerge => cases hplain
  | _ => trivial

theorem mergeWrite_plain (tmp : String) (all : List LogEntry) :
    ∀ st ∈ (mergeWrite P tmp all : List (Step B)), Step.plain st = true := by
  simp [mergeWrite, Step.plain]

theorem mergeWrite_keeps (tmp : String) (all : List LogEntry) :
    ∀ st ∈ (mergeWrite P tmp all : List (Step B)), Step.keepsManager st = true ∧
      ∀ q ≠ tmp, q ∉ Step.touches st := by
  simp [mergeWrite, Step.keepsManager, Step.touches]

/-- The steps of a merge up to and including its rename: the first file becomes the merged one,
the other segments and the manager stay. -/
theorem merged_run (s : Store B) (newPath : String) (olds : List String) (all : List LogEntry) :
    let t := s.run (mergeWrite P (tmpPath newPath) all ++ (newPath :: olds).map .indexRemove ++
      [.rename (tmpPath newPath) newPath])
    t.disk.files.get newPath = some (all.flatMap (record P)) ∧ t.manager = s.manager ∧
      ∀ p, IsSeg p → p ≠ newPath → t.disk.files.get p = s.disk.files.get p := by
  have hindex : ∀ st ∈ (newPath :: olds).map (Step.indexRemove (B := B)),
      Step.keepsManager st = true ∧ Step.touches st = [] := by
    intro st hst
    obtain ⟨p, -, rfl⟩ := List.mem_map.mp hst
    exact ⟨rfl, rfl⟩
  rw [run_append, run_append]
  generalize hu : s.run (mergeWrite P (tmpPath newPath) all) = u
  generalize hv : u.run ((newPath :: olds).map .indexRemove) = v
  have hget : ∀ q, v.disk.files.get q = u.disk.files.get q := by
    intro q
    rw [← hv]
    exact run_get u (fun st hst => by simp [(hindex st hst).2])
  have htmp : v.disk.files.get (tmpPath newPath) = some (all.flatMap (record P)) := by
    rw [hget, ← hu, mergeWrite_get]
  refine ⟨?_, ?_, ?_⟩
  · rw [run_cons, run_nil, get_rename htmp, if_pos rfl]
  · rw [run_cons, run_nil, manager_apply _ rfl, ← hv,
      run_manager u (fun st hst => (hindex st hst).1), ← hu,
      run_manager s (fun st hst => (mergeWrite_keeps _ all st hst).1)]
  · intro p hp hne
    have hnt := (tmpPath_touch (q := newPath) hp (.inl rfl)).1
    rw [run_cons, run_nil, get_rename htmp, if_neg hne, if_neg hnt, hget, ← hu]
    exact run_get s (fun st hst => (mergeWrite_keeps _ all st hst).2 p hnt)

theorem writeBloom_keeps (path : String) (bf : B.Filter) (ok : Bool) :
    ∀ st ∈ writeBloom path bf ok, st.keepsManager = true ∧ st.keepsIndex = true := by
  intro st hst
  unfold writeBloom at hst
  split at hst <;> simp only [List.mem_cons, List.not_mem_nil, or_false] at hst
  · rcases hst with rfl | rfl | rfl <;> exact ⟨rfl, rfl⟩
  · rcases hst with rfl | rfl <;> exact ⟨rfl, rfl⟩

theorem mergeCommit_built (hB : B.Sound) (hB' : B.RoundTrips) {s : Store B} {newPath : String}
    {olds : List String} {all : List LogEntry} (hseg : IsSeg newPath)
    (hentries : ∀ e ∈ entriesAt P s.disk newPath, e ∈ all) (hlisted : newPath ∈ s.manager.paths)
    (hnot : newPath ∉ olds) (enabled ok : Bool) :
    Along (Built P) s (mergeCommit enabled ok newPath olds all) := by
  have hcovers : Covers (bloomOf B all) (entriesAt P s.disk newPath) :=
    (bloomOf_covers hB all).subset hentries
  unfold mergeCommit
  rw [along_append, along_append, along_append]
  refine ⟨⟨⟨?_, built_of_plain (by simp [Step.plain])⟩, ⟨?_, hnot⟩, trivial⟩,
    built_of_plain ?_⟩
  · split
    · exact writeBloom_built hB' hseg hcovers ok
    · trivial
  · have hman : ∀ st ∈ ((if enabled = true ∧ all.flatMap tokenizeEntry ≠ [] then
          writeBloom newPath (bloomOf B all) ok else []) ++
        all.map (fun e => Step.indexAdd e newPath) : List (Step B)), st.keepsManager = true := by
      intro st hst
      rcases List.mem_append.mp hst with hst | hst
      · split at hst
        · exact (writeBloom_keeps newPath _ ok st hst).1
        · cases hst
      · obtain ⟨e, -, rfl⟩ := List.mem_map.mp hst
        rfl
    rw [run_manager s hman]
    exact hlisted
  · intro st hst
    obtain ⟨op, -, hst⟩ := List.mem_flatMap.mp hst
    simp only [List.mem_cons, List.not_mem_nil, or_false] at hst
    rcases hst with rfl | rfl <;> rfl

theorem mergeFront_plain (newPath : String) (olds : List String) (all : List LogEntry) :
    ∀ st ∈ (mergeWrite P (tmpPath newPath) all ++ (newPath :: olds).map .indexRemove :
      List (Step B)), Step.plain st = true := by
  intro st hst
  rcases List.mem_append.mp hst with hst | hst
  · exact mergeWrite_plain _ _ st hst
  · obtain ⟨p, -, rfl⟩ := List.mem_map.mp hst
    rfl

theorem mergeUndo_plain (d : Disk) (tmp : String) (paths : List String) :
    ∀ st ∈ (mergeUndo P d tmp paths : List (Step B)), Step.plain st = true := by
  intro st hst
  rcases List.mem_cons.mp hst with rfl | hst
  · rfl
  · obtain ⟨op, -, hst⟩ := List.mem_flatMap.mp hst
    split at hst
    · cases hst
    · obtain ⟨e, -, rfl⟩ := List.mem_map.mp hst
      rfl

/-- The three ways in which a merge ends: it gives up over the temp file, its rename fails, or it
goes through. -/
theorem mergeRun_outcome (s : Store B) (f : MergeFaults) (newPath : String) (olds : List String) :
    (∃ part, ∀ st ∈ mergeRun P s f (newPath :: olds), st ∈ mergeWrite P (tmpPath newPath) part) ∨
    ∃ all, readSegments P s.disk (newPath :: olds) = .ok all ∧ failedAppend P f all = none ∧
      (mergeRun P s f (newPath :: olds) =
        mergeWrite P (tmpPath newPath) all ++ (newPath :: olds).map .indexRemove ++
          mergeUndo P s.disk (tmpPath newPath) (newPath :: olds) ∨
      mergeRun P s f (newPath :: olds) =
        mergeWrite P (tmpPath newPath) all ++ (newPath :: olds).map .indexRemove ++
          .rename (tmpPath newPath) newPath ::
            mergeCommit s.manager.bloomEnabled (!f.writeBloom) newPath olds all) := by
  have htmp : ∀ part, (.remove (tmpPath newPath) : Step B) ∈ mergeWrite P (tmpPath newPath) part :=
    fun part => List.mem_cons_self
  simp only [mergeRun]
  split
  · exact .inl ⟨[], by simp⟩
  split
  · exact .inl ⟨[], by simp⟩
  rename_i all hall
  simp only [mergeAll]
  split
  · exact .inl ⟨[], by simpa using htmp []⟩
  split
  · rename_i k _
    refine .inl ⟨all.take k, fun st hst => ?_⟩
    rcases List.mem_append.mp hst with hst | hst
    · exact hst
    · exact List.mem_singleton.mp hst ▸ htmp _
  · rename_i hwrites
    refine .inr ⟨all, hall, hwrites, ?_⟩
    split
    · exact .inl rfl
    · exact .inr rfl

/-- A merge either gives up, and then renames and finishes nothing, or goes through. -/
theorem mergeRun_cases (s : Store B) (f : MergeFaults) (newPath : String) (olds : List String) :
    (∀ st ∈ mergeRun P s f (newPath :: olds), Step.plain st = true) ∨
    ∃ all, readSegments P s.disk (newPath :: olds) = .ok all ∧ failedAppend P f all = none ∧
      mergeRun P s f (newPath :: olds) =
        mergeWrite P (tmpPath newPath) all ++ (newPath :: olds).map .indexRemove ++
          .rename (tmpPath newPath) newPath ::
            mergeCommit s.manager.bloomEnabled (!f.writeBloom) newPath olds all := by
  rcases mergeRun_outcome (P := P) s f newPath olds with
    ⟨part, hpart⟩ | ⟨all, hall, hwrites, heq | heq⟩
  · exact .inl (fun st hst => mergeWrite_plain _ part st (hpart st hst))
  · refine .inl (fun st hst => ?_)
    rw [heq] at hst
    rcases List.mem_append.mp hst with hst | hst
    · exact mergeFront_plain newPath olds all st hst
    · exact mergeUndo_plain _ _ _ st hst
  · exact .inr ⟨all, hall, hwrites, heq⟩

theorem mergeRun_built (hP : P.Inverts) (hB : B.Sound) (hB' : B.RoundTrips) {s : Store B}
    {run : List String} (hrun : ∀ p ∈ run, IsSeg p ∧ p ∈ s.manager.paths) (hnodup : run.Nodup)
    (f : MergeFaults) : Along (Built P) s (mergeRun P s f run) := by
  cases run with
  | nil => trivial
  | cons newPath olds =>
    obtain ⟨⟨hseg, hlisted⟩, -⟩ := List.forall_mem_cons.mp hrun
    rcases mergeRun_cases (P := P) s f newPath olds with hplain | ⟨all, -, hwrites, heq⟩
    · exact built_of_plain hplain
    · rw [heq, along_append]
      refine ⟨built_of_plain (mergeFront_plain newPath olds all),
        fun q hq heq => absurd (heq ▸ hseg) (bloomPath_not_seg q), ?_⟩
      obtain ⟨hget, hman, -⟩ := merged_run (P := P) s newPath olds all
      rw [run_append, run_cons, run_nil] at hget hman
      exact mergeCommit_built hB hB' hseg
        (mem_of_records hP (writable_of_failedAppend hwrites) hget) (hman ▸ hlisted)
        (List.nodup_cons.mp hnodup).1 _ _

/-- A pass leaves the segments it does not look at listed. -/
theorem compacts_listed {closed : List String} {steps : List (Step B)} {p : String}
    (hsteps : ∀ st ∈ steps, Step.Compacts closed st) (hp : p ∉ closed) {s : Store B}
    (hlisted : p ∈ s.manager.paths) : p ∈ (s.run steps).manager.paths := by
  refine run_preserves (I := fun t => p ∈ t.manager.paths) ?_ hlisted
  intro t st hst ht
  have hcompacts := hsteps st hst
  cases st with
  | finishMerge newPath olds =>
    have hpaths := (finishMerge_layout t newPath olds).2.1
    simp only [Step.apply, hpaths, List.mem_filter, decide_eq_true_eq]
    exact ⟨ht, fun hin => hp (hcompacts.2 p hin)⟩
  | deleteSegment q =>
    simp only [Step.apply, Manager.deleteSegment, List.mem_filter, decide_eq_true_eq]
    exact ⟨ht, fun heq => hp (heq ▸ hcompacts)⟩
  | mark | openActive | grow | setBloom | loadSegment => exact hcompacts.elim
  | _ => rwa [manager_apply _ rfl]

theorem mergeLoop_built (hP : P.Inverts) (hB : B.Sound) (hB' : B.RoundTrips) {s : Store B}
    {run rest : List String} (hall : ∀ p ∈ run ++ rest, IsSeg p ∧ p ∈ s.manager.paths)
    (hnodup : (run ++ rest).Nodup) (threshold : Int) (faults : String → MergeFaults) :
    Along (Built P) s (mergeLoop P threshold faults s run rest) := by
  have hflush : ∀ (s : Store B) (run : List String),
      (∀ p ∈ run, IsSeg p ∧ p ∈ s.manager.paths) → run.Nodup →
      Along (Built P) s (flush P s faults run) := by
    intro s run hrun hnodup
    unfold flush
    split
    · exact mergeRun_built hP hB hB' hrun hnodup _
    · trivial
  induction rest generalizing s run with
  | nil =>
    rw [List.append_nil] at hall hnodup
    exact hflush s run hall hnodup
  | cons path rest ih =>
    simp only [mergeLoop]
    split
    · refine ih ?_ ?_ <;> simpa only [List.append_assoc, List.singleton_append]
    · obtain ⟨hrun, hrest, hdisjoint⟩ := List.nodup_append.mp hnodup
      refine along_append.mpr ⟨hflush s run
        (fun p hp => hall p (List.mem_append_left _ hp)) hrun, ih ?_ ?_⟩
      · intro p hp
        have hin : p ∈ path :: rest := List.mem_cons_of_mem _ hp
        obtain ⟨hseg, hlisted⟩ := hall p (List.mem_append_right _ hin)
        exact ⟨hseg, compacts_listed (flush_compacts (fun q hq => hq) s faults)
          (fun hr => hdisjoint p hr p hin rfl) hlisted⟩
      · exact (List.nodup_cons.mp hrest).2

/-- Merge passes see to the sidecars they write and the segments they finish with. -/
theorem runMergePass_built (hP : P.Inverts) (hB : B.Sound) (hB' : B.RoundTrips) {s : Store B}
    (hs : Layout s) (hseg : ∀ p ∈ s.manager.paths, IsSeg p) (threshold : Int)
    (faults : String → MergeFaults) : Along (Built P) s (runMergePass P s threshold faults) := by
  simp only [runMergePass]
  split
  · trivial
  split
  · trivial
  · refine mergeLoop_built hP hB hB' ?_ ?_ threshold faults
    · intro p hp
      have hin : p ∈ s.manager.paths := List.dropLast_subset _ hp
      exact ⟨hseg p hin, hin⟩
    · exact hs.nodup.sublist (List.dropLast_sublist _)

end LogEngine.Storage
