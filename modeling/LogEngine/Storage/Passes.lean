import LogEngine.Storage.Compaction
import LogEngine.Storage.Contents

namespace LogEngine.Storage
open Lib

variable {B : BloomPackage} {P : ProtoPackage}

/-- The steps that a pass over the given closed segments may take: it writes temp files, renames
them to a segment or its sidecar, and removes any of these. -/
def Step.Compacts (closed : List String) : Step B → Prop
  | .create p | .truncate p | .append p _ => ∃ q ∈ closed, p = tmpPath q ∨ p = tmpPath (bloomPath q)
  | .rename old new => ∃ q ∈ closed,
      old = tmpPath q ∧ new = q ∨ old = tmpPath (bloomPath q) ∧ new = bloomPath q
  | .remove p => ∃ q ∈ closed,
      p = q ∨ p = bloomPath q ∨ p = tmpPath q ∨ p = tmpPath (bloomPath q)
  | .finishMerge newPath olds => newPath ∈ closed ∧ ∀ p ∈ olds, p ∈ closed
  | .deleteSegment p | .indexAdd _ p | .indexRemove p => p ∈ closed
  | .mark _ | .openActive _ | .grow _ | .setBloom _ _ | .loadSegment _ => False

theorem tmpPath_touch {p q r : String} (hp : IsSeg p)
    (hr : r = tmpPath q ∨ r = tmpPath (bloomPath q)) : p ≠ r ∧ bloomPath p ≠ r := by
  constructor
  · intro heq
    rcases hr with hr | hr <;> exact tmpPath_not_seg _ (hr ▸ heq ▸ hp)
  · intro heq
    rcases hr with hr | hr <;> exact tmpPath_ne_bloomPath _ _ (hr.symm.trans heq.symm)

theorem get_remove (s : Store B) (p q : String) :
    (Step.apply s (.remove p)).disk.files.get q = if q = p then none else s.disk.files.get q := by
  simp only [Step.apply, Disk.remove, GoMap.get_delete]

theorem get_rename {s : Store B} {old new : String} {bs : Bytes}
    (h : s.disk.files.get old = some bs) (q : String) :
    (Step.apply s (.rename old new)).disk.files.get q =
      if q = new then some bs else if q = old then none else s.disk.files.get q := by
  simp only [Step.apply, Disk.rename, h, GoMap.get_set, GoMap.get_delete]

theorem rename_missing {s : Store B} {old : String} (h : s.disk.files.get old = none)
    (new : String) : Step.apply s (.rename old new) = s := by
  simp only [Step.apply, Disk.rename, h]

theorem rename_isSome {d : Disk} {old new q : String}
    (h : ((d.rename old new).files.get q).isSome = true) :
    (d.files.get q).isSome = true ∨ q = new := by
  unfold Disk.rename at h
  split at h
  · exact .inl h
  · by_cases hq : q = new
    · exact .inr hq
    · simp only [GoMap.get_set_ne _ _ hq, GoMap.get_delete] at h
      split at h
      · cases h
      · exact .inl h

/-- Which segment files a step of a pass may bring into being. -/
theorem compacts_isSome {closed : List String} {st : Step B} (hst : st.Compacts closed)
    {s : Store B} {p : String} (hp : IsSeg p)
    (h : ((Step.apply s st).disk.files.get p).isSome = true) :
    (s.disk.files.get p).isSome = true ∨ p ∈ closed := by
  cases st with
  | create q | truncate q | append q bs =>
    obtain ⟨r, -, hq⟩ := hst
    have hne := (tmpPath_touch hp hq).1
    rw [get_apply s (by simpa [Step.touches] using hne)] at h
    exact .inl h
  | rename old new =>
    rcases rename_isSome h with h | heq
    · exact .inl h
    · obtain ⟨q, hq, hor⟩ := hst
      rcases hor with ⟨-, hnew⟩ | ⟨-, hnew⟩
      · exact .inr (heq ▸ hnew ▸ hq)
      · exact absurd hp (by rw [heq, hnew]; exact bloomPath_not_seg q)
  | remove q =>
    rw [get_remove] at h
    split at h
    · cases h
    · exact .inl h
  | finishMerge newPath olds =>
    rw [get_apply s (by simp [Step.touches])] at h
    exact .inl h
  | mark | openActive | grow | setBloom | loadSegment => exact hst.elim
  | _ =>
    rw [get_apply s (by simp [Step.touches])] at h
    exact .inl h

theorem compacts_untouched {closed : List String} {st : Step B} (hst : st.Compacts closed)
    {p : String} (hp : IsSeg p) (hnot : p ∉ closed) : p ∉ st.touches := by
  cases st with
  | create q | truncate q | append q bs =>
    obtain ⟨r, -, hq⟩ := hst
    simpa [Step.touches] using (tmpPath_touch hp hq).1
  | rename old new =>
    obtain ⟨q, hq, hor⟩ := hst
    rcases hor with ⟨hold, hnew⟩ | ⟨hold, hnew⟩
    · simp only [Step.touches, List.mem_cons, List.not_mem_nil, or_false, not_or]
      exact ⟨(tmpPath_touch hp (.inl hold)).1, fun h => hnot (h ▸ hnew ▸ hq)⟩
    · simp only [Step.touches, List.mem_cons, List.not_mem_nil, or_false, not_or]
      exact ⟨(tmpPath_touch hp (.inr hold)).1,
        fun h => bloomPath_not_seg q (hnew ▸ h ▸ hp)⟩
  | remove q =>
    obtain ⟨r, hr, hor⟩ := hst
    simp only [Step.touches, List.mem_singleton]
    rcases hor with h | h | h
    · exact fun heq => hnot (heq ▸ h ▸ hr)
    · exact fun heq => bloomPath_not_seg r (h ▸ heq ▸ hp)
    · exact (tmpPath_touch hp h).1
  | mark | openActive | grow | setBloom | loadSegment => exact hst.elim
  | _ => simp [Step.touches]

theorem writeBloom_compacts {closed : List String} {path : String} (hpath : path ∈ closed)
    (bf : B.Filter) (ok : Bool) : ∀ st ∈ writeBloom path bf ok, Step.Compacts closed st := by
  intro st hst
  unfold writeBloom at hst
  split at hst <;> simp only [List.mem_cons, List.not_mem_nil, or_false] at hst
  · rcases hst with rfl | rfl | rfl
    · exact ⟨path, hpath, .inr rfl⟩
    · exact ⟨path, hpath, .inr rfl⟩
    · exact ⟨path, hpath, .inr ⟨rfl, rfl⟩⟩
  · rcases hst with rfl | rfl
    · exact ⟨path, hpath, .inr rfl⟩
    · exact ⟨path, hpath, .inr (.inr (.inr rfl))⟩

theorem mergeWrite_compacts {closed : List String} {path : String} (hpath : path ∈ closed)
    (all : List LogEntry) :
    ∀ st ∈ (mergeWrite P (tmpPath path) all : List (Step B)), Step.Compacts closed st := by
  intro st hst
  simp only [mergeWrite, List.mem_cons, List.mem_map] at hst
  rcases hst with rfl | rfl | ⟨e, -, rfl⟩
  · exact ⟨path, hpath, .inr (.inr (.inl rfl))⟩
  · exact ⟨path, hpath, .inl rfl⟩
  · exact ⟨path, hpath, .inl rfl⟩

theorem mergeUndo_compacts {closed paths : List String} {path : String} (hpath : path ∈ closed)
    (hpaths : ∀ p ∈ paths, p ∈ closed) (d : Disk) :
    ∀ st ∈ (mergeUndo P d (tmpPath path) paths : List (Step B)), Step.Compacts closed st := by
  intro st hst
  rcases List.mem_cons.mp hst with rfl | hst
  · exact ⟨path, hpath, .inr (.inr (.inl rfl))⟩
  · obtain ⟨op, hop, hst⟩ := List.mem_flatMap.mp hst
    split at hst
    · cases hst
    · obtain ⟨e, -, rfl⟩ := List.mem_map.mp hst
      exact hpaths op hop

theorem mergeCommit_compacts {closed olds : List String} {path : String} (hpath : path ∈ closed)
    (holds : ∀ p ∈ olds, p ∈ closed) (enabled ok : Bool) (all : List LogEntry) :
    ∀ st ∈ (mergeCommit enabled ok path olds all : List (Step B)), Step.Compacts closed st := by
  intro st hst
  simp only [mergeCommit, List.mem_append, List.mem_singleton, List.mem_map,
    List.mem_flatMap] at hst
  rcases hst with ((hst | ⟨e, -, rfl⟩) | rfl) | ⟨op, hop, hst⟩
  · split at hst
    · exact writeBloom_compacts hpath _ ok st hst
    · cases hst
  · exact hpath
  · exact ⟨hpath, holds⟩
  · simp only [List.mem_cons, List.not_mem_nil, or_false] at hst
    rcases hst with rfl | rfl
    · exact ⟨op, holds op hop, .inl rfl⟩
    · exact ⟨op, holds op hop, .inr (.inl rfl)⟩

theorem mergeRun_compacts {closed run : List String} (hrun : ∀ p ∈ run, p ∈ closed) (s : Store B)
    (f : MergeFaults) : ∀ st ∈ mergeRun P s f run, Step.Compacts closed st := by
  intro st hst
  cases run with
  | nil => cases hst
  | cons path olds =>
    have hpath : path ∈ closed := hrun path List.mem_cons_self
    have holds : ∀ p ∈ olds, p ∈ closed := fun p hp => hrun p (List.mem_cons_of_mem _ hp)
    have htmp : Step.Compacts closed (.remove (tmpPath path) : Step B) :=
      ⟨path, hpath, .inr (.inr (.inl rfl))⟩
    simp only [mergeRun] at hst
    split at hst
    · cases hst
    · split at hst
      · cases hst
      · simp only [mergeAll] at hst
        split at hst
        · exact List.mem_singleton.mp hst ▸ htmp
        · split at hst
          · rcases List.mem_append.mp hst with hst | hst
            · exact mergeWrite_compacts hpath _ st hst
            · exact List.mem_singleton.mp hst ▸ htmp
          · rw [List.append_assoc] at hst
            rcases List.mem_append.mp hst with hst | hst
            · exact mergeWrite_compacts hpath _ st hst
            rcases List.mem_append.mp hst with hst | hst
            · obtain ⟨p, hp, rfl⟩ := List.mem_map.mp hst
              exact hrun p hp
            · split at hst
              · exact mergeUndo_compacts hpath hrun s.disk st hst
              · rcases List.mem_cons.mp hst with rfl | hst
                · exact ⟨path, hpath, .inl ⟨rfl, rfl⟩⟩
                · exact mergeCommit_compacts hpath holds _ _ _ st hst

theorem flush_compacts {closed run : List String} (hrun : ∀ p ∈ run, p ∈ closed) (s : Store B)
    (faults : String → MergeFaults) : ∀ st ∈ flush P s faults run, Step.Compacts closed st := by
  intro st hst
  unfold flush at hst
  split at hst
  · exact mergeRun_compacts hrun s _ st hst
  · cases hst

theorem mergeLoop_compacts {closed run rest : List String} (hrun : ∀ p ∈ run, p ∈ closed)
    (hrest : ∀ p ∈ rest, p ∈ closed) (threshold : Int) (faults : String → MergeFaults)
    (s : Store B) : ∀ st ∈ mergeLoop P threshold faults s run rest, Step.Compacts closed st := by
  induction rest generalizing s run with
  | nil => exact flush_compacts hrun s faults
  | cons path rest ih =>
    obtain ⟨hpath, hrest⟩ := List.forall_mem_cons.mp hrest
    intro st hst
    simp only [mergeLoop] at hst
    split at hst
    · refine ih ?_ hrest s st hst
      intro p hp
      rcases List.mem_append.mp hp with hp | hp
      · exact hrun p hp
      · exact List.mem_singleton.mp hp ▸ hpath
    · rcases List.mem_append.mp hst with hst | hst
      · exact flush_compacts hrun s faults st hst
      · exact ih (by simp) hrest _ st hst

/-- What a merge pass does, fault or no fault. -/
theorem runMergePass_compacts (s : Store B) (threshold : Int) (faults : String → MergeFaults) :
    ∀ st ∈ runMergePass P s threshold faults,
      Step.Compacts s.manager.listClosedSegments st := by
  intro st hst
  simp only [runMergePass] at hst
  split at hst
  · cases hst
  · split at hst
    · cases hst
    · exact mergeLoop_compacts (by simp) (fun p hp => hp) threshold faults s st hst

theorem retainOne_compacts {closed : List String} {path : String} (hpath : path ∈ closed)
    (cutoff : Int64) (s : Store B) : ∀ st ∈ retainOne P s cutoff path, Step.Compacts closed st := by
  intro st hst
  unfold retainOne at hst
  split at hst
  · cases hst
  · split at hst
    · simp only [List.mem_cons, List.not_mem_nil, or_false] at hst
      rcases hst with rfl | rfl | rfl | rfl
      · exact hpath
      · exact hpath
      · exact ⟨path, hpath, .inl rfl⟩
      · exact ⟨path, hpath, .inr (.inl rfl)⟩
    · cases hst

theorem retentionLoop_compacts {closed rest : List String} (hrest : ∀ p ∈ rest, p ∈ closed)
    (cutoff : Int64) (s : Store B) :
    ∀ st ∈ retentionLoop P cutoff s rest, Step.Compacts closed st := by
  induction rest generalizing s with
  | nil => simp [retentionLoop]
  | cons path rest ih =>
    obtain ⟨hpath, hrest⟩ := List.forall_mem_cons.mp hrest
    intro st hst
    rcases List.mem_append.mp hst with hst | hst
    · exact retainOne_compacts hpath cutoff s st hst
    · exact ih hrest _ st hst

/-- What a retention pass does. -/
theorem runRetentionPass_compacts (s : Store B) (now : Int64) (days : Int) :
    ∀ st ∈ runRetentionPass P s now days, Step.Compacts s.manager.listClosedSegments st := by
  intro st hst
  unfold runRetentionPass at hst
  split at hst
  · cases hst
  · exact retentionLoop_compacts (fun p hp => hp) _ s st hst

/-- Without filters a compaction brings none. -/
theorem compacts_bloomless {s : Store B} {st : Step B} {closed : List String}
    (hst : st.Compacts closed) (hoff : s.manager.bloomEnabled = false)
    (hnone : ∀ p, s.manager.blooms.get p = none) :
    (Step.apply s st).manager.bloomEnabled = false ∧
      ∀ p, (Step.apply s st).manager.blooms.get p = none := by
  cases st with
  | finishMerge newPath olds =>
    simp only [Step.apply, Store.finishMerge, hoff, Bool.false_eq_true, if_false]
    exact ⟨trivial, hnone⟩
  | deleteSegment q =>
    refine ⟨hoff, fun p => ?_⟩
    simp only [Step.apply, Manager.deleteSegment, GoMap.get_delete, hnone, ite_self]
  | mark | openActive | grow | setBloom | loadSegment => exact hst.elim
  | _ =>
    rw [manager_apply s rfl]
    exact ⟨hoff, hnone⟩

end LogEngine.Storage
