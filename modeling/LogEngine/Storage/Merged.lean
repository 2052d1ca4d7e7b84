import LogEngine.Storage.Crash
import LogEngine.Storage.Fates
import LogEngine.Storage.Log

namespace LogEngine.Storage
open Lib

variable {B : BloomPackage} {P : ProtoPackage} {log : String → List LogEntry}

section Index

variable {idx : Index}

theorem Catalogued.congr {log' : String → List LogEntry} (h : Catalogued idx log)
    (hmem : ∀ p e, e ∈ log p ↔ e ∈ log' p) : Catalogued idx log' := by
  obtain ⟨live, hrep, hlive⟩ := h
  exact ⟨live, hrep, fun p e => (hlive p e).trans (hmem p e)⟩

/-- The log without a set of segments. -/
def without (log : String → List LogEntry) (paths : List String) : String → List LogEntry :=
  fun p => if p ∈ paths then [] else log p

theorem mem_without {paths : List String} {p : String} {e : LogEntry} :
    e ∈ without log paths p ↔ p ∉ paths ∧ e ∈ log p := by
  rw [without]
  split <;> simp [*]

theorem Catalogued.removeSegment (h : Catalogued idx log) (path : String) :
    Catalogued (idx.removeSegment path) (without log [path]) := by
  obtain ⟨live, hrep, hlive⟩ := h
  refine ⟨_, hrep.removeSegment path, ?_⟩
  intro p e
  rw [List.mem_filter, hlive, mem_without, List.mem_singleton, decide_eq_true_eq, and_comm]

theorem Catalogued.removeAll (h : Catalogued idx log) (paths : List String) :
    Catalogued (paths.foldl Index.removeSegment idx) (without log paths) := by
  induction paths generalizing idx log with
  | nil => exact h.congr (fun p e => by simp [without])
  | cons path paths ih =>
    refine (ih (h.removeSegment path)).congr (fun p e => ?_)
    by_cases hp : p = path <;> by_cases hin : p ∈ paths <;> simp [without, hp, hin]

theorem Catalogued.addAll (h : Catalogued idx log) (path : String) (es : List LogEntry) :
    Catalogued (idx.addAll path es) (fun p => if p = path then log p ++ es else log p) := by
  obtain ⟨live, hrep, hlive⟩ := h
  refine ⟨_, hrep.addAll path es, ?_⟩
  intro p e
  simp only [List.mem_append, List.mem_map, Prod.mk.injEq, hlive]
  by_cases hp : p = path
  · simp [hp]
  · simp [hp, Ne.symm hp]

theorem Catalogued.addEach (h : Catalogued idx log) (paths : List String)
    (entries : String → List LogEntry) :
    Catalogued (paths.foldl (fun i p => i.addAll p (entries p)) idx)
      (fun p => if p ∈ paths then log p ++ entries p else log p) := by
  induction paths generalizing idx log with
  | nil => exact h.congr (fun p e => by simp)
  | cons path paths ih =>
    refine (ih (h.addAll path (entries path))).congr (fun p e => ?_)
    by_cases hp : p = path
    · subst hp
      by_cases hin : p ∈ paths <;> simp [hin]
    · by_cases hin : p ∈ paths <;> simp [hp, hin]

theorem run_indexRemoves (s : Store B) (paths : List String) :
    (s.run (paths.map .indexRemove)).index = paths.foldl Index.removeSegment s.index := by
  induction paths generalizing s with
  | nil => rfl
  | cons path paths ih =>
    rw [List.map_cons, run_cons, ih]
    rfl

theorem run_indexAdds (s : Store B) (path : String) (es : List LogEntry) :
    (s.run (es.map (fun e => .indexAdd e path))).index = s.index.addAll path es := by
  induction es generalizing s with
  | nil => rfl
  | cons e es ih =>
    rw [List.map_cons, run_cons, ih, Index.addAll_cons]
    rfl

theorem run_indexAddEach (s : Store B) (paths : List String) (entries : String → List LogEntry) :
    (s.run (paths.flatMap (fun p => (entries p).map (fun e => .indexAdd e p)))).index =
      paths.foldl (fun i p => i.addAll p (entries p)) s.index := by
  induction paths generalizing s with
  | nil => rfl
  | cons path paths ih =>
    rw [List.flatMap_cons, run_append, ih, run_indexAdds, List.foldl_cons]

end Index

/-- The segment files are the records of a log without a name twice, and the index knows the
log. -/
structure Kept (P : ProtoPackage) (s : Store B) (log : String → List LogEntry) : Prop where
  logged : Logged P s log
  nodup : s.manager.paths.Nodup
  catalogued : Catalogued s.index log

theorem Logged.frame {s t : Store B} (h : Logged P s log) (hman : t.manager = s.manager)
    (hget : ∀ p, IsSeg p → t.disk.files.get p = s.disk.files.get p)
    (hmark : t.disk.marker = s.disk.marker) : Logged P t log := by
  refine ⟨?_, hman ▸ h.unlisted, h.writable, hman ▸ h.segs, ?_⟩
  · intro p hp
    rw [hget p hp, hman]
    exact h.files p hp
  · rw [hman, hmark]
    exact h.active

theorem run_marker {steps : List (Step B)} (h : ∀ st ∈ steps, ∀ text, st ≠ .mark text)
    (s : Store B) : (s.run steps).disk.marker = s.disk.marker := by
  refine run_preserves (I := fun t => t.disk.marker = s.disk.marker) (fun t st hst ht => ?_) rfl
  exact (marker_apply t (h st hst)).trans ht

theorem compacts_marker {closed : List String} {steps : List (Step B)}
    (h : ∀ st ∈ steps, Step.Compacts closed st) (s : Store B) :
    (s.run steps).disk.marker = s.disk.marker := by
  refine run_marker (fun st hst text heq => ?_) s
  subst heq
  exact h _ hst

theorem Logged.readSegment_eq (hP : P.Inverts) {s : Store B} (h : Logged P s log) {p : String}
    (hp : p ∈ s.manager.paths) (hfits : ∀ e ∈ log p, Fits P e) :
    readSegment P s.disk p = .ok (log p) := by
  have hfile := h.files p (h.segs p hp)
  rw [if_pos hp] at hfile
  simp only [readSegment, hfile, decodeSegment_records hP hfits]

/-- What was read of a log is the log. -/
theorem Logged.read (hP : P.Inverts) {s : Store B} (h : Logged P s log) {paths : List String}
    {all : List LogEntry} (hall : readSegments P s.disk paths = .ok all)
    (hpaths : ∀ p ∈ paths, p ∈ s.manager.paths) :
    all = paths.flatMap log ∧ ∀ p ∈ paths, readSegments P s.disk [p] = .ok (log p) := by
  have hread : ∀ p ∈ paths, readSegment P s.disk p = .ok (log p) :=
    fun p hp => h.readSegment_eq hP (hpaths p hp) (h.fits hP hall hp)
  constructor
  · rw [readSegments_entries hall]
    refine List.flatMap_congr (fun p hp => ?_)
    simp only [entriesAt, hread p hp]
  · intro p hp
    simp only [readSegments, hread p hp, Except.map, List.append_nil]

section Run

variable {s : Store B} {newPath : String} {olds : List String}

theorem mergeWrite_index {tmp : String} {part : List LogEntry} {steps : List (Step B)}
    (hsteps : ∀ st ∈ steps, st ∈ mergeWrite P tmp part) (s : Store B) :
    (s.run steps).index = s.index := by
  refine run_index s (fun st hst => ?_)
  have hin := hsteps st hst
  simp only [mergeWrite, List.mem_cons, List.mem_map] at hin
  rcases hin with rfl | rfl | ⟨e, -, rfl⟩ <;> rfl

/-- As long as a merge writes only its temp file and the index, the log stays. -/
theorem Logged.uncommitted (h : Logged P s log) {part : List LogEntry} {steps : List (Step B)}
    (hkinds : ∀ st ∈ steps, st ∈ mergeWrite P (tmpPath newPath) part ∨
      (∃ p, st = .indexRemove p) ∨ ∃ e p, st = .indexAdd e p) :
    Logged P (s.run steps) log ∧ (s.run steps).manager = s.manager := by
  have hman : (s.run steps).manager = s.manager := by
    refine run_manager s (fun st hst => ?_)
    rcases hkinds st hst with hst | ⟨p, rfl⟩ | ⟨e, p, rfl⟩
    · exact (mergeWrite_keeps _ part st hst).1
    · rfl
    · rfl
  refine ⟨h.frame hman ?_ (run_marker ?_ s), hman⟩
  · intro p hp
    refine run_get s (fun st hst => ?_)
    rcases hkinds st hst with hst | ⟨q, rfl⟩ | ⟨e, q, rfl⟩
    · exact (mergeWrite_keeps _ part st hst).2 p (tmpPath_touch hp (.inl rfl)).1
    · simp [Step.touches]
    · simp [Step.touches]
  · intro st hst text heq
    subst heq
    rcases hkinds _ hst with hst | ⟨q, heq⟩ | ⟨e, q, heq⟩
    · exact mergeWrite_compacts (List.mem_singleton_self newPath) part _ hst
    · cases heq
    · cases heq

/-- A merge that gives up over its temp file leaves everything else as it was. -/
theorem Kept.gaveUp (hs : Kept P s log) {steps : List (Step B)} {part : List LogEntry}
    (hsteps : ∀ st ∈ steps, st ∈ mergeWrite P (tmpPath newPath) part) :
    Kept P (s.run steps) log ∧ (s.run steps).manager = s.manager := by
  obtain ⟨hlogged, hman⟩ := hs.logged.uncommitted (fun st hst => .inl (hsteps st hst))
  exact ⟨⟨hlogged, hman ▸ hs.nodup, mergeWrite_index hsteps s ▸ hs.catalogued⟩, hman⟩

/-- The index after the first half of a merge. -/
theorem mergeFront_index (s : Store B) (newPath : String) (paths : List String)
    (all : List LogEntry) :
    (s.run (mergeWrite P (tmpPath newPath) all ++ paths.map .indexRemove)).index =
      paths.foldl Index.removeSegment s.index := by
  rw [run_append, run_indexRemoves, mergeWrite_index (fun _ hst => hst)]

/-- A merge whose rename fails puts back what it took out of the index. -/
theorem Kept.undone (hP : P.Inverts) (hs : Kept P s log) {all : List LogEntry}
    (hlisted : ∀ p ∈ newPath :: olds, p ∈ s.manager.paths)
    (hall : readSegments P s.disk (newPath :: olds) = .ok all) {steps : List (Step B)}
    (hsteps : steps = mergeWrite P (tmpPath newPath) all ++ (newPath :: olds).map .indexRemove ++
      mergeUndo P s.disk (tmpPath newPath) (newPath :: olds)) :
    Kept P (s.run steps) log ∧ (s.run steps).manager = s.manager := by
  have hundo : mergeUndo P s.disk (tmpPath newPath) (newPath :: olds) =
      (.remove (tmpPath newPath) :: (newPath :: olds).flatMap
        (fun p => (log p).map (fun e => .indexAdd e p)) : List (Step B)) := by
    refine congrArg (_ :: ·) (List.flatMap_congr (fun p hp => ?_))
    simp only [(hs.logged.read hP hall hlisted).2 p hp]
  have hkinds : ∀ st ∈ steps, st ∈ mergeWrite P (tmpPath newPath) all ∨
      (∃ p, st = .indexRemove p) ∨ ∃ e p, st = .indexAdd e p := by
    intro st hst
    rw [hsteps, hundo] at hst
    simp only [List.mem_append, List.mem_map] at hst
    rcases hst with (hst | ⟨p, -, rfl⟩) | hst
    · exact .inl hst
    · exact .inr (.inl ⟨p, rfl⟩)
    · rcases List.mem_cons.mp hst with rfl | hst
      · exact .inl List.mem_cons_self
      · obtain ⟨p, -, hst⟩ := List.mem_flatMap.mp hst
        obtain ⟨e, -, rfl⟩ := List.mem_map.mp hst
        exact .inr (.inr ⟨e, p, rfl⟩)
  obtain ⟨hlogged, hman⟩ := hs.logged.uncommitted hkinds
  refine ⟨⟨hlogged, hman ▸ hs.nodup, ?_⟩, hman⟩
  rw [hsteps, hundo, run_append, run_cons, run_indexAddEach, index_apply _ rfl, mergeFront_index]
  refine ((hs.catalogued.removeAll _).addEach _ log).congr (fun p e => ?_)
  by_cases hp : p ∈ newPath :: olds <;>
    simp only [without, hp, if_true, if_false, List.nil_append]

/-- The log after the segments `olds` were folded into the one at `newPath`. -/
def foldInto (log : String → List LogEntry) (newPath : String) (olds : List String) :
    String → List LogEntry :=
  fun p => if p = newPath then (newPath :: olds).flatMap log else without log olds p

theorem mem_foldInto {p : String} {e : LogEntry} (h : e ∈ foldInto log newPath olds p) :
    ∃ q, e ∈ log q := by
  unfold foldInto at h
  split at h
  · obtain ⟨q, -, hq⟩ := List.mem_flatMap.mp h
    exact ⟨q, hq⟩
  · exact ⟨p, (mem_without.mp h).2⟩

/-- What the second half of a merge does to the manager and the index. -/
theorem mergeCommit_run (t : Store B) (enabled ok : Bool) (newPath : String) (olds : List String)
    (all : List LogEntry) :
    let u := t.run (mergeCommit enabled ok newPath olds all)
    u.manager.paths = t.manager.paths.filter (fun p => p ∉ olds) ∧
      u.manager.active = t.manager.active ∧ u.index = t.index.addAll newPath all := by
  have hbloom : ∀ st ∈ (if enabled = true ∧ all.flatMap tokenizeEntry ≠ [] then
      writeBloom newPath (bloomOf B all) ok else [] : List (Step B)),
      st.keepsManager = true ∧ st.keepsIndex = true := by
    intro st hst
    split at hst
    · exact writeBloom_keeps newPath _ ok st hst
    · cases hst
  have hadds : ∀ st ∈ (all.map (fun e => .indexAdd e newPath) : List (Step B)),
      st.keepsManager = true := by
    intro st hst
    obtain ⟨e, -, rfl⟩ := List.mem_map.mp hst
    rfl
  have hremoves : ∀ st ∈ (olds.flatMap (fun op => [.remove op, .remove (bloomPath op)]) :
      List (Step B)), st.keepsManager = true ∧ st.keepsIndex = true := by
    intro st hst
    obtain ⟨op, -, hst⟩ := List.mem_flatMap.mp hst
    simp only [List.mem_cons, List.not_mem_nil, or_false] at hst
    rcases hst with rfl | rfl <;> exact ⟨rfl, rfl⟩
  intro u
  have hman := fun v : Store B => run_manager v (fun st hst => (hremoves st hst).1)
  have hidx := fun v : Store B => run_index v (fun st hst => (hremoves st hst).2)
  simp only [u, mergeCommit, run_append, hman, hidx, run_cons, run_nil]
  generalize hv : t.run (if enabled = true ∧ all.flatMap tokenizeEntry ≠ [] then
    writeBloom newPath (bloomOf B all) ok else []) = v
  have hvman : (v.run (all.map (fun e => .indexAdd e newPath))).manager = t.manager := by
    rw [run_manager v hadds, ← hv, run_manager t (fun st hst => (hbloom st hst).1)]
  obtain ⟨-, hpaths, hactive, -⟩ :=
    finishMerge_layout (v.run (all.map (fun e => .indexAdd e newPath))) newPath olds
  refine ⟨?_, ?_, ?_⟩
  · rw [Step.apply, hpaths, hvman]
  · rw [Step.apply, hactive, hvman]
  · rw [index_apply _ rfl, run_indexAdds, ← hv, run_index t (fun st hst => (hbloom st hst).2)]

/-- The segment files after a merge that goes through. -/
theorem merged_get (s : Store B) (newPath : String) (olds : List String) (all : List LogEntry)
    (enabled ok : Bool) {p : String} (hp : IsSeg p) :
    (s.run (mergeWrite P (tmpPath newPath) all ++ (newPath :: olds).map .indexRemove ++
      .rename (tmpPath newPath) newPath ::
        mergeCommit enabled ok newPath olds all)).disk.files.get p =
        if p ∈ olds then none
        else if p = newPath then some (all.flatMap (record P)) else s.disk.files.get p := by
  obtain ⟨hnew, -, hothers⟩ := merged_run (P := P) s newPath olds all
  have hcompacts : ∀ st ∈ (mergeCommit enabled ok newPath olds all : List (Step B)),
      Step.Compacts (newPath :: olds) st :=
    mergeCommit_compacts List.mem_cons_self (fun q hq => List.mem_cons_of_mem _ hq) enabled ok all
  have hchanges : ∀ st ∈ (mergeCommit enabled ok newPath olds all : List (Step B)),
      st.replaces p = false ∧ (p ∉ olds → st.removes p = false) := mergeCommit_changes hp
  rw [List.append_cons, run_append,
    unreplaced_get hcompacts hp (fun st hst => (hchanges st hst).1)]
  by_cases hold : p ∈ olds
  · have hremove : (mergeCommit enabled ok newPath olds all : List (Step B)).any
        (Step.removes p) = true := by
      refine List.any_eq_true.mpr ⟨.remove p, ?_, by simp [Step.removes]⟩
      refine List.mem_append_right _ (List.mem_flatMap.mpr ⟨p, hold, List.mem_cons_self⟩)
    rw [if_pos hremove, if_pos hold]
  · have hkeep : (mergeCommit enabled ok newPath olds all : List (Step B)).any
        (Step.removes p) = false :=
      List.any_eq_false.mpr (fun st hst => by simp [(hchanges st hst).2 hold])
    rw [hkeep, if_neg Bool.false_ne_true, if_neg hold]
    split
    · rename_i heq
      rw [heq, hnew]
    · rename_i hne
      exact hothers p hp hne

/-- Leaving out the end of a run in the middle of a list. -/
theorem filter_run {front olds back : List String} {newPath : String}
    (h : (front ++ (newPath :: olds) ++ back).Nodup) :
    newPath ∉ olds ∧ (∀ p ∈ front ++ back, p ∉ newPath :: olds) ∧
      (front ++ (newPath :: olds) ++ back).filter (fun p => p ∉ olds) =
        front ++ newPath :: back := by
  obtain ⟨hleft, -, hright⟩ := List.nodup_append.mp h
  obtain ⟨-, hrun, hmiddle⟩ := List.nodup_append.mp hleft
  have hnew : newPath ∉ olds := (List.nodup_cons.mp hrun).1
  have hout : ∀ p ∈ front ++ back, p ∉ newPath :: olds := by
    intro p hp hin
    rcases List.mem_append.mp hp with hp | hp
    · exact hmiddle p hp p hin rfl
    · exact hright p (List.mem_append_right _ hin) p hp rfl
  have hkeep : ∀ l : List String, (∀ p ∈ l, p ∈ front ++ back) →
      l.filter (fun p => p ∉ olds) = l := by
    intro l hl
    refine List.filter_eq_self.mpr (fun p hp => ?_)
    simpa using fun hin => hout p (hl p hp) (List.mem_cons_of_mem _ hin)
  have hdrop : olds.filter (fun p => p ∉ olds) = [] :=
    List.filter_eq_nil_iff.mpr (fun p hp => by simpa using hp)
  refine ⟨hnew, hout, ?_⟩
  rw [List.filter_append, List.filter_append, List.filter_cons_of_pos (by simpa using hnew), hdrop,
    hkeep front (fun p hp => List.mem_append_left _ hp),
    hkeep back (fun p hp => List.mem_append_right _ hp), List.append_assoc, List.singleton_append]

/-- Folding the run into its first segment keeps the entries and their order. -/
theorem flatMap_foldInto {front back : List String}
    (h : (front ++ (newPath :: olds) ++ back).Nodup) :
    (front ++ newPath :: back).flatMap (foldInto log newPath olds) =
      (front ++ (newPath :: olds) ++ back).flatMap log := by
  obtain ⟨-, hout, -⟩ := filter_run h
  have hsame : ∀ l : List String, (∀ p ∈ l, p ∈ front ++ back) →
      l.flatMap (foldInto log newPath olds) = l.flatMap log := by
    intro l hl
    refine List.flatMap_congr (fun p hp => ?_)
    obtain ⟨hne, hold⟩ := not_or.mp (List.mem_cons.not.mp (hout p (hl p hp)))
    rw [foldInto, if_neg hne, without, if_neg hold]
  have hnew : foldInto log newPath olds newPath = (newPath :: olds).flatMap log := if_pos rfl
  rw [List.flatMap_append, List.flatMap_cons, List.flatMap_append, List.flatMap_append,
    hsame front (fun p hp => List.mem_append_left _ hp),
    hsame back (fun p hp => List.mem_append_right _ hp), hnew, List.append_assoc]

/-- A merge that goes through folds its run of segments into the first. -/
theorem Kept.committed (hP : P.Inverts) (hs : Kept P s log) {front back : List String}
    (hpaths : s.manager.paths = front ++ (newPath :: olds) ++ back) (hback : back ≠ [])
    {all : List LogEntry} (hall : readSegments P s.disk (newPath :: olds) = .ok all)
    {enabled ok : Bool} {steps : List (Step B)}
    (hsteps : steps = mergeWrite P (tmpPath newPath) all ++ (newPath :: olds).map .indexRemove ++
      .rename (tmpPath newPath) newPath :: mergeCommit enabled ok newPath olds all)
    (hcompacts : ∀ st ∈ steps, Step.Compacts (newPath :: olds) st) :
    Kept P (s.run steps) (foldInto log newPath olds) ∧
      (s.run steps).manager.paths = front ++ newPath :: back := by
  have hlisted : ∀ p ∈ newPath :: olds, p ∈ s.manager.paths := by
    intro p hp
    rw [hpaths]
    exact List.mem_append_left _ (List.mem_append_right _ hp)
  have hcontent := (hs.logged.read hP hall hlisted).1
  have hnodup := hs.nodup
  rw [hpaths] at hnodup
  obtain ⟨hnew, hout, hrun⟩ := filter_run hnodup
  obtain ⟨-, hman, -⟩ := merged_run (P := P) s newPath olds all
  obtain ⟨hfilter, hactive, hindex⟩ := mergeCommit_run
    (s.run (mergeWrite P (tmpPath newPath) all ++ (newPath :: olds).map .indexRemove ++
      [.rename (tmpPath newPath) newPath])) enabled ok newPath olds all
  rw [← run_append, ← List.append_cons, ← hsteps, hman] at hfilter hactive
  rw [← run_append, ← List.append_cons, ← hsteps] at hindex
  have hpaths' : (s.run steps).manager.paths = front ++ newPath :: back := by
    rw [hfilter, hpaths, hrun]
  have hmem : ∀ p, p ∈ (s.run steps).manager.paths ↔ p ∈ s.manager.paths ∧ p ∉ olds := by
    intro p
    rw [hfilter, List.mem_filter, decide_eq_true_eq]
  have hhead : newPath ∈ s.manager.paths := hlisted newPath List.mem_cons_self
  refine ⟨⟨⟨?_, ?_, ?_, ?_, ?_⟩, ?_, ?_⟩, hpaths'⟩
  · intro p hp
    rw [hsteps, merged_get s newPath olds all enabled ok hp, ← hsteps]
    by_cases hold : p ∈ olds
    · rw [if_pos hold, if_neg (fun hin => ((hmem p).mp hin).2 hold)]
    · rw [if_neg hold]
      by_cases heq : p = newPath
      · rw [if_pos heq, if_pos ((hmem p).mpr ⟨heq ▸ hhead, hold⟩), foldInto, if_pos heq, hcontent]
      · rw [if_neg heq, hs.logged.files p hp]
        simp only [hmem, hold, not_false_eq_true, and_true, foldInto, if_neg heq, without,
          if_false]
  · intro p hp
    have hne : p ≠ newPath := fun heq => hp ((hmem p).mpr ⟨heq ▸ hhead, heq ▸ hnew⟩)
    rw [foldInto, if_neg hne, without]
    split
    · rfl
    · rename_i hold
      exact hs.logged.unlisted p (fun hin => hp ((hmem p).mpr ⟨hin, hold⟩))
  · intro p e he
    obtain ⟨q, hq⟩ := mem_foldInto he
    exact hs.logged.writable q e hq
  · intro p hp
    exact hs.logged.segs p ((hmem p).mp hp).1
  · obtain ⟨n, size, hact, hlast, hmark⟩ := hs.logged.active
    refine ⟨n, size, hactive.trans hact, ?_, (compacts_marker hcompacts s).trans hmark⟩
    rw [hpaths, List.getLast?_append_of_ne_nil _ hback] at hlast
    rw [hpaths', List.append_cons, List.getLast?_append_of_ne_nil _ hback, hlast]
  · rw [hfilter]
    exact hs.nodup.filter _
  · rw [hindex, run_append, run_cons, run_nil, index_apply _ rfl, mergeFront_index]
    refine ((hs.catalogued.removeAll _).addAll newPath all).congr (fun p e => ?_)
    by_cases heq : p = newPath
    · simp [foldInto, without, heq, hcontent]
    · simp [foldInto, without, heq]

end Run

/-- The entries of a store, segment by segment. -/
def sequence (s : Store B) (log : String → List LogEntry) : List LogEntry :=
  s.manager.paths.flatMap log

theorem Kept.mem_sequence {s : Store B} (hs : Kept P s log) {e : LogEntry} :
    e ∈ sequence s log ↔ ∃ p, e ∈ log p := by
  rw [sequence, List.mem_flatMap]
  constructor
  · intro h
    obtain ⟨p, _, he⟩ := h
    exact ⟨p, he⟩
  · intro h
    obtain ⟨p, he⟩ := h
    exact ⟨p, hs.logged.mem_paths he, he⟩

/-- One run of a merge pass, whatever fails in it: the sequence of entries stays, and so do the
segments behind the run. -/
theorem Kept.mergeRun (hP : P.Inverts) {s : Store B} (hs : Kept P s log)
    {front run back : List String} (hpaths : s.manager.paths = front ++ run ++ back)
    (hback : back ≠ []) (f : MergeFaults) :
    ∃ log' front', Kept P (s.run (mergeRun P s f run)) log' ∧
      (s.run (mergeRun P s f run)).manager.paths = front' ++ back ∧
      sequence (s.run (mergeRun P s f run)) log' = sequence s log := by
  cases run with
  | nil =>
    rw [List.append_nil] at hpaths
    exact ⟨log, front, hs, hpaths, rfl⟩
  | cons newPath olds =>
    have hcompacts : ∀ st ∈ Storage.mergeRun P s f (newPath :: olds),
        Step.Compacts (newPath :: olds) st := mergeRun_compacts (fun p hp => hp) s f
    have hlisted : ∀ p ∈ newPath :: olds, p ∈ s.manager.paths := by
      intro p hp
      rw [hpaths]
      exact List.mem_append_left _ (List.mem_append_right _ hp)
    rcases mergeRun_outcome (P := P) s f newPath olds with
      ⟨part, hpart⟩ | ⟨all, hall, -, heq | heq⟩
    · obtain ⟨hkept, hman⟩ := hs.gaveUp hpart
      exact ⟨log, front ++ (newPath :: olds), hkept, by rw [hman, hpaths],
        by rw [sequence, hman]; rfl⟩
    · obtain ⟨hkept, hman⟩ := hs.undone hP hlisted hall heq
      exact ⟨log, front ++ (newPath :: olds), hkept, by rw [hman, hpaths],
        by rw [sequence, hman]; rfl⟩
    · obtain ⟨hkept, hpaths'⟩ := hs.committed hP hpaths hback hall heq hcompacts
      refine ⟨_, front ++ [newPath], hkept, by rw [hpaths', List.append_cons], ?_⟩
      have hnodup := hs.nodup
      rw [hpaths] at hnodup
      rw [sequence, sequence, hpaths', hpaths, flatMap_foldInto hnodup]

theorem Kept.flush (hP : P.Inverts) {s : Store B} (hs : Kept P s log)
    {front run back : List String} (hpaths : s.manager.paths = front ++ run ++ back)
    (hback : back ≠ []) (faults : String → MergeFaults) :
    ∃ log' front', Kept P (s.run (flush P s faults run)) log' ∧
      (s.run (flush P s faults run)).manager.paths = front' ++ back ∧
      sequence (s.run (flush P s faults run)) log' = sequence s log := by
  unfold Storage.flush
  split
  · exact hs.mergeRun hP hpaths hback _
  · exact ⟨log, front ++ run, hs, hpaths, rfl⟩

/-- The loop of a merge pass. The runs stand next to each other in the list of segments. -/
theorem Kept.mergeLoop (hP : P.Inverts) (threshold : Int) (faults : String → MergeFaults)
    {s : Store B} (hs : Kept P s log) {front run rest back : List String}
    (hpaths : s.manager.paths = front ++ run ++ (rest ++ back)) (hback : back ≠ []) :
    ∃ log', Kept P (s.run (mergeLoop P threshold faults s run rest)) log' ∧
      sequence (s.run (mergeLoop P threshold faults s run rest)) log' = sequence s log := by
  induction rest generalizing s log front run with
  | nil =>
    obtain ⟨log', -, hkept, -, hsame⟩ := hs.flush hP hpaths hback faults
    exact ⟨log', hkept, hsame⟩
  | cons path rest ih =>
    simp only [Storage.mergeLoop]
    split
    · have hlonger : s.manager.paths = front ++ (run ++ [path]) ++ (rest ++ back) := by
        rw [hpaths]
        simp
      exact ih hs hlonger
    · have hrest : path :: rest ++ back ≠ [] := by simp
      obtain ⟨log₁, front₁, hkept₁, hpaths₁, hsame₁⟩ := hs.flush hP hpaths hrest faults
      have hnext : (s.run (Storage.flush P s faults run)).manager.paths =
          front₁ ++ [path] ++ [] ++ (rest ++ back) := by
        rw [hpaths₁]
        simp
      obtain ⟨log₂, hkept₂, hsame₂⟩ := ih hkept₁ hnext
      rw [run_append]
      exact ⟨log₂, hkept₂, hsame₂.trans hsame₁⟩

/-- A merge pass keeps the sequence of entries, and the index follows the segments. -/
theorem Kept.mergePass (hP : P.Inverts) {s : Store B} (hs : Kept P s log) (threshold : Int)
    (faults : String → MergeFaults) :
    ∃ log', Kept P (s.run (runMergePass P s threshold faults)) log' ∧
      sequence (s.run (runMergePass P s threshold faults)) log' = sequence s log := by
  simp only [runMergePass]
  split
  · exact ⟨log, hs, rfl⟩
  split
  · exact ⟨log, hs, rfl⟩
  · obtain ⟨n, -, -, hlast, -⟩ := hs.logged.active
    obtain ⟨closed, hcat⟩ := List.getLast?_eq_some_iff.mp hlast
    have hclosed : s.manager.listClosedSegments = closed := by
      rw [Manager.listClosedSegments, hcat, List.dropLast_concat]
    have hpaths : s.manager.paths = [] ++ [] ++ (closed ++ [segmentName n]) := hcat
    rw [hclosed]
    exact hs.mergeLoop hP threshold faults hpaths (List.cons_ne_nil _ _)

end LogEngine.Storage
