import LogEngine.Storage.AtRest

namespace LogEngine.Storage
open Lib

variable {B : BloomPackage} {P : ProtoPackage} {log : String → List LogEntry} {s : Store B}

/-- What a retention pass does to a segment that it drops. -/
def dropSteps (B : BloomPackage) (path : String) : List (Step B) :=
  [.deleteSegment path, .indexRemove path, .remove path, .remove (bloomPath path)]

/-- Some entry has a date, and all entries are before the cutoff. -/
def Expired (cutoff : Int64) (entries : List LogEntry) : Prop :=
  (∃ e ∈ entries, 0 < e.timestamp) ∧ ∀ e ∈ entries, e.timestamp < cutoff

instance (cutoff : Int64) (entries : List LogEntry) : Decidable (Expired cutoff entries) :=
  inferInstanceAs (Decidable (_ ∧ _))

/-- The test that `runRetentionPass` makes of the newest date. -/
theorem expired_iff {cutoff : Int64} {entries : List LogEntry} :
    Expired cutoff entries ↔ maxTimestamp entries > 0 ∧ maxTimestamp entries < cutoff := by
  have hdated : (∃ e ∈ entries, 0 < e.timestamp) ↔ maxTimestamp entries > 0 := by
    rw [gt_iff_lt, Int64.lt_iff_toInt_lt, Int64.toInt_zero, ← Int.not_le, maxTimestamp_le]
    simp [Int64.lt_iff_toInt_lt]
  rw [Expired, hdated]
  refine and_congr_right (fun hpos => ?_)
  rw [gt_iff_lt, Int64.lt_iff_toInt_lt, Int64.toInt_zero] at hpos
  constructor
  · intro hbefore
    obtain ⟨e, he, hdate⟩ := hdated.mpr (by rwa [gt_iff_lt, Int64.lt_iff_toInt_lt])
    have hcutoff := Int64.lt_iff_toInt_lt.mp (hbefore e he)
    rw [Int64.lt_iff_toInt_lt, Int64.toInt_zero] at hdate
    have hle : (maxTimestamp entries).toInt ≤ cutoff.toInt - 1 := by
      refine maxTimestamp_le.mpr ⟨by omega, fun x hx => ?_⟩
      exact Int.le_sub_one_of_lt (Int64.lt_iff_toInt_lt.mp (hbefore x hx))
    rw [Int64.lt_iff_toInt_lt]
    omega
  · intro hlt e he
    rw [Int64.lt_iff_toInt_lt] at hlt ⊢
    exact lt_of_le_of_lt (le_maxTimestamp he) hlt

theorem without_without (log : String → List LogEntry) (xs ys : List String) :
    without (without log xs) ys = without log (xs ++ ys) := by
  funext p
  simp only [without, List.mem_append]
  by_cases hy : p ∈ ys <;> by_cases hx : p ∈ xs <;> simp [hx, hy]

/-- Dropping closed segments empties their logs and leaves the others. -/
theorem Kept.dropped (hs : Kept P s log) {gone : List String}
    (hopen : ∀ p ∈ gone, s.manager.active.map Segment.path ≠ some p) :
    Kept P (s.run (gone.flatMap (dropSteps B))) (without log gone) ∧
      (s.run (gone.flatMap (dropSteps B))).manager.paths =
        s.manager.paths.filter (fun p => p ∉ gone) ∧
      (s.run (gone.flatMap (dropSteps B))).manager.active = s.manager.active := by
  induction gone generalizing s log with
  | nil =>
    refine ⟨?_, by simp [run_nil], rfl⟩
    have hsame : without log [] = log := by
      funext p
      simp [without]
    rw [hsame]
    exact hs
  | cons path gone ih =>
    obtain ⟨hpath, hgone⟩ := List.forall_mem_cons.mp hopen
    rw [List.flatMap_cons, run_append]
    obtain ⟨hkept, hpaths, hactive⟩ := ih (hs.deleted hpath) hgone
    rw [without_without] at hkept
    refine ⟨hkept, ?_, hactive⟩
    refine hpaths.trans ?_
    show (s.manager.paths.filter (fun p => p ≠ path)).filter (fun p => p ∉ gone) = _
    rw [List.filter_filter]
    congr 1
    funext p
    simp only [List.mem_cons, not_or, Bool.decide_and]
    exact Bool.and_comm _ _

theorem Kept.readSegments_one (hP : P.Inverts) (hs : Kept P s log) {p : String}
    (hp : p ∈ s.manager.paths) (hfits : ∀ e ∈ log p, Fits P e) :
    readSegments P s.disk [p] = .ok (log p) := by
  simp only [readSegments, hs.logged.readSegment_eq hP hp hfits, Except.map, List.append_nil]

/-- A retention pass drops the segments that are expired before it, and no others. -/
theorem Kept.retentionLoop_eq (hP : P.Inverts) (cutoff : Int64) {rest : List String}
    (hs : Kept P s log) (hfits : ∀ p, ∀ e ∈ log p, Fits P e) (hnodup : rest.Nodup)
    (hlisted : ∀ p ∈ rest, p ∈ s.manager.paths)
    (hopen : ∀ p ∈ rest, s.manager.active.map Segment.path ≠ some p) :
    Storage.retentionLoop P cutoff s rest =
      (rest.filter (fun p => Expired cutoff (log p))).flatMap (dropSteps B) := by
  induction rest generalizing s log with
  | nil => rfl
  | cons path rest ih =>
    obtain ⟨hpath, hrest⟩ := List.nodup_cons.mp hnodup
    obtain ⟨hin, hins⟩ := List.forall_mem_cons.mp hlisted
    obtain ⟨hclosed, hcloseds⟩ := List.forall_mem_cons.mp hopen
    have hone : Storage.retainOne P s cutoff path =
        if Expired cutoff (log path) then dropSteps B path else [] := by
      simp only [Storage.retainOne, hs.readSegments_one hP hin (hfits path)]
      exact if_congr expired_iff.symm rfl rfl
    rw [Storage.retentionLoop, hone, List.filter_cons]
    split
    · rename_i hexpired
      rw [if_pos (by simpa using hexpired), List.flatMap_cons]
      have hkept : Kept P (s.run (dropSteps B path)) (without log [path]) := hs.deleted hclosed
      rw [ih hkept (fun p e he => hfits p e (mem_without.mp he).2) hrest ?_ hcloseds]
      · refine congrArg _ (congrArg _ (List.filter_congr (fun p hp => ?_)))
        have hne : p ∉ [path] := fun h => hpath (List.mem_singleton.mp h ▸ hp)
        rw [without, if_neg hne]
      · intro p hp
        refine List.mem_filter.mpr ⟨hins p hp, ?_⟩
        simpa using fun h : p = path => hpath (h ▸ hp)
    · rename_i hlive
      rw [if_neg (by simpa using hlive)]
      exact ih hs hfits hrest hins hcloseds

/-- The segments that a retention pass drops. -/
def retired (P : ProtoPackage) (s : Store B) (now : Int64) (days : Int) : List String :=
  if days ≤ 0 then []
  else s.manager.listClosedSegments.filter (fun p =>
    Expired (retentionCutoff now days) (entriesAt P s.disk p))

theorem Kept.retentionPass_eq (hP : P.Inverts) (hs : Kept P s log) (hlayout : Layout s)
    (hfits : ∀ p, ∀ e ∈ log p, Fits P e) (now : Int64) (days : Int) :
    runRetentionPass P s now days = (retired P s now days).flatMap (dropSteps B) := by
  unfold runRetentionPass retired
  split
  · rfl
  · have hlisted : ∀ p ∈ s.manager.listClosedSegments, p ∈ s.manager.paths :=
      fun p hp => List.dropLast_subset _ hp
    have hnodup : s.manager.listClosedSegments.Nodup :=
      hs.nodup.sublist (List.dropLast_sublist _)
    rw [hs.retentionLoop_eq hP _ hfits hnodup hlisted (fun p hp heq => ?_)]
    · refine congrArg _ (List.filter_congr (fun p hp => ?_))
      rw [(hs.logged.readable hP hfits).2 p (hs.logged.segs p (hlisted p hp))]
    · obtain ⟨seg, hseg, hpath⟩ := Option.map_eq_some_iff.mp heq
      exact hlayout.active_open hseg (hpath ▸ hp)

theorem retired_closed {p : String} {now : Int64} {days : Int} (h : p ∈ retired P s now days) :
    p ∈ s.manager.listClosedSegments := by
  unfold retired at h
  split at h
  · cases h
  · exact List.mem_of_mem_filter h

theorem Layout.retired_open (h : Layout s) {now : Int64} {days : Int} :
    ∀ p ∈ retired P s now days, s.manager.active.map Segment.path ≠ some p := by
  intro p hp heq
  obtain ⟨seg, hseg, hpath⟩ := Option.map_eq_some_iff.mp heq
  exact h.active_open hseg (hpath ▸ retired_closed hp)

/-- What a node is left with after a retention pass. -/
theorem Kept.retired (hP : P.Inverts) (hs : Kept P s log) (hlayout : Layout s)
    (hfits : ∀ p, ∀ e ∈ log p, Fits P e) (now : Int64) (days : Int) :
    Kept P (s.run (runRetentionPass P s now days)) (without log (Storage.retired P s now days)) ∧
      (s.run (runRetentionPass P s now days)).manager.paths =
        s.manager.paths.filter (fun p => p ∉ Storage.retired P s now days) := by
  rw [hs.retentionPass_eq hP hlayout hfits]
  obtain ⟨hkept, hpaths, -⟩ := hs.dropped hlayout.retired_open
  exact ⟨hkept, hpaths⟩

theorem listClosedSegments_filter (hs : Layout s) {t : Store B} {gone : List String}
    (hpaths : t.manager.paths = s.manager.paths.filter (fun p => p ∉ gone))
    (hopen : ∀ p ∈ gone, s.manager.active.map Segment.path ≠ some p) :
    t.manager.listClosedSegments =
      s.manager.listClosedSegments.filter (fun p => p ∉ gone) := by
  obtain ⟨seg, hactive, hlast⟩ := hs.active
  obtain ⟨closed, hclosed⟩ := List.getLast?_eq_some_iff.mp hlast
  have hseg : seg.path ∉ gone := fun h => hopen _ h (by rw [hactive, Option.map_some])
  simp only [Manager.listClosedSegments, hpaths, hclosed, List.filter_append, List.filter_cons,
    hseg, not_false_eq_true, decide_true, if_true, List.filter_nil, List.dropLast_concat]

/-- After a pass nothing is left for another one. -/
theorem Kept.retired_none (hP : P.Inverts) (hs : Kept P s log) (hlayout : Layout s)
    (hfits : ∀ p, ∀ e ∈ log p, Fits P e) (now : Int64) (days : Int) :
    Storage.retired P (s.run (runRetentionPass P s now days)) now days = [] := by
  obtain ⟨hkept, hpaths⟩ := hs.retired hP hlayout hfits now days
  have hclosed := listClosedSegments_filter hlayout hpaths hlayout.retired_open
  have hfits' : ∀ p, ∀ e ∈ without log (Storage.retired P s now days) p, Fits P e :=
    fun p e he => hfits p e (mem_without.mp he).2
  refine List.eq_nil_iff_forall_not_mem.mpr (fun p hp => ?_)
  have hmem := retired_closed hp
  rw [hclosed, List.mem_filter, decide_eq_true_eq] at hmem
  obtain ⟨hin, hkeeps⟩ := hmem
  refine hkeeps ?_
  have hseg := hs.logged.segs p (List.dropLast_subset _ hin)
  unfold Storage.retired at hp ⊢
  split at hp
  · cases hp
  · rename_i hdays
    rw [if_neg hdays]
    have hexpired := (List.mem_filter.mp hp).2
    rw [(hkept.logged.readable hP hfits').2 p hseg, without, if_neg hkeeps] at hexpired
    rw [← (hs.logged.readable hP hfits).2 p hseg] at hexpired
    exact List.mem_filter.mpr ⟨hin, hexpired⟩

theorem retired_old {p : String} {now : Int64} {days : Int} (h : p ∈ retired P s now days)
    {e : LogEntry} (he : e ∈ entriesAt P s.disk p) :
    0 < days ∧ e.timestamp < retentionCutoff now days := by
  unfold retired at h
  split at h
  · cases h
  · rename_i hdays
    obtain ⟨-, hbefore⟩ := of_decide_eq_true (List.mem_filter.mp h).2
    exact ⟨by omega, hbefore e he⟩

/-- A retention pass takes out entries from before its cutoff only. -/
theorem Steady.retentionPass (hP : P.Inverts) {accepted : List LogEntry}
    (h : Steady P s log accepted) (hfits : ∀ e ∈ accepted, Fits P e) (now : Int64) (days : Int) :
    Steady P (s.run (runRetentionPass P s now days)) (without log (retired P s now days))
        accepted ∧
      ∀ p, ∀ e ∈ log p, e ∉ without log (retired P s now days) p →
        0 < days ∧ e.timestamp < retentionCutoff now days := by
  have hcompacts := runRetentionPass_compacts (P := P) s now days
  have hlog := h.fits_iff.mpr hfits
  obtain ⟨hkept, hpaths⟩ := h.kept.retired hP h.layout hlog now days
  refine ⟨⟨h.layout.compact hcompacts, hkept,
    fun p hp => h.named p (compacts_paths hcompacts s p hp),
    fun p e he => h.stored p e (mem_without.mp he).2,
    fun e he hlarge => absurd (hfits e he) hlarge⟩, fun p e he hlost => ?_⟩
  have hgone : p ∈ retired P s now days := by
    by_contra hnot
    exact hlost (mem_without.mpr ⟨hnot, he⟩)
  refine retired_old hgone ?_
  rwa [(h.kept.logged.readable hP hlog).2 p (h.kept.logged.segs p (h.kept.logged.mem_paths he))]

/-- A retention pass is exact: it drops the closed segments whose entries are all from before the
cutoff, and leaves the other segments, their order and their entries as they are; the index
resolves as one that is rebuilt from them, and a second pass at that time has nothing to do. -/
theorem retention_exact (hP : P.Inverts) {maxSegmentBytes : Int} {bloomEnabled : Bool}
    {acts : List Action} (hs : history P (fresh B maxSegmentBytes bloomEnabled) acts = some s)
    (hleft : NumbersLeft P (fresh B maxSegmentBytes bloomEnabled) acts)
    (hfits : ∀ e ∈ acts.flatMap (Action.accepted P), Fits P e) (now : Int64) (days : Int) :
    let t := s.run (runRetentionPass P s now days)
    t.manager.paths = s.manager.paths.filter (fun p => p ∉ retired P s now days) ∧
    (∀ p, IsSeg p → entriesAt P t.disk p =
      if p ∈ retired P s now days then [] else entriesAt P s.disk p) ∧
    ResolvesRebuilt P t ∧ runRetentionPass P t now days = [] := by
  intro t
  obtain ⟨log, hsteady⟩ :=
    (fresh_steady P B maxSegmentBytes bloomEnabled).history hP hs hleft
  rw [List.nil_append] at hsteady
  have hlog := hsteady.fits_iff.mpr hfits
  obtain ⟨hkept, hpaths⟩ := hsteady.kept.retired hP hsteady.layout hlog now days
  have hlog' : ∀ p, ∀ e ∈ without log (retired P s now days) p, Fits P e :=
    fun p e he => hlog p e (mem_without.mp he).2
  have hlayout : Layout t := hsteady.layout.compact (runRetentionPass_compacts s now days)
  refine ⟨hpaths, fun p hp => ?_, (hkept.resolvesRebuilt_iff hP).mpr hlog', ?_⟩
  · rw [(hkept.logged.readable hP hlog').2 p hp, (hsteady.kept.logged.readable hP hlog).2 p hp]
    rfl
  · rw [hkept.retentionPass_eq hP hlayout hlog',
      hsteady.kept.retired_none hP hsteady.layout hlog, List.flatMap_nil]

/-- Four lines in four segments, the third one later than the second by days. -/
def datedActs : List Action :=
  [.ingest (line "a" "t" "orders" "disk full" 1), .ingest (line "b" "t" "orders" "link down" 2),
    .ingest (line "c" "t" "orders" "disk full" 300000000000000),
    .ingest (line "d" "t" "orders" "link up" 4)]

theorem retention_exact_dated :
    ∃ s : Store exactFilter, history protobuf (fresh exactFilter 40 true) datedActs = some s ∧
      retired protobuf s 90000000000000 1 = [segmentName 1, segmentName 2] ∧
      let t := s.run (runRetentionPass protobuf s 90000000000000 1)
      t.manager.paths = [segmentName 3, segmentName 4] ∧
        runRetentionPass protobuf t 90000000000000 1 = [] := by
  have hsome : (history protobuf (fresh exactFilter 40 true) datedActs).map
      (fun s => (s.manager.paths, retired protobuf s 90000000000000 1)) =
        some ((List.range 4).map (fun k => segmentName (.ofNat (k + 1))),
          [segmentName 1, segmentName 2]) := by
    decide +kernel
  obtain ⟨s, hs, hpair⟩ := Option.map_eq_some_iff.mp hsome
  rw [Prod.mk.injEq] at hpair
  have hfits : ∀ e ∈ datedActs.flatMap (Action.accepted protobuf), Fits protobuf e := by
    decide +kernel
  obtain ⟨hpaths, -, -, hagain⟩ := retention_exact protobuf_inverts hs (by decide +kernel) hfits
    90000000000000 1
  refine ⟨s, hs, hpair.2, ?_, hagain⟩
  rw [hpaths, hpair.1, hpair.2]
  decide +kernel

end LogEngine.Storage
