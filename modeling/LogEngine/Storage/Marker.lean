import LogEngine.Storage.Layout
import LogEngine.Packages

namespace LogEngine.Storage
open Lib

variable {B : BloomPackage} {d : Disk}

/-- The files that a node writes to its data directory, besides the marker. -/
def DataFile (name : String) : Prop :=
  IsSeg name ∨ (∃ p, name = bloomPath p) ∨ ∃ p, name = tmpPath p

/-- What a crash inside `openNewSegment` can leave in the marker: nothing was written yet, or some
first part of the new name. -/
def Interrupted (old new : String) (marker : Option String) : Prop :=
  marker = none ∨ marker = some old ∨ ∃ text, marker = some text ∧ text.toList <+: new.toList

theorem segmentName_runes (n : UInt64) :
    ∀ c ∈ (segmentName n).toList, isSpace c = false ∧ c ≠ 'm' ∧ c ≠ 'p' := by
  have hpadded : ∀ (w k : Nat), ∀ c ∈ padded w k, c ≠ 'm' ∧ c ≠ 'p' := by
    intro w
    induction w with
    | zero => simp [padded]
    | succ w ih =>
      intro k c hc
      rcases List.mem_append.mp hc with hc | hc
      · exact ih _ c hc
      · have hdigit : ∀ d < 10, Char.ofNat (48 + d) ≠ 'm' ∧ Char.ofNat (48 + d) ≠ 'p' := by decide
        rw [List.mem_singleton.mp hc]
        exact hdigit _ (Nat.mod_lt k (by omega))
  intro c hc
  rw [segmentName, String.toList_ofList] at hc
  rcases List.mem_append.mp hc with hc | hc
  · exact ⟨padded_isSpace _ _ c hc, hpadded _ _ c hc⟩
  · have hsuffix : ['.', 's', 'e', 'g'].all
        (fun c => !isSpace c && decide (c ≠ 'm') && decide (c ≠ 'p')) = true := by decide
    simpa [and_assoc] using List.all_eq_true.mp hsuffix c hc

/-- A data file that is named by the start of a segment name is a segment. -/
theorem DataFile.seg_of_initial {text : String} (h : DataFile text) {n : UInt64}
    (hinitial : text.toList <+: (segmentName n).toList) : IsSeg text := by
  have hrunes : ∀ c ∈ text.toList, c ≠ 'm' ∧ c ≠ 'p' :=
    fun c hc => (segmentName_runes n c (hinitial.subset hc)).2
  rcases h with hseg | ⟨p, hbloom⟩ | ⟨p, htmp⟩
  · exact hseg
  · exact absurd rfl (hrunes 'm' (by simp [hbloom, bloomPath, String.toList_append])).1
  · exact absurd rfl (hrunes 'p' (by simp [htmp, tmpPath, String.toList_append])).2

theorem markedSegment_some {text : String} (hmark : d.marker = some text)
    (htext : ∀ c ∈ text.toList, isSpace c = false) : markedSegment d =
      if text = "" ∨ (d.files.get text).isSome = true then some text else none := by
  simp only [markedSegment, hmark, trimSpace_eq htext]

theorem Interrupted.text_or_none {old new : UInt64}
    (h : Interrupted (segmentName old) (segmentName new) d.marker) :
    d.marker = none ∨ ∃ text n, d.marker = some text ∧ text.toList <+: (segmentName n).toList := by
  rcases h with hnone | hold | ⟨text, htext, hinitial⟩
  · exact .inl hnone
  · exact .inr ⟨_, old, hold, List.prefix_rfl⟩
  · exact .inr ⟨text, new, htext, hinitial⟩

/-- Unless it is empty, such a marker names a segment that exists, or nothing. -/
theorem Interrupted.markedSegment {old new : UInt64}
    (h : Interrupted (segmentName old) (segmentName new) d.marker)
    (hfiles : ∀ name, (d.files.get name).isSome = true → DataFile name)
    (hne : d.marker ≠ some "") :
    markedSegment d = none ∨ ∃ name, markedSegment d = some name ∧ name ∈ matchedSegments d := by
  rcases h.text_or_none with hnone | ⟨text, n, htext, hinitial⟩
  · exact .inl (by simp [Storage.markedSegment, hnone])
  · have hblank : text ≠ "" := fun heq => hne (heq ▸ htext)
    rw [markedSegment_some htext (fun c hc => (segmentName_runes n c (hinitial.subset hc)).1)]
    by_cases hsome : (d.files.get text).isSome = true
    · refine .inr ⟨text, if_pos (.inr hsome), mem_matchedSegments.mpr ⟨?_, hsome⟩⟩
      exact (hfiles text hsome).seg_of_initial hinitial
    · exact .inl (if_neg (by simp [hblank, hsome]))

/-- A store opened over the directory `d`: its paths are the segments of the directory in some
order, and the last is the active one, which was there or is the first of all. -/
structure Recovered (d : Disk) (s : Store B) : Prop where
  active : ∃ seg, s.manager.active = some seg ∧ s.manager.paths.getLast? = some seg.path ∧
    (seg.path ∈ matchedSegments d ∨ matchedSegments d = [] ∧ s.disk.files.get seg.path = some [])
  paths : s.manager.paths.Perm (s.disk.files.keys.filter (fun name => IsSeg name))
  kept : ∀ name bs, d.files.get name = some bs → s.disk.files.get name = some bs

theorem matchedSegments_perm (d : Disk) :
    (matchedSegments d).Perm (d.files.keys.filter (fun name => IsSeg name)) :=
  List.perm_insertionSort _ _

theorem activeLast_perm {names : List String} (h : names.Nodup) {active : String}
    (hactive : active ∈ names) : (activeLast names active).Perm names :=
  (List.perm_ext_iff_of_nodup (activeLast_nodup h active) h).mpr (activeLast_spec hactive).1

theorem newManager_recovered {path : String} (hact : activeOf d = some path)
    (hmem : path ∈ matchedSegments d) (hne : path ≠ "") (maxSegmentBytes : Int)
    (bloomEnabled : Bool) :
    ∃ s : Store B, newManager B d maxSegmentBytes bloomEnabled = some s ∧ Recovered d s := by
  have hor : (markedSegment d).or (matchedSegments d).getLast? = some path := hact
  have hinit : (initialManager B d maxSegmentBytes bloomEnabled).paths =
      activeLast (matchedSegments d) path := by
    rw [initialManager_paths, hact]
  have hlayout := loadBlooms_layout { initialManager B d maxSegmentBytes bloomEnabled with
    active := some ⟨path, ((d.files.get path).getD []).length⟩ } d
  simp only [newManager, hor, if_neg hne]
  refine ⟨_, rfl, ⟨_, hlayout.active, ?_, .inl hmem⟩, ?_, fun _ _ h => h⟩
  · rw [hlayout.paths]
    exact (congrArg List.getLast? hinit).trans (activeLast_spec hmem).2
  · rw [hlayout.paths]
    refine List.Perm.trans (.of_eq hinit) ?_
    exact (activeLast_perm (matchedSegments_nodup d) hmem).trans (matchedSegments_perm d)

theorem newManager_first (hact : activeOf d = none) (maxSegmentBytes : Int)
    (bloomEnabled : Bool) :
    ∃ s : Store B, newManager B d maxSegmentBytes bloomEnabled = some s ∧ Recovered d s := by
  have hor : (markedSegment d).or (matchedSegments d).getLast? = none := hact
  have hnone : ∀ p, IsSeg p → d.files.get p = none := fun p hp => segment_none hact hp
  obtain ⟨hinit, -⟩ := initialManager_first B hact maxSegmentBytes bloomEnabled
  obtain ⟨hget, ⟨size, hactive⟩, hpaths, -⟩ := openNewSegment_run
    (⟨d, initialManager B d maxSegmentBytes bloomEnabled, .new⟩ : Store B)
    (initialManager B d maxSegmentBytes bloomEnabled)
  generalize hname : segmentName (initialManager B d maxSegmentBytes bloomEnabled).nextSeq = name
    at *
  have hseg : IsSeg name := hname ▸ segmentName_isSeg _
  simp only [newManager, hor, newManagerSteps]
  generalize (⟨d, initialManager B d maxSegmentBytes bloomEnabled, .new⟩ : Store B).run
    (openNewSegment (initialManager B d maxSegmentBytes bloomEnabled)) = t at *
  have hlayout := loadBlooms_layout t.manager t.disk
  rw [hinit, List.nil_append] at hpaths
  rw [hnone name hseg, Option.getD_none] at hget
  refine ⟨_, rfl, ⟨⟨name, size⟩, hlayout.active.trans hactive, ?_, .inr ⟨matched_nil hact, ?_⟩⟩, ?_,
    ?_⟩
  · rw [hlayout.paths, hpaths]
    rfl
  · rw [hget, if_pos rfl]
  · rw [hlayout.paths, hpaths]
    refine (List.perm_ext_iff_of_nodup (List.nodup_singleton _) (t.disk.files.nodup.filter _)).mpr
      (fun p => ?_)
    rw [List.mem_singleton, List.mem_filter, t.disk.files.mem_keys, decide_eq_true_eq, hget]
    constructor
    · intro heq
      exact ⟨by simp [heq], heq ▸ hseg⟩
    · intro h
      by_contra hne
      rw [if_neg hne, hnone p h.2] at h
      cases h.1
  · intro q bs hbs
    have hne : q ≠ name := by
      intro heq
      rw [heq, hnone name hseg] at hbs
      cases hbs
    rw [hget, if_neg hne, hbs]

/-- `NewManager` gets over every marker that a crash inside `openNewSegment` leaves, except for an
empty one. -/
theorem newManager_recovers_iff (B : BloomPackage) {old new : UInt64}
    (hmarker : Interrupted (segmentName old) (segmentName new) d.marker)
    (hfiles : ∀ name, (d.files.get name).isSome = true → DataFile name) (maxSegmentBytes : Int)
    (bloomEnabled : Bool) :
    (∃ s : Store B, newManager B d maxSegmentBytes bloomEnabled = some s ∧ Recovered d s) ↔
      d.marker ≠ some "" := by
  constructor
  · intro h hempty
    obtain ⟨s, hs, -⟩ := h
    have hmarked : markedSegment d = some "" := by
      simp [Storage.markedSegment, hempty, trimSpace_eq]
    simp [newManager, hmarked] at hs
  · intro hne
    have hne' : ∀ path ∈ matchedSegments d, path ≠ "" := by
      intro path hpath heq
      have hseg := (mem_matchedSegments.mp hpath).1
      rw [heq] at hseg
      exact absurd hseg (by decide)
    rcases hmarker.markedSegment hfiles hne with hnone | ⟨name, hname, hmem⟩
    · cases hlast : (matchedSegments d).getLast? with
      | none => exact newManager_first (by simp [activeOf, hnone, hlast]) _ _
      | some path =>
        have hmem := List.mem_of_getLast? hlast
        exact newManager_recovered (by simp [activeOf, hnone, hlast]) hmem (hne' path hmem) _ _
    · exact newManager_recovered (by simp [activeOf, hname]) hmem (hne' name hmem) _ _

/-- A directory of two segments whose marker holds the first four runes of a third name. -/
def cutMarker : Disk :=
  ⟨(GoMap.empty.set (segmentName 1) []).set (segmentName 2) [], some "0000"⟩

theorem newManager_recovers_cut :
    ∃ s : Store exactFilter, newManager exactFilter cutMarker 40 false = some s ∧
      Recovered cutMarker s := by
  have hmarker : Interrupted (segmentName 2) (segmentName 3) cutMarker.marker :=
    .inr (.inr ⟨"0000", rfl, by decide⟩)
  refine (newManager_recovers_iff exactFilter hmarker ?_ 40 false).mpr (by decide)
  intro name hsome
  simp only [cutMarker, GoMap.get_set] at hsome
  split at hsome
  · rename_i heq
    exact .inl (heq ▸ segmentName_isSeg 2)
  · split at hsome
    · rename_i heq
      exact .inl (heq ▸ segmentName_isSeg 1)
    · cases hsome

/-- The store of the first line, stopped in the rotation for the second when the marker has been
truncated and not yet written. -/
def stoppedRotation : Store exactFilter :=
  let s := (fresh exactFilter 40 false).ingest protobuf (line "a" "" "orders" "disk full" 1)
  s.run ((appendLocked protobuf s (line "b" "" "orders" "disk full" 2) true).1.take 3)

theorem newManager_fails_empty :
    Interrupted (segmentName 1) (segmentName 2) stoppedRotation.disk.marker ∧
      (newManager exactFilter stoppedRotation.disk 40 false).isNone = true := by
  refine ⟨.inr (.inr ⟨"", ?_, by decide⟩), ?_⟩ <;> decide +kernel

end LogEngine.Storage
