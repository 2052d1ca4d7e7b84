import LogEngine.Storage.Contents

namespace LogEngine.Storage
open Lib

variable {B : BloomPackage} {P : ProtoPackage}

/-- Two managers that differ at most in their filters. -/
structure SameLayout (m m' : Manager B) : Prop where
  paths : m'.paths = m.paths
  active : m'.active = m.active
  nextSeq : m'.nextSeq = m.nextSeq
  bloomEnabled : m'.bloomEnabled = m.bloomEnabled
  maxSegmentBytes : m'.maxSegmentBytes = m.maxSegmentBytes

theorem SameLayout.refl (m : Manager B) : SameLayout m m := ⟨rfl, rfl, rfl, rfl, rfl⟩

theorem loadBloom_layout (m : Manager B) (d : Disk) (path : String) :
    SameLayout m (m.loadBloom d path) := by
  unfold Manager.loadBloom
  split
  · exact ⟨rfl, rfl, rfl, rfl, rfl⟩
  · exact .refl m

theorem run_maxSegmentBytes (s : Store B) (steps : List (Step B)) :
    (s.run steps).manager.maxSegmentBytes = s.manager.maxSegmentBytes := by
  refine run_preserves
    (I := fun t => t.manager.maxSegmentBytes = s.manager.maxSegmentBytes) ?_ rfl
  intro t st _ ht
  cases st with
  | finishMerge newPath olds =>
    simp only [Step.apply, Store.finishMerge]
    split
    · exact (loadBloom_layout _ t.disk newPath).maxSegmentBytes.trans ht
    · exact ht
  | loadSegment path =>
    simp only [Step.apply, Manager.loadSegment]
    split
    · exact (loadBloom_layout _ t.disk path).maxSegmentBytes.trans ht
    · exact ht
  | _ => exact ht

/-- What is left of `rotateBloom` outside the filters: no segment file changes. -/
theorem rotateBloom_steps {s : Store B} {closing : String} {ok : Bool} {st : Step B}
    (h : st ∈ rotateBloom P s closing ok) :
    (∀ q ∈ st.touches, ¬ IsSeg q) ∧ st.keepsIndex = true ∧
      (∀ t, (Step.apply t st).disk.marker = t.disk.marker) ∧
      ∀ t : Store B, SameLayout t.manager (Step.apply t st).manager := by
  have htmp := tmpPath_not_seg (bloomPath closing)
  have hbloom := bloomPath_not_seg closing
  unfold rotateBloom writeBloom at h
  split at h
  · split at h
    · cases h
    · cases ok
      · simp only [Bool.false_eq_true, if_false, List.append_nil, List.mem_cons,
          List.not_mem_nil, or_false] at h
        rcases h with rfl | rfl
        · exact ⟨by simpa [Step.touches] using htmp, rfl, fun _ => rfl, fun t => .refl _⟩
        · exact ⟨by simpa [Step.touches] using htmp, rfl, fun _ => rfl, fun t => .refl _⟩
      · simp only [if_true, List.cons_append, List.nil_append, List.mem_cons,
          List.not_mem_nil, or_false] at h
        rcases h with rfl | rfl | rfl | rfl
        · exact ⟨by simpa [Step.touches] using htmp, rfl, fun _ => rfl, fun t => .refl _⟩
        · exact ⟨by simpa [Step.touches] using htmp, rfl, fun _ => rfl, fun t => .refl _⟩
        · refine ⟨by simp [Step.touches, htmp, hbloom], rfl, fun t => ?_, fun t => .refl _⟩
          simp only [Step.apply, Disk.rename]
          split <;> rfl
        · exact ⟨by simp [Step.touches], rfl, fun _ => rfl, fun t => ⟨rfl, rfl, rfl, rfl, rfl⟩⟩
  · cases h

theorem SameLayout.trans {a b c : Manager B} (h : SameLayout a b) (h' : SameLayout b c) :
    SameLayout a c :=
  ⟨h'.paths.trans h.paths, h'.active.trans h.active, h'.nextSeq.trans h.nextSeq,
    h'.bloomEnabled.trans h.bloomEnabled, h'.maxSegmentBytes.trans h.maxSegmentBytes⟩

/-- The store that a rotation starts the new segment from. -/
theorem rotateBloom_run (s : Store B) (closing : String) (ok : Bool) :
    let t := s.run (rotateBloom P s closing ok)
    (∀ q, IsSeg q → t.disk.files.get q = s.disk.files.get q) ∧ t.index = s.index ∧
      t.disk.marker = s.disk.marker ∧ SameLayout s.manager t.manager := by
  refine ⟨fun q hq => run_get s (fun st hst hmem => (rotateBloom_steps hst).1 q hmem hq),
    run_index s (fun st hst => (rotateBloom_steps hst).2.1),
    run_preserves (I := fun t => t.disk.marker = s.disk.marker)
      (fun t st hst ht => ((rotateBloom_steps hst).2.2.1 t).trans ht) rfl,
    run_preserves (I := fun t => SameLayout s.manager t.manager)
      (fun t st hst ht => ht.trans ((rotateBloom_steps hst).2.2.2 t)) (.refl _)⟩

/-- What a successful append does: the record goes to the end of `path`, which is the active
segment or a new one. -/
structure Appended (P : ProtoPackage) (s s' : Store B) (e : LogEntry) (path : String) : Prop where
  content : s'.disk.files.get path = some ((s.disk.files.get path).getD [] ++ record P e)
  others : ∀ q, IsSeg q → q ≠ path → s'.disk.files.get q = s.disk.files.get q
  active : ∃ n, s'.manager.active = some ⟨path, n⟩
  index : s'.index = s.index
  bloomEnabled : s'.manager.bloomEnabled = s.manager.bloomEnabled
  maxSegmentBytes : s'.manager.maxSegmentBytes = s.manager.maxSegmentBytes
  layout :
    (s.manager.active.map Segment.path = some path ∧ s'.manager.paths = s.manager.paths ∧
      s'.manager.nextSeq = s.manager.nextSeq ∧ s'.disk.marker = s.disk.marker) ∨
    (path = segmentName s.manager.nextSeq ∧ s'.manager.paths = s.manager.paths ++ [path] ∧
      s'.manager.nextSeq = s.manager.nextSeq + 1 ∧ s'.disk.marker = some path)

def writeSteps (B : BloomPackage) (P : ProtoPackage) (path : String) (e : LogEntry) :
    List (Step B) :=
  [.append path (be32 (marshalLogEntry P e).length), .append path (marshalLogEntry P e),
    .grow (4 + (marshalLogEntry P e).length)]

theorem writeSteps_get (t : Store B) (path q : String) (e : LogEntry) :
    (t.run (writeSteps B P path e)).disk.files.get q =
      if q = path then some ((t.disk.files.get path).getD [] ++ record P e)
      else t.disk.files.get q := by
  simp only [writeSteps, run_cons, run_nil, Step.apply, Disk.append, GoMap.get_set, if_true,
    Option.getD_some, record, frame, List.append_assoc]
  split <;> rfl

theorem writeSteps_layout (t : Store B) (path : String) (e : LogEntry) :
    let t' := t.run (writeSteps B P path e)
    t'.manager.paths = t.manager.paths ∧ t'.manager.nextSeq = t.manager.nextSeq ∧
      t'.manager.bloomEnabled = t.manager.bloomEnabled ∧
      t'.manager.maxSegmentBytes = t.manager.maxSegmentBytes ∧
      t'.disk.marker = t.disk.marker ∧ t'.index = t.index := by
  simp only [writeSteps, run_cons, run_nil, Step.apply, Disk.append, and_self]

theorem writeSteps_active {t : Store B} {seg : Segment} (h : t.manager.active = some seg)
    (path : String) (e : LogEntry) :
    ∃ n, (t.run (writeSteps B P path e)).manager.active = some ⟨seg.path, n⟩ := by
  simp only [writeSteps, run_cons, run_nil, Step.apply, h, Option.map_some]
  exact ⟨_, rfl⟩

theorem openNewSegment_run (t : Store B) (m : Manager B) :
    let name := segmentName m.nextSeq
    let t' := t.run (openNewSegment m)
    (∀ q, t'.disk.files.get q =
      if q = name then some ((t.disk.files.get name).getD []) else t.disk.files.get q) ∧
    (∃ n, t'.manager.active = some ⟨name, n⟩) ∧ t'.manager.paths = t.manager.paths ++ [name] ∧
      t'.manager.nextSeq = t.manager.nextSeq + 1 ∧
      t'.manager.bloomEnabled = t.manager.bloomEnabled ∧
      t'.manager.maxSegmentBytes = t.manager.maxSegmentBytes ∧
      t'.disk.marker = some name ∧ t'.index = t.index := by
  simp only [openNewSegment, run_cons, run_nil, Step.apply, Store.openActive, Disk.create,
    GoMap.get_set, and_self, and_true]
  exact ⟨fun q => trivial, _, rfl⟩

theorem openNewSegment_blooms (s : Store B) (m : Manager B) :
    (s.run (openNewSegment m)).manager.blooms = s.manager.blooms := by
  simp only [openNewSegment, run_cons, run_nil, Step.apply, Store.openActive]

/-- The entry's encoding is one that `WriteRecord` accepts. -/
def Writable (P : ProtoPackage) (e : LogEntry) : Prop := (marshalLogEntry P e).length < 2 ^ 32

instance (e : LogEntry) : Decidable (Writable P e) := inferInstanceAs (Decidable (_ < _))

theorem Fits.writable {e : LogEntry} (h : Fits P e) : Writable P e := by
  have hle : (marshalLogEntry P e).length ≤ 64 * 1024 * 1024 := h
  unfold Writable
  omega

theorem appendLocked_eq {s : Store B} {seg : Segment} {e : LogEntry} {ok : Bool}
    (hactive : s.manager.active = some seg) (he : Writable P e) :
    appendLocked P s e ok =
      (rotateIfFull P s seg e ok ++ writeSteps B P (appendTarget P s seg e) e, none) := by
  have hlen : ¬ (marshalLogEntry P e).length > 2 ^ 32 - 1 := by
    have hlt : (marshalLogEntry P e).length < 2 ^ 32 := he
    omega
  simp only [appendLocked, hactive, writeRecord, if_neg hlen, writeSteps]

/-- An entry that is too large for a record is refused, but the segment may be rotated before. -/
theorem appendLocked_refused {s : Store B} {seg : Segment} {e : LogEntry} {ok : Bool}
    (hactive : s.manager.active = some seg) (he : ¬ Writable P e) :
    appendLocked P s e ok =
      (rotateIfFull P s seg e ok, some (.payloadOverflow (marshalLogEntry P e).length)) := by
  have hlarge : (marshalLogEntry P e).length > 2 ^ 32 - 1 := by
    unfold Writable at he
    omega
  simp only [appendLocked, hactive, writeRecord, if_pos hlarge]

/-- The steps of an append: a rotation if it is due, and the write unless it is refused. -/
theorem appendLocked_cases {s : Store B} {seg : Segment} (e : LogEntry) (ok : Bool)
    (hactive : s.manager.active = some seg) :
    ∃ tail, (appendLocked P s e ok).1 = rotateIfFull P s seg e ok ++ tail ∧
      (tail = [] ∨ tail = writeSteps B P (appendTarget P s seg e) e) := by
  simp only [appendLocked, hactive]
  split
  · exact ⟨[], (List.append_nil _).symm, .inl rfl⟩
  · exact ⟨_, rfl, .inr rfl⟩

/-- The store just before a record is written to `path`: the active segment, or a new one
that a rotation opened. -/
structure Opened (s t : Store B) (path : String) : Prop where
  content : (t.disk.files.get path).getD [] = (s.disk.files.get path).getD []
  others : ∀ q, IsSeg q → q ≠ path → t.disk.files.get q = s.disk.files.get q
  active : ∃ n, t.manager.active = some ⟨path, n⟩
  index : t.index = s.index
  bloomEnabled : t.manager.bloomEnabled = s.manager.bloomEnabled
  maxSegmentBytes : t.manager.maxSegmentBytes = s.manager.maxSegmentBytes
  layout :
    (s.manager.active.map Segment.path = some path ∧
      t.disk.files.get path = s.disk.files.get path ∧ t.manager.paths = s.manager.paths ∧
      t.manager.nextSeq = s.manager.nextSeq ∧ t.disk.marker = s.disk.marker) ∨
    (path = segmentName s.manager.nextSeq ∧ (t.disk.files.get path).isSome = true ∧
      t.manager.paths = s.manager.paths ++ [path] ∧
      t.manager.nextSeq = s.manager.nextSeq + 1 ∧ t.disk.marker = some path)

theorem rotate_opened (s : Store B) (ok : Bool) :
    Opened s (s.run (rotate P s ok)) (segmentName s.manager.nextSeq) := by
  rw [rotate, run_append]
  obtain ⟨hget, hindex, hmarker, hlayout⟩ :=
    rotateBloom_run (P := P) s s.manager.activeSegmentName ok
  generalize s.run (rotateBloom P s s.manager.activeSegmentName ok) = t at *
  obtain ⟨oget, oactive, opaths, oseq, obloom, omax, omarker, oindex⟩ :=
    openNewSegment_run t s.manager
  refine ⟨?_, ?_, oactive, oindex.trans hindex, obloom.trans hlayout.bloomEnabled,
    omax.trans hlayout.maxSegmentBytes, .inr ⟨rfl, ?_, ?_, ?_, omarker⟩⟩
  · rw [oget, if_pos rfl, hget _ (segmentName_isSeg _), Option.getD_some]
  · intro q hseg hq
    rw [oget, if_neg hq, hget q hseg]
  · rw [oget, if_pos rfl]
    rfl
  · rw [opaths, hlayout.paths]
  · rw [oseq, hlayout.nextSeq]

theorem rotateIfFull_opened {s : Store B} {seg : Segment} (e : LogEntry) (ok : Bool)
    (hactive : s.manager.active = some seg) :
    Opened s (s.run (rotateIfFull P s seg e ok)) (appendTarget P s seg e) := by
  unfold rotateIfFull appendTarget
  split
  · exact rotate_opened s ok
  · exact ⟨rfl, fun _ _ _ => rfl, ⟨seg.size, hactive⟩, rfl, rfl, rfl,
      .inl ⟨by simp [hactive], rfl, rfl, rfl, rfl⟩⟩

theorem Opened.write {s t : Store B} {path : String} (h : Opened s t path) (e : LogEntry) :
    Appended P s (t.run (writeSteps B P path e)) e path := by
  obtain ⟨wpaths, wseq, wbloom, wmax, wmarker, windex⟩ := writeSteps_layout (P := P) t path e
  obtain ⟨n, hactive⟩ := h.active
  refine ⟨?_, ?_, writeSteps_active hactive _ e, windex.trans h.index,
    wbloom.trans h.bloomEnabled, wmax.trans h.maxSegmentBytes, ?_⟩
  · rw [writeSteps_get, if_pos rfl, h.content]
  · intro q hseg hq
    rw [writeSteps_get, if_neg hq, h.others q hseg hq]
  · rcases h.layout with ⟨hpath, -, hpaths, hseq, hmarker⟩ | ⟨hpath, -, hpaths, hseq, hmarker⟩
    · exact .inl ⟨hpath, wpaths.trans hpaths, wseq.trans hseq, wmarker.trans hmarker⟩
    · exact .inr ⟨hpath, wpaths.trans hpaths, wseq.trans hseq, wmarker.trans hmarker⟩

/-- `appendLocked` of an entry that `WriteRecord` accepts. -/
theorem append_spec {s : Store B} {seg : Segment} {e : LogEntry} (ok : Bool)
    (hactive : s.manager.active = some seg) (he : Writable P e) :
    Appended P s (s.run (appendLocked P s e ok).1) e (appendTarget P s seg e) := by
  rw [appendLocked_eq hactive he, run_append]
  exact (rotateIfFull_opened e ok hactive).write e

theorem record_length (P : ProtoPackage) (e : LogEntry) :
    (record P e).length = 4 + (marshalLogEntry P e).length :=
  frame_length (marshalLogEntry P e)

/-- The manager after an append that leaves the active segment as it is. -/
theorem append_fitting {s : Store B} {seg : Segment} {e : LogEntry}
    (hactive : s.manager.active = some seg) (he : Writable P e)
    (hfits : ¬ mustRotate P s seg e = true) (ok : Bool) :
    let t := s.run (appendLocked P s e ok).1
    t.manager.paths = s.manager.paths ∧ t.manager.nextSeq = s.manager.nextSeq ∧
      t.manager.active = some ⟨seg.path, seg.size + ((record P e).length : Int)⟩ := by
  rw [appendLocked_eq hactive he, rotateIfFull, appendTarget, if_neg hfits, if_neg hfits,
    List.nil_append]
  simp only [writeSteps, run_cons, run_nil, Step.apply, hactive, Option.map_some, record_length,
    and_self]

/-- With bloom filters off an append builds none. -/
theorem append_blooms {s : Store B} {seg : Segment} (hactive : s.manager.active = some seg)
    (hoff : s.manager.bloomEnabled = false) (e : LogEntry) (ok : Bool) :
    (s.run (appendLocked P s e ok).1).manager.blooms = s.manager.blooms := by
  obtain ⟨tail, heq, htail⟩ := appendLocked_cases (P := P) e ok hactive
  have hrotate : (s.run (rotateIfFull P s seg e ok)).manager.blooms = s.manager.blooms := by
    unfold rotateIfFull
    split
    · rw [rotate, rotateBloom, if_neg (by simp [hoff]), List.nil_append, openNewSegment_blooms]
    · rfl
  rw [heq, run_append]
  rcases htail with hnil | hwrite
  · rw [hnil, run_nil, hrotate]
  · rw [hwrite, ← hrotate]
    simp only [writeSteps, run_cons, run_nil, Step.apply]

end LogEngine.Storage
