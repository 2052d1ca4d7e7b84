import LogEngine.Storage.Log
import LogEngine.Packages

namespace LogEngine.Storage
open Lib

variable {B : BloomPackage} {P : ProtoPackage}

/-- Where a `Segment.Append` fails: in the write of the length or of the payload, when `k` bytes of
it have reached the file, or in `Sync`. -/
inductive WriteFault where
  | header (k : Nat)
  | payload (k : Nat)
  | sync
  deriving DecidableEq

inductive SegmentError where
  | payloadOverflow (length : Nat)
  | recordLength
  | recordData
  | sync
  deriving DecidableEq

def WriteFault.error : WriteFault → SegmentError
  | .header _ => .recordLength
  | .payload _ => .recordData
  | .sync => .sync

/-- The writes of `WriteRecord`, as far as they reach the file. -/
def writes (data : Bytes) : Option WriteFault → List Bytes
  | none | some .sync => [be32 data.length, data]
  | some (.header k) => [(be32 data.length).take k]
  | some (.payload k) => [be32 data.length, data.take k]

def Disk.appendAll (d : Disk) (path : String) (chunks : List Bytes) : Disk :=
  chunks.foldl (fun d bs => d.append path bs) d

/-- `Segment.Append` on an open file. The size is counted last. -/
def Segment.append (d : Disk) (seg : Segment) (data : Bytes) (fault : Option WriteFault) :
    Disk × Segment × Option SegmentError :=
  match writeRecord data with
  | none => (d, seg, some (.payloadOverflow data.length))
  | some _ =>
    let d := d.appendAll seg.path (writes data fault)
    match fault with
    | none => (d, { seg with size := seg.size + (4 + data.length : Nat) }, none)
    | some f => (d, seg, some f.error)

section Segment

variable {d : Disk} {seg : Segment} {records : List Bytes}

/-- The file reads back as whole records, with the given ones among them in order, and is as long
as the segment counts. -/
def Intact (d : Disk) (seg : Segment) (records : List Bytes) : Prop :=
  ∃ bs, d.files.get seg.path = some bs ∧ (scanRecords bs).2 = none ∧
    records.Sublist (scanRecords bs).1 ∧ seg.size = bs.length

/-- The segment is intact before the calls and after each of them, with the records of those that
returned nil. -/
def StaysIntact (d : Disk) (seg : Segment) (records : List Bytes) :
    List (Bytes × Option WriteFault) → Prop
  | [] => Intact d seg records
  | c :: calls =>
    let r := seg.append d c.1 c.2
    Intact d seg records ∧
      StaysIntact r.1 r.2.1 (if r.2.2 = none then records ++ [c.1] else records) calls

/-- A call that writes a whole record `ReadRecord` accepts, or fails before any byte is written. -/
def CleanCall (c : Bytes × Option WriteFault) : Prop :=
  2 ^ 32 ≤ c.1.length ∨ c.2 = none ∧ c.1.length ≤ maxRecordSize ∨ c.2 = some (.header 0)

instance (c : Bytes × Option WriteFault) : Decidable (CleanCall c) :=
  inferInstanceAs (Decidable (_ ∨ _ ∨ _))

theorem Segment.append_overflow {data : Bytes} (h : 2 ^ 32 ≤ data.length)
    (fault : Option WriteFault) :
    seg.append d data fault = (d, seg, some (.payloadOverflow data.length)) := by
  simp only [Segment.append, writeRecord, if_pos (show data.length > 2 ^ 32 - 1 by omega)]

theorem Segment.append_none {data : Bytes} (h : data.length < 2 ^ 32) : seg.append d data none =
    (d.appendAll seg.path [be32 data.length, data],
      { seg with size := seg.size + (4 + data.length : Nat) }, none) := by
  simp only [Segment.append, writeRecord, if_neg (show ¬ data.length > 2 ^ 32 - 1 by omega), writes]

theorem Segment.append_some {data : Bytes} (h : data.length < 2 ^ 32) (f : WriteFault) :
    seg.append d data (some f) =
      (d.appendAll seg.path (writes data (some f)), seg, some f.error) := by
  simp only [Segment.append, writeRecord, if_neg (show ¬ data.length > 2 ^ 32 - 1 by omega)]

theorem writes_eq_nil {data : Bytes} {f : WriteFault} (h : (writes data (some f)).flatten = []) :
    f = .header 0 := by
  cases f with
  | header k =>
    cases k with
    | zero => rfl
    | succ k => simp [writes, be32] at h
  | payload k => simp [writes, be32] at h
  | sync => simp [writes, be32] at h

theorem Disk.get_appendAll (d : Disk) {path : String} {bs : Bytes}
    (h : d.files.get path = some bs) (chunks : List Bytes) :
    (d.appendAll path chunks).files.get path = some (bs ++ chunks.flatten) := by
  induction chunks generalizing d bs with
  | nil => simpa [Disk.appendAll] using h
  | cons c chunks ih =>
    have hone : (d.append path c).files.get path = some (bs ++ c) := by
      simp only [Disk.append, h, GoMap.get_set, if_true, Option.getD_some]
    rw [List.flatten_cons, ← List.append_assoc, ← ih _ hone]
    rfl

/-- A clean call leaves the segment intact. -/
theorem Intact.append_clean (h : Intact d seg records) {c : Bytes × Option WriteFault}
    (hc : CleanCall c) : Intact (seg.append d c.1 c.2).1 (seg.append d c.1 c.2).2.1
      (if (seg.append d c.1 c.2).2.2 = none then records ++ [c.1] else records) := by
  obtain ⟨data, fault⟩ := c
  by_cases hover : 2 ^ 32 ≤ data.length
  · rw [Segment.append_overflow hover]
    exact h
  have hlen : data.length < 2 ^ 32 := by omega
  obtain ⟨bs, hbs, hscan, hsub, hsize⟩ := h
  rcases hc with hbig | ⟨hnone, hfits⟩ | hzero
  · exact absurd hbig hover
  · cases hnone
    have hone := scanRecords_frame hfits []
    rw [List.append_nil] at hone
    have hall := scanRecords_append hscan (frame data)
    rw [hone] at hall
    have hfile := d.get_appendAll hbs [be32 data.length, data]
    rw [List.flatten_cons, List.flatten_singleton, ← frame] at hfile
    rw [Segment.append_none hlen, if_pos rfl]
    refine ⟨bs ++ frame data, hfile, by rw [hall]; rfl, ?_, ?_⟩
    · rw [hall]
      exact hsub.append (List.Sublist.refl _)
    · simp only [hsize, frame, be32, List.length_append, List.length_cons, List.length_nil]
      omega
  · cases hzero
    rw [Segment.append_some hlen]
    refine ⟨bs, ?_, hscan, hsub, hsize⟩
    rw [d.get_appendAll hbs]
    simp [writes]

/-- Any other call leaves bytes that are not counted, or a record that cannot be read. -/
theorem Intact.append_dirty (h : Intact d seg records) {c : Bytes × Option WriteFault}
    (hc : ¬ CleanCall c) (records' : List Bytes) :
    ¬ Intact (seg.append d c.1 c.2).1 (seg.append d c.1 c.2).2.1 records' := by
  obtain ⟨data, fault⟩ := c
  simp only [CleanCall, not_or] at hc
  obtain ⟨hover, hlarge, hzero⟩ := hc
  have hlen : data.length < 2 ^ 32 := by omega
  obtain ⟨bs, hbs, hscan, -, hsize⟩ := h
  intro hgiven
  cases fault with
  | none =>
    rw [Segment.append_none hlen] at hgiven
    obtain ⟨bs', hbs', hscan', -⟩ := hgiven
    rw [d.get_appendAll hbs, List.flatten_cons, List.flatten_singleton, ← frame] at hbs'
    cases hbs'
    have hfailed := readRecord_large hlen (by simpa using hlarge) []
    rw [List.append_nil] at hfailed
    rw [scanRecords_append hscan, scanRecords_eq (frame data), hfailed] at hscan'
    cases hscan'
  | some f =>
    rw [Segment.append_some hlen] at hgiven
    obtain ⟨bs', hbs', -, -, hsize'⟩ := hgiven
    rw [d.get_appendAll hbs] at hbs'
    cases hbs'
    rw [hsize, List.length_append] at hsize'
    have hnil : (writes data (some f)).flatten = [] := List.length_eq_zero_iff.mp (by omega)
    exact hzero (congrArg some (writes_eq_nil hnil))

theorem StaysIntact.start {calls : List (Bytes × Option WriteFault)}
    (h : StaysIntact d seg records calls) : Intact d seg records := by
  cases calls with
  | nil => exact h
  | cons c calls => exact h.1

theorem Intact.stays_iff {calls : List (Bytes × Option WriteFault)} (h : Intact d seg records) :
    StaysIntact d seg records calls ↔ ∀ c ∈ calls, CleanCall c := by
  induction calls generalizing d seg records with
  | nil => simp [StaysIntact, h]
  | cons c calls ih =>
    rw [StaysIntact, and_iff_right h, List.forall_mem_cons]
    by_cases hc : CleanCall c
    · rw [and_iff_right hc]
      exact ih (h.append_clean hc)
    · refine iff_of_false (fun hstays => ?_) (fun hand => hc hand.1)
      exact h.append_dirty hc _ hstays.start

/-- An open segment stays intact exactly when its file could be read at first and every call is
clean. -/
theorem segment_intact_iff {bs : Bytes} (hfile : d.files.get seg.path = some bs)
    (hsize : seg.size = bs.length) (calls : List (Bytes × Option WriteFault)) :
    StaysIntact d seg (scanRecords bs).1 calls ↔
      (scanRecords bs).2 = none ∧ ∀ c ∈ calls, CleanCall c := by
  by_cases hscan : (scanRecords bs).2 = none
  · rw [and_iff_right hscan]
    exact Intact.stays_iff ⟨bs, hfile, hscan, List.Sublist.refl _, hsize⟩
  · refine iff_of_false (fun hstays => hscan ?_) (fun hand => hscan hand.1)
    obtain ⟨bs', hbs', hscan', -⟩ := hstays.start
    rw [hfile] at hbs'
    cases hbs'
    exact hscan'

def newSegment : Disk × Segment := (⟨GoMap.empty.set (segmentName 1) [], none⟩, ⟨segmentName 1, 0⟩)

/-- A call that fails at its first byte, between two that go through. -/
theorem segment_intact_refused :
    StaysIntact newSegment.1 newSegment.2 []
      [([1, 2], none), ([3], some (.header 0)), ([4], none)] := by
  have hfile : newSegment.1.files.get newSegment.2.path = some [] := rfl
  exact (segment_intact_iff hfile rfl _).mpr (by decide)

/-- One byte of a header that stays in the file: the next record, of which the append succeeds, is
not read back. -/
theorem segment_torn :
    let torn := (newSegment.2.append newSegment.1 [3] (some (.header 1)))
    let next := torn.2.1.append torn.1 [4] none
    next.2.2 = none ∧
      (next.1.files.get next.2.1.path).map scanRecords = some ([[]], some .recordLength) ∧
      ¬ StaysIntact newSegment.1 newSegment.2 [] [([3], some (.header 1)), ([4], none)] := by
  have hempty : Intact newSegment.1 newSegment.2 [] := ⟨[], rfl, rfl, .slnil, rfl⟩
  refine ⟨by decide, by decide, ?_⟩
  rw [hempty.stays_iff]
  decide

end Segment

/-- How a rotation fails: in closing the old segment, or in opening the new one, whose file may have
been created by then. -/
inductive RotateFault where
  | close
  | openNew (created : Bool)
  deriving DecidableEq

/-- A store, and whether the file of its active segment is open. `Close` closes it for good, even
when it returns an error. -/
structure Attached (B : BloomPackage) where
  store : Store B
  isOpen : Bool

inductive ManagerError where
  | closedManager
  | rotateClose
  | rotateOpen
  | segment (err : SegmentError)
  deriving DecidableEq

namespace Attached

/-- `rotate`. On failure the manager keeps the segment whose file was closed. -/
def rotate (P : ProtoPackage) (a : Attached B) (bloomOk : Bool) (fault : Option RotateFault) :
    Attached B × Option ManagerError :=
  if a.isOpen = false then (a, some .rotateClose)
  else
    match fault with
    | some .close => ({ a with isOpen := false }, some .rotateClose)
    | some (.openNew created) =>
      let s := a.store.run (rotateBloom P a.store a.store.manager.activeSegmentName bloomOk)
      (⟨if created then s.run [.create (segmentName s.manager.nextSeq)] else s, false⟩,
        some .rotateOpen)
    | none => (⟨a.store.run (Storage.rotate P a.store bloomOk), true⟩, none)

/-- The append of `appendLocked` to the active segment. A write to a closed file fails at its first
byte. -/
def write (P : ProtoPackage) (a : Attached B) (e : LogEntry) (fault : Option WriteFault) :
    Attached B × Option ManagerError :=
  match a.store.manager.active with
  | none => (a, some .closedManager)
  | some seg =>
    let r := seg.append a.store.disk (marshalLogEntry P e)
      (if a.isOpen then fault else some (.header 0))
    ({ a with store := { a.store with
        disk := r.1
        manager := { a.store.manager with active := some r.2.1 } } }, r.2.2.map .segment)

/-- `appendLocked` where file operations may fail. -/
def append (P : ProtoPackage) (a : Attached B) (e : LogEntry) (bloomOk : Bool)
    (rotation : Option RotateFault) (fault : Option WriteFault) :
    Attached B × Option ManagerError :=
  match a.store.manager.active with
  | none => (a, some .closedManager)
  | some seg =>
    if mustRotate P a.store seg e then
      match a.rotate P bloomOk rotation with
      | (a', some err) => (a', some err)
      | (a', none) => a'.write P e fault
    else a.write P e fault

end Attached

section Rotation

variable {a : Attached B} {log : String → List LogEntry}

theorem Attached.write_open {s : Store B} {seg : Segment} {e : LogEntry}
    (hactive : s.manager.active = some seg) (he : Writable P e) :
    (⟨s, true⟩ : Attached B).write P e none =
      (⟨s.run (writeSteps B P seg.path e), true⟩, none) := by
  simp only [Attached.write, hactive, if_true, Segment.append_none he, Option.map_none, writeSteps,
    run_cons, run_nil, Step.apply, Disk.appendAll, List.foldl_cons, List.foldl_nil, Option.map_some]

theorem Attached.write_refused {s : Store B} {seg : Segment} {e : LogEntry}
    (hactive : s.manager.active = some seg) (he : ¬ Writable P e) :
    ((⟨s, true⟩ : Attached B).write P e none).1 = ⟨s, true⟩ := by
  have hlen : 2 ^ 32 ≤ (marshalLogEntry P e).length := by
    unfold Writable at he
    omega
  simp only [Attached.write, hactive, Segment.append_overflow hlen]
  cases s with
  | mk disk manager index =>
    cases manager
    cases hactive
    rfl

/-- Where no file operation fails, this is the append of the storage model. -/
theorem Attached.append_open {s : Store B} {seg : Segment} {e : LogEntry}
    (hactive : s.manager.active = some seg) (he : Writable P e) (ok : Bool) :
    (⟨s, true⟩ : Attached B).append P e ok none none =
      (⟨s.run (appendLocked P s e ok).1, true⟩, none) := by
  rw [appendLocked_eq hactive he, run_append]
  obtain ⟨size, hopen⟩ := (rotateIfFull_opened (P := P) e ok hactive).active
  simp only [Attached.append, hactive]
  by_cases hmust : mustRotate P s seg e = true
  · simp only [rotateIfFull, appendTarget, if_pos hmust] at hopen ⊢
    simp only [Attached.rotate, Bool.true_eq_false, if_false]
    rw [write_open hopen he]
  · simp only [rotateIfFull, appendTarget, if_neg hmust, run_nil]
    rw [write_open hactive he]

theorem Attached.append_refused {s : Store B} {seg : Segment} {e : LogEntry}
    (hactive : s.manager.active = some seg) (he : ¬ Writable P e) (ok : Bool) :
    ((⟨s, true⟩ : Attached B).append P e ok none none).1 =
      ⟨s.run (rotateIfFull P s seg e ok), true⟩ := by
  obtain ⟨size, hopen⟩ := (rotateIfFull_opened (P := P) e ok hactive).active
  simp only [Attached.append, hactive]
  by_cases hmust : mustRotate P s seg e = true
  · simp only [rotateIfFull, if_pos hmust] at hopen ⊢
    simp only [Attached.rotate, Bool.true_eq_false, if_false]
    exact write_refused hopen he
  · simp only [rotateIfFull, if_neg hmust, run_nil]
    exact write_refused hactive he

def RotationFails (P : ProtoPackage) (s : Store B) (e : LogEntry) (rotation : Option RotateFault) :
    Prop :=
  rotation ≠ none ∧ ∃ seg ∈ s.manager.active, mustRotate P s seg e = true

instance (s : Store B) (e : LogEntry) (rotation : Option RotateFault) :
    Decidable (RotationFails P s e rotation) :=
  @instDecidableAnd _ _ inferInstance
    (inferInstanceAs (Decidable (∃ seg ∈ s.manager.active, mustRotate P s seg e = true)))

theorem Attached.append_unfailed {e : LogEntry} {rotation : Option RotateFault}
    (h : ¬ RotationFails P a.store e rotation) (ok : Bool) (fault : Option WriteFault) :
    a.append P e ok rotation fault = a.append P e ok none fault := by
  cases rotation with
  | none => rfl
  | some f =>
    simp only [Attached.append]
    split
    · rfl
    · rename_i seg hseg
      have hmust : ¬ mustRotate P a.store seg e = true :=
        fun hmust => h ⟨Option.some_ne_none f, seg, hseg, hmust⟩
      rw [if_neg hmust, if_neg hmust]

/-- A failed rotation leaves the manager with a closed file. -/
theorem Attached.append_failed {e : LogEntry} {rotation : Option RotateFault}
    (h : RotationFails P a.store e rotation) (ok : Bool) (fault : Option WriteFault) :
    (a.append P e ok rotation fault).1 = (a.rotate P ok rotation).1 ∧
      (a.append P e ok rotation fault).2 ≠ none ∧
      (a.append P e ok rotation fault).1.isOpen = false := by
  obtain ⟨hfault, seg, hseg, hmust⟩ := h
  have hactive : a.store.manager.active = some seg := hseg
  cases hopen : a.isOpen with
  | false => simp [Attached.append, hactive, hmust, Attached.rotate, hopen]
  | true =>
    cases rotation with
    | none => exact absurd rfl hfault
    | some f => cases f <;> simp [Attached.append, hactive, hmust, Attached.rotate, hopen]

/-- Once the file is closed, every append fails and leaves it closed. -/
theorem Attached.append_closed (h : a.isOpen = false) (e : LogEntry) (ok : Bool)
    (rotation : Option RotateFault) (fault : Option WriteFault) :
    (a.append P e ok rotation fault).2 ≠ none ∧
      (a.append P e ok rotation fault).1.isOpen = false := by
  have hwrite : (a.write P e fault).2 ≠ none ∧ (a.write P e fault).1.isOpen = false := by
    unfold Attached.write
    split
    · exact ⟨by simp, h⟩
    · rename_i seg _
      by_cases he : Writable P e
      · simp [h, Segment.append_some he]
      · have hlen : 2 ^ 32 ≤ (marshalLogEntry P e).length := by
          unfold Writable at he
          omega
        simp [h, Segment.append_overflow hlen]
  unfold Attached.append
  split
  · exact ⟨by simp, h⟩
  · split
    · simp [Attached.rotate, h]
    · exact hwrite

/-- The next append succeeds where no file operation fails, and then the segments read back with its
entry and all those of the log. -/
def GoesOn (P : ProtoPackage) (a : Attached B) (log : String → List LogEntry) (later : LogEntry) :
    Prop :=
  (a.append P later true none none).2 = none ∧
    ∃ all, (a.append P later true none none).1.store.readAll P = .ok all ∧ later ∈ all ∧
      ∀ p, ∀ e ∈ log p, e ∈ all

/-- A manager with an open file goes on exactly when what it stores can be read. -/
theorem goesOn_iff (hP : P.Inverts) {s : Store B} {log' : String → List LogEntry}
    (hs : Logged P s log') (hlog : ∀ p, ∀ e ∈ log p, ∃ q, e ∈ log' q) {later : LogEntry}
    (hlater : Fits P later) :
    GoesOn P ⟨s, true⟩ log later ↔ ∀ p, ∀ e ∈ log' p, Fits P e := by
  obtain ⟨n, size, hactive, -⟩ := hs.active
  obtain ⟨path, hlogged, -, -⟩ := hs.append hlater.writable true
  have hmem : ∀ x, (∃ p, x ∈ addTo log' path later p) ↔ (∃ p, x ∈ log' p) ∨ x = later :=
    fun x => mem_addTo
  rw [GoesOn, Attached.append_open hactive hlater.writable]
  generalize s.run (appendLocked P s later true).1 = t at hlogged
  constructor
  · intro h p e he
    obtain ⟨-, all, hall, -⟩ := h
    obtain ⟨q, hq⟩ := (hmem e).mpr (.inl ⟨p, he⟩)
    exact hlogged.fits hP hall (hlogged.mem_paths hq) e hq
  · intro hfits
    have hfits' : ∀ p, ∀ e ∈ addTo log' path later p, Fits P e := by
      intro p e he
      rcases (hmem e).mp ⟨p, he⟩ with ⟨q, hq⟩ | heq
      · exact hfits q e hq
      · exact heq ▸ hlater
    have hall : ∀ x, (∃ p, x ∈ addTo log' path later p) →
        x ∈ t.manager.paths.flatMap (addTo log' path later) := by
      intro x hx
      obtain ⟨p, hp⟩ := hx
      exact List.mem_flatMap.mpr ⟨p, hlogged.mem_paths hp, hp⟩
    refine ⟨rfl, _, hlogged.readAll_eq hP hfits', hall later ((hmem later).mpr (.inr rfl)), ?_⟩
    intro p e he
    exact hall e ((hmem e).mpr (.inl (hlog p e he)))

/-- The manager after an append of which the rotation, if any, succeeds. -/
theorem Logged.unfailed {s : Store B} (hs : Logged P s log) (e : LogEntry) (ok : Bool) :
    ∃ s' log', ((⟨s, true⟩ : Attached B).append P e ok none none).1 = ⟨s', true⟩ ∧
      Logged P s' log' ∧
      ∀ x, (∃ p, x ∈ log' p) ↔ (∃ p, x ∈ log p) ∨ Writable P e ∧ x = e := by
  obtain ⟨n, size, hactive, -⟩ := hs.active
  by_cases he : Writable P e
  · obtain ⟨path, hlogged, -, -⟩ := hs.append he ok
    refine ⟨_, _, by rw [Attached.append_open hactive he], hlogged, fun x => ?_⟩
    rw [mem_addTo, and_iff_right he]
  · refine ⟨_, log, Attached.append_refused hactive he ok,
      ((rotateIfFull_opened e ok hactive).logged hs).1, fun x => ?_⟩
    simp [he]

/-- A failed rotation changes nothing that is read back. -/
theorem Logged.rotation_keeps (hs : Logged P a.store log) {ok : Bool}
    {rotation : Option RotateFault} (h : (a.rotate P ok rotation).2 ≠ none) :
    (a.rotate P ok rotation).1.store.readAll P = a.store.readAll P := by
  have hread : ∀ t : Store B, t.manager.paths = a.store.manager.paths →
      (∀ p ∈ a.store.manager.paths, t.disk.files.get p = a.store.disk.files.get p) →
      t.readAll P = a.store.readAll P := by
    intro t hpaths hget
    rw [Store.readAll, Store.readAll, hpaths]
    exact readSegments_congr hget
  unfold Attached.rotate at h ⊢
  split
  · rfl
  rename_i hopen
  rw [if_neg hopen] at h
  cases rotation with
  | none => exact absurd rfl h
  | some f =>
    cases f with
    | close => rfl
    | openNew created =>
      obtain ⟨hget, -, -, hlayout⟩ :=
        rotateBloom_run (P := P) a.store a.store.manager.activeSegmentName ok
      dsimp only
      generalize a.store.run (rotateBloom P a.store a.store.manager.activeSegmentName ok) = t at *
      have hkept : ∀ p ∈ a.store.manager.paths,
          t.disk.files.get p = a.store.disk.files.get p := fun p hp => hget p (hs.segs p hp)
      cases created with
      | false => exact hread t hlayout.paths hkept
      | true =>
        refine hread _ hlayout.paths (fun p hp => ?_)
        have hfile := hs.files p (hs.segs p hp)
        rw [if_pos hp] at hfile
        simp only [if_true, run_cons, run_nil, Step.apply, Disk.create, GoMap.get_set, hkept p hp,
          hfile]
        split
        · rename_i heq
          rw [← heq, hkept p hp, hfile, Option.getD_some]
        · rfl

/-- After an append the manager goes on exactly when its file is open and no rotation failed, and
what it stores can be read. A failed rotation loses nothing in any case. -/
theorem rotation_recovers_iff (hP : P.Inverts) (hs : Logged P a.store log) (e : LogEntry)
    (ok : Bool) (rotation : Option RotateFault) {later : LogEntry} (hlater : Fits P later) :
    (GoesOn P (a.append P e ok rotation none).1 log later ↔
      a.isOpen = true ∧ ¬ RotationFails P a.store e rotation ∧
        (∀ p, ∀ x ∈ log p, Fits P x) ∧ (Writable P e → Fits P e)) ∧
    ((a.rotate P ok rotation).2 ≠ none →
      (a.rotate P ok rotation).1.store.readAll P = a.store.readAll P) := by
  refine ⟨?_, hs.rotation_keeps⟩
  have hclosed : ∀ b : Attached B, b.isOpen = false → ¬ GoesOn P b log later :=
    fun b hb hgoes => (Attached.append_closed hb later true none none).1 hgoes.1
  obtain ⟨s, isOpen⟩ := a
  cases isOpen with
  | false =>
    refine iff_of_false (hclosed _ (Attached.append_closed rfl e ok rotation none).2) ?_
    simp
  | true =>
    by_cases hfails : RotationFails P s e rotation
    · exact iff_of_false (hclosed _ (Attached.append_failed hfails ok none).2.2)
        (fun hand => hand.2.1 hfails)
    · rw [Attached.append_unfailed hfails]
      obtain ⟨s', log', heq, hlogged, hmem⟩ := hs.unfailed e ok
      rw [heq, goesOn_iff hP hlogged (fun p x hx => (hmem x).mpr (.inl ⟨p, hx⟩)) hlater]
      constructor
      · intro hfits
        refine ⟨rfl, hfails, fun p x hx => ?_, fun he => ?_⟩
        · obtain ⟨q, hq⟩ := (hmem x).mpr (.inl ⟨p, hx⟩)
          exact hfits q x hq
        · obtain ⟨q, hq⟩ := (hmem e).mpr (.inr ⟨he, rfl⟩)
          exact hfits q e hq
      · intro hand p x hx
        obtain ⟨-, -, hlog, he⟩ := hand
        rcases (hmem x).mp ⟨p, hx⟩ with ⟨q, hq⟩ | ⟨hwritable, hxe⟩
        · exact hlog q x hq
        · exact hxe ▸ he hwritable

end Rotation

/-- A node with one line in a segment that holds no second. -/
def fullSegment : Attached exactFilter :=
  ⟨(fresh exactFilter 40 false).ingest protobuf (line "a" "" "orders" "disk full" 1), true⟩

theorem fullSegment_logged :
    ∃ log, Logged protobuf fullSegment.store log ∧
      ∀ x, (∃ p, x ∈ log p) ↔ x = line "a" "" "orders" "disk full" 1 := by
  obtain ⟨path, hlogged, -⟩ := (fresh_logged protobuf exactFilter 40 false).ingest
    (show Writable protobuf (line "a" "" "orders" "disk full" 1) by decide +kernel)
  refine ⟨_, hlogged, fun x => ?_⟩
  rw [mem_addTo]
  simp

/-- A rotation that succeeds. -/
theorem rotation_recovers_full :
    ∃ log, Logged protobuf fullSegment.store log ∧
      GoesOn protobuf (fullSegment.append protobuf (line "b" "" "orders" "disk full" 2)
        true none none).1 log (line "c" "" "orders" "disk full" 3) := by
  obtain ⟨log, hlogged, hmem⟩ := fullSegment_logged
  refine ⟨log, hlogged, (rotation_recovers_iff protobuf_inverts hlogged _ true none
    (show Fits protobuf (line "c" "" "orders" "disk full" 3) by decide +kernel)).1.mpr ?_⟩
  refine ⟨rfl, fun hfails => hfails.1 rfl, fun p x hx => ?_, fun _ => by decide +kernel⟩
  rw [(hmem x).mp ⟨p, hx⟩]
  decide +kernel

/-- The new segment could not be opened once: every later append fails, although nothing else
does. -/
theorem rotation_stuck :
    let failed := fullSegment.append protobuf (line "b" "" "orders" "disk full" 2) true
      (some (.openNew false)) none
    failed.2 = some .rotateOpen ∧
      ∀ later, (failed.1.append protobuf later true none none).2 ≠ none := by
  refine ⟨by decide +kernel, fun later => (Attached.append_closed ?_ later true none none).1⟩
  decide +kernel

end LogEngine.Storage
