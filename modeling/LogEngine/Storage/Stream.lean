import LogEngine.Storage.Torn
import LogEngine.Packages

namespace LogEngine.Storage
open Lib

variable {B : BloomPackage} {P : ProtoPackage}

/-- The two errors of `io.ReadFull` on a stream that ends too early. -/
inductive IoError where
  | eof
  | unexpectedEOF
  deriving DecidableEq

/-- `io.ReadFull` into a buffer of `n` bytes: the bytes, and the stream behind them. -/
def readFull (n : Nat) (bs : Bytes) : Except IoError (Bytes × Bytes) :=
  if n ≤ bs.length then .ok (bs.take n, bs.drop n)
  else if bs = [] then .error .eof
  else .error .unexpectedEOF

def uint32 (bs : Bytes) : Nat := bs.foldl (fun n b => n * 256 + b.toNat) 0

/-- An error value of `ReadRecord`: `io.EOF` itself, an error of the stream wrapped with
`%w`, or one of its own. -/
inductive StreamError where
  | eof
  | wrapped (context : ReadError) (cause : IoError)
  | refused (err : ReadError)
  deriving DecidableEq

/-- `ReadRecord` with the calls it makes. The data of an empty rest fails with `io.EOF`,
which is wrapped and so no longer equal to it. -/
def Reader.readRecord (bs : Bytes) : Except StreamError (Bytes × Bytes) :=
  match readFull 4 bs with
  | .error .eof => .error .eof
  | .error err => .error (.wrapped .recordLength err)
  | .ok (header, rest) =>
    if uint32 header > maxRecordSize then .error (.refused (.recordTooLarge (uint32 header)))
    else match readFull (uint32 header) rest with
      | .error err => .error (.wrapped (.recordData (uint32 header)) err)
      | .ok (data, rest) => .ok (data, rest)

/-- `ReadRecord` called until it fails: the payloads, and the error value. -/
def Reader.readRecords : Nat → Bytes → List Bytes × StreamError
  | 0, _ => ([], .eof)
  | fuel + 1, bs =>
    match Reader.readRecord bs with
    | .error err => ([], err)
    | .ok (data, rest) =>
      (data :: (Reader.readRecords fuel rest).1, (Reader.readRecords fuel rest).2)

def Reader.readAll (bs : Bytes) : List Bytes × StreamError :=
  Reader.readRecords (bs.length + 1) bs

/-- `WriteRecord` called on one payload after the other with the same stream. -/
def writeRecords : List Bytes → Option Bytes
  | [] => some []
  | data :: rest => (writeRecord data).bind fun bs => (writeRecords rest).map (bs ++ ·)

/-- What is left of an error value after the test `err == io.EOF`. -/
def StreamError.readError : StreamError → Option ReadError
  | .eof => none
  | .wrapped context _ => some context
  | .refused err => some err

theorem StreamError.readError_none {err : StreamError} : err.readError = none ↔ err = .eof := by
  cases err <;> simp [StreamError.readError]

/-- A call of `ReadRecord` in the terms of `readRecord`. -/
def Reader.outcome : Except StreamError (Bytes × Bytes) → RecordRead
  | .ok (data, rest) => .record data rest
  | .error .eof => .eof
  | .error (.wrapped context _) => .failed context
  | .error (.refused err) => .failed err

theorem readFull_short {n : Nat} {bs : Bytes} (h : bs.length < n) :
    ∃ err, readFull n bs = .error err ∧ (err = .eof ↔ bs = []) := by
  unfold readFull
  rw [if_neg (by omega)]
  split
  · exact ⟨_, rfl, by simp [*]⟩
  · exact ⟨_, rfl, by simp [*]⟩

theorem Reader.readRecord_outcome (bs : Bytes) :
    Reader.outcome (Reader.readRecord bs) = Storage.readRecord bs := by
  rcases bs with _ | ⟨a, _ | ⟨b, _ | ⟨c, _ | ⟨d, rest⟩⟩⟩⟩
  · rfl
  · rfl
  · rfl
  · rfl
  · have hheader : readFull 4 (a :: b :: c :: d :: rest) = .ok ([a, b, c, d], rest) := by
      simp [readFull]
    have hvalue : uint32 [a, b, c, d] =
        ((a.toNat * 256 + b.toNat) * 256 + c.toNat) * 256 + d.toNat := by
      simp [uint32]
    simp only [Reader.readRecord, hheader, Storage.readRecord, ← hvalue, readData]
    split
    · rfl
    · by_cases hshort : rest.length < uint32 [a, b, c, d]
      · obtain ⟨err, hread, -⟩ := readFull_short hshort
        rw [hread, if_pos hshort]
        rfl
      · rw [readFull, if_pos (by omega), if_neg hshort]
        rfl

theorem Reader.readRecords_scan (fuel : Nat) (bs : Bytes) :
    scan fuel bs =
      ((Reader.readRecords fuel bs).1, (Reader.readRecords fuel bs).2.readError) := by
  induction fuel generalizing bs with
  | zero => rfl
  | succ fuel ih =>
    rw [scan, Reader.readRecords, ← Reader.readRecord_outcome]
    rcases Reader.readRecord bs with (_ | _ | _) | ⟨data, rest⟩
    · rfl
    · rfl
    · rfl
    · simp only [Reader.outcome, ih rest]

/-- The reader's loop that tests `err == io.EOF` is `scanRecords`. -/
theorem Reader.readAll_scan (bs : Bytes) :
    scanRecords bs = ((Reader.readAll bs).1, (Reader.readAll bs).2.readError) :=
  Reader.readRecords_scan (bs.length + 1) bs

theorem Reader.readAll_eof {bs : Bytes} {ds : List Bytes} :
    Reader.readAll bs = (ds, .eof) ↔ scanRecords bs = (ds, none) := by
  rw [Reader.readAll_scan, Prod.ext_iff, Prod.ext_iff]
  simp only [StreamError.readError_none]

theorem writeRecord_some {data bs : Bytes} :
    writeRecord data = some bs ↔ data.length < 2 ^ 32 ∧ frame data = bs := by
  unfold writeRecord
  split
  · simp only [reduceCtorEq, false_iff, not_and]
    omega
  · simp only [Option.some.injEq, iff_and_self]
    omega

theorem writeRecords_some {ds : List Bytes} {bs : Bytes} :
    writeRecords ds = some bs ↔ (∀ d ∈ ds, d.length < 2 ^ 32) ∧ ds.flatMap frame = bs := by
  induction ds generalizing bs with
  | nil => simp [writeRecords]
  | cons d ds ih =>
    simp only [writeRecords, Option.bind_eq_some_iff, Option.map_eq_some_iff, writeRecord_some, ih,
      List.forall_mem_cons, List.flatMap_cons]
    constructor
    · rintro ⟨_, ⟨hd, rfl⟩, _, ⟨hds, rfl⟩, rfl⟩
      exact ⟨⟨hd, hds⟩, rfl⟩
    · rintro ⟨⟨hd, hds⟩, rfl⟩
      exact ⟨_, ⟨hd, rfl⟩, _, ⟨hds, rfl⟩, rfl⟩

theorem scanRecords_flatMap_frame {ds : List Bytes} (h : ∀ d ∈ ds, d.length < 2 ^ 32) :
    scanRecords (ds.flatMap frame) = (ds, none) ↔ ∀ d ∈ ds, d.length ≤ maxRecordSize := by
  induction ds with
  | nil => simp [scanRecords_nil]
  | cons d ds ih =>
    obtain ⟨hd, hds⟩ := List.forall_mem_cons.mp h
    rw [List.flatMap_cons, List.forall_mem_cons]
    by_cases hfits : d.length ≤ maxRecordSize
    · rw [scanRecords_frame hfits, ← ih hds, Prod.ext_iff, Prod.ext_iff]
      simp [hfits]
    · rw [scanRecords_eq, readRecord_large hd hfits]
      simp [hfits]

/-- A record appended to a readable file is readable, and all that comes after it, exactly
when the reader accepts its size. -/
theorem decodeSegment_appended (hP : P.Inverts) {e : LogEntry} (he : Writable P e) {bs : Bytes}
    {old : List LogEntry} (hold : decodeSegment P bs = .ok old) :
    (∀ later more, decodeSegment P later = .ok more →
      decodeSegment P (bs ++ record P e ++ later) = .ok (old ++ e :: more)) ↔ Fits P e := by
  simp only [List.append_assoc, decodeSegment_append hold]
  constructor
  · intro h
    by_contra hlarge
    have hempty := h [] [] (decodeSegment_nil P)
    rw [record, decodeSegment_failed (readRecord_large he hlarge [])] at hempty
    cases hempty
  · intro hfits later more hmore
    rw [decodeSegment_append (decodeSegment_record hP hfits), hmore]
    rfl

/-- What `WriteRecord` accepted is read back exactly when no payload exceeds the limit that
only the reader has; so with the records of one segment file. -/
theorem written_readable_iff {ds : List Bytes} {bs : Bytes} (hwritten : writeRecords ds = some bs) :
    (Reader.readAll bs = (ds, .eof) ↔ ∀ d ∈ ds, d.length ≤ maxRecordSize) ∧
    ∀ (B : BloomPackage) (P : ProtoPackage), P.Inverts → ∀ (s : Store B) (seg : Segment)
      (e : LogEntry) (ok : Bool) (old : List LogEntry), s.manager.active = some seg →
      (appendLocked P s e ok).2 = none →
      decodeSegment P ((s.disk.files.get (appendTarget P s seg e)).getD []) = .ok old →
      ∃ bs, (s.run (appendLocked P s e ok).1).disk.files.get (appendTarget P s seg e) = some bs ∧
        ((∀ later more, decodeSegment P later = .ok more →
          decodeSegment P (bs ++ later) = .ok (old ++ e :: more)) ↔ Fits P e) := by
  constructor
  · obtain ⟨hds, rfl⟩ := writeRecords_some.mp hwritten
    exact Reader.readAll_eof.trans (scanRecords_flatMap_frame hds)
  · intro B P hP s seg e ok old hactive hnone hold
    have he : Writable P e := by
      by_contra hrefused
      rw [appendLocked_refused hactive hrefused] at hnone
      cases hnone
    exact ⟨_, (append_spec ok hactive he).content, decodeSegment_appended hP he hold⟩

/-- An append to a fresh store, read back. -/
theorem written_readable_first :
    Reader.readAll (frame [1] ++ (frame [2, 3] ++ [])) = ([[1], [2, 3]], .eof) ∧
    ∃ bs, ((fresh exactFilter 1000 false).run (appendLocked protobuf (fresh exactFilter 1000 false)
        (line "1" "prod" "orders" "disk full" 1) true).1).disk.files.get (segmentName 1) =
          some bs ∧
      decodeSegment protobuf (bs ++ []) = .ok [line "1" "prod" "orders" "disk full" 1] := by
  have hboth := written_readable_iff (show writeRecords [[1], [2, 3]] = _ from rfl)
  constructor
  · exact hboth.1.mpr (by decide)
  · obtain ⟨bs, hbs, hread⟩ := hboth.2 exactFilter protobuf protobuf_inverts
      (fresh exactFilter 1000 false) ⟨segmentName 1, 0⟩ (line "1" "prod" "orders" "disk full" 1)
      true [] rfl (by decide +kernel) (by decide +kernel)
    exact ⟨bs, hbs, hread.mpr (by decide +kernel) [] [] rfl⟩

theorem Reader.readAll_large {data : Bytes} (hlen : data.length < 2 ^ 32)
    (hlarge : ¬ data.length ≤ maxRecordSize) (rest : Bytes) :
    (Reader.readAll (frame data ++ rest)).1 = [] := by
  have hscan := Reader.readAll_scan (frame data ++ rest)
  rw [scanRecords_eq, readRecord_large hlen hlarge] at hscan
  exact (congrArg Prod.fst hscan).symm

/-- A payload of one byte more than `ReadRecord` takes. -/
def oversized : Bytes := List.replicate (maxRecordSize + 1) 0

/-- `WriteRecord` accepts it, and nothing from there on can be read. -/
theorem oversized_hides :
    ∃ bs, writeRecords [oversized, [1]] = some bs ∧ (Reader.readAll bs).1 = [] := by
  have hlen : oversized.length = maxRecordSize + 1 := List.length_replicate
  have hwritten : oversized.length < 2 ^ 32 := by
    rw [hlen, maxRecordSize]
    omega
  refine ⟨frame oversized ++ [[1]].flatMap frame, writeRecords_some.mpr ⟨?_, ?_⟩, ?_⟩
  · exact List.forall_mem_cons.mpr ⟨hwritten, by decide⟩
  · exact List.flatMap_cons
  · exact Reader.readAll_large hwritten (by rw [hlen]; omega) _

/-- Where the encoding of the first `n` payloads ends. -/
def boundary (ds : List Bytes) (n : Nat) : Nat := ((ds.take n).flatMap frame).length

@[simp] theorem boundary_zero (ds : List Bytes) : boundary ds 0 = 0 := rfl

@[simp] theorem boundary_succ (d : Bytes) (ds : List Bytes) (n : Nat) :
    boundary (d :: ds) (n + 1) = (frame d).length + boundary ds n := by
  simp [boundary]

/-- `n` is the number of payloads whose encoding lies before byte `k`. -/
def WholeBefore (ds : List Bytes) (k n : Nat) : Prop :=
  n ≤ ds.length ∧ ∀ i < ds.length, i < n ↔ boundary ds (i + 1) ≤ k

theorem WholeBefore.none {d : Bytes} {k : Nat} (ds : List Bytes) (h : k < (frame d).length) :
    WholeBefore (d :: ds) k 0 := by
  refine ⟨Nat.zero_le _, fun i _ => ?_⟩
  rw [boundary_succ]
  omega

theorem WholeBefore.cons {d : Bytes} {ds : List Bytes} {k n : Nat} (h : WholeBefore ds k n) :
    WholeBefore (d :: ds) ((frame d).length + k) (n + 1) := by
  refine ⟨Nat.succ_le_succ h.1, fun i hi => ?_⟩
  rw [boundary_succ]
  cases i with
  | zero => simp
  | succ i =>
    have hiff := h.2 i (by simpa using hi)
    omega

/-- A cut inside the first record is none of the boundaries but the first. -/
theorem boundary_inside {d : Bytes} {ds : List Bytes} {k : Nat} (h : k < (frame d).length) :
    (∃ i ≤ (d :: ds).length, boundary (d :: ds) i = k) ↔ k = 0 := by
  constructor
  · rintro ⟨i, -, rfl⟩
    cases i with
    | zero => rfl
    | succ i =>
      rw [boundary_succ] at h
      omega
  · rintro rfl
    exact ⟨0, Nat.zero_le _, rfl⟩

theorem boundary_behind (d : Bytes) (ds : List Bytes) (k : Nat) :
    (∃ i ≤ (d :: ds).length, boundary (d :: ds) i = (frame d).length + k) ↔
      ∃ i ≤ ds.length, boundary ds i = k := by
  constructor
  · rintro ⟨i, hi, heq⟩
    cases i with
    | zero =>
      rw [boundary_zero, frame_length] at heq
      omega
    | succ i =>
      rw [boundary_succ] at heq
      exact ⟨i, by simpa using hi, by omega⟩
  · rintro ⟨i, hi, rfl⟩
    exact ⟨i + 1, by simpa using hi, boundary_succ d ds i⟩

/-- Reading a cut stream, by induction on the records: the cut is at the start of the first
one, inside it or behind it. -/
theorem scanRecords_cut {ds : List Bytes} (hds : ∀ d ∈ ds, d.length ≤ maxRecordSize) {k : Nat}
    (hk : k ≤ (ds.flatMap frame).length) :
    ∃ n, WholeBefore ds k n ∧ (scanRecords ((ds.flatMap frame).take k)).1 = ds.take n ∧
      ((scanRecords ((ds.flatMap frame).take k)).2 = none ↔
        ∃ i ≤ ds.length, boundary ds i = k) := by
  induction ds generalizing k with
  | nil =>
    obtain rfl : k = 0 := by simpa using hk
    exact ⟨0, ⟨le_rfl, by simp⟩, rfl, by simp [scanRecords_nil]⟩
  | cons d ds ih =>
    obtain ⟨hd, hds⟩ := List.forall_mem_cons.mp hds
    rw [List.flatMap_cons, List.length_append] at hk
    rw [List.flatMap_cons]
    by_cases hinside : k < (frame d).length
    · rw [List.take_append_of_le_length hinside.le, boundary_inside hinside]
      refine ⟨0, .none ds hinside, ?_⟩
      rcases Nat.eq_zero_or_pos k with rfl | hpos
      · exact ⟨rfl, by simp [scanRecords_nil]⟩
      · have hlen : d.length < 2 ^ 32 := by
          simp only [maxRecordSize] at hd
          omega
        obtain ⟨err, herr, -⟩ := readRecord_torn hlen hpos hinside
        rw [scanRecords_eq, herr]
        exact ⟨rfl, by simp only [reduceCtorEq, false_iff]; omega⟩
    · obtain ⟨j, rfl⟩ := Nat.exists_eq_add_of_le (Nat.le_of_not_lt hinside)
      obtain ⟨n, hn, hread, hend⟩ := ih hds (k := j) (by omega)
      rw [List.take_length_add_append, scanRecords_frame hd, boundary_behind]
      exact ⟨n + 1, hn.cons, by rw [hread, List.take_succ_cons], hend⟩

/-- A stream of records cut anywhere gives the records before the cut, and `io.EOF` itself
exactly when the cut is between two records. -/
theorem readAll_cut (ds : List Bytes) (hds : ∀ d ∈ ds, d.length ≤ maxRecordSize) :
    ∃ bs, writeRecords ds = some bs ∧ ∀ k ≤ bs.length, ∃ n, WholeBefore ds k n ∧
      (Reader.readAll (bs.take k)).1 = ds.take n ∧
      ((Reader.readAll (bs.take k)).2 = .eof ↔ ∃ i ≤ ds.length, boundary ds i = k) := by
  have hwritten : ∀ d ∈ ds, d.length < 2 ^ 32 := by
    intro d hd
    have hle := hds d hd
    simp only [maxRecordSize] at hle
    omega
  refine ⟨_, writeRecords_some.mpr ⟨hwritten, rfl⟩, fun k hk => ?_⟩
  obtain ⟨n, hn, hread, hend⟩ := scanRecords_cut hds hk
  rw [Reader.readAll_scan] at hread hend
  exact ⟨n, hn, hread, StreamError.readError_none.symm.trans hend⟩

theorem readAll_cut_inside :
    ∃ bs, writeRecords [[1], [2, 3]] = some bs ∧ ∃ n, WholeBefore [[1], [2, 3]] 9 n ∧
      (Reader.readAll (bs.take 9)).1 = List.take n [[1], [2, 3]] ∧
      ((Reader.readAll (bs.take 9)).2 = .eof ↔ ∃ i ≤ 2, boundary [[1], [2, 3]] i = 9) := by
  obtain ⟨bs, hbs, hcut⟩ := readAll_cut [[1], [2, 3]] (by decide)
  obtain ⟨-, heq⟩ := writeRecords_some.mp hbs
  exact ⟨bs, hbs, hcut 9 (by rw [← heq]; decide)⟩

end LogEngine.Storage
