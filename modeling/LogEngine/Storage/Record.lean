import LogEngine.Types

namespace LogEngine.Storage
open Lib

/-- `maxRecordSize` of `ReadRecord`: 64 MiB. -/
def maxRecordSize : Nat := 64 * 1024 * 1024

/-- The errors of `ReadRecord`, `ReadSegment` and the file system below them. -/
inductive ReadError where
  | notExist (path : String)
  | recordLength
  | recordTooLarge (length : Nat)
  | recordData (expected : Nat)
  | unmarshal
  deriving DecidableEq

def byteAt (n k : Nat) : UInt8 := UInt8.ofNat (n / 256 ^ k)

/-- A length as four big-endian bytes. -/
def be32 (n : Nat) : Bytes := [byteAt n 3, byteAt n 2, byteAt n 1, byteAt n 0]

/-- The bytes `WriteRecord` writes for a payload it accepts. -/
def frame (data : Bytes) : Bytes := be32 data.length ++ data

/-- `WriteRecord`: the record's bytes, or nothing when the length overflows uint32. -/
def writeRecord (data : Bytes) : Option Bytes :=
  if data.length > 2 ^ 32 - 1 then none else some (frame data)

inductive RecordRead where
  | eof
  | failed (err : ReadError)
  | record (data rest : Bytes)
  deriving DecidableEq

/-- The part of `ReadRecord` after the four length bytes. -/
def readData (length : Nat) (rest : Bytes) : RecordRead :=
  if length > maxRecordSize then .failed (.recordTooLarge length)
  else if rest.length < length then .failed (.recordData length)
  else .record (rest.take length) (rest.drop length)

/-- `ReadRecord`. A stream that ends inside the four length bytes or inside the data is
an error other than `io.EOF`. -/
def readRecord : Bytes → RecordRead
  | [] => .eof
  | a :: b :: c :: d :: rest =>
    readData (((a.toNat * 256 + b.toNat) * 256 + c.toNat) * 256 + d.toNat) rest
  | _ => .failed .recordLength

/-- Repeated `ReadRecord`: the payloads read, and the error that stopped it unless that
was `io.EOF`. -/
def scan : Nat → Bytes → List Bytes × Option ReadError
  | 0, _ => ([], none)
  | fuel + 1, bs =>
    match readRecord bs with
    | .eof => ([], none)
    | .failed err => ([], some err)
    | .record data rest => (data :: (scan fuel rest).1, (scan fuel rest).2)

/-- Each record takes at least four bytes, so the stream's length is fuel enough. -/
def scanRecords (bs : Bytes) : List Bytes × Option ReadError := scan (bs.length + 1) bs

theorem readData_record {length : Nat} {bs data rest : Bytes}
    (h : readData length bs = .record data rest) :
    length ≤ maxRecordSize ∧ data.length = length ∧ bs = data ++ rest := by
  unfold readData at h
  split at h
  · cases h
  · split at h
    · cases h
    · cases h
      refine ⟨by omega, ?_, (List.take_append_drop length bs).symm⟩
      rw [List.length_take]
      omega

/-- What a record read consists of: four length bytes, the payload, the rest. -/
theorem readRecord_record {bs data rest : Bytes} (h : readRecord bs = .record data rest) :
    ∃ a b c d, bs = a :: b :: c :: d :: (data ++ rest) ∧ data.length ≤ maxRecordSize ∧
      data.length = ((a.toNat * 256 + b.toNat) * 256 + c.toNat) * 256 + d.toNat := by
  unfold readRecord at h
  split at h
  · cases h
  · rename_i a b c d tail
    obtain ⟨hmax, hlen, hbs⟩ := readData_record h
    exact ⟨a, b, c, d, by rw [hbs], by omega, hlen⟩
  · cases h

theorem readRecord_shrinks {bs data rest : Bytes} (h : readRecord bs = .record data rest) :
    rest.length < bs.length := by
  obtain ⟨a, b, c, d, rfl, _, _⟩ := readRecord_record h
  simp only [List.length_cons, List.length_append]
  omega

theorem scan_fuel {bs : Bytes} {m n : Nat} (hm : bs.length < m) (hn : bs.length < n) :
    scan m bs = scan n bs := by
  induction m generalizing bs n with
  | zero => omega
  | succ m ih =>
    cases n with
    | zero => omega
    | succ n =>
      simp only [scan]
      cases h : readRecord bs with
      | eof => rfl
      | failed err => rfl
      | record data rest =>
        have hlt := readRecord_shrinks h
        have hscan : scan m rest = scan n rest := ih (by omega) (by omega)
        simp only [hscan]

/-- One turn of the read loop. -/
theorem scanRecords_eq (bs : Bytes) : scanRecords bs =
    match readRecord bs with
    | .eof => ([], none)
    | .failed err => ([], some err)
    | .record data rest => (data :: (scanRecords rest).1, (scanRecords rest).2) := by
  rw [scanRecords, scan]
  cases h : readRecord bs with
  | eof => rfl
  | failed err => rfl
  | record data rest =>
    have hlt := readRecord_shrinks h
    have hscan : scan bs.length rest = scan (rest.length + 1) rest := scan_fuel hlt (by omega)
    simp only [scanRecords, hscan]

theorem byteAt_toNat (n k : Nat) : (byteAt n k).toNat = n / 256 ^ k % 256 := by
  simp [byteAt]

theorem be32_value {n : Nat} (h : n < 2 ^ 32) :
    (((byteAt n 3).toNat * 256 + (byteAt n 2).toNat) * 256 + (byteAt n 1).toNat) * 256 +
      (byteAt n 0).toNat = n := by
  simp only [byteAt_toNat]
  omega

theorem frame_length (data : Bytes) : (frame data).length = 4 + data.length := by
  simp only [frame, be32, List.length_append, List.length_cons, List.length_nil]

theorem readData_append {data rest : Bytes} (h : data.length ≤ maxRecordSize) :
    readData data.length (data ++ rest) = .record data rest := by
  unfold readData
  rw [if_neg (by omega), if_neg (by simp)]
  simp

/-- Reading a stream that starts with a payload's frame. -/
theorem readRecord_frame {data rest : Bytes} (h : data.length ≤ maxRecordSize) :
    readRecord (frame data ++ rest) = .record data rest := by
  have hv := be32_value (n := data.length) (by simp only [maxRecordSize] at h; omega)
  simp only [frame, be32, List.cons_append, List.nil_append, readRecord, hv]
  exact readData_append h

theorem scanRecords_nil : scanRecords [] = ([], none) := rfl

theorem scanRecords_frame {data : Bytes} (h : data.length ≤ maxRecordSize) (rest : Bytes) :
    scanRecords (frame data ++ rest) =
      (data :: (scanRecords rest).1, (scanRecords rest).2) := by
  rw [scanRecords_eq, readRecord_frame h]

/-- A record read from a stream is read the same when the stream goes on. -/
theorem readRecord_append {bs data rest : Bytes} (tail : Bytes)
    (h : readRecord bs = .record data rest) :
    readRecord (bs ++ tail) = .record data (rest ++ tail) := by
  obtain ⟨a, b, c, d, rfl, hmax, hlen⟩ := readRecord_record h
  simp only [List.cons_append, readRecord, ← hlen, List.append_assoc]
  exact readData_append hmax

theorem readRecord_eof {bs : Bytes} (h : readRecord bs = .eof) : bs = [] := by
  unfold readRecord at h
  split at h
  · rfl
  · unfold readData at h
    split at h
    · cases h
    · split at h <;> cases h
  · cases h

/-- After a stream that ends at a record boundary the reader starts afresh. -/
theorem scanRecords_append {bs : Bytes} (h : (scanRecords bs).2 = none) (tail : Bytes) :
    scanRecords (bs ++ tail) =
      ((scanRecords bs).1 ++ (scanRecords tail).1, (scanRecords tail).2) := by
  induction hn : bs.length using Nat.strongRecOn generalizing bs with
  | ind n ih =>
    rw [scanRecords_eq bs] at h ⊢
    cases hr : readRecord bs with
    | eof =>
      rw [readRecord_eof hr]
      rfl
    | failed err => simp [hr] at h
    | record data rest =>
      simp only [hr] at h
      have hlt := readRecord_shrinks hr
      rw [scanRecords_eq, readRecord_append tail hr]
      simp only [ih rest.length (by omega) h rfl, List.cons_append]

end LogEngine.Storage
