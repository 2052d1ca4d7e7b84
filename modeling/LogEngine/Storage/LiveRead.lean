import LogEngine.Lib.Growing
import LogEngine.Storage.Read

namespace LogEngine.Storage
open Lib

/-- What `ReadRecord` returns. -/
inductive LiveRecord where
  | eof
  | failed (err : ReadError)
  | record (data : Bytes)

/-- `ReadRecord` on an open file that may be written to meanwhile, with its reads counted from
`k`. -/
def liveRecord (g : Nat → Bytes) (quota : Nat → Nat) (k pos : Nat) : LiveRecord × Nat :=
  let head := readFull g quota 4 k pos 4
  match head.1 with
  | [] => (.eof, head.2)
  | [a, b, c, d] =>
    let length := ((a.toNat * 256 + b.toNat) * 256 + c.toNat) * 256 + d.toNat
    if length > maxRecordSize then (.failed (.recordTooLarge length), head.2)
    else
      let body := readFull g quota length head.2 (pos + 4) length
      if body.1.length < length then (.failed (.recordData length), body.2)
      else (.record body.1, body.2)
  | _ => (.failed .recordLength, head.2)

/-- The loop of `ReadSegment`, without the decoding of the payloads. -/
def liveScan (g : Nat → Bytes) (quota : Nat → Nat) :
    Nat → Nat → Nat → (List Bytes × Option ReadError) × Nat
  | 0, k, _ => (([], none), k)
  | fuel + 1, k, pos =>
    let r := liveRecord g quota k pos
    match r.1 with
    | .eof => (([], none), r.2)
    | .failed err => (([], some err), r.2)
    | .record data =>
      let rest := liveScan g quota fuel r.2 (pos + 4 + data.length)
      ((data :: rest.1.1, rest.1.2), rest.2)

/-- `ReadSegment` on an open file that may be written to meanwhile, and whose size stays below a
bound. -/
def liveSegment (P : ProtoPackage) (g : Nat → Bytes) (quota : Nat → Nat) (bound : Nat) :
    Except ReadError (List LogEntry) :=
  let r := (liveScan g quota (bound + 1) 0 0).1
  decodeRecords P r.1 r.2

/-- The number of its reads. -/
def liveReads (g : Nat → Bytes) (quota : Nat → Nat) (bound : Nat) : Nat :=
  (liveScan g quota (bound + 1) 0 0).2

/-- `ReadRecord` without what follows the record. -/
def RecordRead.live : RecordRead → LiveRecord
  | .eof => .eof
  | .failed err => .failed err
  | .record data _ => .record data

variable {P : ProtoPackage} {g : Nat → Bytes} {quota : Nat → Nat}

/-- A record read from a growing file is the one that is there at the last of its reads. -/
theorem liveRecord_eq (hg : Growing g) (quota : Nat → Nat) {k pos : Nat}
    (hpos : pos ≤ (g k).length) :
    let r := liveRecord g quota k pos
    r.1 = (readRecord ((g (r.2 - 1)).drop pos)).live ∧ k < r.2 := by
  intro r
  obtain ⟨hhead, -, hk⟩ := readFull_eq quota hg (Nat.le_refl 4) hpos
  have hk := hk (by omega)
  generalize hr : readFull g quota 4 k pos 4 = head at hhead hk
  have hsettled : ∀ out, r = (out, head.2) → out = (readRecord ((g (head.2 - 1)).drop pos)).live →
      r.1 = (readRecord ((g (r.2 - 1)).drop pos)).live ∧ k < r.2 := by
    intro out hout hsame
    rw [hout]
    exact ⟨hsame, hk⟩
  rcases hbytes : (g (head.2 - 1)).drop pos with _ | ⟨a, _ | ⟨b, _ | ⟨c, _ | ⟨d, rest⟩⟩⟩⟩ <;>
    rw [hbytes] at hhead
  · exact hsettled .eof (by simp [r, liveRecord, hr, hhead]) (by rw [hbytes]; rfl)
  iterate 3
    exact hsettled (.failed .recordLength) (by simp [r, liveRecord, hr, hhead])
      (by rw [hbytes]; rfl)
  · replace hhead : head.1 = [a, b, c, d] := hhead
    generalize hlength : ((a.toNat * 256 + b.toNat) * 256 + c.toNat) * 256 + d.toNat = length
    have hread : ∀ more, readRecord (a :: b :: c :: d :: more) = readData length more := by
      intro more
      rw [← hlength, readRecord]
    by_cases hlarge : length > maxRecordSize
    · refine hsettled (.failed (.recordTooLarge length)) ?_ ?_
      · simp only [r, liveRecord, hr, hhead, hlength, if_pos hlarge]
      · rw [hbytes, hread, readData, if_pos hlarge]
        rfl
    · -- The data is read after the length, from a file that may have grown.
      have hfour : pos + 4 ≤ (g (head.2 - 1)).length := by
        have hlen := congrArg List.length hbytes
        rw [List.length_drop] at hlen
        simp only [List.length_cons] at hlen
        omega
      obtain ⟨hbody, hmore, -⟩ := readFull_eq quota hg (Nat.le_refl length)
        (Nat.le_trans hfour (hg (head.2 - 1) head.2 (Nat.sub_le _ _)).length_le)
      have hlive : r = if (readFull g quota length head.2 (pos + 4) length).1.length < length then
          (.failed (.recordData length), (readFull g quota length head.2 (pos + 4) length).2)
          else (.record (readFull g quota length head.2 (pos + 4) length).1,
            (readFull g quota length head.2 (pos + 4) length).2) := by
        simp only [r, liveRecord, hr, hhead, hlength, if_neg hlarge]
      generalize readFull g quota length head.2 (pos + 4) length = body at hbody hmore hlive
      obtain ⟨ext, hext⟩ := hg (head.2 - 1) (body.2 - 1) (Nat.sub_le_sub_right hmore 1)
      have hnow : (g (body.2 - 1)).drop pos = a :: b :: c :: d :: (rest ++ ext) := by
        rw [← hext, List.drop_append_of_le_length (by omega), hbytes]
        rfl
      have hdata : body.1 = (rest ++ ext).take length := by
        rw [hbody, ← List.drop_drop, hnow]
        rfl
      by_cases hcut : (rest ++ ext).length < length
      · rw [hlive, if_pos (by rw [hdata, List.length_take]; omega), hnow, hread, readData,
          if_neg hlarge, if_pos hcut]
        exact ⟨rfl, by omega⟩
      · rw [hlive, if_neg (by rw [hdata, List.length_take]; omega), hnow, hread, readData,
          if_neg hlarge, if_neg hcut, hdata]
        exact ⟨rfl, by omega⟩

/-- A segment read from a growing file is the one that is there at the last read. -/
theorem liveScan_eq (hg : Growing g) {bound : Nat} (hbound : ∀ k, (g k).length ≤ bound)
    {fuel k pos : Nat} (hfuel : bound < fuel + pos) (hpos : pos ≤ (g k).length) :
    let r := liveScan g quota fuel k pos
    r.1 = scanRecords ((g (r.2 - 1)).drop pos) ∧ k < r.2 := by
  induction fuel generalizing k pos with
  | zero =>
    have hle := hbound k
    omega
  | succ fuel ih =>
    intro r
    obtain ⟨hrecord, hk⟩ := liveRecord_eq hg quota hpos
    generalize hr : liveRecord g quota k pos = one at hrecord hk
    cases hread : readRecord ((g (one.2 - 1)).drop pos) with
    | eof =>
      rw [hread] at hrecord
      have hlive : r = (([], none), one.2) := by simp only [r, liveScan, hr, hrecord]; rfl
      rw [hlive, scanRecords_eq, hread]
      exact ⟨rfl, hk⟩
    | failed err =>
      rw [hread] at hrecord
      have hlive : r = (([], some err), one.2) := by simp only [r, liveScan, hr, hrecord]; rfl
      rw [hlive, scanRecords_eq, hread]
      exact ⟨rfl, hk⟩
    | record data rest =>
      rw [hread] at hrecord
      obtain ⟨a, b, c, d, hbytes, -, -⟩ := readRecord_record hread
      have hlen := congrArg List.length hbytes
      rw [List.length_drop] at hlen
      simp only [List.length_cons, List.length_append] at hlen
      have hnext : pos + 4 + data.length ≤ (g (one.2 - 1)).length := by omega
      obtain ⟨hrest, hlater⟩ := @ih one.2 (pos + 4 + data.length) (by omega)
        (Nat.le_trans hnext (hg (one.2 - 1) one.2 (Nat.sub_le _ _)).length_le)
      have hlive : r = ((data :: (liveScan g quota fuel one.2 (pos + 4 + data.length)).1.1,
          (liveScan g quota fuel one.2 (pos + 4 + data.length)).1.2),
          (liveScan g quota fuel one.2 (pos + 4 + data.length)).2) := by
        simp only [r, liveScan, hr, hrecord]
        rfl
      generalize liveScan g quota fuel one.2 (pos + 4 + data.length) = more at hrest hlater hlive
      obtain ⟨ext, hext⟩ := hg (one.2 - 1) (more.2 - 1) (by omega)
      have hnow : (g (more.2 - 1)).drop pos = (g (one.2 - 1)).drop pos ++ ext := by
        rw [← hext, List.drop_append_of_le_length (by omega)]
      have hafter : (g (more.2 - 1)).drop (pos + 4 + data.length) = rest ++ ext := by
        rw [Nat.add_assoc, ← List.drop_drop, hnow, hbytes]
        simp [Nat.add_comm 4]
      rw [hlive, scanRecords_eq, hnow, readRecord_append ext hread]
      rw [hrest, hafter]
      exact ⟨rfl, by omega⟩

theorem liveSegment_eq (hg : Growing g) {bound : Nat} (hbound : ∀ k, (g k).length ≤ bound) :
    liveSegment P g quota bound = decodeSegment P (g (liveReads g quota bound - 1)) := by
  obtain ⟨hscan, -⟩ := @liveScan_eq g quota hg bound hbound (bound + 1) 0 0 (by omega) (by omega)
  rw [List.drop_zero] at hscan
  simp only [liveSegment, decodeSegment, liveReads, hscan]

end LogEngine.Storage
