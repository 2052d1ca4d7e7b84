import LogEngine.Storage.Sound

namespace LogEngine.Storage
open Lib

variable {B : BloomPackage} {P : ProtoPackage}

/-- A record cut anywhere inside cannot be read. -/
theorem readRecord_torn {data : Bytes} {k : Nat} (hlen : data.length < 2 ^ 32) (hpos : 0 < k)
    (hk : k < (frame data).length) :
    ∃ err, readRecord ((frame data).take k) = .failed err ∧ ∀ path, err ≠ .notExist path := by
  have hframe : frame data = byteAt data.length 3 :: byteAt data.length 2 ::
      byteAt data.length 1 :: byteAt data.length 0 :: data := rfl
  rw [hframe] at hk ⊢
  match k, hpos with
  | 1, _ => exact ⟨_, rfl, by simp⟩
  | 2, _ => exact ⟨_, rfl, by simp⟩
  | 3, _ => exact ⟨_, rfl, by simp⟩
  | k + 4, _ =>
    simp only [List.length_cons] at hk
    simp only [List.take_succ_cons, readRecord, be32_value hlen, readData]
    split
    · exact ⟨_, rfl, by simp⟩
    · have hshort : (data.take k).length < data.length := by
        rw [List.length_take]
        omega
      rw [if_pos hshort]
      exact ⟨_, rfl, by simp⟩

/-- A record that is too large cannot be read, whatever follows it. -/
theorem readRecord_large {data : Bytes} (hlen : data.length < 2 ^ 32)
    (hlarge : ¬ data.length ≤ maxRecordSize) (rest : Bytes) :
    readRecord (frame data ++ rest) = .failed (.recordTooLarge data.length) := by
  have hframe : frame data ++ rest = byteAt data.length 3 :: byteAt data.length 2 ::
      byteAt data.length 1 :: byteAt data.length 0 :: (data ++ rest) := rfl
  rw [hframe]
  simp only [readRecord, be32_value hlen, readData]
  rw [if_pos (by omega)]

theorem decodeSegment_failed {bs : Bytes} {err : ReadError} (h : readRecord bs = .failed err) :
    decodeSegment P bs = .error err := by
  rw [decodeSegment, scanRecords_eq, h]
  rfl

theorem scan_ne_notExist (fuel : Nat) (bs : Bytes) (path : String) :
    (scan fuel bs).2 ≠ some (.notExist path) := by
  induction fuel generalizing bs with
  | zero => simp [scan]
  | succ fuel ih =>
    simp only [scan]
    cases h : readRecord bs with
    | eof => simp
    | failed err =>
      intro heq
      simp only [Option.some.injEq] at heq
      subst heq
      unfold readRecord readData at h
      split at h <;> first | cases h | skip
      split at h
      · cases h
      · split at h <;> cases h
    | record data rest => exact ih rest

theorem decodeRecords_ne_notExist {ds : List Bytes} {err : Option ReadError} {path : String}
    (h : err ≠ some (.notExist path)) : decodeRecords P ds err ≠ .error (.notExist path) := by
  induction ds with
  | nil =>
    cases err with
    | none => simp [decodeRecords]
    | some e => simpa [decodeRecords] using h
  | cons data rest ih =>
    simp only [decodeRecords]
    split
    · simp
    · cases hr : decodeRecords P rest err with
      | error e =>
        rw [hr] at ih
        simpa [Except.map] using ih
      | ok es => simp [Except.map]

/-- When all listed segments were read, each of those that exist is readable. -/
theorem decodes_of_readSegments {d : Disk} {paths : List String} {all : List LogEntry}
    (h : readSegments P d paths = .ok all) {p : String} (hp : p ∈ paths) {bs : Bytes}
    (hbs : d.files.get p = some bs) : ∃ es, decodeSegment P bs = .ok es := by
  induction paths generalizing all with
  | nil => cases hp
  | cons q paths ih =>
    simp only [readSegments] at h
    split at h
    · rename_i path hq
      rcases List.mem_cons.mp hp with heq | hp
      · subst heq
        simp only [readSegment, hbs] at hq
        exact absurd hq (decodeRecords_ne_notExist (scan_ne_notExist _ _ path))
      · exact ih h hp
    · cases h
    · rename_i es hq
      obtain ⟨tail, ht, -⟩ := map_ok.mp h
      rcases List.mem_cons.mp hp with heq | hp
      · subst heq
        simp only [readSegment, hbs] at hq
        exact ⟨es, hq⟩
      · exact ih ht hp

/-- A file of records and some more bytes can be read only when each record fits and the
other bytes can be read. -/
theorem records_readable (hP : P.Inverts) {es : List LogEntry} (hes : ∀ e ∈ es, Writable P e)
    {tail : Bytes} {all : List LogEntry}
    (h : decodeSegment P (es.flatMap (record P) ++ tail) = .ok all) :
    (∀ e ∈ es, Fits P e) ∧ ∃ more, decodeSegment P tail = .ok more ∧ all = es ++ more := by
  induction es generalizing all with
  | nil => exact ⟨by simp, all, by simpa using h, rfl⟩
  | cons e es ih =>
    rw [List.flatMap_cons, List.append_assoc] at h
    by_cases hfit : Fits P e
    · rw [decodeSegment_append (decodeSegment_record hP hfit)] at h
      obtain ⟨rest, hrest, heq⟩ := map_ok.mp h
      obtain ⟨hall, more, hmore, hsplit⟩ :=
        ih (fun x hx => hes x (List.mem_cons_of_mem _ hx)) hrest
      refine ⟨List.forall_mem_cons.mpr ⟨hfit, hall⟩, more, hmore, ?_⟩
      rw [← heq, hsplit]
      rfl
    · rw [record, decodeSegment_failed (readRecord_large (hes e List.mem_cons_self) hfit _)] at h
      cases h

end LogEngine.Storage
