import LogEngine.Storage.Passes
import LogEngine.Storage.Torn
import LogEngine.Packages

namespace LogEngine.Storage
open Lib

variable {B : BloomPackage} {P : ProtoPackage}

/-- The start of the retention window in exact arithmetic: `days` times 24 hours before `now`. -/
def windowStart (now : Int64) (days : Int) : Int := now.toInt - days * (24 * 3600000000000)

/-- The cutoff is the start of the window, reduced to 64 bits. -/
theorem retentionCutoff_toInt (now : Int64) (days : Int) :
    (retentionCutoff now days).toInt = (windowStart now days).bmod (2 ^ 64) := by
  have hexact : windowStart now days = now.toInt + -days * 24 * 3600000000000 := by
    unfold windowStart
    omega
  have hcutoff : retentionCutoff now days = Int64.ofInt (windowStart now days) := by
    rw [hexact, Int64.ofInt_add, Int64.ofInt_mul, Int64.ofInt_mul, Int64.ofInt_neg,
      Int64.ofInt_toInt]
    rfl
  have hsize : Int64.size = 2 ^ 64 := rfl
  rw [hcutoff, Int64.toInt_ofInt, hsize]

/-- The start of the window is a time of 64 bits, or reduced to one it lies before every positive
time. -/
def WindowSafe (now : Int64) (days : Int) : Prop :=
  -2 ^ 63 ≤ windowStart now days ∨ (windowStart now days).bmod (2 ^ 64) ≤ 1

instance (now : Int64) (days : Int) : Decidable (WindowSafe now days) :=
  inferInstanceAs (Decidable (_ ∨ _))

theorem windowStart_lt {now : Int64} {days : Int} (h : 0 < days) :
    windowStart now days < 2 ^ 63 := by
  have hnow := now.toInt_lt
  unfold windowStart
  omega

/-- The cutoff stays at or before the start of the window, or before every positive time. -/
theorem cutoff_le {now : Int64} {days : Int} (hdays : 0 < days) (h : WindowSafe now days) :
    (retentionCutoff now days).toInt ≤ windowStart now days ∨
      (retentionCutoff now days).toInt ≤ 1 := by
  rw [retentionCutoff_toInt]
  rcases h with hlow | hone
  · have hhigh : windowStart now days < 2 ^ 63 := windowStart_lt hdays
    refine .inl (le_of_eq (Int.bmod_eq_of_le ?_ ?_)) <;> omega
  · exact .inr hone

/-- A record of the file decodes to the entry. -/
def Contains (P : ProtoPackage) (bs : Bytes) (e : LogEntry) : Prop :=
  ∃ data ∈ (scanRecords bs).1, (P.unmarshal data).map storageProtoToEntry = some e

theorem contains_record (hP : P.Inverts) {e : LogEntry} (he : Fits P e) :
    Contains P (record P e) e := by
  have hscan := scanRecords_frame he []
  rw [List.append_nil] at hscan
  refine ⟨marshalLogEntry P e, by rw [record, hscan]; exact List.mem_cons_self, ?_⟩
  rw [marshalLogEntry, hP, Option.map_some]
  rfl

theorem mem_decodeRecords {ds : List Bytes} {err : Option ReadError} {es : List LogEntry}
    (h : decodeRecords P ds err = .ok es) {data : Bytes} (hdata : data ∈ ds) {e : LogEntry}
    (he : (P.unmarshal data).map storageProtoToEntry = some e) : e ∈ es := by
  induction ds generalizing es with
  | nil => cases hdata
  | cons d ds ih =>
    simp only [decodeRecords] at h
    split at h
    · cases h
    · rename_i pb hpb
      obtain ⟨rest, hrest, heq⟩ := map_ok.mp h
      rw [← heq]
      rcases List.mem_cons.mp hdata with hd | hd
      · rw [hd, hpb, Option.map_some] at he
        exact Option.some.inj he ▸ List.mem_cons_self
      · exact List.mem_cons_of_mem _ (ih hrest hd)

theorem mem_readSegments_single {d : Disk} {p : String} {bs : Bytes} {es : List LogEntry}
    (hbs : d.files.get p = some bs) (h : readSegments P d [p] = .ok es) {e : LogEntry}
    (he : Contains P bs e) : e ∈ es := by
  obtain ⟨data, hdata, hdec⟩ := he
  simp only [readSegments, readSegment, hbs] at h
  split at h
  · rename_i path hno
    exact absurd hno (decodeRecords_ne_notExist (scan_ne_notExist _ _ path))
  · cases h
  · rename_i entries hentries
    obtain ⟨rest, hrest, heq⟩ := map_ok.mp h
    rw [← heq]
    exact List.mem_append_left _ (mem_decodeRecords hentries hdata hdec)

theorem maxTimestamp_le {es : List LogEntry} {b : Int} :
    (maxTimestamp es).toInt ≤ b ↔ 0 ≤ b ∧ ∀ e ∈ es, e.timestamp.toInt ≤ b := by
  rw [maxTimestamp, foldl_latest_le, Int64.toInt_zero]

theorem le_maxTimestamp {es : List LogEntry} {e : LogEntry} (h : e ∈ es) :
    e.timestamp.toInt ≤ (maxTimestamp es).toInt :=
  (maxTimestamp_le.mp (Int.le_refl _)).2 e h

/-- The segment file and its listing are as before. -/
def Unharmed (p : String) (s t : Store B) : Prop :=
  t.disk.files.get p = s.disk.files.get p ∧ (p ∈ s.manager.paths → p ∈ t.manager.paths)

theorem Unharmed.refl (p : String) (s : Store B) : Unharmed p s s := ⟨rfl, fun hp => hp⟩

theorem Unharmed.trans {p : String} {s t u : Store B} (h : Unharmed p s t)
    (h' : Unharmed p t u) : Unharmed p s u :=
  ⟨h'.1.trans h.1, fun hp => h'.2 (h.2 hp)⟩

/-- One turn of the retention loop: a segment with an entry at or past a time that no positive
cutoff exceeds is left alone. -/
theorem retainOne_unharmed {s : Store B} {cutoff : Int64} {p : String} (hp : IsSeg p) {bs : Bytes}
    (hbs : s.disk.files.get p = some bs) {e : LogEntry} (he : Contains P bs e)
    (hcutoff : cutoff.toInt ≤ e.timestamp.toInt ∨ cutoff.toInt ≤ 1) (path : String) :
    Unharmed p s (s.run (retainOne P s cutoff path)) := by
  unfold retainOne
  split
  · exact .refl p s
  rename_i entries hread
  split
  · rename_i hold
    have hpath : p ≠ path := by
      intro heq
      subst heq
      have hle := le_maxTimestamp (mem_readSegments_single hbs hread he)
      have hpos := Int64.lt_iff_toInt_lt.mp hold.1
      have hlt := Int64.lt_iff_toInt_lt.mp hold.2
      rw [Int64.toInt_zero] at hpos
      omega
    have hbloom : p ≠ bloomPath path := fun heq => bloomPath_not_seg path (heq ▸ hp)
    constructor
    · simp only [run_cons, run_nil, get_remove, if_neg hbloom, if_neg hpath]
      simp only [Step.apply]
    · intro hin
      simp only [run_cons, run_nil, Step.apply, Manager.deleteSegment, List.mem_filter,
        decide_eq_true_eq]
      exact ⟨hin, hpath⟩
  · exact .refl p s

theorem retentionLoop_unharmed {s : Store B} {cutoff : Int64} {p : String} (hp : IsSeg p)
    {bs : Bytes} (hbs : s.disk.files.get p = some bs) {e : LogEntry} (he : Contains P bs e)
    (hcutoff : cutoff.toInt ≤ e.timestamp.toInt ∨ cutoff.toInt ≤ 1) (rest : List String) :
    Unharmed p s (s.run (retentionLoop P cutoff s rest)) := by
  induction rest generalizing s with
  | nil => exact .refl p s
  | cons path rest ih =>
    have hfirst := retainOne_unharmed hp hbs he hcutoff path
    rw [retentionLoop, run_append]
    exact hfirst.trans (ih (hfirst.1.trans hbs))

/-- The pass leaves every segment alone that holds an entry from inside the window. -/
def KeepsWindow (P : ProtoPackage) (s : Store B) (now : Int64) (days : Int) : Prop :=
  ∀ p bs, IsSeg p → s.disk.files.get p = some bs →
    (∃ e, Contains P bs e ∧ windowStart now days ≤ e.timestamp.toInt) →
    Unharmed p s (s.run (runRetentionPass P s now days))

/-- An entry with a time and nothing else. -/
def timed (t : Int64) : LogEntry := ⟨"", t, 0, "", "", "", "", .empty⟩

/-- A store with one closed segment, which holds one entry, and a new active one. -/
def agedStore (B : BloomPackage) (P : ProtoPackage) (e : LogEntry) : Store B where
  disk := ⟨(GoMap.empty.set (segmentName 2) []).set (segmentName 1) (record P e),
    some (segmentName 2)⟩
  manager := ⟨0, some ⟨segmentName 2, 0⟩, 3, [segmentName 1, segmentName 2], false, .empty⟩
  index := .new

theorem agedStore_removed (hP : P.Inverts) {e : LogEntry} (he : Fits P e) {now : Int64}
    {days : Int} (hdays : 0 < days) (hpos : 0 < e.timestamp.toInt)
    (hlt : e.timestamp.toInt < (retentionCutoff now days).toInt) :
    ¬ Unharmed (segmentName 1) (agedStore B P e)
      ((agedStore B P e).run (runRetentionPass P (agedStore B P e) now days)) := by
  have hfile : (agedStore B P e).disk.files.get (segmentName 1) = some (record P e) :=
    GoMap.get_set_self ..
  have hread : readSegments P (agedStore B P e).disk [segmentName 1] = .ok [e] := by
    simp only [readSegments, readSegment, hfile, decodeSegment_record hP he]
    rfl
  have hmax : maxTimestamp [e] = e.timestamp := by
    have hgt : e.timestamp > 0 := Int64.lt_iff_toInt_lt.mpr (by rwa [Int64.toInt_zero])
    simp only [maxTimestamp, List.foldl_cons, List.foldl_nil, if_pos hgt]
  have hclosed : (agedStore B P e).manager.listClosedSegments = [segmentName 1] := rfl
  have hdue : maxTimestamp [e] > 0 ∧ maxTimestamp [e] < retentionCutoff now days := by
    rw [hmax]
    exact ⟨Int64.lt_iff_toInt_lt.mpr (by rwa [Int64.toInt_zero]), Int64.lt_iff_toInt_lt.mpr hlt⟩
  intro h
  have hget := h.1
  have hbloom : segmentName 1 ≠ bloomPath (segmentName 1) :=
    fun heq => bloomPath_not_seg _ (heq ▸ segmentName_isSeg 1)
  rw [hfile, runRetentionPass, if_neg (by omega), hclosed] at hget
  simp only [retentionLoop, retainOne, hread, if_pos hdue, List.append_nil, run_cons, run_nil,
    get_remove, if_neg hbloom, if_true] at hget
  cases hget

/-- Retention leaves everything inside its window exactly when the start of the window can be told
in 64 bits, or wraps to a time before all positive ones. -/
theorem retention_window_iff (hP : P.Inverts) (hfits : ∀ t, Fits P (timed t)) (now : Int64)
    {days : Int} (hdays : 0 < days) :
    (∀ s : Store B, KeepsWindow P s now days) ↔ WindowSafe now days := by
  constructor
  · intro h
    by_contra hunsafe
    obtain ⟨hlow, hwrapped⟩ := not_or.mp hunsafe
    rw [← retentionCutoff_toInt] at hwrapped
    have hmax := (retentionCutoff now days).toInt_lt
    have htime : (Int64.ofInt ((retentionCutoff now days).toInt - 1)).toInt =
        (retentionCutoff now days).toInt - 1 := by
      rw [Int64.toInt_ofInt]
      refine Int.bmod_eq_of_le ?_ ?_ <;> simp only [Int64.size] <;> omega
    generalize Int64.ofInt ((retentionCutoff now days).toInt - 1) = t at htime
    have hpos : 0 < t.toInt := by omega
    have hbefore : t.toInt < (retentionCutoff now days).toInt := by omega
    refine agedStore_removed hP (hfits t) hdays hpos hbefore
      (h (agedStore B P (timed t)) _ _ (segmentName_isSeg 1) (GoMap.get_set_self ..)
        ⟨timed t, contains_record hP (hfits t), ?_⟩)
    have hinside : windowStart now days ≤ t.toInt := by omega
    exact hinside
  · intro hsafe s p bs hp hbs hexists
    obtain ⟨e, he, hin⟩ := hexists
    rw [runRetentionPass, if_neg (by omega)]
    refine retentionLoop_unharmed hp hbs he ?_ _
    exact (cutoff_le hdays hsafe).imp_left (fun hle => Int.le_trans hle hin)

theorem timed_fits (t : Int64) : Fits protobuf (timed t) := by
  have hlen := Lib.Wire.varint_length t.toUInt64.toNat_lt
  have htag : (Lib.Wire.varint (2 * 8)).length = 1 := by decide
  have hzero : numField 3 0 = [] := rfl
  have hfields : toFields (storageEntryToProto (timed t)) = numField 2 t := by
    simp [toFields, storageEntryToProto, timed, textField, hzero, Fields.empty]
  unfold Fits marshalLogEntry protobuf maxRecordSize
  simp only [hfields, numField]
  split
  · simp [Lib.Wire.encode]
  · simp only [Lib.Wire.encode, Lib.Wire.encodeField, List.flatMap_cons, List.flatMap_nil,
      List.append_nil, List.length_append, htag]
    omega

/-- Thirty days, counted back from a day in 2023. -/
theorem retention_window_month :
    KeepsWindow protobuf ((fresh exactFilter 14 false).ingestAll protobuf
      [timed 1699999999999999999, timed 1699999999999999999]) 1700000000000000000 30 :=
  (retention_window_iff protobuf_inverts timed_fits 1700000000000000000 (by decide)).mpr
    (by decide) _

/-- With 200000 days the cutoff lies in the future: an entry from a nanosecond ago goes as soon as
its segment is closed. -/
theorem retention_deletes_recent :
    ¬ KeepsWindow protobuf ((fresh exactFilter 14 false).ingestAll protobuf
      [timed 1699999999999999999, timed 1699999999999999999]) 1700000000000000000 200000 := by
  intro h
  have hfile : ((fresh exactFilter 14 false).ingestAll protobuf
      [timed 1699999999999999999, timed 1699999999999999999]).disk.files.get (segmentName 1) =
        some (record protobuf (timed 1699999999999999999)) := by
    decide +kernel
  have hkept := (h _ _ (segmentName_isSeg 1) hfile ⟨timed 1699999999999999999,
    contains_record protobuf_inverts (timed_fits _), by decide⟩).1
  rw [hfile] at hkept
  exact absurd hkept (by decide +kernel)

end LogEngine.Storage
