import LogEngine.Storage.Log
import LogEngine.Packages

namespace LogEngine.Storage
open Lib

variable {B : BloomPackage} {P : ProtoPackage}

/-- The directory after a crash inside an append: the rotation in front of it is done, and
`k` bytes of the record are in the file. -/
def crashDisk (P : ProtoPackage) (s : Store B) (torn : LogEntry) (k : Nat) : Disk :=
  match s.manager.active with
  | none => s.disk
  | some seg => (s.run (rotateIfFull P s seg torn true)).disk.append (appendTarget P s seg torn)
      ((record P torn).take k)

/-- The segment files of a directory are the records of a log, with `tail` after those of
the active segment. -/
structure Crashed (P : ProtoPackage) (d : Disk) (log : String → List LogEntry) (n : UInt64)
    (tail : Bytes) : Prop where
  marker : d.marker = some (segmentName n)
  active : d.files.get (segmentName n) =
    some ((log (segmentName n)).flatMap (record P) ++ tail)
  others : ∀ p, IsSeg p → p ≠ segmentName n →
    d.files.get p = some ((log p).flatMap (record P)) ∨ d.files.get p = none ∧ log p = []
  segs : ∀ p, ∀ e ∈ log p, IsSeg p ∧ Writable P e

theorem crashDisk_crashed {s : Store B} {log : String → List LogEntry} (hs : Logged P s log)
    (torn : LogEntry) (k : Nat) :
    ∃ n, Crashed P (crashDisk P s torn k) log n ((record P torn).take k) := by
  obtain ⟨n, size, hactive, -⟩ := hs.active
  have hopen := rotateIfFull_opened (P := P) torn true hactive
  obtain ⟨hlogged, m, hname, hmarker, hmem⟩ := hopen.logged hs
  simp only [crashDisk, hactive]
  generalize s.run (rotateIfFull P s ⟨segmentName n, size⟩ torn true) = t at *
  rw [hname] at hmarker hmem ⊢
  refine ⟨m, hmarker, ?_, ?_, ?_⟩
  · simp only [Disk.append, GoMap.get_set, if_true, hlogged.getD (segmentName_isSeg m)]
  · intro p hp hne
    simp only [Disk.append, GoMap.get_set_ne _ _ hne, hlogged.files p hp]
    split
    · exact .inl rfl
    · rename_i hnot
      exact .inr ⟨rfl, hlogged.unlisted p hnot⟩
  · intro p e he
    exact ⟨hlogged.segs p (hlogged.mem_paths he), hlogged.writable p e he⟩

/-- All segment files can be read exactly when the log fits and the tail can be read. -/
theorem Crashed.decodes_iff (hP : P.Inverts) {d : Disk} {log : String → List LogEntry}
    {n : UInt64} {tail : Bytes} (h : Crashed P d log n tail) :
    (∀ p bs, IsSeg p → d.files.get p = some bs → ∃ es, decodeSegment P bs = .ok es) ↔
      (∀ p, ∀ e ∈ log p, Fits P e) ∧ ∃ more, decodeSegment P tail = .ok more := by
  constructor
  · intro hall
    obtain ⟨es, hes⟩ := hall _ _ (segmentName_isSeg n) h.active
    obtain ⟨hactive, more, hmore, -⟩ :=
      records_readable hP (fun e he => (h.segs _ e he).2) hes
    refine ⟨?_, more, hmore⟩
    intro p e he
    by_cases hp : p = segmentName n
    · exact hactive e (hp ▸ he)
    · rcases h.others p (h.segs p e he).1 hp with hfile | ⟨-, hnil⟩
      · obtain ⟨es, hes⟩ := hall p _ (h.segs p e he).1 hfile
        rw [← List.append_nil ((log p).flatMap (record P))] at hes
        exact (records_readable hP (fun x hx => (h.segs p x hx).2) hes).1 e he
      · rw [hnil] at he
        cases he
  · intro hgiven p bs hp hbs
    obtain ⟨hfit, more, hmore⟩ := hgiven
    by_cases hpn : p = segmentName n
    · rw [hpn, h.active] at hbs
      cases hbs
      rw [decodeSegment_append (decodeSegment_records hP (hfit _)), hmore]
      exact ⟨_, rfl⟩
    · rcases h.others p hp hpn with hfile | ⟨hnone, -⟩
      · rw [hfile] at hbs
        cases hbs
        exact ⟨_, decodeSegment_records hP (hfit p)⟩
      · rw [hnone] at hbs
        cases hbs

/-- A cut record can be read only when nothing or all of it was written. -/
theorem torn_decodes (hP : P.Inverts) {torn : LogEntry} (ht : Writable P torn) {k : Nat}
    (hk : k ≤ (record P torn).length) :
    (∃ more, decodeSegment P ((record P torn).take k) = .ok more) ↔
      k = 0 ∨ k = (record P torn).length ∧ Fits P torn := by
  constructor
  · intro h
    obtain ⟨more, hmore⟩ := h
    by_cases hzero : k = 0
    · exact .inl hzero
    by_cases hfull : k = (record P torn).length
    · have hone : decodeSegment P ([torn].flatMap (record P) ++ []) = .ok more := by
        simpa [hfull] using hmore
      have hfits := (records_readable hP (by simpa using ht) hone).1
      exact .inr ⟨hfull, hfits torn (List.mem_singleton_self _)⟩
    · obtain ⟨err, herr, -⟩ := readRecord_torn ht (Nat.pos_of_ne_zero hzero)
        (Nat.lt_of_le_of_ne hk hfull)
      rw [record, decodeSegment_failed herr] at hmore
      cases hmore
  · intro hor
    rcases hor with hzero | ⟨hfull, hfit⟩
    · exact ⟨[], by simp [hzero]⟩
    · exact ⟨[torn], by rw [hfull, List.take_length, decodeSegment_record hP hfit]⟩

/-- A whole record after the log makes the log one entry longer. -/
theorem Crashed.absorb {d : Disk} {log : String → List LogEntry} {n : UInt64} {e : LogEntry}
    (h : Crashed P d log n (record P e)) (he : Writable P e) :
    Crashed P d (addTo log (segmentName n) e) n [] := by
  refine ⟨h.marker, ?_, ?_, ?_⟩
  · simp [h.active, addTo]
  · intro p hp hne
    simpa [addTo, hne] using h.others p hp hne
  · intro p x hx
    unfold addTo at hx
    split at hx
    · rename_i hp
      rcases List.mem_append.mp hx with hx | hx
      · exact h.segs p x hx
      · exact ⟨hp ▸ segmentName_isSeg n, List.mem_singleton.mp hx ▸ he⟩
    · exact h.segs p x hx

/-- A manager opened on the records of a log has that log. -/
theorem Mounted.logged {d : Disk} {n : UInt64} {s : Store B} {log : String → List LogEntry}
    (h : Mounted d (segmentName n) s) (hd : Crashed P d log n []) : Logged P s log := by
  obtain ⟨size, hactive⟩ := h.active
  have hfile : ∀ p, IsSeg p → (d.files.get p).isSome = true →
      d.files.get p = some ((log p).flatMap (record P)) := by
    intro p hp hsome
    by_cases hpn : p = segmentName n
    · rw [hpn, hd.active, List.append_nil]
    · rcases hd.others p hp hpn with hfile | ⟨hnone, -⟩
      · exact hfile
      · rw [hnone] at hsome
        cases hsome
  refine ⟨?_, ?_, fun p e he => (hd.segs p e he).2, fun p hp => ((h.paths p).mp hp).1,
    n, size, hactive, h.last, h.disk ▸ hd.marker⟩
  · intro p hp
    rw [h.disk]
    split
    · rename_i hin
      exact hfile p hp ((h.paths p).mp hin).2
    · rename_i hnot
      rw [← Option.not_isSome_iff_eq_none]
      exact fun hsome => hnot ((h.paths p).mpr ⟨hp, hsome⟩)
  · intro p hnot
    rw [List.eq_nil_iff_forall_not_mem]
    intro e he
    have hseg := (hd.segs p e he).1
    apply hnot
    refine (h.paths p).mpr ⟨hseg, ?_⟩
    by_cases hpn : p = segmentName n
    · simp [hpn, hd.active]
    · rcases hd.others p hseg hpn with hfile | ⟨-, hnil⟩
      · simp [hfile]
      · rw [hnil] at he
        cases he

/-- The log that a restart finds after a crash that left nothing or all of a record. -/
theorem Crashed.settle {d : Disk} {log : String → List LogEntry} {n : UInt64} {torn : LogEntry}
    {k : Nat} (h : Crashed P d log n ((record P torn).take k)) (ht : Writable P torn)
    (hk : k = 0 ∨ k = (record P torn).length) :
    ∃ log', Crashed P d log' n [] ∧ (∀ x, (∃ p, x ∈ log p) → ∃ p, x ∈ log' p) ∧
      ∀ x, (∃ p, x ∈ log' p) → (∃ p, x ∈ log p) ∨ k ≠ 0 ∧ x = torn := by
  by_cases hzero : k = 0
  · rw [hzero, List.take_zero] at h
    exact ⟨log, h, fun _ => id, fun _ => .inl⟩
  · have hfull := hk.resolve_left hzero
    rw [hfull, List.take_length] at h
    exact ⟨_, h.absorb ht, fun x hx => mem_addTo.mpr (.inl hx),
      fun x hx => (mem_addTo.mp hx).imp_right (fun heq => ⟨hzero, heq⟩)⟩

/-- The restart returns a store that reads and finds all acknowledged entries, and keeps
reading after more ingests. -/
def Recovers (P : ProtoPackage) (B : BloomPackage) (d : Disk) (maxSegmentBytes : Int)
    (bloomEnabled : Bool) (acked later : List LogEntry) : Prop :=
  ∃ s : Store B, start P B d maxSegmentBytes bloomEnabled = some s ∧
    (∃ all, s.readAll P = .ok all ∧ ∀ e ∈ acked, e ∈ all) ∧
    (∀ e ∈ acked, ∃ p ∈ s.index.resolve (Index.tokenize e.message) e.namespace e.service
      e.timestamp e.timestamp, e ∈ entriesAt P s.disk p) ∧
    ∃ all, (s.ingestAll P later).readAll P = .ok all ∧ (∀ e ∈ acked, e ∈ all) ∧
      ∀ e ∈ later, e ∈ all

/-- A node recovers from a crash inside an append exactly when the crash left nothing or all
of the record, and no record is larger than what `ReadRecord` accepts. -/
theorem restart_durable_iff (hP : P.Inverts) (B : BloomPackage) (maxSegmentBytes : Int)
    (bloomEnabled : Bool) {acked later : List LogEntry} {torn : LogEntry} {k : Nat}
    (hacked : ∀ e ∈ acked, Writable P e) (hlater : ∀ e ∈ later, Writable P e)
    (htorn : Writable P torn) (hk : k ≤ (record P torn).length) (maxSegmentBytes' : Int)
    (bloomEnabled' : Bool) :
    Recovers P B (crashDisk P ((fresh B maxSegmentBytes bloomEnabled).ingestAll P acked) torn k)
      maxSegmentBytes' bloomEnabled' acked later ↔
    (∀ e ∈ acked, Fits P e) ∧ (∀ e ∈ later, Fits P e) ∧
      (k = 0 ∨ k = (record P torn).length ∧ Fits P torn) := by
  obtain ⟨log, hlog, hmem, -⟩ :=
    (fresh_logged P B maxSegmentBytes bloomEnabled).ingestAll hacked
  obtain ⟨n, hcrash⟩ := crashDisk_crashed hlog torn k
  generalize crashDisk P ((fresh B maxSegmentBytes bloomEnabled).ingestAll P acked) torn k = d at *
  have hin : ∀ x, (∃ p, x ∈ log p) ↔ x ∈ acked := fun x => by simp [hmem x]
  have hfits : (∀ p, ∀ e ∈ log p, Fits P e) ↔ ∀ e ∈ acked, Fits P e := by
    constructor
    · intro h e he
      obtain ⟨p, hp⟩ := (hin e).mpr he
      exact h p e hp
    · intro h p e he
      exact h e ((hin e).mp ⟨p, he⟩)
  obtain ⟨hstarts, hstarted⟩ := start_marked (B := B) (P := P) hcrash.marker
    (by rw [hcrash.active]; rfl) maxSegmentBytes' bloomEnabled'
  rw [hcrash.decodes_iff hP, torn_decodes hP htorn hk, hfits] at hstarts
  constructor
  · intro hgiven
    obtain ⟨s, hs, _, _, all, hall, _, _⟩ := hgiven
    obtain ⟨hackedFit, hcut⟩ := hstarts.mp ⟨s, hs⟩
    refine ⟨hackedFit, ?_, hcut⟩
    obtain ⟨log', hsettled, -, -⟩ := hcrash.settle htorn (hcut.imp_right And.left)
    obtain ⟨log2, hlog2, hmem2, -⟩ := ((hstarted s hs).1.logged hsettled).ingestAll hlater
    intro e he
    obtain ⟨p, hp⟩ := (hmem2 e).mpr (.inr he)
    exact hlog2.fits hP hall (hlog2.mem_paths hp) e hp
  · intro hgiven
    obtain ⟨hackedFit, hlaterFit, hcut⟩ := hgiven
    obtain ⟨s, hs⟩ := hstarts.mpr ⟨hackedFit, hcut⟩
    obtain ⟨hmounted, hindexed⟩ := hstarted s hs
    obtain ⟨log', hsettled, hkeeps, honly⟩ := hcrash.settle htorn (hcut.imp_right And.left)
    have hlogged := hmounted.logged hsettled
    have hfit' : ∀ p, ∀ e ∈ log' p, Fits P e := by
      intro p e he
      rcases honly e ⟨p, he⟩ with hold | ⟨hpos, heq⟩
      · exact hackedFit e ((hin e).mp hold)
      · exact heq ▸ (hcut.resolve_left hpos).2
    have hsound := hlogged.sound hP hfit'
    have hentries := (hlogged.readable hP hfit').2
    have hholds : ∀ e ∈ acked, ∃ p, IsSeg p ∧ e ∈ entriesAt P s.disk p := by
      intro e he
      obtain ⟨p, hp⟩ := hkeeps e ((hin e).mpr he)
      have hseg := hlogged.segs p (hlogged.mem_paths hp)
      exact ⟨p, hseg, by rw [hentries p hseg]; exact hp⟩
    obtain ⟨hsound', hholds'⟩ := hsound.ingestAll hP hlaterFit
    refine ⟨s, hs, ⟨_, hsound.readAll_eq, ?_⟩, ?_, _, hsound'.readAll_eq, ?_, ?_⟩
    · intro e he
      exact (hsound.mem_readAll hsound.readAll_eq e).mpr (hholds e he)
    · intro e he
      obtain ⟨p, hseg, hp⟩ := hholds e he
      exact ⟨p, hindexed.resolves hseg hp, hp⟩
    · intro e he
      exact (hsound'.mem_readAll hsound'.readAll_eq e).mpr ((hholds' e).mpr (.inl (hholds e he)))
    · intro e he
      exact (hsound'.mem_readAll hsound'.readAll_eq e).mpr ((hholds' e).mpr (.inr he))

/-- A record of which all bytes were written before the crash. -/
theorem restart_durable_whole :
    Recovers protobuf exactFilter
      (crashDisk protobuf ((fresh exactFilter 40 true).ingestAll protobuf
        [line "a" "" "orders" "disk full" 1]) (line "b" "" "orders" "disk full" 2) 36)
      40 true [line "a" "" "orders" "disk full" 1] [line "c" "" "orders" "disk full" 3] :=
  (restart_durable_iff protobuf_inverts exactFilter 40 true (by decide +kernel)
    (by decide +kernel) (by decide +kernel) (by decide +kernel) 40 true).mpr (by decide +kernel)

/-- One byte of a second record is enough to keep the node from starting again. -/
theorem restart_fails_torn :
    (start protobuf exactFilter
      (crashDisk protobuf ((fresh exactFilter 1000 false).ingestAll protobuf
        [line "a" "" "orders" "disk full" 1]) (line "b" "" "orders" "disk full" 2) 1)
      1000 false).isNone = true := by
  decide +kernel

end LogEngine.Storage
