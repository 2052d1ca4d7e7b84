import LogEngine.Storage.Restart

namespace LogEngine.Storage
open Lib

variable {B : BloomPackage} {P : ProtoPackage}

/-- Every listed segment file is the records of its log, and no other segment file exists.
The records need not be readable. -/
structure Logged (P : ProtoPackage) (s : Store B) (log : String → List LogEntry) : Prop where
  files : ∀ p, IsSeg p → s.disk.files.get p =
    if p ∈ s.manager.paths then some ((log p).flatMap (record P)) else none
  unlisted : ∀ p, p ∉ s.manager.paths → log p = []
  writable : ∀ p, ∀ e ∈ log p, Writable P e
  segs : ∀ p ∈ s.manager.paths, IsSeg p
  active : ∃ n size, s.manager.active = some ⟨segmentName n, size⟩ ∧
    s.manager.paths.getLast? = some (segmentName n) ∧ s.disk.marker = some (segmentName n)

def addTo (log : String → List LogEntry) (path : String) (e : LogEntry) :
    String → List LogEntry :=
  fun p => if p = path then log p ++ [e] else log p

theorem mem_addTo {log : String → List LogEntry} {path : String} {e x : LogEntry} :
    (∃ p, x ∈ addTo log path e p) ↔ (∃ p, x ∈ log p) ∨ x = e := by
  constructor
  · intro h
    obtain ⟨p, hp⟩ := h
    unfold addTo at hp
    split at hp
    · rcases List.mem_append.mp hp with hp | hp
      · exact .inl ⟨p, hp⟩
      · exact .inr (List.mem_singleton.mp hp)
    · exact .inl ⟨p, hp⟩
  · intro hor
    rcases hor with ⟨p, hp⟩ | heq
    · refine ⟨p, ?_⟩
      unfold addTo
      split
      · exact List.mem_append_left _ hp
      · exact hp
    · exact ⟨path, by simp [addTo, heq]⟩

theorem Logged.getD {s : Store B} {log : String → List LogEntry} (h : Logged P s log)
    {p : String} (hp : IsSeg p) :
    (s.disk.files.get p).getD [] = (log p).flatMap (record P) := by
  rw [h.files p hp]
  split
  · rfl
  · rename_i hnot
    rw [h.unlisted p hnot]
    rfl

/-- The rotation in front of a write changes no log. -/
theorem Opened.logged {s t : Store B} {path : String} {log : String → List LogEntry}
    (h : Opened s t path) (hs : Logged P s log) :
    Logged P t log ∧ ∃ n, path = segmentName n ∧ t.disk.marker = some path ∧
      path ∈ t.manager.paths := by
  obtain ⟨n, size, hactive, hlast, hmark⟩ := hs.active
  obtain ⟨size', hactive'⟩ := h.active
  rcases h.layout with ⟨hpath, hget, hpaths, -, hmarker⟩ | ⟨hpath, hsome, hpaths, -, hmarker⟩
  · simp only [hactive, Option.map_some, Option.some.injEq] at hpath
    subst hpath
    have hmem := List.mem_of_getLast? hlast
    refine ⟨⟨?_, hpaths ▸ hs.unlisted, hs.writable, hpaths ▸ hs.segs,
      n, size', hactive', hpaths ▸ hlast, hmarker.trans hmark⟩,
      n, rfl, hmarker.trans hmark, hpaths ▸ hmem⟩
    intro p hp
    rw [hpaths, ← hs.files p hp]
    by_cases hpp : p = segmentName n
    · rw [hpp, hget]
    · exact h.others p hp hpp
  · have hseg : IsSeg path := hpath ▸ segmentName_isSeg _
    have hmem : ∀ p, p ∈ t.manager.paths ↔ p ∈ s.manager.paths ∨ p = path := by
      intro p
      rw [hpaths, List.mem_append, List.mem_singleton]
    refine ⟨⟨?_, ?_, hs.writable, ?_, s.manager.nextSeq, size', hpath ▸ hactive', ?_,
      hpath ▸ hmarker⟩, _, hpath, hmarker, (hmem path).mpr (.inr rfl)⟩
    · intro p hp
      by_cases hpp : p = path
      · subst hpp
        obtain ⟨bs, hbs⟩ := Option.isSome_iff_exists.mp hsome
        have hcontent := h.content
        rw [hs.getD hseg, hbs, Option.getD_some] at hcontent
        rw [if_pos ((hmem p).mpr (.inr rfl)), hbs, hcontent]
      · rw [h.others p hp hpp, hs.files p hp]
        simp [hmem, hpp]
    · intro p hp
      exact hs.unlisted p (fun hin => hp ((hmem p).mpr (.inl hin)))
    · intro p hp
      rcases (hmem p).mp hp with hp | hp
      · exact hs.segs p hp
      · exact hp ▸ hseg
    · rw [hpaths, List.getLast?_concat, hpath]

/-- Extending one listed file by a record extends its log. -/
theorem Logged.extend {t s' : Store B} {log : String → List LogEntry} {path : String}
    {e : LogEntry} (ht : Logged P t log) (he : Writable P e) (hmem : path ∈ t.manager.paths)
    (hget : ∀ q, IsSeg q → s'.disk.files.get q =
      if q = path then some ((t.disk.files.get path).getD [] ++ record P e)
      else t.disk.files.get q)
    (hmarker : s'.disk.marker = t.disk.marker)
    (hpaths : ∀ p, p ∈ s'.manager.paths ↔ p ∈ t.manager.paths)
    (hlast : s'.manager.paths.getLast? = t.manager.paths.getLast?)
    (hactive : s'.manager.active.map Segment.path = t.manager.active.map Segment.path) :
    Logged P s' (addTo log path e) := by
  refine ⟨?_, ?_, ?_, fun p hp => ht.segs p ((hpaths p).mp hp), ?_⟩
  · intro p hp
    rw [hget p hp]
    by_cases hpp : p = path
    · subst hpp
      rw [if_pos rfl, if_pos ((hpaths p).mpr hmem), ht.getD hp]
      simp [addTo]
    · rw [if_neg hpp, ht.files p hp]
      simp [addTo, hpp, hpaths]
  · intro p hp
    have hnot : p ∉ t.manager.paths := fun hin => hp ((hpaths p).mpr hin)
    have hpp : p ≠ path := fun heq => hnot (heq ▸ hmem)
    simp [addTo, hpp, ht.unlisted p hnot]
  · intro p x hx
    rcases mem_addTo.mp ⟨p, hx⟩ with ⟨q, hq⟩ | heq
    · exact ht.writable q x hq
    · exact heq ▸ he
  · obtain ⟨n, size, hact, hl, hm⟩ := ht.active
    rw [hact, Option.map_some] at hactive
    obtain ⟨seg, hseg, hname⟩ := Option.map_eq_some_iff.mp hactive
    have hpath : seg.path = segmentName n := hname
    refine ⟨n, seg.size, ?_, hlast.trans hl, hmarker.trans hm⟩
    rw [hseg, ← hpath]

theorem Logged.congr {s s' : Store B} {log : String → List LogEntry} (h : Logged P s log)
    (hdisk : s'.disk = s.disk) (hman : s'.manager = s.manager) : Logged P s' log := by
  obtain ⟨files, unlisted, writable, segs, active⟩ := h
  rw [← hdisk, ← hman] at files active
  rw [← hman] at unlisted segs
  exact ⟨files, unlisted, writable, segs, active⟩

/-- The index knows exactly the entries of the log, each under its segment. -/
def Catalogued (idx : Index) (log : String → List LogEntry) : Prop :=
  ∃ live, Index.Rep idx live ∧ ∀ p e, (p, e) ∈ live ↔ e ∈ log p

theorem Catalogued.add {idx : Index} {log : String → List LogEntry} (h : Catalogued idx log)
    (e : LogEntry) (path : String) : Catalogued (idx.add e path) (addTo log path e) := by
  obtain ⟨live, hrep, hlive⟩ := h
  refine ⟨live ++ [(path, e)], hrep.add e path, ?_⟩
  intro p x
  rw [List.mem_append, hlive, List.mem_singleton, Prod.mk.injEq, addTo]
  split <;> simp [*]

/-- An append of an entry that `WriteRecord` accepts extends one log by it. -/
theorem Logged.append {s : Store B} {log : String → List LogEntry} (hs : Logged P s log)
    {e : LogEntry} (he : Writable P e) (ok : Bool) :
    ∃ path, Logged P (s.run (appendLocked P s e ok).1) (addTo log path e) ∧
      (s.run (appendLocked P s e ok).1).manager.activeSegmentName = path ∧
      (s.run (appendLocked P s e ok).1).index = s.index := by
  obtain ⟨n, size, hactive, -⟩ := hs.active
  have hopen := rotateIfFull_opened (P := P) e ok hactive
  obtain ⟨hlogged, -, -, -, hmem⟩ := hopen.logged hs
  obtain ⟨m, size', hactive', -⟩ := hlogged.active
  have happended := append_spec ok hactive he
  rw [appendLocked_eq hactive he, run_append] at *
  generalize s.run (rotateIfFull P s ⟨segmentName n, size⟩ e ok) = t at *
  generalize appendTarget P s ⟨segmentName n, size⟩ e = path at *
  obtain ⟨wpaths, -, -, -, wmarker, -⟩ := writeSteps_layout (P := P) t path e
  obtain ⟨size'', wactive⟩ := writeSteps_active (P := P) hactive' path e
  have hext : Logged P (t.run (writeSteps B P path e)) (addTo log path e) :=
    hlogged.extend he hmem (fun q _ => writeSteps_get t path q e) wmarker
      (fun p => by rw [wpaths]) (by rw [wpaths]) (by rw [wactive, hactive']; rfl)
  refine ⟨path, hext, ?_, happended.index⟩
  obtain ⟨k, _, hk, hlast, -⟩ := hext.active
  obtain ⟨_, hpath⟩ := happended.active
  rw [hk, Option.some.injEq, Segment.mk.injEq] at hpath
  simp only [Manager.activeSegmentName, hlast, Option.getD_some, hpath.1]

theorem Logged.ingest {s : Store B} {log : String → List LogEntry} (hs : Logged P s log)
    {e : LogEntry} (he : Writable P e) : ∃ path, Logged P (s.ingest P e) (addTo log path e) ∧
      (s.ingest P e).index = s.index.add e path := by
  obtain ⟨n, size, hactive, -⟩ := hs.active
  obtain ⟨path, hlogged, hname, hindex⟩ := hs.append he true
  rw [ingest_eq hactive he]
  exact ⟨path, hlogged.congr rfl rfl, by rw [hname, hindex]⟩

/-- A run of ingests adds exactly its entries to the log, and the index follows. -/
theorem Logged.ingestAll {s : Store B} {log : String → List LogEntry} (hs : Logged P s log)
    {es : List LogEntry} (hes : ∀ e ∈ es, Writable P e) :
    ∃ log', Logged P (s.ingestAll P es) log' ∧
      (∀ x, (∃ p, x ∈ log' p) ↔ (∃ p, x ∈ log p) ∨ x ∈ es) ∧
      (Catalogued s.index log → Catalogued (s.ingestAll P es).index log') := by
  induction es generalizing s log with
  | nil => exact ⟨log, hs, fun x => by simp, fun h => h⟩
  | cons e es ih =>
    obtain ⟨path, hlogged, hindex⟩ := hs.ingest (hes e List.mem_cons_self)
    obtain ⟨log', hlog', hmem, hcat⟩ := ih hlogged (fun x hx => hes x (List.mem_cons_of_mem _ hx))
    refine ⟨log', hlog', fun x => ?_, fun h => hcat ?_⟩
    · rw [hmem x, mem_addTo, List.mem_cons, or_assoc]
    · rw [hindex]
      exact h.add e path

/-- With bloom filters off a run of ingests has none. -/
theorem Logged.ingestAll_blooms {s : Store B} {log : String → List LogEntry}
    (hs : Logged P s log) (hoff : s.manager.bloomEnabled = false) {es : List LogEntry}
    (hes : ∀ e ∈ es, Writable P e) :
    (s.ingestAll P es).manager.blooms = s.manager.blooms := by
  induction es generalizing s log with
  | nil => rfl
  | cons e es ih =>
    obtain ⟨he, hes⟩ := List.forall_mem_cons.mp hes
    obtain ⟨path, hlogged, -⟩ := hs.ingest he
    obtain ⟨n, size, hactive, -⟩ := hs.active
    have hblooms : (s.ingest P e).manager.blooms = s.manager.blooms := by
      simp only [ingest_eq hactive he, append_blooms hactive hoff]
    have hoff' : (s.ingest P e).manager.bloomEnabled = false := by
      simp only [ingest_eq hactive he, (append_spec true hactive he).bloomEnabled, hoff]
    exact (ih hlogged hoff' hes).trans hblooms

theorem fresh_catalogued (B : BloomPackage) (maxSegmentBytes : Int) (bloomEnabled : Bool) :
    Catalogued (fresh B maxSegmentBytes bloomEnabled).index (fun _ => []) := by
  refine ⟨[], ?_, by simp⟩
  rw [fresh, (openNewSegment_run _ _).2.2.2.2.2.2.2]
  exact Index.new_rep

theorem fresh_logged (P : ProtoPackage) (B : BloomPackage) (maxSegmentBytes : Int)
    (bloomEnabled : Bool) : Logged P (fresh B maxSegmentBytes bloomEnabled) (fun _ => []) := by
  obtain ⟨-, ⟨size, hactive⟩, -, -, -, -, hmarker, -⟩ := openNewSegment_run
    (⟨.empty, emptyManager B maxSegmentBytes bloomEnabled, .new⟩ : Store B)
    (emptyManager B maxSegmentBytes bloomEnabled)
  refine ⟨?_, fun _ _ => rfl, by simp, ?_, 1, size, hactive, by rw [fresh_paths]; rfl, hmarker⟩
  · intro p _
    simp only [fresh_get, fresh_paths, List.mem_singleton, List.flatMap_nil]
  · intro p hp
    rw [fresh_paths, List.mem_singleton] at hp
    exact hp ▸ segmentName_isSeg 1

/-- A store whose log fits reads back as its log. -/
theorem Logged.readable (hP : P.Inverts) {s : Store B} {log : String → List LogEntry}
    (h : Logged P s log) (hfit : ∀ p, ∀ e ∈ log p, Fits P e) :
    Readable P s.disk ∧ ∀ p, IsSeg p → entriesAt P s.disk p = log p := by
  have hentries : ∀ p, IsSeg p → entriesAt P s.disk p = log p := by
    intro p hp
    have hfile := h.files p hp
    split at hfile
    · exact entriesAt_some hfile (decodeSegment_records hP (hfit p))
    · rename_i hnot
      rw [entriesAt_none hfile, h.unlisted p hnot]
  refine ⟨⟨?_, fun p hp e he => hfit p e (hentries p hp ▸ he)⟩, hentries⟩
  intro p bs hp hbs
  have hfile := h.files p hp
  rw [hbs] at hfile
  split at hfile
  · cases hfile
    exact ⟨log p, decodeSegment_records hP (hfit p)⟩
  · cases hfile

theorem Logged.sound (hP : P.Inverts) {s : Store B} {log : String → List LogEntry}
    (h : Logged P s log) (hfit : ∀ p, ∀ e ∈ log p, Fits P e) : Sound P s := by
  obtain ⟨n, size, hactive, hlast, -⟩ := h.active
  refine ⟨(h.readable hP hfit).1, ⟨_, hactive, hlast⟩, h.segs, ?_⟩
  intro p hp hsome
  rw [h.files p hp] at hsome
  split at hsome
  · assumption
  · cases hsome

theorem Logged.readAll_eq (hP : P.Inverts) {s : Store B} {log : String → List LogEntry}
    (h : Logged P s log) (hfit : ∀ p, ∀ e ∈ log p, Fits P e) :
    s.readAll P = .ok (s.manager.paths.flatMap log) := by
  rw [(h.sound hP hfit).readAll_eq]
  refine congrArg _ (List.flatMap_congr (fun p hp => ?_))
  exact (h.readable hP hfit).2 p (h.segs p hp)

theorem Logged.mem_paths {s : Store B} {log : String → List LogEntry} (h : Logged P s log)
    {p : String} {e : LogEntry} (he : e ∈ log p) : p ∈ s.manager.paths := by
  by_contra hnot
  rw [h.unlisted p hnot] at he
  cases he

/-- A segment that can be read holds entries that fit. -/
theorem Logged.fits_of_decodes (hP : P.Inverts) {s : Store B} {log : String → List LogEntry}
    (h : Logged P s log) {p : String}
    (hdecodes : ∀ bs, s.disk.files.get p = some bs → ∃ es, decodeSegment P bs = .ok es) :
    ∀ e ∈ log p, Fits P e := by
  intro e he
  have hlisted := h.mem_paths he
  have hfile := h.files p (h.segs p hlisted)
  rw [if_pos hlisted] at hfile
  obtain ⟨es, hes⟩ := hdecodes _ hfile
  rw [← List.append_nil ((log p).flatMap (record P))] at hes
  exact (records_readable hP (h.writable p) hes).1 e he

/-- What can be read of a log fits. -/
theorem Logged.fits (hP : P.Inverts) {s : Store B} {log : String → List LogEntry}
    (h : Logged P s log) {paths : List String} {all : List LogEntry}
    (hall : readSegments P s.disk paths = .ok all) {p : String} (hp : p ∈ paths) :
    ∀ e ∈ log p, Fits P e :=
  h.fits_of_decodes hP (fun _ hbs => decodes_of_readSegments hall hp hbs)

end LogEngine.Storage
