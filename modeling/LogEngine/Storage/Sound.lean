import LogEngine.Storage.Append

namespace LogEngine.Storage
open Lib

variable {B : BloomPackage} {P : ProtoPackage}

/-- `ReadSegments(SegmentPaths())`. -/
def Store.readAll (P : ProtoPackage) (s : Store B) : Except ReadError (List LogEntry) :=
  readSegments P s.disk s.manager.paths

/-- Some segment file of the directory reads back with the entry. -/
def Holds (P : ProtoPackage) (d : Disk) (e : LogEntry) : Prop :=
  ∃ p, IsSeg p ∧ e ∈ entriesAt P d p

/-- A running store between two operations: the manager is open, its last path is the
active segment, and it lists exactly the segment files, all of them readable. -/
structure Sound (P : ProtoPackage) (s : Store B) : Prop where
  readable : Readable P s.disk
  active : ∃ seg, s.manager.active = some seg ∧ s.manager.paths.getLast? = some seg.path
  segs : ∀ p ∈ s.manager.paths, IsSeg p
  listed : ∀ p, IsSeg p → (s.disk.files.get p).isSome = true → p ∈ s.manager.paths

/-- Soundness looks only at the segment files and the manager. -/
theorem Sound.congr {t t' : Store B} (ht : Sound P t) (hman : t'.manager = t.manager)
    (hget : ∀ q, IsSeg q → t'.disk.files.get q = t.disk.files.get q) : Sound P t' := by
  refine ⟨⟨?_, ?_⟩, hman ▸ ht.active, hman ▸ ht.segs, ?_⟩
  · intro q bs hq h
    exact ht.readable.decodes q bs hq (hget q hq ▸ h)
  · intro q hq e he
    rw [entriesAt_congr (hget q hq)] at he
    exact ht.readable.fits q hq e he
  · intro q hq h
    rw [hget q hq] at h
    exact hman ▸ ht.listed q hq h

theorem exists_of_mem_entriesAt {d : Disk} {p : String} {e : LogEntry}
    (h : e ∈ entriesAt P d p) : (d.files.get p).isSome = true := by
  cases hp : d.files.get p with
  | none => simp [entriesAt_none hp] at h
  | some bs => rfl

theorem Sound.readAll_eq {s : Store B} (h : Sound P s) :
    s.readAll P = .ok (s.manager.paths.flatMap (entriesAt P s.disk)) :=
  readSegments_eq h.readable h.segs

/-- What the store returns is what its segment files hold. -/
theorem Sound.mem_readAll {s : Store B} (h : Sound P s) {all : List LogEntry}
    (hall : s.readAll P = .ok all) (e : LogEntry) : e ∈ all ↔ Holds P s.disk e := by
  rw [h.readAll_eq] at hall
  cases hall
  rw [List.mem_flatMap]
  constructor
  · rintro ⟨p, hp, he⟩
    exact ⟨p, h.segs p hp, he⟩
  · rintro ⟨p, hp, he⟩
    exact ⟨p, h.listed p hp (exists_of_mem_entriesAt he), he⟩

/-- The file that an append wrote to reads back with the entry at its end. -/
theorem Appended.entriesAt_path (hP : P.Inverts) {s s' : Store B} {e : LogEntry} {path : String}
    (h : Appended P s s' e path) (hs : Readable P s.disk) (hseg : IsSeg path) (he : Fits P e) :
    (∃ bs, s'.disk.files.get path = some bs ∧
      decodeSegment P bs = .ok (entriesAt P s.disk path ++ [e])) := by
  refine ⟨_, h.content, ?_⟩
  cases hp : s.disk.files.get path with
  | none => rw [entriesAt_none hp]; exact decodeSegment_snoc hP (decodeSegment_nil P) he
  | some bs =>
    obtain ⟨es, hes⟩ := hs.decodes path bs hseg hp
    rw [entriesAt_some hp hes]
    exact decodeSegment_snoc hP hes he

/-- How an append changes what the segment files read as. -/
theorem Appended.entriesAt (hP : P.Inverts) {s s' : Store B} {e : LogEntry} {path : String}
    (h : Appended P s s' e path) (hs : Readable P s.disk) (hseg : IsSeg path) (he : Fits P e)
    {q : String} (hq : IsSeg q) : entriesAt P s'.disk q =
      if q = path then entriesAt P s.disk q ++ [e] else entriesAt P s.disk q := by
  split
  · rename_i heq
    subst q
    obtain ⟨bs, hbs, hdec⟩ := h.entriesAt_path hP hs hseg he
    exact entriesAt_some hbs hdec
  · rename_i hne
    exact entriesAt_congr (h.others q hq hne)

theorem Appended.readable (hP : P.Inverts) {s s' : Store B} {e : LogEntry} {path : String}
    (h : Appended P s s' e path) (hs : Readable P s.disk) (hseg : IsSeg path) (he : Fits P e) :
    Readable P s'.disk := by
  constructor
  · intro q bs hq hget
    by_cases hqp : q = path
    · subst q
      obtain ⟨bs', hbs', hdec⟩ := h.entriesAt_path hP hs hseg he
      rw [hget] at hbs'
      cases hbs'
      exact ⟨_, hdec⟩
    · rw [h.others q hq hqp] at hget
      exact hs.decodes q bs hq hget
  · intro q hq x hx
    rw [h.entriesAt hP hs hseg he hq] at hx
    split at hx
    · rcases List.mem_append.mp hx with hx | hx
      · exact hs.fits q hq x hx
      · exact List.mem_singleton.mp hx ▸ he
    · exact hs.fits q hq x hx

theorem Appended.sound (hP : P.Inverts) {s s' : Store B} {e : LogEntry} {path : String}
    (h : Appended P s s' e path) (hs : Sound P s) (he : Fits P e) :
    Sound P s' ∧ IsSeg path ∧ s'.manager.paths.getLast? = some path := by
  obtain ⟨seg, hactive, hlast⟩ := hs.active
  have hpath : IsSeg path ∧ s'.manager.paths.getLast? = some path ∧
      ∀ p, p ∈ s'.manager.paths ↔ p ∈ s.manager.paths ∨ p = path := by
    rcases h.layout with ⟨hsame, hpaths, -⟩ | ⟨hname, hpaths, -⟩
    · simp only [hactive, Option.map_some, Option.some.injEq] at hsame
      subst hsame
      have hmem := List.mem_of_getLast? hlast
      refine ⟨hs.segs _ hmem, hpaths ▸ hlast, fun p => ?_⟩
      rw [hpaths]
      exact ⟨.inl, fun hp => hp.elim id (fun he => he ▸ hmem)⟩
    · exact ⟨hname ▸ segmentName_isSeg _, by rw [hpaths, List.getLast?_concat],
        fun p => by rw [hpaths, List.mem_append, List.mem_singleton]⟩
  obtain ⟨hseg, hgl, hmem⟩ := hpath
  refine ⟨⟨h.readable hP hs.readable hseg he, ?_, ?_, ?_⟩, hseg, hgl⟩
  · obtain ⟨n, hn⟩ := h.active
    exact ⟨_, hn, hgl⟩
  · intro p hp
    rcases (hmem p).mp hp with hp | rfl
    · exact hs.segs p hp
    · exact hseg
  · intro p hp hsome
    by_cases hpp : p = path
    · exact (hmem p).mpr (.inr hpp)
    · rw [h.others p hp hpp] at hsome
      exact (hmem p).mpr (.inl (hs.listed p hp hsome))

theorem ingest_eq {s : Store B} {seg : Segment} {e : LogEntry}
    (hactive : s.manager.active = some seg) (he : Writable P e) :
    s.ingest P e = { s.run (appendLocked P s e true).1 with
      index := (s.run (appendLocked P s e true).1).index.add e
        (s.run (appendLocked P s e true).1).manager.activeSegmentName } := by
  simp only [Store.ingest, Store.appendWithPath, appendLocked_eq hactive he]

/-- An ingest of an entry that fits: the store stays sound, one segment gains the entry, and
the index learns it under that segment. -/
theorem Sound.ingest (hP : P.Inverts) {s : Store B} (hs : Sound P s) {e : LogEntry}
    (he : Fits P e) : Sound P (s.ingest P e) ∧ ∃ path, IsSeg path ∧
      (s.ingest P e).index = s.index.add e path ∧
      (∀ q, IsSeg q → entriesAt P (s.ingest P e).disk q =
        if q = path then entriesAt P s.disk q ++ [e] else entriesAt P s.disk q) := by
  obtain ⟨seg, hactive, hlast⟩ := hs.active
  have happ := append_spec true hactive he.writable
  obtain ⟨hsound, hseg, hgl⟩ := happ.sound hP hs he
  rw [ingest_eq hactive he.writable]
  refine ⟨⟨hsound.readable, hsound.active, hsound.segs, hsound.listed⟩, _, hseg, ?_, ?_⟩
  · simp only [Manager.activeSegmentName, hgl, Option.getD_some, happ.index]
  · exact fun q hq => happ.entriesAt hP hs.readable hseg he hq

/-- An ingest adds its entry to what the store holds and loses nothing. -/
theorem Sound.holds_ingest (hP : P.Inverts) {s : Store B} (hs : Sound P s) {e : LogEntry}
    (he : Fits P e) (x : LogEntry) :
    Holds P (s.ingest P e).disk x ↔ Holds P s.disk x ∨ x = e := by
  obtain ⟨-, path, hseg, -, hentries⟩ := hs.ingest hP he
  constructor
  · rintro ⟨q, hq, hx⟩
    rw [hentries q hq] at hx
    split at hx
    · rcases List.mem_append.mp hx with hx | hx
      · exact .inl ⟨q, hq, hx⟩
      · exact .inr (List.mem_singleton.mp hx)
    · exact .inl ⟨q, hq, hx⟩
  · rintro (⟨q, hq, hx⟩ | rfl)
    · refine ⟨q, hq, ?_⟩
      rw [hentries q hq]
      split
      · exact List.mem_append_left _ hx
      · exact hx
    · exact ⟨path, hseg, by rw [hentries path hseg, if_pos rfl]; simp⟩

def Store.ingestAll (P : ProtoPackage) (s : Store B) (es : List LogEntry) : Store B :=
  es.foldl (Store.ingest P) s

/-- A run of ingests keeps the store sound and adds exactly its entries. -/
theorem Sound.ingestAll (hP : P.Inverts) {s : Store B} (hs : Sound P s) {es : List LogEntry}
    (hes : ∀ e ∈ es, Fits P e) : Sound P (s.ingestAll P es) ∧
      ∀ x, Holds P (s.ingestAll P es).disk x ↔ Holds P s.disk x ∨ x ∈ es := by
  induction es generalizing s with
  | nil => exact ⟨hs, fun x => by simp [Store.ingestAll]⟩
  | cons e es ih =>
    have he := hes e List.mem_cons_self
    obtain ⟨hsound, hholds⟩ := ih (hs.ingest hP he).1
      (fun x hx => hes x (List.mem_cons_of_mem _ hx))
    refine ⟨hsound, fun x => ?_⟩
    change Holds P ((s.ingest P e).ingestAll P es).disk x ↔ _
    rw [hholds x, hs.holds_ingest hP he, List.mem_cons, or_assoc]

/-- How appends change a store: closed segments stay closed, the active one stays or is closed,
and no segment loses an entry. -/
structure Grown (P : ProtoPackage) (s t : Store B) : Prop where
  closed : ∀ p ∈ s.manager.listClosedSegments, p ∈ t.manager.listClosedSegments
  active : t.manager.activeSegmentName = s.manager.activeSegmentName ∨
    s.manager.activeSegmentName ∈ t.manager.listClosedSegments
  entries : ∀ q, IsSeg q → ∀ e ∈ entriesAt P s.disk q, e ∈ entriesAt P t.disk q

theorem Grown.refl (s : Store B) : Grown P s s := ⟨fun _ h => h, .inl rfl, fun _ _ _ h => h⟩

theorem Grown.trans {s t u : Store B} (h : Grown P s t) (h' : Grown P t u) : Grown P s u := by
  refine ⟨fun p hp => h'.closed p (h.closed p hp), ?_,
    fun q hq e he => h'.entries q hq e (h.entries q hq e he)⟩
  rcases h.active with hsame | hclosed
  · rw [← hsame]
    exact h'.active
  · exact .inr (h'.closed _ hclosed)

theorem Sound.ingest_grown (hP : P.Inverts) {s : Store B} (hs : Sound P s) {e : LogEntry}
    (he : Fits P e) : Grown P s (s.ingest P e) := by
  obtain ⟨-, path, -, -, hentries⟩ := hs.ingest hP he
  obtain ⟨seg, hactive, hlast⟩ := hs.active
  have hlayout := (append_spec true hactive he.writable).layout
  have hpaths : (s.ingest P e).manager.paths = s.manager.paths ∨
      ∃ name, (s.ingest P e).manager.paths = s.manager.paths ++ [name] := by
    rw [ingest_eq hactive he.writable]
    rcases hlayout with ⟨-, hsame, -⟩ | ⟨-, hnew, -⟩
    · exact .inl hsame
    · exact .inr ⟨_, hnew⟩
  refine ⟨fun p hp => ?_, ?_, fun q hq x hx => ?_⟩
  · rcases hpaths with hsame | ⟨name, hnew⟩
    · rw [Manager.listClosedSegments, hsame]
      exact hp
    · rw [Manager.listClosedSegments, hnew, List.dropLast_concat]
      exact List.dropLast_subset _ hp
  · rcases hpaths with hsame | ⟨name, hnew⟩
    · exact .inl (by rw [Manager.activeSegmentName, hsame]; rfl)
    · refine .inr ?_
      rw [Manager.listClosedSegments, hnew, List.dropLast_concat, Manager.activeSegmentName, hlast]
      exact List.mem_of_getLast? hlast
  · rw [hentries q hq]
    split
    · exact List.mem_append_left _ hx
    · exact hx

theorem Sound.ingestAll_grown (hP : P.Inverts) {s : Store B} (hs : Sound P s)
    {es : List LogEntry} (hes : ∀ e ∈ es, Fits P e) : Grown P s (s.ingestAll P es) := by
  induction es generalizing s with
  | nil => exact .refl s
  | cons e es ih =>
    have he := hes e List.mem_cons_self
    exact (hs.ingest_grown hP he).trans
      (ih (hs.ingest hP he).1 (fun x hx => hes x (List.mem_cons_of_mem _ hx)))

/-- The entries that go to a segment of this size before it is rotated. -/
def beforeRotation (P : ProtoPackage) (limit size : Int) : List LogEntry → List LogEntry
  | [] => []
  | e :: es =>
    if size + (record P e).length ≤ limit then
      e :: beforeRotation P limit (size + (record P e).length) es
    else []

/-- The entries before the rotation are in the segment that was active, and if they are all then
the list of segments is as it was. -/
theorem Sound.ingestAll_first (hP : P.Inverts) {s : Store B} (hs : Sound P s) {seg : Segment}
    (hactive : s.manager.active = some seg) {es : List LogEntry} (hes : ∀ e ∈ es, Fits P e) :
    let first := beforeRotation P s.manager.maxSegmentBytes seg.size es
    (∀ e ∈ first, e ∈ entriesAt P (s.ingestAll P es).disk seg.path) ∧
      (first = es → (s.ingestAll P es).manager.paths = s.manager.paths) := by
  induction es generalizing s seg with
  | nil => exact ⟨fun e he => absurd he List.not_mem_nil, fun _ => rfl⟩
  | cons e es ih =>
    have he := hes e List.mem_cons_self
    have hrest : ∀ x ∈ es, Fits P x := fun x hx => hes x (List.mem_cons_of_mem _ hx)
    simp only [beforeRotation]
    split
    · rename_i hroom
      have hfits : ¬ mustRotate P s seg e = true := by
        rw [mustRotate, ← record_length, decide_eq_true_eq]
        omega
      have hingest := ingest_eq hactive he.writable
      obtain ⟨hpaths, -, hgrown⟩ := append_fitting hactive he.writable hfits true
      have happ := append_spec true hactive he.writable
      obtain ⟨-, hseg, -⟩ := happ.sound hP hs he
      have hin : e ∈ entriesAt P (s.ingest P e).disk (appendTarget P s seg e) := by
        rw [hingest, happ.entriesAt hP hs.readable hseg he hseg, if_pos rfl]
        simp
      rw [appendTarget, if_neg hfits] at hin hseg
      have hnext : (s.ingest P e).manager.active =
          some ⟨seg.path, seg.size + ((record P e).length : Int)⟩ := by
        rw [hingest]
        exact hgrown
      obtain ⟨hfirst, hall⟩ := ih (hs.ingest hP he).1 hnext hrest
      have hmax : (s.ingest P e).manager.maxSegmentBytes = s.manager.maxSegmentBytes := by
        rw [hingest]
        exact happ.maxSegmentBytes
      rw [hmax] at hfirst hall
      refine ⟨fun x hx => ?_, fun heq => ?_⟩
      · rcases List.mem_cons.mp hx with hx | hx
        · rw [hx]
          exact ((hs.ingest hP he).1.ingestAll_grown hP hrest).entries _ hseg e hin
        · exact hfirst x hx
      · refine (hall (List.cons.inj heq).2).trans ?_
        rw [hingest]
        exact hpaths
    · exact ⟨fun e he => absurd he List.not_mem_nil, fun hnil => by cases hnil⟩

/-- The manager of a node that starts on an empty directory. -/
def emptyManager (B : BloomPackage) (maxSegmentBytes : Int) (bloomEnabled : Bool) : Manager B :=
  ⟨maxSegmentBytes, none, 1, [], bloomEnabled, .empty⟩

/-- The store of a node started on an empty directory. -/
def fresh (B : BloomPackage) (maxSegmentBytes : Int) (bloomEnabled : Bool) : Store B :=
  (⟨.empty, emptyManager B maxSegmentBytes bloomEnabled, .new⟩ : Store B).run
    (openNewSegment (emptyManager B maxSegmentBytes bloomEnabled))

theorem fresh_get (B : BloomPackage) (maxSegmentBytes : Int) (bloomEnabled : Bool) (q : String) :
    (fresh B maxSegmentBytes bloomEnabled).disk.files.get q =
      if q = segmentName 1 then some [] else none := by
  rw [fresh, (openNewSegment_run _ _).1 q]
  rfl

theorem fresh_paths (B : BloomPackage) (maxSegmentBytes : Int) (bloomEnabled : Bool) :
    (fresh B maxSegmentBytes bloomEnabled).manager.paths = [segmentName 1] := by
  rw [fresh, (openNewSegment_run _ _).2.2.1]
  rfl

theorem fresh_manager (B : BloomPackage) (maxSegmentBytes : Int) (bloomEnabled : Bool) :
    (fresh B maxSegmentBytes bloomEnabled).manager =
      ⟨maxSegmentBytes, some ⟨segmentName 1, 0⟩, 2, [segmentName 1], bloomEnabled, .empty⟩ := by
  simp [fresh, emptyManager, openNewSegment, run_cons, run_nil, Step.apply, Store.openActive,
    Disk.create, Disk.empty]

theorem fresh_entriesAt (P : ProtoPackage) (B : BloomPackage) (maxSegmentBytes : Int)
    (bloomEnabled : Bool) (q : String) :
    entriesAt P (fresh B maxSegmentBytes bloomEnabled).disk q = [] := by
  by_cases hq : q = segmentName 1
  · exact entriesAt_some ((fresh_get ..).trans (if_pos hq)) (decodeSegment_nil P)
  · exact entriesAt_none ((fresh_get ..).trans (if_neg hq))

theorem initialManager_empty (B : BloomPackage) (maxSegmentBytes : Int) (bloomEnabled : Bool) :
    initialManager B .empty maxSegmentBytes bloomEnabled =
      emptyManager B maxSegmentBytes bloomEnabled := rfl

theorem fresh_loadBlooms (B : BloomPackage) (maxSegmentBytes : Int) (bloomEnabled : Bool)
    (d : Disk) : (fresh B maxSegmentBytes bloomEnabled).manager.loadBlooms d =
      (fresh B maxSegmentBytes bloomEnabled).manager := by
  simp only [Manager.loadBlooms, Manager.listClosedSegments, fresh_paths]
  split <;> rfl

theorem newManager_empty (B : BloomPackage) (maxSegmentBytes : Int) (bloomEnabled : Bool) :
    newManager B .empty maxSegmentBytes bloomEnabled =
      some (fresh B maxSegmentBytes bloomEnabled) := by
  have hmarked : (markedSegment .empty).or (matchedSegments .empty).getLast? = none := rfl
  simp only [newManager, newManagerSteps, hmarked, initialManager_empty]
  rw [show (⟨.empty, emptyManager B maxSegmentBytes bloomEnabled, .new⟩ : Store B).run
    (openNewSegment (emptyManager B maxSegmentBytes bloomEnabled)) =
      fresh B maxSegmentBytes bloomEnabled from rfl, fresh_loadBlooms]

theorem start_empty (P : ProtoPackage) (B : BloomPackage) (maxSegmentBytes : Int)
    (bloomEnabled : Bool) :
    start P B .empty maxSegmentBytes bloomEnabled =
      some (fresh B maxSegmentBytes bloomEnabled) := by
  have hread : readSegment P (fresh B maxSegmentBytes bloomEnabled).disk (segmentName 1) =
      .ok [] := by
    simp [readSegment, fresh_get]
  have hindex : (fresh B maxSegmentBytes bloomEnabled).index = .new := by
    rw [fresh, (openNewSegment_run _ _).2.2.2.2.2.2.2]
  simp only [start, newManager_empty, Option.bind_eq_bind, Option.bind_some, fresh_paths,
    Index.rebuildFromSegments, hread, Index.addAll_nil, ← hindex]

theorem fresh_sound (P : ProtoPackage) (B : BloomPackage) (maxSegmentBytes : Int)
    (bloomEnabled : Bool) : Sound P (fresh B maxSegmentBytes bloomEnabled) := by
  refine ⟨⟨?_, ?_⟩, ?_, ?_, ?_⟩
  · intro q bs _ h
    rw [fresh_get] at h
    split at h
    · cases h
      exact ⟨[], rfl⟩
    · cases h
  · intro q _ e he
    rw [fresh_entriesAt] at he
    cases he
  · obtain ⟨-, ⟨n, hn⟩, -⟩ := openNewSegment_run
      (⟨.empty, emptyManager B maxSegmentBytes bloomEnabled, .new⟩ : Store B)
      (emptyManager B maxSegmentBytes bloomEnabled)
    exact ⟨_, hn, by rw [fresh_paths]; rfl⟩
  · intro p hp
    rw [fresh_paths, List.mem_singleton] at hp
    exact hp ▸ segmentName_isSeg 1
  · intro p _ h
    rw [fresh_get] at h
    split at h
    · rename_i hp
      rw [fresh_paths, hp]
      exact List.mem_singleton_self _
    · cases h

end LogEngine.Storage
