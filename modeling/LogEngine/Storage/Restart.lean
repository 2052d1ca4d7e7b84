import LogEngine.Storage.Torn
import LogEngine.Index.Rep

namespace LogEngine.Storage
open Lib

variable {B : BloomPackage} {P : ProtoPackage}

theorem trimSpace_eq {s : String} (h : ∀ c ∈ s.toList, isSpace c = false) : trimSpace s = s := by
  have hdrop : ∀ l : List Char, (∀ c ∈ l, isSpace c = false) → l.dropWhile isSpace = l := by
    intro l hl
    cases l with
    | nil => rfl
    | cons c l => simp [hl c List.mem_cons_self]
  rw [trimSpace, hdrop _ h, hdrop _ (fun c hc => h c (List.mem_reverse.mp hc)),
    List.reverse_reverse, String.ofList_toList]

theorem padded_isSpace (w n : Nat) : ∀ c ∈ padded w n, isSpace c = false := by
  induction w generalizing n with
  | zero => simp [padded]
  | succ w ih =>
    intro c hc
    rcases List.mem_append.mp hc with hc | hc
    · exact ih _ c hc
    · have hdigit : ∀ d < 10, isSpace (Char.ofNat (48 + d)) = false := by decide
      rw [List.mem_singleton.mp hc]
      exact hdigit _ (Nat.mod_lt n (by omega))

theorem trimSpace_segmentName (n : UInt64) : trimSpace (segmentName n) = segmentName n := by
  apply trimSpace_eq
  intro c hc
  rw [segmentName, String.toList_ofList] at hc
  rcases List.mem_append.mp hc with hc | hc
  · exact padded_isSpace _ _ c hc
  · have hsuffix : ['.', 's', 'e', 'g'].all (fun c => !isSpace c) = true := by decide
    simpa using List.all_eq_true.mp hsuffix c hc

theorem mem_matchedSegments {d : Disk} {p : String} :
    p ∈ matchedSegments d ↔ IsSeg p ∧ (d.files.get p).isSome = true := by
  rw [matchedSegments, (List.perm_insertionSort _ _).mem_iff, List.mem_filter, d.files.mem_keys]
  simp [and_comm]

theorem segmentName_ne_empty (n : UInt64) : segmentName n ≠ "" := by
  intro h
  have hseg := segmentName_isSeg n
  rw [h] at hseg
  exact absurd hseg (by decide)

theorem markedSegment_eq {d : Disk} {n : UInt64} (hmark : d.marker = some (segmentName n))
    (hfile : (d.files.get (segmentName n)).isSome = true) :
    markedSegment d = some (segmentName n) := by
  simp [markedSegment, hmark, trimSpace_segmentName, hfile]

theorem activeLast_spec {names : List String} {active : String} (h : active ∈ names) :
    (∀ p, p ∈ activeLast names active ↔ p ∈ names) ∧
      (activeLast names active).getLast? = some active := by
  unfold activeLast
  split
  · refine ⟨fun p => ?_, List.getLast?_concat⟩
    rw [List.mem_append, List.mem_filter, List.mem_singleton, decide_eq_true_eq]
    constructor
    · intro hor
      rcases hor with hp | hp
      · exact hp.1
      · exact hp ▸ h
    · intro hp
      by_cases hpa : p = active
      · exact .inr hpa
      · exact .inl ⟨hp, hpa⟩
  · rename_i hnot
    have hne : names ≠ [] := List.ne_nil_of_mem h
    exact ⟨fun p => Iff.rfl, by simpa [hne] using hnot⟩

theorem loadBlooms_layout (m : Manager B) (d : Disk) : SameLayout m (m.loadBlooms d) := by
  unfold Manager.loadBlooms
  split
  · generalize m.listClosedSegments = paths
    have hfold : ∀ (paths : List String) (k : Manager B), SameLayout m k →
        SameLayout m (paths.foldl (fun m p => m.loadBloom d p) k) := by
      intro paths
      induction paths with
      | nil => exact fun k hk => hk
      | cons p paths ih => exact fun k hk => ih _ (hk.trans (loadBloom_layout k d p))
    exact hfold paths m (.refl m)
  · exact .refl m

/-- The index knows of each segment exactly the entries that its file reads as. -/
def Indexed (P : ProtoPackage) (s : Store B) : Prop :=
  ∃ live, Index.Rep s.index live ∧
    ∀ p e, (p, e) ∈ live ↔ IsSeg p ∧ e ∈ entriesAt P s.disk p

/-- A store that `NewManager` built over a directory. -/
structure Mounted (d : Disk) (name : String) (s : Store B) : Prop where
  disk : s.disk = d
  active : ∃ size, s.manager.active = some ⟨name, size⟩
  last : s.manager.paths.getLast? = some name
  paths : ∀ p, p ∈ s.manager.paths ↔ IsSeg p ∧ (d.files.get p).isSome = true

theorem newManager_marked {d : Disk} {n : UInt64} (hmark : d.marker = some (segmentName n))
    (hfile : (d.files.get (segmentName n)).isSome = true) (maxSegmentBytes : Int)
    (bloomEnabled : Bool) : ∃ s : Store B, newManager B d maxSegmentBytes bloomEnabled = some s ∧
      Mounted d (segmentName n) s := by
  have hmarked := markedSegment_eq hmark hfile
  have hmem : segmentName n ∈ matchedSegments d :=
    mem_matchedSegments.mpr ⟨segmentName_isSeg n, hfile⟩
  obtain ⟨hpaths, hlast⟩ := activeLast_spec hmem
  have hinit : (initialManager B d maxSegmentBytes bloomEnabled).paths =
      activeLast (matchedSegments d) (segmentName n) := by
    simp [initialManager, hmarked]
  simp only [newManager, hmarked, Option.some_or, if_neg (segmentName_ne_empty n)]
  have hlayout := loadBlooms_layout { initialManager B d maxSegmentBytes bloomEnabled with
    active := some ⟨segmentName n, ((d.files.get (segmentName n)).getD []).length⟩ } d
  refine ⟨_, rfl, rfl, ⟨_, hlayout.active⟩, ?_, fun p => ?_⟩
  · rw [hlayout.paths]
    exact (congrArg List.getLast? hinit).trans hlast
  · rw [hlayout.paths, ← mem_matchedSegments, ← hpaths p]
    exact Iff.of_eq (congrArg (p ∈ ·) hinit)

theorem start_newManager {d : Disk} {maxSegmentBytes : Int} {bloomEnabled : Bool} {s : Store B}
    (h : Storage.start P B d maxSegmentBytes bloomEnabled = some s) :
    ∃ t, newManager B d maxSegmentBytes bloomEnabled = some t ∧ s.disk = t.disk ∧
      s.manager = t.manager := by
  obtain ⟨t, ht, h⟩ := Option.bind_eq_some_iff.mp h
  split at h
  · cases h
  · cases h
    exact ⟨t, ht, rfl, rfl⟩

theorem rebuild_reads {ε : Type} {idx idx' : Index}
    {readFn : String → Except ε (List LogEntry)} {paths : List String}
    (h : idx.rebuildFromSegments readFn paths = .ok idx') :
    ∀ p ∈ paths, ∃ es, readFn p = .ok es := by
  induction paths generalizing idx with
  | nil => simp
  | cons q paths ih =>
    simp only [Index.rebuildFromSegments] at h
    split at h
    · cases h
    · rename_i es hq
      exact List.forall_mem_cons.mpr ⟨⟨es, hq⟩, ih h⟩

/-- Where all segments can be read, the index is rebuilt from all of them. -/
theorem Mounted.rebuilds {d : Disk} {name : String} {m : Store B} (h : Mounted d name m)
    (hall : ∀ p bs, IsSeg p → d.files.get p = some bs → ∃ es, decodeSegment P bs = .ok es) :
    ∃ index, Index.new.rebuildFromSegments (readSegment P m.disk) m.manager.paths = .ok index ∧
      Indexed P { m with index } := by
  have hread : ∀ p ∈ m.manager.paths, readSegment P d p = .ok (entriesAt P d p) := by
    intro p hp
    obtain ⟨hseg, hsome⟩ := (h.paths p).mp hp
    obtain ⟨bs, hbs⟩ := Option.isSome_iff_exists.mp hsome
    obtain ⟨es, hes⟩ := hall p bs hseg hbs
    rw [entriesAt_some hbs hes]
    simpa only [readSegment, hbs] using hes
  obtain ⟨index, hindex, hrep⟩ := Index.new_rep.rebuild m.manager.paths hread
  refine ⟨index, h.disk ▸ hindex, _, hrep, fun p e => ?_⟩
  simp only [List.nil_append, List.mem_flatMap, List.mem_map, Prod.mk.injEq, h.disk]
  constructor
  · rintro ⟨q, hq, x, hx, rfl, rfl⟩
    exact ⟨((h.paths q).mp hq).1, hx⟩
  · rintro ⟨hseg, he⟩
    exact ⟨p, (h.paths p).mpr ⟨hseg, exists_of_mem_entriesAt he⟩, e, he, rfl, rfl⟩

/-- A node starts on a directory whose marker names a segment exactly when all segments can
be read. It then lists and indexes all of them. -/
theorem start_marked {d : Disk} {n : UInt64} (hmark : d.marker = some (segmentName n))
    (hfile : (d.files.get (segmentName n)).isSome = true) (maxSegmentBytes : Int)
    (bloomEnabled : Bool) :
    ((∃ s : Store B, start P B d maxSegmentBytes bloomEnabled = some s) ↔
      ∀ p bs, IsSeg p → d.files.get p = some bs → ∃ es, decodeSegment P bs = .ok es) ∧
    ∀ s : Store B, start P B d maxSegmentBytes bloomEnabled = some s →
      Mounted d (segmentName n) s ∧ Indexed P s := by
  obtain ⟨m, hm, hmounted⟩ :=
    newManager_marked (B := B) hmark hfile maxSegmentBytes bloomEnabled
  have hstarts : ∀ index, Index.new.rebuildFromSegments (readSegment P m.disk) m.manager.paths =
      .ok index → start P B d maxSegmentBytes bloomEnabled = some { m with index } := by
    intro index hindex
    simp only [start, hm, bind, Option.bind, hindex]
  have hdecodes : (∃ s : Store B, start P B d maxSegmentBytes bloomEnabled = some s) →
      ∀ p bs, IsSeg p → d.files.get p = some bs → ∃ es, decodeSegment P bs = .ok es := by
    rintro ⟨s, hs⟩ p bs hp hbs
    cases hindex : Index.new.rebuildFromSegments (readSegment P m.disk) m.manager.paths with
    | error err =>
      simp only [start, hm, bind, Option.bind, hindex] at hs
      cases hs
    | ok index =>
      obtain ⟨es, hes⟩ := rebuild_reads hindex p ((hmounted.paths p).mpr ⟨hp, by simp [hbs]⟩)
      simp only [readSegment, hmounted.disk, hbs] at hes
      exact ⟨es, hes⟩
  refine ⟨⟨hdecodes, ?_⟩, ?_⟩
  · intro hall
    obtain ⟨index, hindex, -⟩ := hmounted.rebuilds hall
    exact ⟨{ m with index }, hstarts index hindex⟩
  · intro s hs
    obtain ⟨index, hindex, hindexed⟩ := hmounted.rebuilds (hdecodes ⟨s, hs⟩)
    rw [hstarts index hindex] at hs
    cases hs
    exact ⟨⟨hmounted.disk, hmounted.active, hmounted.last, hmounted.paths⟩, hindexed⟩

/-- The index finds an entry's segment by the entry's own words, namespace, service and
time. -/
theorem Indexed.resolves {s : Store B} (h : Indexed P s) {p : String} {e : LogEntry}
    (hp : IsSeg p) (he : e ∈ entriesAt P s.disk p) :
    p ∈ s.index.resolve (Index.tokenize e.message) e.namespace e.service e.timestamp
      e.timestamp := by
  obtain ⟨live, hrep, hlive⟩ := h
  have hmem : (p, e) ∈ live := (hlive p e).mpr ⟨hp, he⟩
  rw [hrep.mem_resolve]
  exact ⟨⟨e, hmem⟩, fun tok htok => ⟨e, hmem, htok⟩, .inr ⟨e, hmem, rfl⟩, .inr ⟨e, hmem, rfl⟩,
    fun _ => ⟨e, hmem, Int.le_refl _⟩, fun _ => ⟨e, hmem, Int.le_refl _⟩⟩

theorem Indexed.ingest (hP : P.Inverts) {s : Store B} (hs : Sound P s) (hi : Indexed P s)
    {e : LogEntry} (he : Fits P e) : Indexed P (s.ingest P e) := by
  obtain ⟨-, path, hseg, hindex, hentries⟩ := hs.ingest hP he
  obtain ⟨live, hrep, hlive⟩ := hi
  refine ⟨live ++ [(path, e)], hindex ▸ hrep.add e path, ?_⟩
  intro p x
  rw [List.mem_append, hlive, List.mem_singleton, Prod.mk.injEq]
  by_cases hp : IsSeg p
  · rw [hentries p hp]
    split
    · rename_i heq
      simp [heq, hseg]
    · rename_i hne
      simp [hp, hne]
  · have hne : p ≠ path := fun heq => hp (heq ▸ hseg)
    simp [hp, hne]

/-- Ingests keep the index in step with the files. -/
theorem Indexed.ingestAll (hP : P.Inverts) {s : Store B} (hs : Sound P s) (hi : Indexed P s)
    {es : List LogEntry} (hes : ∀ e ∈ es, Fits P e) : Indexed P (s.ingestAll P es) := by
  induction es generalizing s with
  | nil => exact hi
  | cons e es ih =>
    have he := hes e List.mem_cons_self
    exact ih (hs.ingest hP he).1 (hi.ingest hP hs he)
      (fun x hx => hes x (List.mem_cons_of_mem _ hx))

theorem fresh_indexed (P : ProtoPackage) (B : BloomPackage) (maxSegmentBytes : Int)
    (bloomEnabled : Bool) : Indexed P (fresh B maxSegmentBytes bloomEnabled) := by
  refine ⟨[], ?_, ?_⟩
  · rw [fresh, (openNewSegment_run _ _).2.2.2.2.2.2.2]
    exact Index.new_rep
  · intro p e
    simp [fresh_entriesAt]

end LogEngine.Storage
