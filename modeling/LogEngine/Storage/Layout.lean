import LogEngine.Storage.Passes
import LogEngine.Storage.Restart

namespace LogEngine.Storage
open Lib

variable {B : BloomPackage} {P : ProtoPackage}

/-- The manager's bookkeeping: no path twice, the active segment last, and every number in use
below the next one. -/
structure Layout (s : Store B) : Prop where
  nodup : s.manager.paths.Nodup
  active : ∃ seg, s.manager.active = some seg ∧ s.manager.paths.getLast? = some seg.path
  listed : ∀ k, segmentName k ∈ s.manager.paths → k < s.manager.nextSeq
  files : ∀ k, (s.disk.files.get (segmentName k)).isSome = true → k < s.manager.nextSeq

theorem Layout.unused {s : Store B} (h : Layout s) :
    s.disk.files.get (segmentName s.manager.nextSeq) = none ∧
      segmentName s.manager.nextSeq ∉ s.manager.paths := by
  constructor
  · rw [← Option.not_isSome_iff_eq_none]
    exact fun hsome => UInt64.lt_irrefl _ (h.files _ hsome)
  · exact fun hmem => UInt64.lt_irrefl _ (h.listed _ hmem)

theorem Layout.congr {s t : Store B} (h : Layout s) (hdisk : t.disk = s.disk)
    (hman : t.manager = s.manager) : Layout t := by
  refine ⟨hman ▸ h.nodup, hman ▸ h.active, hman ▸ h.listed, ?_⟩
  rw [hdisk, hman]
  exact h.files

theorem lt_succ {k n : UInt64} (hn : n.toNat + 1 < 2 ^ 64) : k < n + 1 ↔ k < n ∨ k = n := by
  have hsucc : (n + 1).toNat = n.toNat + 1 := by
    rw [UInt64.toNat_add]
    exact Nat.mod_eq_of_lt hn
  rw [UInt64.lt_iff_toNat_lt, UInt64.lt_iff_toNat_lt, ← UInt64.toNat_inj, hsucc]
  omega

/-- Only a rotation uses up a number. -/
theorem Layout.opened {s t : Store B} {path : String} (hs : Layout s) (h : Opened s t path)
    (hseq : t.manager.nextSeq ≠ s.manager.nextSeq → s.manager.nextSeq.toNat + 1 < 2 ^ 64) :
    Layout t := by
  obtain ⟨seg, hactive, hlast⟩ := hs.active
  obtain ⟨size, hopen⟩ := h.active
  rcases h.layout with ⟨hpath, hget, hpaths, hnext, -⟩ | ⟨hpath, -, hpaths, hnext, -⟩
  · simp only [hactive, Option.map_some, Option.some.injEq] at hpath
    refine ⟨hpaths ▸ hs.nodup, ⟨_, hopen, by rw [hpaths, hlast, hpath]⟩, ?_, ?_⟩
    · rw [hpaths, hnext]
      exact hs.listed
    · intro k hk
      rw [hnext]
      by_cases hkp : segmentName k = path
      · rw [hkp, hget, ← hkp] at hk
        exact hs.files k hk
      · rw [h.others _ (segmentName_isSeg k) hkp] at hk
        exact hs.files k hk
  · have hwrap : s.manager.nextSeq.toNat + 1 < 2 ^ 64 := by
      apply hseq
      rw [hnext]
      intro heq
      have hnat := congrArg UInt64.toNat heq
      rw [UInt64.toNat_add, UInt64.toNat_one] at hnat
      have hlt := s.manager.nextSeq.toNat_lt
      omega
    refine ⟨?_, ⟨_, hopen, by rw [hpaths, List.getLast?_concat]⟩, ?_, ?_⟩
    · rw [hpaths]
      exact List.nodup_append.mpr ⟨hs.nodup, by simp, by
        intro a ha b hb heq
        rw [List.mem_singleton.mp hb, hpath] at heq
        exact hs.unused.2 (heq ▸ ha)⟩
    · intro k hk
      rw [hnext, lt_succ hwrap]
      rw [hpaths, List.mem_append, List.mem_singleton, hpath] at hk
      exact hk.imp (hs.listed k) segmentName_inj
    · intro k hk
      rw [hnext, lt_succ hwrap]
      by_cases hkp : segmentName k = path
      · exact .inr (segmentName_inj (hkp.trans hpath))
      · rw [h.others _ (segmentName_isSeg k) hkp] at hk
        exact .inl (hs.files k hk)

theorem Layout.written {t : Store B} {path : String} (ht : Layout t)
    (hpath : t.manager.active.map Segment.path = some path) (e : LogEntry) :
    Layout (t.run (writeSteps B P path e)) := by
  obtain ⟨seg, hactive, hlast⟩ := ht.active
  simp only [hactive, Option.map_some, Option.some.injEq] at hpath
  subst hpath
  obtain ⟨wpaths, wseq, -⟩ := writeSteps_layout (P := P) t seg.path e
  obtain ⟨size, wactive⟩ := writeSteps_active (P := P) hactive seg.path e
  refine ⟨wpaths ▸ ht.nodup, ⟨_, wactive, wpaths ▸ hlast⟩, ?_, ?_⟩
  · rw [wpaths, wseq]
    exact ht.listed
  · intro k hk
    rw [wseq]
    rw [writeSteps_get] at hk
    split at hk
    · rename_i hkp
      exact ht.listed k (hkp ▸ List.mem_of_getLast? hlast)
    · exact ht.files k hk

theorem rotateIfFull_nextSeq {s : Store B} {seg : Segment} {e : LogEntry} {ok : Bool}
    (h : (s.run (rotateIfFull P s seg e ok)).manager.nextSeq ≠ s.manager.nextSeq) :
    mustRotate P s seg e = true := by
  unfold rotateIfFull at h
  split at h
  · assumption
  · exact absurd rfl h

/-- The numbers do not run out in an append. -/
def SeqLeft (P : ProtoPackage) (s : Store B) (e : LogEntry) : Prop :=
  ∀ seg, s.manager.active = some seg → mustRotate P s seg e = true →
    s.manager.nextSeq.toNat + 1 < 2 ^ 64

instance (s : Store B) (e : LogEntry) : Decidable (SeqLeft P s e) :=
  inferInstanceAs (Decidable (∀ seg ∈ s.manager.active, mustRotate P s seg e = true → _))

theorem Layout.append {s : Store B} (hs : Layout s) {e : LogEntry} (ok : Bool)
    (hseq : SeqLeft P s e) : Layout (s.run (appendLocked P s e ok).1) := by
  obtain ⟨seg, hactive, -⟩ := hs.active
  have hopen := rotateIfFull_opened (P := P) e ok hactive
  have hlayout := hs.opened hopen (fun hne => hseq seg hactive (rotateIfFull_nextSeq hne))
  by_cases he : Writable P e
  · rw [appendLocked_eq hactive he, run_append]
    obtain ⟨size, hactive'⟩ := hopen.active
    exact hlayout.written (by rw [hactive']; rfl) e
  · rw [appendLocked_refused hactive he]
    exact hlayout

theorem getLast?_filter {l : List String} {p : String → Bool} {a : String}
    (h : l.getLast? = some a) (ha : p a = true) : (l.filter p).getLast? = some a := by
  obtain ⟨front, hcat⟩ := List.getLast?_eq_some_iff.mp h
  rw [hcat, List.filter_append, List.filter_cons_of_pos ha, List.filter_nil, List.getLast?_concat]

/-- The active segment is none of the closed ones. -/
theorem Layout.active_open {s : Store B} (h : Layout s) {seg : Segment}
    (hactive : s.manager.active = some seg) : seg.path ∉ s.manager.listClosedSegments := by
  obtain ⟨seg', hactive', hlast⟩ := h.active
  rw [hactive] at hactive'
  cases hactive'
  obtain ⟨front, hcat⟩ := List.getLast?_eq_some_iff.mp hlast
  have hnodup := h.nodup
  rw [hcat] at hnodup
  rw [Manager.listClosedSegments, hcat, List.dropLast_concat]
  exact fun hmem => (List.nodup_append.mp hnodup).2.2 _ hmem _ (List.mem_singleton_self _) rfl

theorem finishMerge_layout (s : Store B) (newPath : String) (olds : List String) :
    (s.finishMerge newPath olds).disk = s.disk ∧
      (s.finishMerge newPath olds).manager.paths =
        s.manager.paths.filter (fun p => p ∉ olds) ∧
      (s.finishMerge newPath olds).manager.active = s.manager.active ∧
      (s.finishMerge newPath olds).manager.nextSeq = s.manager.nextSeq := by
  simp only [Store.finishMerge]
  split
  · refine ⟨rfl, (loadBloom_layout _ _ _).paths, (loadBloom_layout _ _ _).active,
      (loadBloom_layout _ _ _).nextSeq⟩
  · exact ⟨rfl, rfl, rfl, rfl⟩

/-- One step of a pass keeps the bookkeeping, as long as the active segment is none of its
segments and no number comes back. -/
theorem Layout.compact_step {s : Store B} {st : Step B} {closed : List String} {seg : Segment}
    (hs : Layout s) (hactive : s.manager.active = some seg) (hopen : seg.path ∉ closed)
    (hclosed : ∀ k, segmentName k ∈ closed → k < s.manager.nextSeq) (hst : st.Compacts closed) :
    Layout (Step.apply s st) ∧ (Step.apply s st).manager.active = s.manager.active ∧
      (Step.apply s st).manager.nextSeq = s.manager.nextSeq := by
  obtain ⟨seg', hactive', hlast⟩ := hs.active
  rw [hactive] at hactive'
  cases hactive'
  have hdisk : ∀ t : Store B, t.manager = s.manager →
      (∀ k, (t.disk.files.get (segmentName k)).isSome = true →
        (s.disk.files.get (segmentName k)).isSome = true ∨ segmentName k ∈ closed) →
      Layout t ∧ t.manager.active = s.manager.active ∧
        t.manager.nextSeq = s.manager.nextSeq := by
    intro t hman hget
    rw [show t.manager.active = s.manager.active by rw [hman],
      show t.manager.nextSeq = s.manager.nextSeq by rw [hman]]
    refine ⟨⟨hman ▸ hs.nodup, hman ▸ hs.active, hman ▸ hs.listed, ?_⟩, rfl, rfl⟩
    intro k hk
    rw [hman]
    exact (hget k hk).elim (hs.files k) (hclosed k)
  have hshrink : ∀ t : Store B, t.disk = s.disk →
      (∃ keep : String → Bool, keep seg.path = true ∧
        t.manager.paths = s.manager.paths.filter keep) →
      t.manager.active = s.manager.active → t.manager.nextSeq = s.manager.nextSeq →
      Layout t ∧ t.manager.active = s.manager.active ∧
        t.manager.nextSeq = s.manager.nextSeq := by
    intro t htd hkeeps hact hnext
    obtain ⟨keep, hkeep, hpaths⟩ := hkeeps
    refine ⟨⟨hpaths ▸ hs.nodup.filter _, ⟨seg, hact.trans hactive, ?_⟩, ?_, ?_⟩, hact, hnext⟩
    · rw [hpaths]
      exact getLast?_filter hlast hkeep
    · intro k hk
      rw [hpaths] at hk
      exact hnext ▸ hs.listed k (List.mem_filter.mp hk).1
    · rw [htd, hnext]
      exact hs.files
  cases st with
  | finishMerge newPath olds =>
    obtain ⟨hd, hpaths, hact, hnext⟩ := finishMerge_layout s newPath olds
    exact hshrink _ hd ⟨_, by simpa using fun hmem => hopen (hst.2 _ hmem), hpaths⟩ hact hnext
  | deleteSegment p =>
    have hne : seg.path ≠ p := fun heq => hopen (heq.symm ▸ hst)
    exact hshrink _ rfl ⟨fun q => q ≠ p, by simpa using hne, rfl⟩ rfl rfl
  | mark | openActive | grow | setBloom | loadSegment => exact hst.elim
  | _ =>
    exact hdisk _ (manager_apply s rfl)
      (fun k hk => compacts_isSome hst (segmentName_isSeg k) hk)

/-- A pass over the closed segments keeps the bookkeeping. -/
theorem Layout.compact {s : Store B} (hs : Layout s) {steps : List (Step B)}
    (hsteps : ∀ st ∈ steps, Step.Compacts s.manager.listClosedSegments st) :
    Layout (s.run steps) := by
  obtain ⟨seg, hactive, -⟩ := hs.active
  have hopen := hs.active_open hactive
  have hrun : Layout (s.run steps) ∧ (s.run steps).manager.active = some seg ∧
      (s.run steps).manager.nextSeq = s.manager.nextSeq := by
    refine run_preserves (I := fun t => Layout t ∧ t.manager.active = some seg ∧
      t.manager.nextSeq = s.manager.nextSeq) ?_ ⟨hs, hactive, rfl⟩
    intro t st hst h
    obtain ⟨ht, hact, hnext⟩ := h
    obtain ⟨ht', hact', hnext'⟩ := ht.compact_step hact hopen
      (fun k hk => hnext ▸ hs.listed k (List.dropLast_subset _ hk)) (hsteps st hst)
    exact ⟨ht', hact'.trans hact, hnext'.trans hnext⟩
  exact hrun.1

theorem matchedSegments_nodup (d : Disk) : (matchedSegments d).Nodup :=
  (List.perm_insertionSort _ _).nodup_iff.mpr (d.files.nodup.filter _)

theorem matchedSegments_sorted (d : Disk) : (matchedSegments d).Pairwise (· ≤ ·) :=
  List.pairwise_insertionSort _ _

theorem activeLast_nodup {names : List String} (h : names.Nodup) (active : String) :
    (activeLast names active).Nodup := by
  unfold activeLast
  split
  · refine List.nodup_append.mpr ⟨h.filter _, by simp, ?_⟩
    intro a ha b hb heq
    have hne := (List.mem_filter.mp ha).2
    simp only [List.mem_singleton.mp hb] at heq
    simp [heq] at hne
  · exact h

/-- One turn of the loop of `nextSeqFromMatches`. -/
def seqMax (m : Nat) (p : String) : Nat :=
  match parseUint (trimSuffix p ".seg") with
  | some n => if n > m then n else m
  | none => m

theorem seqMax_spec (m : Nat) (p : String) : m ≤ seqMax m p ∧
    (∀ n, parseUint (trimSuffix p ".seg") = some n → n ≤ seqMax m p) ∧
    (seqMax m p = m ∨ parseUint (trimSuffix p ".seg") = some (seqMax m p)) := by
  unfold seqMax
  cases parseUint (trimSuffix p ".seg") with
  | none => simp
  | some n =>
    simp only [Option.some.injEq, forall_eq']
    split <;> simp <;> omega

/-- The largest number among the names is one of theirs, or 0. -/
theorem maxSeq_spec (names : List String) :
    (∀ p ∈ names, ∀ n, parseUint (trimSuffix p ".seg") = some n → n ≤ maxSeq names) ∧
      (maxSeq names = 0 ∨ ∃ p ∈ names, parseUint (trimSuffix p ".seg") = some (maxSeq names)) := by
  have hfold : ∀ (names : List String) (m : Nat), m ≤ names.foldl seqMax m ∧
      (∀ p ∈ names, ∀ n, parseUint (trimSuffix p ".seg") = some n → n ≤ names.foldl seqMax m) ∧
      (names.foldl seqMax m = m ∨
        ∃ p ∈ names, parseUint (trimSuffix p ".seg") = some (names.foldl seqMax m)) := by
    intro names
    induction names with
    | nil => simp
    | cons q names ih =>
      intro m
      obtain ⟨hle, hall, hone⟩ := seqMax_spec m q
      obtain ⟨ihle, ihall, ihone⟩ := ih (seqMax m q)
      rw [List.foldl_cons]
      refine ⟨Nat.le_trans hle ihle, ?_, ?_⟩
      · intro p hp n hn
        rcases List.mem_cons.mp hp with heq | hp
        · exact Nat.le_trans (hall n (heq ▸ hn)) ihle
        · exact ihall p hp n hn
      · rcases ihone with heq | ⟨p, hp, hparse⟩
        · rw [heq]
          exact hone.imp_right (fun hq => ⟨q, List.mem_cons_self, hq⟩)
        · exact .inr ⟨p, List.mem_cons_of_mem _ hp, hparse⟩
  exact (hfold names 0).2

/-- The segment that `NewManager` takes for the active one. -/
def activeOf (d : Disk) : Option String := (markedSegment d).or (matchedSegments d).getLast?

/-- The two ways in which `NewManager` succeeds. -/
theorem newManager_cases {d : Disk} {maxSegmentBytes : Int} {bloomEnabled : Bool} {s : Store B}
    (h : newManager B d maxSegmentBytes bloomEnabled = some s) :
    (activeOf d = none ∧ ∃ t : Store B,
      t = (⟨d, initialManager B d maxSegmentBytes bloomEnabled, .new⟩ : Store B).run
        (openNewSegment (initialManager B d maxSegmentBytes bloomEnabled)) ∧
      s.disk = t.disk ∧ s.manager = t.manager.loadBlooms t.disk) ∨
    ∃ path size, activeOf d = some path ∧ path ≠ "" ∧ s.disk = d ∧
      s.manager = ({ initialManager B d maxSegmentBytes bloomEnabled with
        active := some ⟨path, size⟩ } : Manager B).loadBlooms d := by
  simp only [newManager] at h
  split at h
  · rename_i hnone
    cases h
    refine .inl ⟨hnone, _, rfl, ?_⟩
    simp only [newManagerSteps, hnone, and_self]
  · rename_i path hsome
    split at h
    · cases h
    · rename_i hne
      cases h
      exact .inr ⟨path, _, hsome, hne, rfl, rfl⟩

theorem initialManager_paths (B : BloomPackage) (d : Disk) (maxSegmentBytes : Int)
    (bloomEnabled : Bool) : (initialManager B d maxSegmentBytes bloomEnabled).paths =
      match activeOf d with
      | none => matchedSegments d
      | some active => activeLast (matchedSegments d) active := rfl

/-- The marker, when it resolves, names a segment file, as it does in every directory that
holds only such files. -/
def MarksSegment (d : Disk) : Prop := ∀ name, markedSegment d = some name → name = "" ∨ IsSeg name

/-- No segment file of the directory has the last number. -/
def SeqBounded (d : Disk) : Prop :=
  ∀ p, IsSeg p → (d.files.get p).isSome = true →
    ∀ n, parseUint (trimSuffix p ".seg") = some n → n + 1 < 2 ^ 64

theorem activeOf_mem {d : Disk} {path : String} (hd : MarksSegment d)
    (h : activeOf d = some path) (hne : path ≠ "") : path ∈ matchedSegments d := by
  unfold activeOf at h
  cases hm : markedSegment d with
  | none =>
    rw [hm, Option.none_or] at h
    exact List.mem_of_getLast? h
  | some name =>
    rw [hm, Option.some_or] at h
    cases h
    have hseg := (hd path hm).resolve_left hne
    refine mem_matchedSegments.mpr ⟨hseg, ?_⟩
    unfold markedSegment at hm
    split at hm
    · cases hm
    · dsimp only at hm
      split at hm
      · rename_i hor
        cases hm
        exact hor.resolve_left hne
      · cases hm

theorem matched_nil {d : Disk} (hnone : activeOf d = none) : matchedSegments d = [] := by
  simpa using (Option.or_eq_none_iff.mp hnone).2

/-- A directory in which `NewManager` finds no segment to open has none. -/
theorem segment_none {d : Disk} (hnone : activeOf d = none) {p : String} (hp : IsSeg p) :
    d.files.get p = none := by
  rw [← Option.not_isSome_iff_eq_none]
  intro hsome
  have hin := mem_matchedSegments.mpr ⟨hp, hsome⟩
  rw [matched_nil hnone] at hin
  cases hin

theorem initialManager_first (B : BloomPackage) {d : Disk} (hnone : activeOf d = none)
    (maxSegmentBytes : Int) (bloomEnabled : Bool) :
    (initialManager B d maxSegmentBytes bloomEnabled).paths = [] ∧
      (initialManager B d maxSegmentBytes bloomEnabled).nextSeq.toNat + 1 < 2 ^ 64 := by
  have hpaths : (initialManager B d maxSegmentBytes bloomEnabled).paths = [] := by
    rw [initialManager_paths, hnone]
    exact matched_nil hnone
  have hnext : (initialManager B d maxSegmentBytes bloomEnabled).nextSeq =
      nextSeqFromMatches [] := congrArg nextSeqFromMatches hpaths
  refine ⟨hpaths, ?_⟩
  rw [hnext]
  decide

/-- The next number is above the number of every segment of the directory. -/
theorem nextSeqFromMatches_above {d : Disk} (hseq : SeqBounded d) {names : List String}
    (hsub : ∀ p ∈ names, p ∈ matchedSegments d) {k : UInt64} (hk : segmentName k ∈ names) :
    k < nextSeqFromMatches names := by
  obtain ⟨hmax, hattained⟩ := maxSeq_spec names
  have hbound : maxSeq names + 1 < 2 ^ 64 := by
    rcases hattained with hzero | ⟨p, hp, hparse⟩
    · omega
    · obtain ⟨hseg, hsome⟩ := mem_matchedSegments.mp (hsub p hp)
      exact hseq p hseg hsome _ hparse
  have hsize : UInt64.size = 2 ^ 64 := rfl
  have hnext : (nextSeqFromMatches names).toNat = maxSeq names + 1 := by
    rw [nextSeqFromMatches, UInt64.toNat_add, UInt64.toNat_ofNat_of_lt' (by omega),
      UInt64.toNat_one, Nat.mod_eq_of_lt hbound]
  have hle := hmax _ hk _ (parse_segmentName k)
  rw [UInt64.lt_iff_toNat_lt, hnext]
  omega

/-- The bookkeeping after `NewManager` opened a segment again. -/
theorem reopened_manager {d : Disk} {path : String} {size maxSegmentBytes : Int}
    {bloomEnabled : Bool} {m : Manager B} (hact : activeOf d = some path)
    (hman : m = ({ initialManager B d maxSegmentBytes bloomEnabled with
      active := some ⟨path, size⟩ } : Manager B).loadBlooms d) :
    m.active = some ⟨path, size⟩ ∧ m.paths = activeLast (matchedSegments d) path ∧
      m.nextSeq = nextSeqFromMatches (activeLast (matchedSegments d) path) := by
  have hlayout := loadBlooms_layout ({ initialManager B d maxSegmentBytes bloomEnabled with
    active := some ⟨path, size⟩ } : Manager B) d
  have hinit : (initialManager B d maxSegmentBytes bloomEnabled).paths =
      activeLast (matchedSegments d) path := by
    rw [initialManager_paths, hact]
  rw [hman]
  exact ⟨hlayout.active, hlayout.paths.trans hinit,
    hlayout.nextSeq.trans (congrArg nextSeqFromMatches hinit)⟩

/-- `NewManager` sets the bookkeeping up. -/
theorem newManager_layout {d : Disk} {maxSegmentBytes : Int} {bloomEnabled : Bool} {s : Store B}
    (hmark : MarksSegment d) (hseq : SeqBounded d)
    (h : newManager B d maxSegmentBytes bloomEnabled = some s) : Layout s := by
  rcases newManager_cases h with ⟨hnone, t, ht, hdisk, hman⟩ | ⟨path, size, hact, hne, hdisk, hman⟩
  · obtain ⟨hinit, hone⟩ := initialManager_first B hnone maxSegmentBytes bloomEnabled
    obtain ⟨hget, ⟨size, hactive⟩, hpaths, hseq', -⟩ := openNewSegment_run
      (⟨d, initialManager B d maxSegmentBytes bloomEnabled, .new⟩ : Store B)
      (initialManager B d maxSegmentBytes bloomEnabled)
    have hlayout := loadBlooms_layout t.manager t.disk
    rw [← ht] at hget hactive hpaths hseq'
    rw [hinit, List.nil_append] at hpaths
    refine ⟨?_, ⟨_, by rw [hman, hlayout.active, hactive], ?_⟩, ?_, ?_⟩
    · rw [hman, hlayout.paths, hpaths]
      exact List.nodup_singleton _
    · rw [hman, hlayout.paths, hpaths]
      rfl
    · intro k hk
      rw [hman, hlayout.paths, hpaths, List.mem_singleton] at hk
      rw [hman, hlayout.nextSeq, hseq', lt_succ hone]
      exact .inr (segmentName_inj hk)
    · intro k hk
      rw [hman, hlayout.nextSeq, hseq', lt_succ hone]
      rw [hdisk, hget] at hk
      split at hk
      · rename_i heq
        exact .inr (segmentName_inj heq)
      · rw [segment_none hnone (segmentName_isSeg k)] at hk
        cases hk
  · obtain ⟨hpaths, hlast⟩ := activeLast_spec (activeOf_mem hmark hact hne)
    obtain ⟨hactive, hp, hn⟩ := reopened_manager hact hman
    refine ⟨hp ▸ activeLast_nodup (matchedSegments_nodup d) path,
      ⟨_, hactive, hp ▸ hlast⟩, ?_, ?_⟩
    · intro k hk
      rw [hn]
      exact nextSeqFromMatches_above hseq (fun p => (hpaths p).mp) (hp ▸ hk)
    · intro k hk
      rw [hn]
      refine nextSeqFromMatches_above hseq (fun p => (hpaths p).mp) ((hpaths _).mpr ?_)
      exact mem_matchedSegments.mpr ⟨segmentName_isSeg k, hdisk ▸ hk⟩

/-- What a running node does to its own segments. -/
inductive Op where
  | append (e : LogEntry) (bloomOk : Bool)
  | merge (threshold : Int) (faults : String → MergeFaults)
  | retain (now : Int64) (days : Int)

def Op.steps (P : ProtoPackage) (s : Store B) : Op → List (Step B)
  | .append e bloomOk => (appendLocked P s e bloomOk).1
  | .merge threshold faults => runMergePass P s threshold faults
  | .retain now days => runRetentionPass P s now days

theorem Layout.op {s : Store B} (hs : Layout s) (o : Op)
    (hseq : ∀ e ok, o = .append e ok → SeqLeft P s e) : Layout (s.run (o.steps P s)) := by
  cases o with
  | append e ok => exact hs.append ok (hseq e ok rfl)
  | merge threshold faults => exact hs.compact (runMergePass_compacts s threshold faults)
  | retain now days => exact hs.compact (runRetentionPass_compacts s now days)

/-- Every `openNewSegment` among the steps creates a file that was not there. -/
def OpensFresh (s : Store B) (steps : List (Step B)) : Prop :=
  ∀ pre (m : Manager B) post, steps = pre ++ openNewSegment m ++ post →
    (s.run pre).disk.files.get (segmentName m.nextSeq) = none

theorem opensFresh_of_none {s : Store B} {steps : List (Step B)}
    (h : ∀ path, Step.openActive path ∉ steps) : OpensFresh s steps := by
  intro pre m post heq
  refine absurd ?_ (h (segmentName m.nextSeq))
  rw [heq]
  simp [openNewSegment]

theorem rotateBloom_no_open (s : Store B) (closing : String) (ok : Bool) (path : String) :
    Step.openActive path ∉ rotateBloom P s closing ok := by
  intro hmem
  have hlayout := (rotateBloom_steps hmem).2.2.2
    (⟨.empty, emptyManager B 0 false, .new⟩ : Store B)
  have hpaths := hlayout.paths
  simp [Step.apply, Store.openActive, emptyManager] at hpaths

/-- A list of steps that opens one segment opens it in one place. -/
theorem opens_once {xs tail pre post : List (Step B)} {a b : String}
    (hxs : ∀ path, Step.openActive path ∉ xs) (htail : ∀ path, Step.openActive path ∉ tail)
    (h : xs ++ .create a :: .openActive a :: tail = pre ++ .create b :: .openActive b :: post) :
    xs = pre ∧ a = b := by
  have hcut : (xs ++ [.create a]) ++ .openActive a :: tail =
      (pre ++ [.create b]) ++ .openActive b :: post := by
    simpa using h
  obtain ⟨hpre, hopen, -⟩ :=
    (List.append_cons_inj_of_notMem (by simpa using hxs b) (htail b)).mp hcut
  refine ⟨List.append_inj_left' hpre rfl, ?_⟩
  simpa using hopen

theorem Layout.append_opensFresh {s : Store B} (hs : Layout s) (e : LogEntry) (ok : Bool) :
    OpensFresh s (appendLocked P s e ok).1 := by
  obtain ⟨seg, hactive, -⟩ := hs.active
  obtain ⟨tail, heq, htail⟩ := appendLocked_cases (P := P) e ok hactive
  have hnone : ∀ path, Step.openActive path ∉ tail := by
    intro path
    rcases htail with rfl | rfl <;> simp [writeSteps]
  rw [heq]
  unfold rotateIfFull
  split
  · intro pre m post hsplit
    have hsplit' : rotateBloom P s s.manager.activeSegmentName ok ++
        .create (segmentName s.manager.nextSeq) :: .openActive (segmentName s.manager.nextSeq) ::
          (.mark "" :: .mark (segmentName s.manager.nextSeq) :: tail) =
        pre ++ .create (segmentName m.nextSeq) :: .openActive (segmentName m.nextSeq) ::
          (.mark "" :: .mark (segmentName m.nextSeq) :: post) := by
      simpa only [rotate, openNewSegment, List.append_assoc, List.cons_append,
        List.nil_append] using hsplit
    obtain ⟨hpre, hname⟩ := opens_once (rotateBloom_no_open s _ ok) (by simpa using hnone) hsplit'
    rw [← hpre, ← hname, (rotateBloom_run s _ ok).1 _ (segmentName_isSeg _)]
    exact hs.unused.1
  · exact opensFresh_of_none (by simpa using hnone)

theorem compacts_no_open {closed : List String} {steps : List (Step B)}
    (h : ∀ st ∈ steps, Step.Compacts closed st) (path : String) : Step.openActive path ∉ steps :=
  fun hmem => h _ hmem

theorem Layout.opensFresh {s : Store B} (hs : Layout s) (o : Op) : OpensFresh s (o.steps P s) := by
  cases o with
  | append e ok => exact hs.append_opensFresh e ok
  | merge threshold faults =>
    exact opensFresh_of_none (compacts_no_open (runMergePass_compacts s threshold faults))
  | retain now days =>
    exact opensFresh_of_none (compacts_no_open (runRetentionPass_compacts s now days))

/-- `NewManager` opens a segment only where there is none. -/
theorem newManager_opensFresh (B : BloomPackage) (d : Disk) (maxSegmentBytes : Int)
    (bloomEnabled : Bool) :
    OpensFresh (⟨d, initialManager B d maxSegmentBytes bloomEnabled, .new⟩ : Store B)
      (newManagerSteps B d maxSegmentBytes bloomEnabled) := by
  unfold newManagerSteps
  split
  · rename_i hnone
    intro pre m post heq
    have hpre : pre = [] := by
      have hlen := congrArg List.length heq
      simp only [openNewSegment, List.length_append, List.length_cons, List.length_nil] at hlen
      exact List.length_eq_zero_iff.mp (by omega)
    rw [hpre]
    exact segment_none hnone (segmentName_isSeg _)
  · exact opensFresh_of_none (by simp)

end LogEngine.Storage
