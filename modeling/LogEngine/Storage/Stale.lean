import LogEngine.Storage.Rotation
import LogEngine.Packages

namespace LogEngine.Storage
open Lib

variable {B : BloomPackage} {P : ProtoPackage} {a : String}

theorem Dormant.marks {d : Disk} (h : Dormant B P d) : MarksSegment d := by
  intro name hname
  rcases h.marker with hmark | hmark | ⟨p, hmark, hp, hfile⟩
  · rw [markedSegment_none hmark] at hname
    cases hname
  · have hblank : markedSegment d = some "" := by
      simp [markedSegment, hmark, trimSpace]
    rw [hblank] at hname
    exact .inl (Option.some.inj hname).symm
  · rw [markedSegment_named hp hmark hfile] at hname
    exact .inr (Option.some.inj hname ▸ hp.seg)

theorem Dormant.bounded {d : Disk} (h : Dormant B P d) : SeqBounded d := by
  intro p hp hsome n hn
  obtain ⟨k, hk, hbound⟩ := h.names p hp hsome
  rw [hk, parse_segmentName] at hn
  cases hn
  exact hbound

/-- The filters that a start loads are sidecars of closed segments. -/
theorem loadBlooms_get {m : Manager B} {d : Disk} {p : String} {bf : B.Filter}
    (h : (m.loadBlooms d).blooms.get p = some bf) :
    m.blooms.get p = some bf ∨
      m.bloomEnabled = true ∧ p ∈ m.listClosedSegments ∧ readBloom B d p = some bf := by
  unfold Manager.loadBlooms at h
  split at h
  · rename_i hon
    have hfold : ∀ (paths : List String) (k : Manager B),
        (paths.foldl (fun m p => m.loadBloom d p) k).blooms.get p = some bf →
        k.blooms.get p = some bf ∨ p ∈ paths ∧ readBloom B d p = some bf := by
      intro paths
      induction paths with
      | nil => exact fun k hk => .inl hk
      | cons q paths ih =>
        intro k hk
        rcases ih _ hk with hk | ⟨hin, hread⟩
        · simp only [Manager.loadBloom] at hk
          split at hk
          · rename_i bf' hbf'
            rw [GoMap.get_set] at hk
            split at hk
            · rename_i hpq
              cases hk
              exact .inr ⟨hpq ▸ List.mem_cons_self, hpq ▸ hbf'⟩
            · exact .inl hk
          · exact .inl hk
        · exact .inr ⟨List.mem_cons_of_mem _ hin, hread⟩
    exact (hfold _ m h).imp_right (And.intro hon)
  · exact .inl h

theorem Dormant.sealed {d : Disk} (h : Dormant B P d) (hnone : activeOf d = none)
    (maxSegmentBytes : Int) (bloomEnabled : Bool) :
    Sealed P (⟨d, initialManager B d maxSegmentBytes bloomEnabled, .new⟩ : Store B) := by
  refine ⟨?_, ?_, h.names, h.marker⟩
  · intro p bf hbf
    cases hbf
  · intro p hp
    exact h.covered p hp (by simp [hnone])

/-- `NewManager` on a directory without segments: sealed until it has opened the first. -/
theorem Dormant.first {d : Disk} (h : Dormant B P d) (hnone : activeOf d = none)
    (maxSegmentBytes : Int) (bloomEnabled : Bool) :
    let m := initialManager B d maxSegmentBytes bloomEnabled
    (∀ pre, pre <+: openNewSegment m → Sealed P ((⟨d, m, .new⟩ : Store B).run pre)) ∧
      Held P (segmentName m.nextSeq) ((⟨d, m, .new⟩ : Store B).run (openNewSegment m)) ∧
      m.paths = [] ∧ m.nextSeq.toNat + 1 < 2 ^ 64 := by
  obtain ⟨hpaths, hseq⟩ := initialManager_first B hnone maxSegmentBytes bloomEnabled
  have hnew : d.files.get
      (segmentName (initialManager B d maxSegmentBytes bloomEnabled).nextSeq) = none :=
    segment_none hnone (segmentName_isSeg _)
  obtain ⟨hpre, hheld⟩ := (h.sealed hnone maxSegmentBytes bloomEnabled).openNewSegment hnew hseq
    (fun p bf hbf => by cases hbf) (by rw [hpaths]; exact List.not_mem_nil)
  exact ⟨hpre, hheld, hpaths, hseq⟩

theorem Running.of_first {s t : Store B} {n : UInt64} (ht : Held P (segmentName n) t)
    (hlayout : Layout s) (hdisk : s.disk = t.disk) (hman : s.manager = t.manager)
    (hactive : ∃ size, t.manager.active = some ⟨segmentName n, size⟩)
    (hpaths : t.manager.paths = [segmentName n]) (hmark : t.disk.marker = some (segmentName n)) :
    Running P s := by
  obtain ⟨size, hactive⟩ := hactive
  refine ⟨hlayout, ?_, ?_, ?_⟩
  · intro p hp
    rw [hman, hpaths, List.mem_singleton] at hp
    exact hp ▸ ht.names _ ht.seg ht.here
  · intro seg hseg
    rw [hman, hactive] at hseg
    obtain rfl := Option.some.inj hseg
    exact ht.congr hman (fun p _ => by rw [hdisk]; exact ⟨rfl, rfl⟩) (by rw [hdisk])
  · intro hnone
    rw [hdisk, hmark] at hnone
    cases hnone

theorem le_activeOf {d : Disk} {path : String} (hact : activeOf d = some path)
    (hnone : d.marker = none) {p : String} (hp : p ∈ matchedSegments d) : p ≤ path := by
  rw [activeOf, markedSegment_none hnone, Option.none_or] at hact
  obtain ⟨front, hcat⟩ := List.getLast?_eq_some_iff.mp hact
  have hsorted := matchedSegments_sorted d
  rw [hcat] at hp hsorted
  rcases List.mem_append.mp hp with hp | hp
  · exact (List.pairwise_append.mp hsorted).2.2 p hp path (List.mem_singleton_self _)
  · exact le_of_eq (List.mem_singleton.mp hp)

/-- The marker of an orderly directory names the segment that is opened again, unless there is
none and the segment is the last. -/
theorem Dormant.marksActive {d : Disk} (h : Dormant B P d) {path : String}
    (hact : activeOf d = some path) (hne : path ≠ "") :
    d.marker = some path ∨ d.marker = none ∧
      ∀ p, IsSeg p → (d.files.get p).isSome = true → p ≤ path := by
  rcases h.marker with hmark | hmark | ⟨p, hmark, hp, hfile⟩
  · exact .inr ⟨hmark, fun p hp hps => le_activeOf hact hmark (mem_matchedSegments.mpr ⟨hp, hps⟩)⟩
  · have hblank : markedSegment d = some "" := by simp [markedSegment, hmark, trimSpace]
    rw [activeOf, hblank, Option.some_or] at hact
    exact absurd (Option.some.inj hact).symm hne
  · rw [activeOf, markedSegment_named hp hmark hfile, Option.some_or] at hact
    exact .inl (Option.some.inj hact ▸ hmark)

/-- A start on an orderly directory gives a running store. -/
theorem Dormant.start {d : Disk} (h : Dormant B P d) {maxSegmentBytes : Int}
    {bloomEnabled : Bool} {s : Store B}
    (hstart : newManager B d maxSegmentBytes bloomEnabled = some s) : Running P s := by
  have hlayout := newManager_layout h.marks h.bounded hstart
  rcases newManager_cases hstart with
    ⟨hnone, t, ht, hdisk, hman⟩ | ⟨path, size, hact, hne, hdisk, hman⟩
  · obtain ⟨-, hheld, hinit, -⟩ := h.first hnone maxSegmentBytes bloomEnabled
    obtain ⟨-, hactive, hpaths, -, -, -, hmarker, -⟩ := openNewSegment_run
      (⟨d, initialManager B d maxSegmentBytes bloomEnabled, .new⟩ : Store B)
      (initialManager B d maxSegmentBytes bloomEnabled)
    rw [← ht] at hheld hactive hpaths hmarker
    rw [hinit, List.nil_append] at hpaths
    refine .of_first hheld hlayout hdisk ?_ hactive hpaths hmarker
    rw [hman]
    simp only [Manager.loadBlooms, Manager.listClosedSegments, hpaths]
    split <;> rfl
  · have hmem := activeOf_mem h.marks hact hne
    obtain ⟨hseg, hsome⟩ := mem_matchedSegments.mp hmem
    have hlay := loadBlooms_layout ({ initialManager B d maxSegmentBytes bloomEnabled with
      active := some ⟨path, size⟩ } : Manager B) d
    obtain ⟨hactive, hlist, -⟩ := reopened_manager hact hman
    have hpaths : ∀ p, p ∈ s.manager.paths ↔ p ∈ matchedSegments d := by
      intro p
      rw [hlist, (activeLast_spec hmem).1 p]
    have hclosed : path ∉ s.manager.listClosedSegments := hlayout.active_open hactive
    have hblooms : ∀ p bf, s.manager.blooms.get p = some bf →
        s.manager.bloomEnabled = true ∧ p ∈ s.manager.listClosedSegments ∧
          readBloom B d p = some bf := by
      intro p bf hbf
      rw [hman] at hbf
      rcases loadBlooms_get hbf with hbf | ⟨hon, hin, hread⟩
      · cases hbf
      · refine ⟨by rw [hman, hlay.bloomEnabled]; exact hon, ?_, hread⟩
        rw [Manager.listClosedSegments, hman, hlay.paths]
        exact hin
    have hlisted : ∀ p ∈ s.manager.listClosedSegments, p ∈ s.manager.paths :=
      fun p hp => List.dropLast_subset _ hp
    refine ⟨hlayout, ?_, ?_, ?_⟩
    · intro p hp
      obtain ⟨hpseg, hpsome⟩ := mem_matchedSegments.mp ((hpaths p).mp hp)
      exact h.names p hpseg hpsome
    · intro seg hs
      rw [hactive] at hs
      cases hs
      refine ⟨⟨?_, ?_, ?_, ?_, ?_⟩, ?_, ?_, hseg, ?_⟩
      · intro p bf hbf
        obtain ⟨-, hin, hread⟩ := hblooms p bf hbf
        have hpseg := (mem_matchedSegments.mp ((hpaths p).mp (hlisted p hin))).1
        refine ⟨hpseg, ?_⟩
        rw [hdisk]
        refine h.covered p hpseg ?_ bf hread
        rw [hact]
        exact fun heq => hclosed (Option.some.inj heq ▸ hin)
      · exact fun p bf hbf => hlisted p (hblooms p bf hbf).2.1
      · exact fun p bf hbf => (hblooms p bf hbf).1
      · rw [Option.eq_none_iff_forall_ne_some]
        exact fun bf hbf => hclosed (hblooms path bf hbf).2.1
      · intro p hp hpne
        rw [hdisk]
        refine h.covered p hp ?_
        rw [hact]
        exact fun heq => hpne (Option.some.inj heq).symm
      · rw [hdisk]
        exact h.names
      · rw [hdisk]
        exact hsome
      · rw [hdisk]
        exact h.marksActive hact hne
    · intro hnone seg hs p hp
      rw [hactive] at hs
      cases hs
      rw [hdisk] at hnone
      exact le_activeOf hact hnone ((hpaths p).mp hp)

/-- A node that is down, with its directory, or up. -/
inductive World (B : BloomPackage) where
  | down (d : Disk)
  | up (s : Store B)

/-- What can happen to a node: a start, which may be cut short, and an operation, which may be
cut short after some of its steps. -/
inductive Event where
  | boot (maxSegmentBytes : Int) (bloomEnabled : Bool)
  | bootCrash (maxSegmentBytes : Int) (bloomEnabled : Bool) (done : Nat)
  | op (o : Op)
  | opCrash (o : Op) (done : Nat)

/-- The directory after some steps of `NewManager`. -/
def bootDisk (B : BloomPackage) (d : Disk) (maxSegmentBytes : Int) (bloomEnabled : Bool)
    (done : Nat) : Disk :=
  ((⟨d, initialManager B d maxSegmentBytes bloomEnabled, .new⟩ : Store B).run
    ((newManagerSteps B d maxSegmentBytes bloomEnabled).take done)).disk

/-- The steps of an operation that were done when it was interrupted. -/
def Op.upTo (P : ProtoPackage) (s : Store B) (o : Op) (done : Nat) : List (Step B) :=
  (o.steps P s).take done

/-- An event that does not apply changes nothing. -/
def World.after (P : ProtoPackage) : World B → Event → World B
  | .down d, .boot maxSegmentBytes bloomEnabled =>
    match start P B d maxSegmentBytes bloomEnabled with
    | some s => .up s
    | none => .down (bootDisk B d maxSegmentBytes bloomEnabled
        (newManagerSteps B d maxSegmentBytes bloomEnabled).length)
  | .down d, .bootCrash maxSegmentBytes bloomEnabled done =>
    .down (bootDisk B d maxSegmentBytes bloomEnabled done)
  | .up s, .op o => .up (s.run (o.steps P s))
  | .up s, .opCrash o done => .down (s.run (o.upTo P s done)).disk
  | w, _ => w

/-- The condition on the steps of an operation: a rotation finds a number left and leaves the
closed segment covered, and a merge renames only over segments whose filters cover the merged
entries. -/
def Op.Safe (P : ProtoPackage) (s : Store B) (steps : List (Step B)) : Op → Prop
  | .append e ok => SeqLeft P s e ∧ ∀ seg, s.manager.active = some seg →
      mustRotate P s seg e = true → Rotates P s seg.path ok
  | .merge _ _ => Along (MergeSafe P) s steps
  | .retain _ _ => True

instance (s : Store B) (steps : List (Step B)) : (o : Op) → Decidable (o.Safe P s steps)
  | .append e ok => inferInstanceAs (Decidable (SeqLeft P s e ∧ ∀ seg ∈ s.manager.active,
      mustRotate P s seg e = true → Rotates P s seg.path ok))
  | .merge _ _ => inferInstanceAs (Decidable (Along (MergeSafe P) s steps))
  | .retain _ _ => isTrue trivial

def Event.Safe (P : ProtoPackage) : World B → Event → Prop
  | .up s, .op o => o.Safe P s (o.steps P s)
  | .up s, .opCrash o done => o.Safe P s (o.upTo P s done)
  | _, _ => True

instance : (w : World B) → (ev : Event) → Decidable (ev.Safe P w)
  | .up s, .op o => inferInstanceAs (Decidable (o.Safe P s (o.steps P s)))
  | .up s, .opCrash o done => inferInstanceAs (Decidable (o.Safe P s (o.upTo P s done)))
  | .down _, _ | .up _, .boot _ _ | .up _, .bootCrash _ _ _ => isTrue trivial

/-- Each event of a history meets its condition. -/
def AllSafe (P : ProtoPackage) : World B → List Event → Prop
  | _, [] => True
  | w, ev :: evs => ev.Safe P w ∧ AllSafe P (w.after P ev) evs

instance AllSafe.decidable : (w : World B) → (evs : List Event) → Decidable (AllSafe P w evs)
  | _, [] => isTrue trivial
  | w, ev :: evs => @instDecidableAnd _ _ _ (AllSafe.decidable (w.after P ev) evs)

/-- What holds of a node at all times. -/
def World.Orderly (P : ProtoPackage) : World B → Prop
  | .down d => Dormant B P d
  | .up s => Running P s

theorem runRetentionPass_plain (s : Store B) (now : Int64) (days : Int) :
    ∀ st ∈ runRetentionPass P s now days, Step.plain st = true := by
  have hloop : ∀ (rest : List String) (cutoff : Int64) (s : Store B),
      ∀ st ∈ retentionLoop P cutoff s rest, Step.plain st = true := by
    intro rest cutoff
    induction rest with
    | nil => simp [retentionLoop]
    | cons path rest ih =>
      intro s st hst
      rcases List.mem_append.mp hst with hst | hst
      · unfold retainOne at hst
        split at hst
        · cases hst
        · split at hst
          · simp only [List.mem_cons, List.not_mem_nil, or_false] at hst
            rcases hst with rfl | rfl | rfl | rfl <;> rfl
          · cases hst
      · exact ih _ st hst
  intro st hst
  unfold runRetentionPass at hst
  split at hst
  · cases hst
  · exact hloop _ _ s st hst

theorem mergeSafe_of_plain {s : Store B} {steps : List (Step B)}
    (h : ∀ st ∈ steps, Step.plain st = true) : Along (MergeSafe P) s steps := by
  refine .of_forall (fun t st hst => ?_)
  have hplain := h st hst
  cases st with
  | rename => cases hplain
  | _ => trivial

/-- The steps of an operation, whole or cut short. -/
theorem Running.op (hP : P.Inverts) (hB : B.Sound) (hB' : B.RoundTrips) {s : Store B}
    (hs : Running P s) {o : Op} {pre : List (Step B)} (hpre : pre <+: o.steps P s)
    (hsafe : o.Safe P s pre) :
    Observed P (s.run pre) ∧ (pre = o.steps P s → Running P (s.run pre)) := by
  cases o with
  | append e ok =>
    obtain ⟨hobserved, hrunning⟩ := hs.append hB hB' hsafe.1 hsafe.2
    exact ⟨hobserved pre hpre, fun heq => heq ▸ hrunning⟩
  | merge threshold faults =>
    have hbuilt := runMergePass_built hP hB hB' hs.layout (fun p hp => (hs.paths p hp).seg)
      threshold faults
    have hrun := hs.compact
      (fun st hst => runMergePass_compacts s threshold faults st (hpre.subset hst))
      (hbuilt.initial hpre) hsafe
    exact ⟨hrun.observed, fun _ => hrun⟩
  | retain now days =>
    have hplain : ∀ st ∈ pre, Step.plain st = true :=
      fun st hst => runRetentionPass_plain s now days st (hpre.subset hst)
    have hrun := hs.compact
      (fun st hst => runRetentionPass_compacts s now days st (hpre.subset hst))
      (built_of_plain hplain) (mergeSafe_of_plain hplain)
    exact ⟨hrun.observed, fun _ => hrun⟩

/-- A start that is cut short leaves the directory in order. -/
theorem Dormant.boot {d : Disk} (h : Dormant B P d) (maxSegmentBytes : Int)
    (bloomEnabled : Bool) (done : Nat) :
    Dormant B P (bootDisk B d maxSegmentBytes bloomEnabled done) := by
  unfold bootDisk newManagerSteps
  split
  · rename_i hnone
    have hpre := (h.first hnone maxSegmentBytes bloomEnabled).1
    exact (hpre _ (List.take_prefix _ _)).dormant
  · rw [List.take_nil, run_nil]
    exact h

theorem Running.congr {s t : Store B} (hs : Running P s) (hdisk : t.disk = s.disk)
    (hman : t.manager = s.manager) : Running P t := by
  refine ⟨hs.layout.congr hdisk hman, ?_, ?_, ?_⟩
  · exact hman ▸ hs.paths
  · intro seg hseg
    exact (hs.held seg (hman ▸ hseg)).congr hman (fun p _ => by rw [hdisk]; exact ⟨rfl, rfl⟩)
      (by rw [hdisk])
  · rw [hdisk, hman]
    exact hs.last

theorem World.Orderly.after (hP : P.Inverts) (hB : B.Sound) (hB' : B.RoundTrips) {w : World B}
    {ev : Event} (hw : w.Orderly P) (hsafe : ev.Safe P w) : (w.after P ev).Orderly P := by
  cases w with
  | down d =>
    have hd : Dormant B P d := hw
    cases ev with
    | boot maxSegmentBytes bloomEnabled =>
      simp only [World.after]
      split
      · rename_i s hs
        obtain ⟨t, ht, hdisk, hman⟩ := start_newManager hs
        exact (hd.start ht).congr hdisk hman
      · exact hd.boot maxSegmentBytes bloomEnabled _
    | bootCrash maxSegmentBytes bloomEnabled done =>
      exact hd.boot maxSegmentBytes bloomEnabled done
    | op | opCrash => exact hw
  | up s =>
    have hs : Running P s := hw
    cases ev with
    | boot | bootCrash => exact hw
    | op o => exact (hs.op hP hB hB' (List.prefix_refl _) hsafe).2 rfl
    | opCrash o done => exact (hs.op hP hB hB' (List.take_prefix _ _) hsafe).1.dormant

theorem World.Orderly.run (hP : P.Inverts) (hB : B.Sound) (hB' : B.RoundTrips) {w : World B}
    {evs : List Event} (hw : w.Orderly P) (hsafe : AllSafe P w evs) :
    (evs.foldl (World.after P) w).Orderly P := by
  induction evs generalizing w with
  | nil => exact hw
  | cons ev evs ih => exact ih (hw.after hP hB hB' hsafe.1) hsafe.2

theorem dormant_empty (B : BloomPackage) (P : ProtoPackage) : Dormant B P .empty := by
  refine ⟨?_, .inl rfl, ?_⟩
  · intro p _ h
    cases h
  · intro p _ _
    exact covered_of_missing rfl

/-- In every history whose events meet their conditions no filter is stale, whatever state of
whatever operation a query observes. -/
theorem filters_never_stale (hP : P.Inverts) (hB : B.Sound) (hB' : B.RoundTrips)
    {evs : List Event} {s : Store B} {o : Op} {done : Nat}
    (hsafe : AllSafe P (.down .empty : World B) evs)
    (hs : evs.foldl (World.after P) (.down .empty) = .up s)
    (hop : o.Safe P s (o.upTo P s done)) :
    let t := s.run (o.upTo P s done)
    ∀ p bf, t.manager.bloomFor p = some bf →
      ∀ e ∈ entriesAt P t.disk p, ∀ tok ∈ tokenizeEntry e, B.testString bf tok = true := by
  intro t p bf hbf e he tok htok
  have hempty : World.Orderly P (.down .empty : World B) := dormant_empty B P
  have hw := hempty.run hP hB hB' hsafe
  rw [hs] at hw
  have hrunning : Running P s := hw
  have hobserved := (hrunning.op hP hB hB' (List.take_prefix _ _) hop).1
  exact hobserved.fresh p bf hbf tok (List.mem_flatMap.mpr ⟨e, he, htok⟩)

/-- A node that starts with filters on an empty directory and appends three entries to three
segments, the second with the given message. -/
def threeAppends (message : String) : List Event :=
  [.boot 40 true, .op (.append (line "a" "" "orders" "disk full" 1) true),
    .op (.append (line "b" "" "orders" message 2) true),
    .op (.append (line "c" "" "orders" "disk full" 3) true)]

def threeSegments (message : String) : Store exactFilter :=
  [Op.append (line "a" "" "orders" "disk full" 1) true,
    .append (line "b" "" "orders" message 2) true,
    .append (line "c" "" "orders" "disk full" 3) true].foldl
      (fun s o => s.run (o.steps protobuf s)) (fresh exactFilter 40 true)

theorem threeAppends_run (message : String) :
    (threeAppends message).foldl (World.after protobuf) (.down .empty) =
      .up (threeSegments message) := by
  simp only [threeAppends, List.foldl_cons, List.foldl_nil, World.after, start_empty,
    threeSegments]

/-- A merge of two segments with the same tokens, up to its last index entry. -/
theorem filters_never_stale_merge :
    let t := (threeSegments "disk full").run
      ((Op.merge 1000 noFaults).upTo protobuf (threeSegments "disk full") 12)
    ∀ p bf, t.manager.bloomFor p = some bf → ∀ e ∈ entriesAt protobuf t.disk p,
      ∀ tok ∈ tokenizeEntry e, exactFilter.testString bf tok = true :=
  filters_never_stale protobuf_inverts exactFilter_sound exactFilter_roundTrips
    (by decide +kernel) (threeAppends_run "disk full") (by decide +kernel)

/-- The same merge where the second segment has a word of its own: the first segment's file
holds both entries, the index leads to it, and its filter is the old one. -/
theorem filter_stale_in_merge :
    let t := (threeSegments "link down").run
      ((Op.merge 1000 noFaults).upTo protobuf (threeSegments "link down") 12)
    (threeAppends "link down").foldl (World.after protobuf) (.down .empty) =
        .up (threeSegments "link down") ∧
      line "b" "" "orders" "link down" 2 ∈ entriesAt protobuf t.disk (segmentName 1) ∧
      "link" ∈ tokenizeEntry (line "b" "" "orders" "link down" 2) ∧
      (t.manager.bloomFor (segmentName 1)).map (exactFilter.testString · "link") =
        some false := by
  refine ⟨threeAppends_run "link down", ?_⟩
  decide +kernel

end LogEngine.Storage
