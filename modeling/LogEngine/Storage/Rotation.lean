import LogEngine.Storage.Crash

namespace LogEngine.Storage
open Lib

variable {B : BloomPackage} {P : ProtoPackage} {a : String}

/-- A state in which no filter in memory is stale, and after a crash in it none will be loaded
that is. -/
structure Observed (P : ProtoPackage) (s : Store B) : Prop where
  fresh : ∀ p bf, s.manager.blooms.get p = some bf → Covers bf (entriesAt P s.disk p)
  dormant : Dormant B P s.disk

theorem Held.observed {s : Store B} (h : Held P a s) : Observed P s :=
  ⟨fun p bf hbf => (h.filters.memory p bf hbf).2, h.dormant⟩

theorem Sealed.observed {s : Store B} (h : Sealed P s) : Observed P s := ⟨h.memory, h.dormant⟩

theorem prefix_append_cases {α : Type} {pre xs ys : List α} (h : pre <+: xs ++ ys) :
    pre <+: xs ∨ ∃ pre', pre' <+: ys ∧ pre = xs ++ pre' := by
  obtain ⟨rest, hrest⟩ := h
  rcases List.append_eq_append_iff.mp hrest with ⟨more, hxs, -⟩ | ⟨more, hpre, hys⟩
  · exact .inl ⟨more, hxs.symm⟩
  · exact .inr ⟨more, ⟨rest, hys.symm⟩, hpre⟩

/-- Along a list of steps that each keep the store held, it is held throughout. -/
theorem Held.run {s : Store B} (hs : Held P a s) {steps : List (Step B)}
    (h : ∀ t, ∀ st ∈ steps, Held P a t → Held P a (Step.apply t st)) : Held P a (s.run steps) :=
  run_preserves h hs

theorem Held.run_initial {s : Store B} (hs : Held P a s) {steps pre : List (Step B)}
    (h : ∀ t, ∀ st ∈ steps, Held P a t → Held P a (Step.apply t st)) (hpre : pre <+: steps) :
    Held P a (s.run pre) :=
  hs.run (fun t st hst => h t st (hpre.subset hst))

theorem Held.writeBloom {s : Store B} (hs : Held P a s) (bf : B.Filter) (ok : Bool)
    {pre : List (Step B)} (hpre : pre <+: Storage.writeBloom a bf ok) : Held P a (s.run pre) :=
  hs.run_initial (fun _ _ hst ht => ht.sidecar hst) hpre

/-- The writes of an append. -/
theorem Held.writeSteps {s : Store B} (hs : Held P a s) (e : LogEntry) {pre : List (Step B)}
    (hpre : pre <+: Storage.writeSteps B P a e) : Held P a (s.run pre) := by
  refine hs.run_initial (fun t st hst ht => ?_) hpre
  simp only [Storage.writeSteps, List.mem_cons, List.not_mem_nil, or_false] at hst
  rcases hst with rfl | rfl | rfl
  · exact ht.write _
  · exact ht.write _
  · exact ht.grow _

/-- A held store whose active segment is covered as well is sealed. -/
theorem Held.seal {s : Store B} (hs : Held P a s) (hcovered : Covered B P s.disk a) :
    Sealed P s := by
  refine ⟨fun p bf hbf => (hs.filters.memory p bf hbf).2, ?_, hs.names, hs.dormant.marker⟩
  intro p hp
  by_cases hpa : p = a
  · exact hpa ▸ hcovered
  · exact hs.filters.sidecars p hp hpa

theorem Sealed.setBloom {s : Store B} (hs : Sealed P s) {bf : B.Filter}
    (hcovers : Covers bf (entriesAt P s.disk a)) :
    Sealed P (Step.apply s (.setBloom a bf)) := by
  refine ⟨?_, hs.sidecars, hs.names, hs.marker⟩
  intro p bf' hbf'
  simp only [Step.apply, GoMap.get_set] at hbf'
  split at hbf'
  · rename_i hpa
    cases hbf'
    exact hpa ▸ hcovers
  · exact hs.memory p bf' hbf'

/-- The sidecar after a successful `WriteBloom`. -/
theorem writeBloom_read (hB : B.RoundTrips) (s : Store B) (path : String) (bf : B.Filter) :
    readBloom B (s.run (Storage.writeBloom path bf true)).disk path = some bf := by
  have htmp : (s.run [.truncate (tmpPath (bloomPath path)),
      .append (tmpPath (bloomPath path)) (B.writeTo bf)]).disk.files.get
        (tmpPath (bloomPath path)) = some (B.writeTo bf) := by
    simp [Step.apply, Disk.write, Disk.append]
  have hsplit : (Storage.writeBloom path bf true : List (Step B)) =
      [.truncate (tmpPath (bloomPath path)), .append (tmpPath (bloomPath path)) (B.writeTo bf)] ++
        [.rename (tmpPath (bloomPath path)) (bloomPath path)] := rfl
  rw [hsplit, run_append, run_cons, run_nil, readBloom, get_rename htmp, if_pos rfl,
    Option.bind_some, hB bf]

theorem writeBloom_segs {s : Store B} {path : String} {bf : B.Filter} {ok : Bool} {p : String}
    (hp : IsSeg p) : (s.run (Storage.writeBloom path bf ok)).disk.files.get p =
      s.disk.files.get p := by
  refine run_get s (fun st hst => ?_)
  have hne := (tmpPath_touch hp (.inr rfl : tmpPath (bloomPath path) = tmpPath path ∨ _)).1
  have hne' : p ≠ bloomPath path := fun h => bloomPath_not_seg path (h ▸ hp)
  unfold Storage.writeBloom at hst
  split at hst <;> simp only [List.mem_cons, List.not_mem_nil, or_false] at hst
  · rcases hst with rfl | rfl | rfl <;> simp [Step.touches, hne, hne']
  · rcases hst with rfl | rfl <;> simp [Step.touches, hne]

/-- A failed `WriteBloom` leaves the sidecar it found. -/
theorem writeBloom_failed (s : Store B) {path : String} (hp : IsSeg path) (bf : B.Filter) :
    (s.run (Storage.writeBloom path bf false)).disk.files.get (bloomPath path) =
      s.disk.files.get (bloomPath path) := by
  refine run_get s (fun st hst => ?_)
  have hne := (tmpPath_touch hp (.inr rfl : tmpPath (bloomPath path) = tmpPath path ∨ _)).2
  simp only [Storage.writeBloom, Bool.false_eq_true, if_false, List.mem_cons, List.not_mem_nil,
    or_false] at hst
  rcases hst with rfl | rfl <;> simp [Step.touches, hne]

/-- The condition under which a rotation leaves the closed segment covered: it writes the
sidecar, or the one that is there will do. -/
def Rotates (P : ProtoPackage) (s : Store B) (path : String) (ok : Bool) : Prop :=
  s.manager.bloomEnabled = true ∧ ok = true ∨ Covered B P s.disk path

instance (s : Store B) (path : String) (ok : Bool) : Decidable (Rotates P s path ok) :=
  inferInstanceAs (Decidable (_ ∨ _))

/-- A sidecar that `rotate` wrote, or found, covers the segment being closed. -/
theorem Held.writeBloom_covers (hB : B.Sound) (hB' : B.RoundTrips) {s : Store B} (hs : Held P a s)
    {ok : Bool} (hok : Rotates P s a ok) {entries : List LogEntry}
    (hentries : entriesAt P s.disk a = entries) :
    Covered B P (s.run (Storage.writeBloom a (bloomOf B entries) ok)).disk a := by
  intro bf hbf
  rw [entriesAt_congr (writeBloom_segs hs.seg), hentries]
  cases ok with
  | true =>
    rw [writeBloom_read hB'] at hbf
    cases hbf
    exact bloomOf_covers hB entries
  | false =>
    have hcov := hok.resolve_left (fun h => Bool.noConfusion h.2)
    rw [readBloom, writeBloom_failed s hs.seg] at hbf
    rw [← hentries]
    exact hcov bf hbf

/-- The bloom part of a rotation: the store is held until the filter enters memory, and sealed
at the end. -/
theorem Held.rotateBloom (hB : B.Sound) (hB' : B.RoundTrips) {s : Store B} (hs : Held P a s)
    {ok : Bool} (hok : Rotates P s a ok) :
    (∀ pre, pre <+: Storage.rotateBloom P s a ok → Observed P (s.run pre)) ∧
      Sealed P (s.run (Storage.rotateBloom P s a ok)) ∧
      ∀ p bf, (s.run (Storage.rotateBloom P s a ok)).manager.blooms.get p = some bf →
        p = a ∧ s.manager.bloomEnabled = true ∨ s.manager.blooms.get p = some bf := by
  have hidle : ∀ hcov : Covered B P s.disk a, (∀ pre : List (Step B), pre <+: [] →
      Observed P (s.run pre)) ∧ Sealed P (s.run []) ∧
      ∀ p bf, (s.run []).manager.blooms.get p = some bf →
        p = a ∧ s.manager.bloomEnabled = true ∨ s.manager.blooms.get p = some bf := by
    intro hcov
    refine ⟨fun pre hpre => ?_, hs.seal hcov, fun p bf hbf => .inr hbf⟩
    rw [List.prefix_nil.mp hpre]
    exact hs.observed
  unfold Storage.rotateBloom
  split
  · rename_i hon
    split
    · rename_i err herr
      refine hidle (fun bf _ => ?_)
      simp only [entriesAt, herr]
      exact covers_nil bf
    · rename_i entries hread
      have hentries : entriesAt P s.disk a = entries := by simp only [entriesAt, hread]
      have hheld := hs.writeBloom (bloomOf B entries) ok (List.prefix_refl _)
      have hcovered := hs.writeBloom_covers hB hB' hok hentries
      have hmem : (s.run (Storage.writeBloom a (bloomOf B entries) ok)).manager.blooms =
          s.manager.blooms := by
        rw [run_manager s (fun st hst => (writeBloom_keeps a (bloomOf B entries) ok st hst).1)]
      have hsealed := hheld.seal hcovered
      cases ok with
      | false =>
        simp only [Bool.false_eq_true, if_false, List.append_nil]
        exact ⟨fun pre hpre => (hs.writeBloom _ false hpre).observed, hsealed,
          fun p bf hbf => .inr (hmem ▸ hbf)⟩
      | true =>
        simp only [if_true]
        have hcovers : Covers (bloomOf B entries)
            (entriesAt P (s.run (Storage.writeBloom a (bloomOf B entries) true)).disk a) := by
          rw [entriesAt_congr (writeBloom_segs hs.seg), hentries]
          exact bloomOf_covers hB entries
        have hset := hsealed.setBloom hcovers
        rw [run_append]
        refine ⟨fun pre hpre => ?_, hset, ?_⟩
        · rcases prefix_append_cases hpre with hpre | ⟨pre', hpre', heq⟩
          · exact (hs.writeBloom _ true hpre).observed
          · rw [heq, run_append]
            rcases List.prefix_cons_iff.mp hpre' with hnil | ⟨more, hcons, hmore⟩
            · rw [hnil]
              exact hsealed.observed
            · rw [hcons, List.prefix_nil.mp hmore]
              exact hset.observed
        · intro p bf hbf
          rw [run_cons, run_nil] at hbf
          simp only [Step.apply, GoMap.get_set] at hbf
          split at hbf
          · exact .inl ⟨‹_›, hon⟩
          · exact .inr (hmem ▸ hbf)
  · rename_i hoff
    exact hidle (hok.resolve_left (fun h => hoff h.1))

/-- The steps that a sealed store may take: create a new numbered segment, make it the active
one, and blank or set the marker. -/
def Opens (s : Store B) : Step B → Prop
  | .create p => s.disk.files.get p = none ∧ Numbered p
  | .openActive _ => True
  | .mark text => text = "" ∨ Numbered text ∧ (s.disk.files.get text).isSome = true
  | _ => False

theorem Sealed.create {s : Store B} (hs : Sealed P s) {p : String}
    (hnew : s.disk.files.get p = none) (hp : Numbered p) :
    Sealed P (Step.apply s (.create p)) := by
  have hget : ∀ q, (Step.apply s (.create p)).disk.files.get q =
      if q = p then some [] else s.disk.files.get q := by
    intro q
    simp only [Step.apply, Disk.create, GoMap.get_set, hnew, Option.getD_none]
  have hentries : ∀ q, entriesAt P (Step.apply s (.create p)).disk q = entriesAt P s.disk q := by
    intro q
    by_cases hqp : q = p
    · rw [hqp, entriesAt_none hnew]
      exact entriesAt_some ((hget p).trans (if_pos rfl)) (decodeSegment_nil P)
    · exact entriesAt_congr ((hget q).trans (if_neg hqp))
  have hsome : ∀ q, (s.disk.files.get q).isSome = true →
      ((Step.apply s (.create p)).disk.files.get q).isSome = true := by
    intro q hq
    rw [hget]
    split
    · rfl
    · exact hq
  refine ⟨?_, ?_, ?_, ?_⟩
  · intro q bf hbf
    rw [hentries]
    exact hs.memory q bf hbf
  · intro q hq bf hbf
    have hne : bloomPath q ≠ p := fun h => bloomPath_not_seg q (h ▸ hp.seg)
    rw [readBloom, hget, if_neg hne] at hbf
    rw [hentries]
    exact hs.sidecars q hq bf hbf
  · intro q hq h
    rw [hget] at h
    split at h
    · exact ‹q = p› ▸ hp
    · exact hs.names q hq h
  · rcases hs.marker with h | h | ⟨q, hq, hnum, h⟩
    · exact .inl h
    · exact .inr (.inl h)
    · exact .inr (.inr ⟨q, hq, hnum, hsome q h⟩)

theorem Sealed.opens {s : Store B} {st : Step B} (hs : Sealed P s) (hst : Opens s st) :
    Sealed P (Step.apply s st) := by
  cases st with
  | create p => exact hs.create hst.1 hst.2
  | openActive p => exact ⟨hs.memory, hs.sidecars, hs.names, hs.marker⟩
  | mark text =>
    refine ⟨hs.memory, hs.sidecars, hs.names, ?_⟩
    rcases hst with hst | hst
    · exact .inr (.inl (congrArg some hst))
    · exact .inr (.inr ⟨text, rfl, hst⟩)
  | _ => exact hst.elim

theorem openNewSegment_opens {s : Store B} {m : Manager B}
    (hnew : s.disk.files.get (segmentName m.nextSeq) = none)
    (hseq : m.nextSeq.toNat + 1 < 2 ^ 64) : Along Opens s (openNewSegment m) := by
  have hname : Numbered (segmentName m.nextSeq) := ⟨_, rfl, hseq⟩
  refine ⟨⟨hnew, hname⟩, trivial, .inl rfl, .inr ⟨hname, ?_⟩, trivial⟩
  simp only [Step.apply, Store.openActive, Disk.create, GoMap.get_set, if_true, Option.isSome_some]

/-- Opening a new segment: sealed on the way, and held with the new segment at the end. -/
theorem Sealed.openNewSegment {s : Store B} (hs : Sealed P s) {m : Manager B}
    (hnew : s.disk.files.get (segmentName m.nextSeq) = none)
    (hseq : m.nextSeq.toNat + 1 < 2 ^ 64)
    (hblooms : ∀ p bf, s.manager.blooms.get p = some bf → IsSeg p ∧ p ∈ s.manager.paths ∧
      s.manager.bloomEnabled = true)
    (hunused : segmentName m.nextSeq ∉ s.manager.paths) :
    (∀ pre, pre <+: Storage.openNewSegment m → Sealed P (s.run pre)) ∧
      Held P (segmentName m.nextSeq) (s.run (Storage.openNewSegment m)) := by
  have hpre : ∀ pre, pre <+: Storage.openNewSegment m → Sealed P (s.run pre) := fun pre h =>
    Along.preserves (fun t st ht hst => ht.opens hst) hs
      ((openNewSegment_opens hnew hseq).initial h)
  have hend := hpre _ (List.prefix_refl _)
  obtain ⟨hget, -, hpaths, -, henabled, -, hmarker, -⟩ := openNewSegment_run s m
  have hmem := openNewSegment_blooms s m
  have hidle : s.manager.blooms.get (segmentName m.nextSeq) = none := by
    rw [Option.eq_none_iff_forall_ne_some]
    exact fun bf hbf => hunused (hblooms _ bf hbf).2.1
  refine ⟨hpre, ⟨?_, ?_, ?_, ?_, fun p hp _ => hend.sidecars p hp⟩, hend.names, ?_,
    segmentName_isSeg _, .inl hmarker⟩
  · intro p bf hbf
    exact ⟨(hblooms p bf (hmem ▸ hbf)).1, hend.memory p bf hbf⟩
  · intro p bf hbf
    rw [hpaths]
    exact List.mem_append_left _ (hblooms p bf (hmem ▸ hbf)).2.1
  · intro p bf hbf
    rw [henabled]
    exact (hblooms p bf (hmem ▸ hbf)).2.2
  · rw [hmem]
    exact hidle
  · rw [hget, if_pos rfl]
    rfl

/-- A running store between two operations. -/
structure Running (P : ProtoPackage) (s : Store B) : Prop where
  layout : Layout s
  paths : ∀ p ∈ s.manager.paths, Numbered p
  held : ∀ seg, s.manager.active = some seg → Held P seg.path s
  last : s.disk.marker = none → ∀ seg, s.manager.active = some seg →
    ∀ p ∈ s.manager.paths, p ≤ seg.path

theorem Running.observed {s : Store B} (hs : Running P s) : Observed P s := by
  obtain ⟨seg, hactive, -⟩ := hs.layout.active
  exact (hs.held seg hactive).observed

theorem compact_step_manager {closed : List String} {st : Step B} (hst : st.Compacts closed)
    (s : Store B) : (Step.apply s st).manager.active = s.manager.active ∧
      ∀ p ∈ (Step.apply s st).manager.paths, p ∈ s.manager.paths := by
  cases st with
  | finishMerge newPath olds =>
    obtain ⟨-, hpaths, hactive, -⟩ := finishMerge_layout s newPath olds
    exact ⟨hactive, fun p hp => List.mem_of_mem_filter (hpaths ▸ hp)⟩
  | deleteSegment q => exact ⟨rfl, fun p hp => List.mem_of_mem_filter hp⟩
  | mark | openActive | grow | setBloom | loadSegment => exact hst.elim
  | _ =>
    rw [manager_apply s rfl]
    exact ⟨rfl, fun p hp => hp⟩

/-- A pass keeps a running store running, at each of its steps. -/
theorem Running.compact {s : Store B} (hs : Running P s) {steps : List (Step B)}
    (hsteps : ∀ st ∈ steps, Step.Compacts s.manager.listClosedSegments st)
    (hbuilt : Along (Built P) s steps) (hsafe : Along (MergeSafe P) s steps) :
    Running P (s.run steps) := by
  obtain ⟨seg, hactive, -⟩ := hs.layout.active
  have hclosed : ∀ q ∈ s.manager.listClosedSegments, q ∈ s.manager.paths :=
    fun q hq => List.dropLast_subset _ hq
  obtain ⟨hact, hsub⟩ : (s.run steps).manager.active = s.manager.active ∧
      ∀ p ∈ (s.run steps).manager.paths, p ∈ s.manager.paths := by
    refine run_preserves (I := fun t => t.manager.active = s.manager.active ∧
      ∀ p ∈ t.manager.paths, p ∈ s.manager.paths) ?_ ⟨rfl, fun p hp => hp⟩
    intro t st hst h
    obtain ⟨ht, htsub⟩ := h
    obtain ⟨hstep, hstepSub⟩ := compact_step_manager (hsteps st hst) t
    exact ⟨hstep.trans ht, fun p hp => htsub p (hstepSub p hp)⟩
  obtain ⟨hheld, hmark⟩ := (hs.held seg hactive).compact (hs.layout.active_open hactive)
    (fun q hq => hs.paths q (hclosed q hq))
    (fun hnone q hq => hs.last hnone seg hactive q (hclosed q hq)) hsteps hbuilt hsafe
  refine ⟨hs.layout.compact hsteps, fun p hp => hs.paths p (hsub p hp), ?_, ?_⟩
  · intro seg' hseg'
    rw [hact, hactive] at hseg'
    obtain rfl := Option.some.inj hseg'
    exact hheld
  · intro hnone seg' hseg' p hp
    exact hs.last (hmark ▸ hnone) seg' (hact ▸ hseg') p (hsub p hp)

/-- A rotation: nothing stale on the way, and held with the new segment at the end. -/
theorem Running.rotate (hB : B.Sound) (hB' : B.RoundTrips) {s : Store B} (hs : Running P s)
    {seg : Segment} (hactive : s.manager.active = some seg) {ok : Bool}
    (hok : Rotates P s seg.path ok) (hseq : s.manager.nextSeq.toNat + 1 < 2 ^ 64) :
    (∀ pre, pre <+: Storage.rotate P s ok → Observed P (s.run pre)) ∧
      Held P (segmentName s.manager.nextSeq) (s.run (Storage.rotate P s ok)) := by
  have hheld := hs.held seg hactive
  have hlast : s.manager.paths.getLast? = some seg.path := by
    obtain ⟨seg', hactive', hlast⟩ := hs.layout.active
    rw [hactive] at hactive'
    obtain rfl := Option.some.inj hactive'
    exact hlast
  have hname : s.manager.activeSegmentName = seg.path := by
    simp [Manager.activeSegmentName, hlast]
  have hmem := List.mem_of_getLast? hlast
  obtain ⟨hnone, hunused⟩ := hs.layout.unused
  unfold Storage.rotate
  rw [hname, run_append]
  obtain ⟨hpre, hsealed, hblooms⟩ := hheld.rotateBloom hB hB' hok
  obtain ⟨hget, -, -, hlayout⟩ := rotateBloom_run (P := P) s seg.path ok
  obtain ⟨hpre', hnew⟩ := hsealed.openNewSegment (m := s.manager)
    (by rw [hget _ (segmentName_isSeg _), hnone]) hseq (by
      intro p bf hbf
      rw [hlayout.paths, hlayout.bloomEnabled]
      rcases hblooms p bf hbf with ⟨heq, hon⟩ | hold
      · exact heq ▸ ⟨hheld.seg, hmem, hon⟩
      · exact ⟨(hheld.filters.memory p bf hold).1, hheld.filters.listed p bf hold,
          hheld.filters.enabled p bf hold⟩)
    (by rw [hlayout.paths]; exact hunused)
  refine ⟨fun pre h => ?_, hnew⟩
  rcases prefix_append_cases h with h | ⟨more, hmore, heq⟩
  · exact hpre pre h
  · rw [heq, run_append]
    exact (hpre' more hmore).observed

theorem Running.opened {s t : Store B} {path : String} (hs : Running P s) (h : Opened s t path)
    (hlayout : Layout t) (ht : Held P path t) : Running P t := by
  obtain ⟨size, hactive⟩ := h.active
  have hseg : ∀ seg, t.manager.active = some seg → seg.path = path := by
    intro seg hseg
    rw [hactive] at hseg
    obtain rfl := Option.some.inj hseg
    rfl
  refine ⟨hlayout, ?_, fun seg h => (hseg seg h) ▸ ht, ?_⟩
  · intro p hp
    rcases h.layout with ⟨-, -, hpaths, -⟩ | ⟨-, -, hpaths, -⟩
    · exact hs.paths p (hpaths ▸ hp)
    · rw [hpaths, List.mem_append, List.mem_singleton] at hp
      rcases hp with hp | hp
      · exact hs.paths p hp
      · exact hp ▸ ht.names path ht.seg ht.here
  · intro hnone seg hact p hp
    rcases h.layout with ⟨hpath, -, hpaths, -, hmark⟩ | ⟨-, -, -, -, hmark⟩
    · obtain ⟨seg', hactive', heq⟩ := Option.map_eq_some_iff.mp hpath
      rw [hseg seg hact, ← heq]
      exact hs.last (hmark ▸ hnone) seg' hactive' p (hpaths ▸ hp)
    · rw [hmark] at hnone
      cases hnone

theorem Running.written {t : Store B} {path : String} {size : Int} (ht : Running P t)
    (hactive : t.manager.active = some ⟨path, size⟩) (e : LogEntry) :
    Running P (t.run (writeSteps B P path e)) := by
  obtain ⟨hpaths, -, -, -, hmark, -⟩ := writeSteps_layout (P := P) t path e
  obtain ⟨n, hactive'⟩ := writeSteps_active (P := P) hactive path e
  have hseg : ∀ seg, (t.run (writeSteps B P path e)).manager.active = some seg →
      seg.path = path := by
    intro seg hseg
    rw [hactive'] at hseg
    obtain rfl := Option.some.inj hseg
    rfl
  refine ⟨ht.layout.written (by rw [hactive]; rfl) e, hpaths ▸ ht.paths, ?_, ?_⟩
  · intro seg h
    rw [hseg seg h]
    exact (ht.held _ hactive).writeSteps e (List.prefix_refl _)
  · intro hnone seg h p hp
    rw [hseg seg h]
    exact ht.last (hmark ▸ hnone) _ hactive p (hpaths ▸ hp)

/-- An append keeps a running store running if its rotation leaves the closed segment
covered. -/
theorem Running.append (hB : B.Sound) (hB' : B.RoundTrips) {s : Store B} (hs : Running P s)
    {e : LogEntry} {ok : Bool} (hseq : SeqLeft P s e)
    (hok : ∀ seg, s.manager.active = some seg → mustRotate P s seg e = true →
      Rotates P s seg.path ok) :
    (∀ pre, pre <+: (appendLocked P s e ok).1 → Observed P (s.run pre)) ∧
      Running P (s.run (appendLocked P s e ok).1) := by
  obtain ⟨seg, hactive, -⟩ := hs.layout.active
  obtain ⟨tail, heq, htail⟩ := appendLocked_cases (P := P) e ok hactive
  have hopened := rotateIfFull_opened (P := P) e ok hactive
  have hlayout := hs.layout.opened hopened
    (fun hne => hseq seg hactive (rotateIfFull_nextSeq hne))
  obtain ⟨hpre, hheld⟩ : (∀ pre, pre <+: rotateIfFull P s seg e ok → Observed P (s.run pre)) ∧
      Held P (appendTarget P s seg e) (s.run (rotateIfFull P s seg e ok)) := by
    unfold rotateIfFull appendTarget
    split
    · rename_i hfull
      exact hs.rotate hB hB' hactive (hok seg hactive hfull) (hseq seg hactive hfull)
    · refine ⟨fun pre hpre => ?_, hs.held seg hactive⟩
      rw [List.prefix_nil.mp hpre]
      exact hs.observed
  have hmid := hs.opened hopened hlayout hheld
  obtain ⟨size, hactive'⟩ := hopened.active
  rw [heq, run_append]
  refine ⟨fun pre h => ?_, ?_⟩
  · rcases prefix_append_cases h with h | ⟨more, hmore, hcat⟩
    · exact hpre pre h
    · rw [hcat, run_append]
      rcases htail with hnil | hwrite
      · rw [hnil] at hmore
        rw [List.prefix_nil.mp hmore]
        exact hmid.observed
      · rw [hwrite] at hmore
        exact (hheld.writeSteps e hmore).observed
  · rcases htail with hnil | hwrite
    · rw [hnil]
      exact hmid
    · rw [hwrite]
      exact hmid.written hactive' e

end LogEngine.Storage
