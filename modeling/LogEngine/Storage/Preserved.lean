import LogEngine.Lib.Steps
import LogEngine.Storage.Merged
import LogEngine.Storage.Oversize

namespace LogEngine.Storage
open Lib

variable {B : BloomPackage} {P : ProtoPackage} {log : String → List LogEntry} {s : Store B}

section Steps

/-- A pass lists no new segments. -/
theorem compacts_paths {closed : List String} {steps : List (Step B)}
    (hsteps : ∀ st ∈ steps, Step.Compacts closed st) (s : Store B) :
    ∀ p ∈ (s.run steps).manager.paths, p ∈ s.manager.paths := by
  refine run_preserves (I := fun t => ∀ p ∈ t.manager.paths, p ∈ s.manager.paths) ?_
    (fun p hp => hp)
  intro t st hst ht p hp
  have hcompacts := hsteps st hst
  cases st with
  | finishMerge newPath olds =>
    rw [Step.apply, (finishMerge_layout t newPath olds).2.1] at hp
    exact ht p (List.mem_of_mem_filter hp)
  | deleteSegment q => exact ht p (List.mem_of_mem_filter hp)
  | mark | openActive | grow | setBloom | loadSegment => exact hcompacts.elim
  | _ =>
    rw [manager_apply _ rfl] at hp
    exact ht p hp

/-- Deleting a closed segment empties its log. -/
theorem Kept.deleted (hs : Kept P s log) {path : String}
    (hopen : s.manager.active.map Segment.path ≠ some path) :
    Kept P (s.run [.deleteSegment path, .indexRemove path, .remove path,
      .remove (bloomPath path)]) (without log [path]) := by
  obtain ⟨n, size, hactive, hlast, hmark⟩ := hs.logged.active
  have hne : segmentName n ≠ path := by
    intro heq
    rw [hactive, Option.map_some, heq] at hopen
    exact hopen rfl
  refine ⟨⟨?_, ?_, ?_, ?_, n, size, hactive, ?_, hmark⟩, hs.nodup.filter _,
    hs.catalogued.removeSegment path⟩
  · intro p hp
    have hbloom : p ≠ bloomPath path := fun heq => bloomPath_not_seg path (heq ▸ hp)
    simp only [run_cons, run_nil, get_remove, if_neg hbloom]
    simp only [Step.apply, Manager.deleteSegment, List.mem_filter, decide_eq_true_eq,
      hs.logged.files p hp, without, List.mem_singleton]
    by_cases heq : p = path <;> simp [heq]
  · intro p hp
    rw [without]
    split
    · rfl
    · rename_i hnot
      refine hs.logged.unlisted p (fun hin => hp (List.mem_filter.mpr ⟨hin, ?_⟩))
      simpa using hnot
  · exact fun p e he => hs.logged.writable p e (mem_without.mp he).2
  · exact fun p hp => hs.logged.segs p (List.mem_of_mem_filter hp)
  · exact getLast?_filter hlast (by simpa using hne)

/-- What a log loses in a step is readable. -/
structure Sheds (P : ProtoPackage) (log log' : String → List LogEntry) : Prop where
  fewer : ∀ p, ∀ e ∈ log' p, e ∈ log p
  oversize : ∀ p, ∀ e ∈ log p, ¬ Fits P e → e ∈ log' p

theorem Sheds.refl (P : ProtoPackage) (log : String → List LogEntry) : Sheds P log log :=
  ⟨fun _ _ he => he, fun _ _ he _ => he⟩

theorem Sheds.trans {log₁ log₂ : String → List LogEntry} (h : Sheds P log log₁)
    (h' : Sheds P log₁ log₂) : Sheds P log log₂ :=
  ⟨fun p e he => h.fewer p e (h'.fewer p e he),
    fun p e he hlarge => h'.oversize p e (h.oversize p e he hlarge) hlarge⟩

theorem Kept.retainOne (hP : P.Inverts) (hs : Kept P s log) {path : String}
    (hopen : s.manager.active.map Segment.path ≠ some path) (cutoff : Int64) :
    ∃ log', Kept P (s.run (retainOne P s cutoff path)) log' ∧ Sheds P log log' ∧
      (s.run (retainOne P s cutoff path)).manager.active = s.manager.active := by
  have hnothing : ∃ log', Kept P (s.run []) log' ∧ Sheds P log log' ∧
      (s.run []).manager.active = s.manager.active :=
    ⟨log, hs, .refl P log, rfl⟩
  unfold Storage.retainOne
  split
  · exact hnothing
  · rename_i entries hread
    split
    · refine ⟨_, hs.deleted hopen, ⟨?_, ?_⟩, rfl⟩
      · exact fun p e he => (mem_without.mp he).2
      · intro p e he hlarge
        have hp : p ≠ path := fun heq =>
          hlarge (hs.logged.fits hP hread (List.mem_singleton.mpr heq) e he)
        exact mem_without.mpr ⟨List.mem_singleton.not.mpr hp, he⟩
    · exact hnothing

theorem Kept.retentionLoop (hP : P.Inverts) (cutoff : Int64) {rest : List String}
    (hs : Kept P s log) (hopen : ∀ p ∈ rest, s.manager.active.map Segment.path ≠ some p) :
    ∃ log', Kept P (s.run (retentionLoop P cutoff s rest)) log' ∧ Sheds P log log' := by
  induction rest generalizing s log with
  | nil => exact ⟨log, hs, .refl P log⟩
  | cons path rest ih =>
    obtain ⟨hpath, hrest⟩ := List.forall_mem_cons.mp hopen
    obtain ⟨log₁, hkept₁, hsheds₁, hactive⟩ := hs.retainOne hP hpath cutoff
    obtain ⟨log₂, hkept₂, hsheds₂⟩ := ih hkept₁ (fun p hp => by
      rw [hactive]
      exact hrest p hp)
    rw [Storage.retentionLoop, run_append]
    exact ⟨log₂, hkept₂, hsheds₁.trans hsheds₂⟩

theorem Kept.retentionPass (hP : P.Inverts) (hs : Kept P s log) (hlayout : Layout s)
    (now : Int64) (days : Int) :
    ∃ log', Kept P (s.run (runRetentionPass P s now days)) log' ∧ Sheds P log log' := by
  unfold runRetentionPass
  split
  · exact ⟨log, hs, .refl P log⟩
  · refine hs.retentionLoop hP _ (fun p hp heq => ?_)
    obtain ⟨seg, hseg, hpath⟩ := Option.map_eq_some_iff.mp heq
    exact hlayout.active_open hseg (hpath ▸ hp)

theorem ingest_refused {seg : Segment} {e : LogEntry} (hactive : s.manager.active = some seg)
    (he : ¬ Writable P e) : s.ingest P e = s.run (rotateIfFull P s seg e true) := by
  simp only [Store.ingest, Store.appendWithPath, appendLocked_refused hactive he]

theorem append_paths {e : LogEntry} {seg : Segment} (hactive : s.manager.active = some seg)
    (ok : Bool) : ∀ p ∈ (s.run (appendLocked P s e ok).1).manager.paths,
      p ∈ s.manager.paths ∨ p = segmentName s.manager.nextSeq := by
  have hpaths : ∀ p ∈ (s.run (rotateIfFull P s seg e ok)).manager.paths,
      p ∈ s.manager.paths ∨ p = segmentName s.manager.nextSeq := by
    intro p hp
    rcases (rotateIfFull_opened (P := P) e ok hactive).layout with
      ⟨-, -, heq, -⟩ | ⟨hname, -, heq, -⟩
    · exact .inl (heq ▸ hp)
    · rw [heq, List.mem_append, List.mem_singleton, hname] at hp
      exact hp
  by_cases he : Writable P e
  · intro p hp
    rw [appendLocked_eq hactive he, run_append, (writeSteps_layout _ _ e).1] at hp
    exact hpaths p hp
  · rw [appendLocked_refused hactive he]
    exact hpaths

theorem ingest_paths {e : LogEntry} {seg : Segment} (hactive : s.manager.active = some seg) :
    ∀ p ∈ (s.ingest P e).manager.paths,
      p ∈ s.manager.paths ∨ p = segmentName s.manager.nextSeq := by
  have happend := append_paths (P := P) (e := e) hactive true
  by_cases he : Writable P e
  · rw [ingest_eq hactive he]
    exact happend
  · rw [appendLocked_refused hactive he] at happend
    rw [ingest_refused hactive he]
    exact happend

/-- An ingest adds its entry to the log, where it is accepted. -/
theorem Kept.ingest (hs : Kept P s log) (hlayout : Layout s) {e : LogEntry}
    (hseq : SeqLeft P s e) : Layout (s.ingest P e) ∧ ∃ log', Kept P (s.ingest P e) log' ∧
      ∀ x, (∃ p, x ∈ log' p) ↔ (∃ p, x ∈ log p) ∨ Writable P e ∧ x = e := by
  obtain ⟨seg, hactive, -⟩ := hlayout.active
  have happended := hlayout.append true hseq
  by_cases he : Writable P e
  · obtain ⟨path, hlogged, hindex⟩ := hs.logged.ingest he
    have hlayout' : Layout (s.ingest P e) := by
      rw [ingest_eq hactive he]
      exact ⟨happended.nodup, happended.active, happended.listed, happended.files⟩
    refine ⟨hlayout', _, ⟨hlogged, hlayout'.nodup, ?_⟩, fun x => ?_⟩
    · rw [hindex]
      exact hs.catalogued.add e path
    · rw [mem_addTo, and_iff_right he]
  · have hopened := rotateIfFull_opened (P := P) e true hactive
    rw [appendLocked_refused hactive he] at happended
    rw [ingest_refused hactive he]
    refine ⟨happended, log, ⟨(hopened.logged hs.logged).1, happended.nodup, ?_⟩, fun x => ?_⟩
    · rw [hopened.index]
      exact hs.catalogued
    · simp [he]

/-- A manager opened on a directory that has no other segments than a running node. -/
theorem Layout.mounted {u : Store B} {d : Disk} (h : Layout s)
    (hnamed : ∀ p ∈ s.manager.paths, ∃ k, p = segmentName k) {n : UInt64}
    (hmark : d.marker = some (segmentName n))
    (hfile : (d.files.get (segmentName n)).isSome = true)
    (hsub : ∀ p, IsSeg p → (d.files.get p).isSome = true → p ∈ s.manager.paths)
    {maxSegmentBytes : Int} {bloomEnabled : Bool}
    (hu : newManager B d maxSegmentBytes bloomEnabled = some u) : Layout u := by
  have hmarks : MarksSegment d := by
    intro name hname
    rw [markedSegment_eq hmark hfile] at hname
    exact .inr (Option.some.inj hname ▸ segmentName_isSeg n)
  refine newManager_layout hmarks (fun p hp hsome k hk => ?_) hu
  have hlisted := hsub p hp hsome
  obtain ⟨j, hj⟩ := hnamed p hlisted
  subst hj
  rw [parse_segmentName] at hk
  have hlt := h.listed j hlisted
  rw [UInt64.lt_iff_toNat_lt] at hlt
  have hmax := s.manager.nextSeq.toNat_lt
  have hkj := Option.some.inj hk
  omega

/-- A start on the directory of a running node finds its log again. -/
theorem Kept.restarted (hP : P.Inverts) (hs : Kept P s log) (hlayout : Layout s)
    (hnamed : ∀ p ∈ s.manager.paths, ∃ k, p = segmentName k) {maxSegmentBytes : Int}
    {bloomEnabled : Bool} {t : Store B}
    (ht : start P B s.disk maxSegmentBytes bloomEnabled = some t) :
    Kept P t log ∧ Layout t ∧ ∀ p ∈ t.manager.paths, p ∈ s.manager.paths := by
  obtain ⟨n, size, -, hlast, hmark⟩ := hs.logged.active
  have hfiles : ∀ p, IsSeg p → ((s.disk.files.get p).isSome = true ↔ p ∈ s.manager.paths) := by
    intro p hp
    rw [hs.logged.files p hp]
    split <;> simp [*]
  have hfile := (hfiles _ (segmentName_isSeg n)).mpr (List.mem_of_getLast? hlast)
  obtain ⟨hstarts, hmounted⟩ :=
    start_marked (B := B) (P := P) hmark hfile maxSegmentBytes bloomEnabled
  obtain ⟨⟨hdisk, ⟨size', hactive⟩, hlast', hpaths⟩, live, hrep, hlive⟩ := hmounted t ht
  have hmem : ∀ p, p ∈ t.manager.paths ↔ p ∈ s.manager.paths := by
    intro p
    rw [hpaths]
    constructor
    · intro h
      obtain ⟨hp, hsome⟩ := h
      exact (hfiles p hp).mp hsome
    · intro hp
      exact ⟨hs.logged.segs p hp, (hfiles p (hs.logged.segs p hp)).mpr hp⟩
  have hfits : ∀ p, ∀ e ∈ log p, Fits P e := by
    intro p e he
    have hp := hs.logged.segs p (hs.logged.mem_paths he)
    exact hs.logged.fits_of_decodes hP (fun bs => hstarts.mp ⟨t, ht⟩ p bs hp) e he
  have hentries := (hs.logged.readable hP hfits).2
  obtain ⟨u, hu, hudisk, hman⟩ := start_newManager ht
  have hlayout' : Layout t :=
    (hlayout.mounted hnamed hmark hfile (fun p hp => (hfiles p hp).mp) hu).congr hudisk hman
  refine ⟨⟨⟨?_, ?_, hs.logged.writable, ?_, n, size', hactive, hlast', ?_⟩, hlayout'.nodup,
    live, hrep, ?_⟩, hlayout', fun p hp => (hmem p).mp hp⟩
  · intro p hp
    rw [hdisk, hs.logged.files p hp]
    simp only [hmem]
  · exact fun p hp => hs.logged.unlisted p (fun hin => hp ((hmem p).mpr hin))
  · exact fun p hp => hs.logged.segs p ((hmem p).mp hp)
  · rw [hdisk, hmark]
  · intro p e
    rw [hlive, hdisk]
    constructor
    · intro h
      obtain ⟨hp, he⟩ := h
      exact hentries p hp ▸ he
    · intro he
      have hp := hs.logged.segs p (hs.logged.mem_paths he)
      exact ⟨hp, hentries p hp ▸ he⟩

end Steps

/-- What happens to a running node: ingests, passes, and clean restarts. -/
inductive Action where
  | ingest (e : LogEntry)
  | merge (threshold : Int) (faults : String → MergeFaults)
  | retain (now : Int64) (days : Int)
  | restart (maxSegmentBytes : Int) (bloomEnabled : Bool)

/-- The node afterwards; a restart that fails leaves none. -/
def Action.apply (P : ProtoPackage) (s : Store B) : Action → Option (Store B)
  | .ingest e => some (s.ingest P e)
  | .merge threshold faults => some (s.run (runMergePass P s threshold faults))
  | .retain now days => some (s.run (runRetentionPass P s now days))
  | .restart maxSegmentBytes bloomEnabled => start P B s.disk maxSegmentBytes bloomEnabled

def history (P : ProtoPackage) (s : Store B) : List Action → Option (Store B)
  | [] => some s
  | a :: acts => (a.apply P s).bind (fun t => history P t acts)

/-- The entries that `AppendWithPath` takes: those whose record has a length in 32 bits. -/
def Action.accepted (P : ProtoPackage) : Action → List LogEntry
  | .ingest e => if Writable P e then [e] else []
  | .merge _ _ | .retain _ _ | .restart _ _ => []

/-- A rotation in the action finds a segment number left. -/
def Action.NumberLeft (P : ProtoPackage) (s : Store B) : Action → Prop
  | .ingest e => SeqLeft P s e
  | .merge _ _ | .retain _ _ | .restart _ _ => True

instance (s : Store B) : (a : Action) → Decidable (a.NumberLeft P s)
  | .ingest e => inferInstanceAs (Decidable (SeqLeft P s e))
  | .merge _ _ | .retain _ _ | .restart _ _ => isTrue trivial

def NumbersLeft (P : ProtoPackage) : Store B → List Action → Prop :=
  EachStep (fun s (a : Action) => a.apply P s) (fun s a => a.NumberLeft P s)

instance (s : Store B) (acts : List Action) : Decidable (NumbersLeft P s acts) :=
  EachStep.decidable s acts

/-- A node between two actions, with the entries that it has accepted so far. What it no longer
stores could be read. -/
structure Steady (P : ProtoPackage) (s : Store B) (log : String → List LogEntry)
    (accepted : List LogEntry) : Prop where
  layout : Layout s
  kept : Kept P s log
  named : ∀ p ∈ s.manager.paths, ∃ k, p = segmentName k
  stored : ∀ p, ∀ e ∈ log p, e ∈ accepted
  oversize : ∀ e ∈ accepted, ¬ Fits P e → ∃ p, e ∈ log p

section Runs

variable {accepted : List LogEntry}

theorem Steady.fits_iff (h : Steady P s log accepted) :
    (∀ p, ∀ e ∈ log p, Fits P e) ↔ ∀ e ∈ accepted, Fits P e := by
  constructor
  · intro hlog e he
    by_contra hlarge
    obtain ⟨p, hp⟩ := h.oversize e he hlarge
    exact hlarge (hlog p e hp)
  · exact fun hall p e he => hall e (h.stored p e he)

theorem Steady.mergePass (hP : P.Inverts) (h : Steady P s log accepted) (threshold : Int)
    (faults : String → MergeFaults) :
    ∃ log', Steady P (s.run (runMergePass P s threshold faults)) log' accepted ∧
      sequence (s.run (runMergePass P s threshold faults)) log' = sequence s log := by
  have hcompacts := runMergePass_compacts (P := P) s threshold faults
  obtain ⟨log', hkept, hsame⟩ := h.kept.mergePass hP threshold faults
  have hmem : ∀ e, (∃ p, e ∈ log' p) ↔ ∃ p, e ∈ log p := by
    intro e
    rw [← hkept.mem_sequence, hsame, h.kept.mem_sequence]
  refine ⟨log', ⟨h.layout.compact hcompacts, hkept, ?_, ?_, ?_⟩, hsame⟩
  · exact fun p hp => h.named p (compacts_paths hcompacts s p hp)
  · intro p e he
    obtain ⟨q, hq⟩ := (hmem e).mp ⟨p, he⟩
    exact h.stored q e hq
  · exact fun e he hlarge => (hmem e).mpr (h.oversize e he hlarge)

theorem Steady.action (hP : P.Inverts) (h : Steady P s log accepted) {a : Action} {t : Store B}
    (ht : a.apply P s = some t) (hleft : a.NumberLeft P s) :
    ∃ log', Steady P t log' (accepted ++ a.accepted P) := by
  cases a with
  | ingest e =>
    cases ht
    obtain ⟨hlayout, log', hkept, hmem⟩ := h.kept.ingest h.layout hleft
    obtain ⟨seg, hactive, -⟩ := h.layout.active
    have haccepted : ∀ x, x ∈ accepted ++ (Action.ingest e).accepted P ↔
        x ∈ accepted ∨ Writable P e ∧ x = e := by
      intro x
      rw [List.mem_append, Action.accepted]
      split <;> simp [*]
    refine ⟨log', hlayout, hkept, ?_, ?_, ?_⟩
    · intro p hp
      rcases ingest_paths hactive p hp with hp | hp
      · exact h.named p hp
      · exact ⟨_, hp⟩
    · intro p x hx
      rw [haccepted]
      rcases (hmem x).mp ⟨p, hx⟩ with ⟨q, hq⟩ | hx
      · exact .inl (h.stored q x hq)
      · exact .inr hx
    · intro x hx hlarge
      rw [hmem]
      rcases (haccepted x).mp hx with hx | hx
      · exact .inl (h.oversize x hx hlarge)
      · exact .inr hx
  | merge threshold faults =>
    cases ht
    rw [Action.accepted, List.append_nil]
    obtain ⟨log', hsteady, -⟩ := h.mergePass hP threshold faults
    exact ⟨log', hsteady⟩
  | retain now days =>
    cases ht
    rw [Action.accepted, List.append_nil]
    have hcompacts := runRetentionPass_compacts (P := P) s now days
    obtain ⟨log', hkept, hsheds⟩ := h.kept.retentionPass hP h.layout now days
    refine ⟨log', h.layout.compact hcompacts, hkept, ?_, ?_, ?_⟩
    · exact fun p hp => h.named p (compacts_paths hcompacts s p hp)
    · exact fun p e he => h.stored p e (hsheds.fewer p e he)
    · intro e he hlarge
      obtain ⟨p, hp⟩ := h.oversize e he hlarge
      exact ⟨p, hsheds.oversize p e hp hlarge⟩
  | restart maxSegmentBytes bloomEnabled =>
    rw [Action.accepted, List.append_nil]
    obtain ⟨hkept, hlayout, hpaths⟩ := h.kept.restarted hP h.layout h.named ht
    exact ⟨log, hlayout, hkept, fun p hp => h.named p (hpaths p hp), h.stored, h.oversize⟩

/-- Along every history the node stays steady. -/
theorem Steady.history (hP : P.Inverts) {acts : List Action} {t : Store B}
    (h : Steady P s log accepted) (ht : history P s acts = some t) (hleft : NumbersLeft P s acts) :
    ∃ log', Steady P t log' (accepted ++ acts.flatMap (Action.accepted P)) := by
  induction acts generalizing s log accepted with
  | nil =>
    cases ht
    exact ⟨log, by simpa using h⟩
  | cons a acts ih =>
    obtain ⟨u, hu, ht⟩ := Option.bind_eq_some_iff.mp ht
    obtain ⟨hseq, hrest⟩ := hleft
    obtain ⟨log', hsteady⟩ := h.action hP hu hseq
    rw [List.flatMap_cons, ← List.append_assoc]
    exact ih hsteady ht (hrest u hu)

theorem fresh_steady (P : ProtoPackage) (B : BloomPackage) (maxSegmentBytes : Int)
    (bloomEnabled : Bool) :
    Steady P (fresh B maxSegmentBytes bloomEnabled) (fun _ => []) [] := by
  have hlayout : Layout (fresh B maxSegmentBytes bloomEnabled) := by
    refine newManager_layout ?_ ?_ (newManager_empty B maxSegmentBytes bloomEnabled)
    · intro name hname
      cases hname
    · intro p _ hsome
      cases hsome
  refine ⟨hlayout, ⟨fresh_logged P B maxSegmentBytes bloomEnabled, hlayout.nodup,
    fresh_catalogued B maxSegmentBytes bloomEnabled⟩, ?_, by simp, by simp⟩
  intro p hp
  rw [fresh_paths, List.mem_singleton] at hp
  exact ⟨1, hp⟩

/-- The index resolves as one that is rebuilt from the segments listed. -/
def ResolvesRebuilt (P : ProtoPackage) (s : Store B) : Prop :=
  ∃ idx, Index.new.rebuildFromSegments (readSegment P s.disk) s.manager.paths = .ok idx ∧
    ∀ tokens ns service startTime endTime,
      s.index.resolve tokens ns service startTime endTime =
        idx.resolve tokens ns service startTime endTime

/-- An index can be rebuilt exactly when the log fits, and then it resolves like the one kept. -/
theorem Kept.resolvesRebuilt_iff (hP : P.Inverts) (h : Kept P s log) :
    ResolvesRebuilt P s ↔ ∀ p, ∀ e ∈ log p, Fits P e := by
  constructor
  · intro hgiven p e he
    obtain ⟨idx, hidx, _⟩ := hgiven
    refine h.logged.fits_of_decodes hP (fun bs hbs => ?_) e he
    obtain ⟨es, hes⟩ := rebuild_reads hidx p (h.logged.mem_paths he)
    simp only [readSegment, hbs] at hes
    exact ⟨es, hes⟩
  · intro hfits
    have hread : ∀ p ∈ s.manager.paths, readSegment P s.disk p = .ok (log p) :=
      fun p hp => h.logged.readSegment_eq hP hp (hfits p)
    obtain ⟨idx, hidx, hrep⟩ := Index.new_rep.rebuild s.manager.paths hread
    obtain ⟨live, hlive, hmem⟩ := h.catalogued
    refine ⟨idx, hidx, fun tokens ns service startTime endTime => ?_⟩
    refine hlive.resolve_congr hrep (fun p e => ?_) tokens ns service startTime endTime
    rw [hmem, List.nil_append, List.mem_flatMap]
    simp only [List.mem_map, Prod.mk.injEq]
    constructor
    · intro he
      exact ⟨p, h.logged.mem_paths he, e, he, rfl, rfl⟩
    · intro hgiven
      obtain ⟨q, _, x, hx, hq, hxe⟩ := hgiven
      exact hq ▸ hxe ▸ hx

theorem Kept.readAll_eq (hP : P.Inverts) (h : Kept P s log)
    (hfits : ∀ p, ∀ e ∈ log p, Fits P e) : s.readAll P = .ok (sequence s log) :=
  h.logged.readAll_eq hP hfits

end Runs

/-- After a merge pass, whatever fails in it, the store reads as before and its index resolves as a
rebuilt one, exactly when every entry that the node ever accepted can be read back. -/
theorem merge_preserves_iff (hP : P.Inverts) {maxSegmentBytes : Int} {bloomEnabled : Bool}
    {acts : List Action} (hs : history P (fresh B maxSegmentBytes bloomEnabled) acts = some s)
    (hleft : NumbersLeft P (fresh B maxSegmentBytes bloomEnabled) acts) (threshold : Int)
    (faults : String → MergeFaults) :
    ((s.run (runMergePass P s threshold faults)).readAll P = s.readAll P ∧
      ResolvesRebuilt P (s.run (runMergePass P s threshold faults))) ↔
    ∀ e ∈ acts.flatMap (Action.accepted P), Fits P e := by
  obtain ⟨log, hsteady⟩ :=
    (fresh_steady P B maxSegmentBytes bloomEnabled).history hP hs hleft
  rw [List.nil_append] at hsteady
  obtain ⟨log', hsteady', hsame⟩ := hsteady.mergePass hP threshold faults
  rw [hsteady'.kept.resolvesRebuilt_iff hP, hsteady'.fits_iff, and_iff_right_iff_imp]
  intro hfits
  rw [hsteady'.kept.readAll_eq hP (hsteady'.fits_iff.mpr hfits),
    hsteady.kept.readAll_eq hP (hsteady.fits_iff.mpr hfits), hsame]

/-- Four entries in four segments, a merge whose rename fails, a restart and one more entry. -/
def busyHistory : List Action :=
  [.ingest (line "a" "" "orders" "disk full" 1), .ingest (line "b" "" "orders" "link down" 2),
    .ingest (line "c" "" "orders" "disk full" 3), .ingest (line "d" "" "orders" "link up" 4),
    .merge 1000 (fun _ => { rename := true }), .restart 40 false,
    .ingest (line "e" "" "orders" "disk full" 5)]

theorem merge_preserves_busy :
    ∃ s : Store exactFilter, history protobuf (fresh exactFilter 40 true) busyHistory = some s ∧
      (s.run (runMergePass protobuf s 1000 noFaults)).readAll protobuf = s.readAll protobuf ∧
      ResolvesRebuilt protobuf (s.run (runMergePass protobuf s 1000 noFaults)) := by
  have hsome : (history protobuf (fresh exactFilter 40 true) busyHistory).isSome = true := by
    decide +kernel
  obtain ⟨s, hs⟩ := Option.isSome_iff_exists.mp hsome
  refine ⟨s, hs, (merge_preserves_iff protobuf_inverts hs ?_ 1000 noFaults).mpr ?_⟩
  · decide +kernel
  · decide +kernel

/-- A line that is accepted but too long to be read back: no index can be rebuilt. -/
theorem merge_no_rebuild :
    ∃ s : Store exactFilter,
      history protobuf (fresh exactFilter 1000 false) [.ingest longLine] = some s ∧
      Writable protobuf longLine ∧
      ¬ ResolvesRebuilt protobuf (s.run (runMergePass protobuf s 1000 noFaults)) := by
  obtain ⟨hwritable, hlarge⟩ := longLine_size
  refine ⟨_, rfl, hwritable, fun hrebuilt => hlarge ?_⟩
  have hleft : NumbersLeft protobuf (fresh exactFilter 1000 false) [.ingest longLine] :=
    ⟨fun _ _ _ => by decide +kernel, fun _ _ => trivial⟩
  obtain ⟨log, hsteady⟩ :=
    (fresh_steady protobuf exactFilter 1000 false).history protobuf_inverts rfl hleft
  obtain ⟨log', hsteady', -⟩ := hsteady.mergePass protobuf_inverts 1000 noFaults
  have hfits :=
    hsteady'.fits_iff.mp ((hsteady'.kept.resolvesRebuilt_iff protobuf_inverts).mp hrebuilt)
  refine hfits longLine ?_
  simp only [List.nil_append, List.flatMap_cons, List.flatMap_nil, Action.accepted,
    if_pos hwritable, List.append_nil, List.mem_singleton]

end LogEngine.Storage
