import LogEngine.Storage.MergeTrace

namespace LogEngine.Storage
open Lib

variable {B : BloomPackage} {P : ProtoPackage} {a : String}

/-- A segment name whose number is not the last. -/
def Numbered (p : String) : Prop := ∃ k : UInt64, p = segmentName k ∧ k.toNat + 1 < 2 ^ 64

theorem Numbered.seg {p : String} (h : Numbered p) : IsSeg p := by
  obtain ⟨k, hk, -⟩ := h
  exact hk ▸ segmentName_isSeg k

/-- A directory that any start finds in order: numbered segments, a marker that is missing,
blank or names one of them, and sidecars that cover all segments but the one that the
start will take for active. -/
structure Dormant (B : BloomPackage) (P : ProtoPackage) (d : Disk) : Prop where
  names : ∀ p, IsSeg p → (d.files.get p).isSome = true → Numbered p
  marker : d.marker = none ∨ d.marker = some "" ∨
    ∃ p, d.marker = some p ∧ Numbered p ∧ (d.files.get p).isSome = true
  covered : ∀ p, IsSeg p → activeOf d ≠ some p → Covered B P d p

/-- A running store whose active segment is `a`, at any point of an operation that leaves it
active. -/
structure Held (P : ProtoPackage) (a : String) (s : Store B) : Prop where
  filters : Filters P a s
  names : ∀ p, IsSeg p → (s.disk.files.get p).isSome = true → Numbered p
  here : (s.disk.files.get a).isSome = true
  seg : IsSeg a
  marker : s.disk.marker = some a ∨
    s.disk.marker = none ∧ ∀ p, IsSeg p → (s.disk.files.get p).isSome = true → p ≤ a

/-- A running store that has written the sidecar of its active segment and is about to open
another one. -/
structure Sealed (P : ProtoPackage) (s : Store B) : Prop where
  memory : ∀ p bf, s.manager.blooms.get p = some bf → Covers bf (entriesAt P s.disk p)
  sidecars : ∀ p, IsSeg p → Covered B P s.disk p
  names : ∀ p, IsSeg p → (s.disk.files.get p).isSome = true → Numbered p
  marker : s.disk.marker = none ∨ s.disk.marker = some "" ∨
    ∃ p, s.disk.marker = some p ∧ Numbered p ∧ (s.disk.files.get p).isSome = true

theorem Sealed.dormant {s : Store B} (h : Sealed P s) : Dormant B P s.disk :=
  ⟨h.names, h.marker, fun p hp _ => h.sidecars p hp⟩

theorem markedSegment_named {d : Disk} {p : String} (hp : Numbered p) (hmark : d.marker = some p)
    (hfile : (d.files.get p).isSome = true) : markedSegment d = some p := by
  obtain ⟨k, hk, -⟩ := hp
  subst hk
  exact markedSegment_eq hmark hfile

theorem markedSegment_none {d : Disk} (h : d.marker = none) : markedSegment d = none := by
  simp [markedSegment, h]

theorem getLast?_sorted {l : List String} (hl : l.Pairwise (· ≤ ·)) {m : String}
    (hm : m ∈ l) (hmax : ∀ p ∈ l, p ≤ m) : l.getLast? = some m := by
  rcases List.eq_nil_or_concat' l with hnil | ⟨front, last, hcat⟩
  · rw [hnil] at hm
    cases hm
  · have hlast : last ∈ l := by simp [hcat]
    have hle : m ≤ last := by
      rw [hcat] at hm hl
      rcases List.mem_append.mp hm with hm | hm
      · exact (List.pairwise_append.mp hl).2.2 m hm last (List.mem_singleton_self _)
      · exact le_of_eq (List.mem_singleton.mp hm)
    rw [hcat, List.getLast?_concat, le_antisymm (hmax last hlast) hle]

/-- A start on the directory of a running store takes the same segment for active. -/
theorem Held.activeOf {s : Store B} (h : Held P a s) : activeOf s.disk = some a := by
  unfold Storage.activeOf
  rcases h.marker with hmark | ⟨hnone, hmax⟩
  · rw [markedSegment_named (h.names a h.seg h.here) hmark h.here, Option.some_or]
  · rw [markedSegment_none hnone, Option.none_or]
    exact getLast?_sorted (matchedSegments_sorted s.disk) (mem_matchedSegments.mpr ⟨h.seg, h.here⟩)
      (fun p hp => hmax p (mem_matchedSegments.mp hp).1 (mem_matchedSegments.mp hp).2)

theorem Held.dormant {s : Store B} (h : Held P a s) : Dormant B P s.disk := by
  refine ⟨h.names, ?_, ?_⟩
  · rcases h.marker with hmark | ⟨hnone, -⟩
    · exact .inr (.inr ⟨a, hmark, h.names a h.seg h.here, h.here⟩)
    · exact .inl hnone
  · intro p hp hne
    rw [h.activeOf] at hne
    exact h.filters.sidecars p hp (fun heq => hne (congrArg some heq.symm))

theorem Held.congr {s t : Store B} (h : Held P a s) (hman : t.manager = s.manager)
    (hget : ∀ p, IsSeg p → t.disk.files.get p = s.disk.files.get p ∧
      t.disk.files.get (bloomPath p) = s.disk.files.get (bloomPath p))
    (hmark : t.disk.marker = s.disk.marker) : Held P a t := by
  refine ⟨h.filters.congr hman hget, ?_, ?_, h.seg, ?_⟩
  · intro p hp hsome
    exact h.names p hp ((hget p hp).1 ▸ hsome)
  · rw [(hget a h.seg).1]
    exact h.here
  · rw [hmark]
    refine h.marker.imp_right (And.imp_right (fun hmax p hp hsome => ?_))
    exact hmax p hp ((hget p hp).1 ▸ hsome)

theorem marker_apply {st : Step B} (s : Store B) (h : ∀ text, st ≠ .mark text) :
    (Step.apply s st).disk.marker = s.disk.marker := by
  cases st with
  | mark text => exact absurd rfl (h text)
  | rename old new =>
    simp only [Step.apply, Disk.rename]
    split <;> rfl
  | finishMerge newPath olds => rw [Step.apply, (finishMerge_layout s newPath olds).1]
  | _ => simp only [Step.apply, Store.openActive, Disk.create, Disk.append, Disk.write, Disk.remove]

/-- One step of a pass keeps the store held. -/
theorem Held.compact_step {s : Store B} {st : Step B} {closed : List String} (hs : Held P a s)
    (hopen : a ∉ closed) (hnames : ∀ q ∈ closed, Numbered q)
    (hmax : s.disk.marker = none → ∀ q ∈ closed, q ≤ a) (hst : st.Compacts closed)
    (hbuilt : Built P s st) (hsafe : MergeSafe P s st) : Held P a (Step.apply s st) := by
  have hmark : (Step.apply s st).disk.marker = s.disk.marker := by
    apply marker_apply
    intro text heq
    subst heq
    exact hst
  refine ⟨hs.filters.compact_step hopen (fun q hq => (hnames q hq).seg) hst hbuilt hsafe, ?_, ?_,
    hs.seg, ?_⟩
  · intro p hp hsome
    rcases compacts_isSome hst hp hsome with hsome | hin
    · exact hs.names p hp hsome
    · exact hnames p hin
  · rw [get_apply s (compacts_untouched hst hs.seg hopen)]
    exact hs.here
  · rw [hmark]
    refine hs.marker.imp_right (fun hmarker => ⟨hmarker.1, fun p hp hsome => ?_⟩)
    rcases compacts_isSome hst hp hsome with hsome | hin
    · exact hmarker.2 p hp hsome
    · exact hmax hmarker.1 p hin

theorem Held.compact {s : Store B} {steps : List (Step B)} {closed : List String}
    (hs : Held P a s) (hopen : a ∉ closed) (hnames : ∀ q ∈ closed, Numbered q)
    (hmax : s.disk.marker = none → ∀ q ∈ closed, q ≤ a)
    (hsteps : ∀ st ∈ steps, Step.Compacts closed st) (hbuilt : Along (Built P) s steps)
    (hsafe : Along (MergeSafe P) s steps) :
    Held P a (s.run steps) ∧ (s.run steps).disk.marker = s.disk.marker := by
  have hcompacts : Along (fun (_ : Store B) st => Step.Compacts closed st) s steps :=
    .of_forall (fun _ st hst => hsteps st hst)
  refine Along.preserves (I := fun t => Held P a t ∧ t.disk.marker = s.disk.marker) ?_
    ⟨hs, rfl⟩ (hcompacts.and (hbuilt.and hsafe))
  intro t st hkept hnext
  obtain ⟨ht, hmark⟩ := hkept
  obtain ⟨hst, hb, hm⟩ := hnext
  refine ⟨ht.compact_step hopen hnames (fun h => hmax (hmark ▸ h)) hst hb hm, ?_⟩
  rw [← hmark]
  apply marker_apply
  intro text heq
  subst heq
  exact hst

/-- Writing to the active segment keeps the store held. -/
theorem Held.write {s : Store B} (hs : Held P a s) (bs : Bytes) :
    Held P a (Step.apply s (.append a bs)) := by
  have hget : ∀ q, q ≠ a → (Step.apply s (.append a bs)).disk.files.get q = s.disk.files.get q :=
    fun q hq => get_apply s (by simpa [Step.touches] using hq)
  have hbloom : ∀ p, bloomPath p ≠ a := fun p h => bloomPath_not_seg p (h ▸ hs.seg)
  have hsome : ∀ p, ((Step.apply s (.append a bs)).disk.files.get p).isSome = true →
      (s.disk.files.get p).isSome = true := by
    intro p hp
    by_cases hpa : p = a
    · exact hpa ▸ hs.here
    · rwa [hget p hpa] at hp
  refine ⟨hs.filters.change (q := a) rfl ?_ ?_ (fun h => absurd rfl h),
    fun p hp h => hs.names p hp (hsome p h), ?_, hs.seg, ?_⟩
  · intro p hp hne
    exact ⟨hget p hne, hget _ (hbloom p)⟩
  · intro bf hbf
    rw [hs.filters.idle] at hbf
    cases hbf
  · simp [Step.apply, Disk.append]
  · exact hs.marker.imp_right (And.imp_right (fun hle p hp h => hle p hp (hsome p h)))

theorem Held.grow {s : Store B} (hs : Held P a s) (n : Nat) :
    Held P a (Step.apply s (.grow n)) :=
  ⟨⟨hs.filters.memory, hs.filters.listed, hs.filters.enabled, hs.filters.idle,
    hs.filters.sidecars⟩, hs.names, hs.here, hs.seg, hs.marker⟩

/-- The sidecar of the active segment may be anything. -/
theorem Held.sidecar {s : Store B} {bf : B.Filter} {ok : Bool} {st : Step B} (hs : Held P a s)
    (hst : st ∈ writeBloom a bf ok) : Held P a (Step.apply s st) := by
  have htmp : ∀ {st : Step B}, st.touches = [tmpPath (bloomPath a)] → st.keepsManager = true →
      (∀ text, st ≠ .mark text) → Held P a (Step.apply s st) := by
    intro st htouch hkeeps hmark
    refine hs.congr (manager_apply s hkeeps) (fun p hp => ?_) (marker_apply s hmark)
    obtain ⟨hne, hne'⟩ := tmpPath_touch hp (.inr rfl : tmpPath (bloomPath a) = tmpPath a ∨ _)
    exact ⟨get_apply s (by simpa [htouch] using hne), get_apply s (by simpa [htouch] using hne')⟩
  unfold writeBloom at hst
  split at hst <;> simp only [List.mem_cons, List.not_mem_nil, or_false] at hst
  · rcases hst with rfl | rfl | rfl
    · exact htmp rfl rfl (by simp)
    · exact htmp rfl rfl (by simp)
    · have hsegs : ∀ p, IsSeg p → (Step.apply s (.rename (tmpPath (bloomPath a))
          (bloomPath a))).disk.files.get p = s.disk.files.get p := by
        intro p hp
        have hne := (tmpPath_touch hp (.inr rfl : tmpPath (bloomPath a) = tmpPath a ∨ _)).1
        have hne' : p ≠ bloomPath a := fun h => bloomPath_not_seg a (h ▸ hp)
        exact get_apply s (by simp [Step.touches, hne, hne'])
      refine ⟨hs.filters.rename_sidecar hs.seg (fun h => absurd rfl h), ?_, ?_, hs.seg, ?_⟩
      · intro p hp hsome
        exact hs.names p hp (hsegs p hp ▸ hsome)
      · rw [hsegs a hs.seg]
        exact hs.here
      · rw [marker_apply s (by simp)]
        refine hs.marker.imp_right (And.imp_right (fun hle p hp hsome => ?_))
        exact hle p hp (hsegs p hp ▸ hsome)
  · rcases hst with rfl | rfl
    · exact htmp rfl rfl (by simp)
    · exact htmp rfl rfl (by simp)

end LogEngine.Storage
