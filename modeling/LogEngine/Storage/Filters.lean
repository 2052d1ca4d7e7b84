import LogEngine.Storage.Covers
import LogEngine.Storage.Layout

namespace LogEngine.Storage
open Lib

variable {B : BloomPackage} {P : ProtoPackage} {a : String}

/-- The sidecar of a segment, if it can be read, covers what the segment's file holds. -/
def Covered (B : BloomPackage) (P : ProtoPackage) (d : Disk) (p : String) : Prop :=
  ∀ bf, readBloom B d p = some bf → Covers bf (entriesAt P d p)

instance (d : Disk) (p : String) : Decidable (Covered B P d p) :=
  inferInstanceAs (Decidable (∀ bf ∈ readBloom B d p, Covers bf (entriesAt P d p)))

/-- Every filter in memory and every sidecar covers its segment, up to the sidecar of the
active segment `a`, which has no filter in memory. -/
structure Filters (P : ProtoPackage) (a : String) (s : Store B) : Prop where
  memory : ∀ p bf, s.manager.blooms.get p = some bf →
    IsSeg p ∧ Covers bf (entriesAt P s.disk p)
  listed : ∀ p bf, s.manager.blooms.get p = some bf → p ∈ s.manager.paths
  enabled : ∀ p bf, s.manager.blooms.get p = some bf → s.manager.bloomEnabled = true
  idle : s.manager.blooms.get a = none
  sidecars : ∀ p, IsSeg p → p ≠ a → Covered B P s.disk p

theorem covers_nil (bf : B.Filter) : Covers bf [] := by
  intro tok htok
  cases htok

theorem Covers.subset {bf : B.Filter} {es es' : List LogEntry} (h : Covers bf es)
    (hsub : ∀ e ∈ es', e ∈ es) : Covers bf es' := by
  intro tok htok
  obtain ⟨e, he, hin⟩ := List.mem_flatMap.mp htok
  exact h tok (List.mem_flatMap.mpr ⟨e, hsub e he, hin⟩)

theorem covered_of_missing {d : Disk} {p : String} (h : d.files.get p = none) :
    Covered B P d p := by
  intro bf _
  rw [entriesAt_none h]
  exact covers_nil bf

theorem Covered.congr {d d' : Disk} {p : String} (h : Covered B P d p)
    (hp : d'.files.get p = d.files.get p)
    (hb : d'.files.get (bloomPath p) = d.files.get (bloomPath p)) : Covered B P d' p := by
  intro bf hbf
  rw [readBloom, hb] at hbf
  rw [entriesAt_congr hp]
  exact h bf hbf

/-- The filters depend only on the manager, the segments and their sidecars. -/
theorem Filters.congr {s t : Store B} (hs : Filters P a s) (hman : t.manager = s.manager)
    (hget : ∀ p, IsSeg p → t.disk.files.get p = s.disk.files.get p ∧
      t.disk.files.get (bloomPath p) = s.disk.files.get (bloomPath p)) : Filters P a t := by
  refine ⟨?_, hman ▸ hs.listed, hman ▸ hs.enabled, hman ▸ hs.idle, ?_⟩
  · intro p bf hbf
    rw [hman] at hbf
    obtain ⟨hseg, hcovers⟩ := hs.memory p bf hbf
    exact ⟨hseg, by rwa [entriesAt_congr (hget p hseg).1]⟩
  · intro p hseg hne
    exact (hs.sidecars p hseg hne).congr (hget p hseg).1 (hget p hseg).2

/-- A change to one segment's file or sidecar: only its own filters need a look. -/
theorem Filters.change {s t : Store B} {q : String} (hs : Filters P a s)
    (hman : t.manager = s.manager)
    (hget : ∀ p, IsSeg p → p ≠ q → t.disk.files.get p = s.disk.files.get p ∧
      t.disk.files.get (bloomPath p) = s.disk.files.get (bloomPath p))
    (hmemory : ∀ bf, s.manager.blooms.get q = some bf → Covers bf (entriesAt P t.disk q))
    (hsidecar : q ≠ a → Covered B P t.disk q) : Filters P a t := by
  refine ⟨?_, hman ▸ hs.listed, hman ▸ hs.enabled, hman ▸ hs.idle, ?_⟩
  · intro p bf hbf
    rw [hman] at hbf
    obtain ⟨hseg, hcovers⟩ := hs.memory p bf hbf
    refine ⟨hseg, ?_⟩
    by_cases hpq : p = q
    · exact hpq ▸ hmemory bf (hpq ▸ hbf)
    · rwa [entriesAt_congr (hget p hseg hpq).1]
  · intro p hseg hne
    by_cases hpq : p = q
    · exact hpq ▸ hsidecar (hpq ▸ hne)
    · exact (hs.sidecars p hseg hne).congr (hget p hseg hpq).1 (hget p hseg hpq).2

/-- A temp file is renamed over its segment only when the segment's filters cover the new
content. -/
def MergeSafe (P : ProtoPackage) (s : Store B) : Step B → Prop
  | .rename old new => IsSeg new → ∀ bf,
      (s.manager.blooms.get new = some bf ∨ readBloom B s.disk new = some bf) →
        Covers bf (entriesAt P s.disk old)
  | _ => True

instance (s : Store B) : (st : Step B) → Decidable (MergeSafe P s st)
  | .rename old new =>
    decidable_of_iff (IsSeg new →
        (∀ bf ∈ s.manager.blooms.get new, Covers bf (entriesAt P s.disk old)) ∧
        ∀ bf ∈ readBloom B s.disk new, Covers bf (entriesAt P s.disk old))
      (by simp only [MergeSafe, or_imp, forall_and, Option.mem_def])
  | .create _ | .truncate _ | .append _ _ | .remove _ | .mark _ | .openActive _ => isTrue trivial
  | .grow _ | .setBloom _ _ | .loadSegment _ | .finishMerge _ _ | .deleteSegment _ => isTrue trivial
  | .indexAdd _ _ | .indexRemove _ => isTrue trivial

/-- What a merge sees to itself: the sidecar it renames covers the segment, and the segment it
finishes with stays listed. -/
def Built (P : ProtoPackage) (s : Store B) : Step B → Prop
  | .rename old new => ∀ q, IsSeg q → new = bloomPath q → ∀ bf,
      (s.disk.files.get old).bind B.readFrom = some bf → Covers bf (entriesAt P s.disk q)
  | .finishMerge newPath olds => newPath ∈ s.manager.paths ∧ newPath ∉ olds
  | _ => True

theorem entriesAt_some_eq {d d' : Disk} {p q : String} {bs : Bytes}
    (hp : d.files.get p = some bs) (hq : d'.files.get q = some bs) :
    entriesAt P d' q = entriesAt P d p := by
  simp only [entriesAt, readSegment, hp, hq]

theorem Filters.rename_segment {s : Store B} {q : String} (hs : Filters P a s) (hq : IsSeg q)
    (hsafe : MergeSafe P s (.rename (tmpPath q) q)) :
    Filters P a (Step.apply s (.rename (tmpPath q) q)) := by
  cases htmp : s.disk.files.get (tmpPath q) with
  | none => rwa [rename_missing htmp]
  | some bs =>
    have hget := @get_rename B s (tmpPath q) q bs htmp
    have hentries : entriesAt P (Step.apply s (.rename (tmpPath q) q)).disk q =
        entriesAt P s.disk (tmpPath q) :=
      entriesAt_some_eq htmp ((hget q).trans (if_pos rfl))
    have hbloom : ∀ p, IsSeg p →
        (Step.apply s (.rename (tmpPath q) q)).disk.files.get (bloomPath p) =
          s.disk.files.get (bloomPath p) := by
      intro p hp
      have hne : bloomPath p ≠ q := fun h => bloomPath_not_seg p (h ▸ hq)
      rw [hget, if_neg hne, if_neg (tmpPath_touch hp (.inl rfl)).2]
    refine hs.change (q := q) rfl ?_ ?_ ?_
    · intro p hp hne
      refine ⟨?_, hbloom p hp⟩
      rw [hget, if_neg hne, if_neg (tmpPath_touch hp (.inl rfl)).1]
    · intro bf hbf
      rw [hentries]
      exact hsafe hq bf (.inl hbf)
    · intro _ bf hbf
      rw [hentries]
      rw [readBloom, hbloom q hq] at hbf
      exact hsafe hq bf (.inr hbf)

theorem Filters.rename_sidecar {s : Store B} {q : String} (hs : Filters P a s) (hq : IsSeg q)
    (hbuilt : q ≠ a → Built P s (.rename (tmpPath (bloomPath q)) (bloomPath q))) :
    Filters P a (Step.apply s (.rename (tmpPath (bloomPath q)) (bloomPath q))) := by
  cases htmp : s.disk.files.get (tmpPath (bloomPath q)) with
  | none => rwa [rename_missing htmp]
  | some bs =>
    have hget := @get_rename B s (tmpPath (bloomPath q)) (bloomPath q) bs htmp
    have hsegs : ∀ p, IsSeg p →
        (Step.apply s (.rename (tmpPath (bloomPath q)) (bloomPath q))).disk.files.get p =
          s.disk.files.get p := by
      intro p hp
      have hne : p ≠ bloomPath q := fun h => bloomPath_not_seg q (h ▸ hp)
      rw [hget, if_neg hne, if_neg (tmpPath_touch hp (.inr rfl)).1]
    refine hs.change (q := q) rfl ?_ ?_ ?_
    · intro p hp hne
      refine ⟨hsegs p hp, ?_⟩
      have hinj : bloomPath p ≠ bloomPath q := fun h => hne (bloomPath_inj hp hq h)
      rw [hget, if_neg hinj, if_neg (tmpPath_touch hp (.inr rfl)).2]
    · intro bf hbf
      rw [entriesAt_congr (hsegs q hq)]
      exact (hs.memory q bf hbf).2
    · intro hne bf hbf
      rw [readBloom, hget, if_pos rfl] at hbf
      rw [entriesAt_congr (hsegs q hq)]
      exact hbuilt hne q hq rfl bf (by rw [htmp]; exact hbf)

theorem Filters.remove {s : Store B} {q p : String} (hs : Filters P a s) (hq : IsSeg q)
    (hp : p = q ∨ p = bloomPath q ∨ p = tmpPath q ∨ p = tmpPath (bloomPath q)) :
    Filters P a (Step.apply s (.remove p)) := by
  have hget := get_remove s p
  rcases hp with hp | hp | hp
  · subst hp
    have hgone := (hget p).trans (if_pos rfl)
    refine hs.change (q := p) rfl ?_ ?_ (fun _ => covered_of_missing hgone)
    · intro r hr hne
      have hne' : bloomPath r ≠ p := fun h => bloomPath_not_seg r (h ▸ hq)
      rw [hget, hget, if_neg hne, if_neg hne']
      exact ⟨rfl, rfl⟩
    · intro bf _
      rw [entriesAt_none hgone]
      exact covers_nil bf
  · subst hp
    have hseg : ∀ r, IsSeg r → r ≠ bloomPath q := fun r hr h => bloomPath_not_seg q (h ▸ hr)
    refine hs.change (q := q) rfl ?_ ?_ ?_
    · intro r hr hne
      have hne' : bloomPath r ≠ bloomPath q := fun h => hne (bloomPath_inj hr hq h)
      rw [hget, hget, if_neg (hseg r hr), if_neg hne']
      exact ⟨rfl, rfl⟩
    · intro bf hbf
      rw [entriesAt_congr ((hget q).trans (if_neg (hseg q hq)))]
      exact (hs.memory q bf hbf).2
    · intro _ bf hbf
      rw [readBloom, hget, if_pos rfl] at hbf
      cases hbf
  · refine hs.congr rfl (fun r hr => ?_)
    obtain ⟨hne, hne'⟩ := tmpPath_touch hr hp
    rw [hget, hget, if_neg hne, if_neg hne']
    exact ⟨rfl, rfl⟩

theorem foldl_delete_get {β : Type} (olds : List String) (m : GoMap String β) (p : String) :
    (olds.foldl GoMap.delete m).get p = if p ∈ olds then none else m.get p := by
  induction olds generalizing m with
  | nil => simp
  | cons old olds ih =>
    rw [List.foldl_cons, ih, GoMap.get_delete]
    by_cases hp : p ∈ olds
    · simp [hp]
    · by_cases heq : p = old <;> simp [hp, heq]

/-- The filters in memory after the last section of a merge. -/
theorem finishMerge_blooms {s : Store B} {newPath : String} {olds : List String} {p : String}
    {bf : B.Filter} (h : (s.finishMerge newPath olds).manager.blooms.get p = some bf) :
    s.manager.bloomEnabled = false ∧ s.manager.blooms.get p = some bf ∨
    s.manager.bloomEnabled = true ∧ p = newPath ∧ readBloom B s.disk newPath = some bf ∨
    p ∉ olds ∧ s.manager.blooms.get p = some bf := by
  simp only [Store.finishMerge] at h
  split at h
  · rename_i hon
    simp only [Manager.loadBloom] at h
    have hdelete := GoMap.get_delete (olds.foldl GoMap.delete s.manager.blooms) newPath p
    rw [foldl_delete_get] at hdelete
    split at h
    · rename_i bf' hbf'
      rw [GoMap.get_set] at h
      split at h
      · rename_i heq
        exact .inr (.inl ⟨hon, heq, hbf'.trans h⟩)
      · rename_i hne
        rw [hdelete, if_neg hne] at h
        split at h
        · cases h
        · exact .inr (.inr ⟨‹_›, h⟩)
    · rw [hdelete] at h
      split at h
      · cases h
      · split at h
        · cases h
        · exact .inr (.inr ⟨‹_›, h⟩)
  · rename_i hoff
    exact .inl ⟨by simpa using hoff, h⟩

theorem finishMerge_enabled (s : Store B) (newPath : String) (olds : List String) :
    (s.finishMerge newPath olds).manager.bloomEnabled = s.manager.bloomEnabled := by
  simp only [Store.finishMerge]
  split
  · exact (loadBloom_layout _ _ _).bloomEnabled
  · rfl

theorem Filters.finish {s : Store B} {newPath : String} {olds : List String}
    (hs : Filters P a s) (hseg : IsSeg newPath) (hne : newPath ≠ a)
    (hbuilt : Built P s (.finishMerge newPath olds)) :
    Filters P a (s.finishMerge newPath olds) := by
  obtain ⟨hdisk, hpaths, -, -⟩ := finishMerge_layout s newPath olds
  have hcases : ∀ p bf, (s.finishMerge newPath olds).manager.blooms.get p = some bf →
      s.manager.bloomEnabled = true ∧ p = newPath ∧ readBloom B s.disk newPath = some bf ∨
        p ∉ olds ∧ s.manager.blooms.get p = some bf := by
    intro p bf hbf
    rcases finishMerge_blooms hbf with ⟨hoff, hold⟩ | hor
    · rw [hs.enabled p bf hold] at hoff
      cases hoff
    · exact hor
  refine ⟨?_, ?_, ?_, ?_, ?_⟩
  · intro p bf hbf
    rw [hdisk]
    rcases hcases p bf hbf with ⟨-, heq, hread⟩ | ⟨-, hold⟩
    · exact heq ▸ ⟨hseg, hs.sidecars newPath hseg hne bf hread⟩
    · exact hs.memory p bf hold
  · intro p bf hbf
    rw [hpaths, List.mem_filter, decide_eq_true_eq]
    rcases hcases p bf hbf with ⟨-, heq, -⟩ | ⟨hnot, hold⟩
    · exact heq ▸ hbuilt
    · exact ⟨hs.listed p bf hold, hnot⟩
  · intro p bf hbf
    rw [finishMerge_enabled]
    rcases hcases p bf hbf with ⟨hon, -⟩ | ⟨-, hold⟩
    · exact hon
    · exact hs.enabled p bf hold
  · rw [Option.eq_none_iff_forall_ne_some]
    intro bf hbf
    rcases hcases a bf hbf with ⟨-, heq, -⟩ | ⟨-, hold⟩
    · exact hne heq.symm
    · rw [hs.idle] at hold
      cases hold
  · rw [hdisk]
    exact hs.sidecars

theorem Filters.deleteSegment {s : Store B} (hs : Filters P a s) (q : String) :
    Filters P a (Step.apply s (.deleteSegment q)) := by
  have hcases : ∀ p bf, (Step.apply s (.deleteSegment q)).manager.blooms.get p = some bf →
      p ≠ q ∧ s.manager.blooms.get p = some bf := by
    intro p bf hbf
    simp only [Step.apply, Manager.deleteSegment, GoMap.get_delete] at hbf
    split at hbf
    · cases hbf
    · exact ⟨‹_›, hbf⟩
  refine ⟨fun p bf hbf => hs.memory p bf (hcases p bf hbf).2, ?_,
    fun p bf hbf => hs.enabled p bf (hcases p bf hbf).2, ?_, hs.sidecars⟩
  · intro p bf hbf
    obtain ⟨hne, hold⟩ := hcases p bf hbf
    simp only [Step.apply, Manager.deleteSegment, List.mem_filter, decide_eq_true_eq]
    exact ⟨hs.listed p bf hold, hne⟩
  · rw [Option.eq_none_iff_forall_ne_some]
    intro bf hbf
    have hold := (hcases a bf hbf).2
    rw [hs.idle] at hold
    cases hold

/-- One step of a pass keeps the filters right, as long as what it renames is covered. -/
theorem Filters.compact_step {s : Store B} {st : Step B} {closed : List String}
    (hs : Filters P a s) (hopen : a ∉ closed) (hseg : ∀ q ∈ closed, IsSeg q)
    (hst : st.Compacts closed) (hbuilt : Built P s st) (hsafe : MergeSafe P s st) :
    Filters P a (Step.apply s st) := by
  cases st with
  | create p | truncate p | append p bs =>
    obtain ⟨q, -, hp⟩ := hst
    refine hs.congr rfl (fun r hr => ?_)
    obtain ⟨hne, hne'⟩ := tmpPath_touch hr hp
    exact ⟨get_apply s (by simpa [Step.touches] using hne),
      get_apply s (by simpa [Step.touches] using hne')⟩
  | rename old new =>
    obtain ⟨q, hq, hor⟩ := hst
    rcases hor with ⟨hold, hnew⟩ | ⟨hold, hnew⟩
    · subst hold
      subst hnew
      exact hs.rename_segment (hseg _ hq) hsafe
    · subst hold
      subst hnew
      exact hs.rename_sidecar (hseg q hq) (fun _ => hbuilt)
  | remove p =>
    obtain ⟨q, hq, hp⟩ := hst
    exact hs.remove (hseg q hq) hp
  | finishMerge newPath olds =>
    exact hs.finish (hseg newPath hst.1) (fun h => hopen (h ▸ hst.1)) hbuilt
  | deleteSegment q => exact hs.deleteSegment q
  | indexAdd e p | indexRemove p =>
    exact hs.congr (manager_apply s rfl) (fun r _ =>
      ⟨get_apply s (by simp [Step.touches]), get_apply s (by simp [Step.touches])⟩)
  | mark | openActive | grow | setBloom | loadSegment => exact hst.elim

end LogEngine.Storage
