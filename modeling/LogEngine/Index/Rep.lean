import Mathlib.Data.List.Dedup
import LogEngine.Index.Index

namespace LogEngine.Index
open Lib

/-- The pairs of a segment and an entry that were added and not removed since. -/
abbrev Live := List (String × LogEntry)

/-- Some live entry of segment `p` satisfies `q`. -/
def Live.Has (live : Live) (p : String) (q : LogEntry → Prop) : Prop :=
  ∃ e, (p, e) ∈ live ∧ q e

/-- The bounds kept for a segment are attained by live entries and bound them all. -/
def Bounds (live : Live) (p : String) : Option SegmentMeta → Prop
  | none => ∀ e, (p, e) ∉ live
  | some b => live.Has p (fun e => e.timestamp = b.minTime) ∧
      live.Has p (fun e => e.timestamp = b.maxTime) ∧
      ∀ e, (p, e) ∈ live → b.minTime.toInt ≤ e.timestamp.toInt ∧
        e.timestamp.toInt ≤ b.maxTime.toInt

/-- The four maps of an index say the same about the live entries. -/
structure Rep (idx : Index) (live : Live) : Prop where
  tokens : ∀ tok p, Postings.posted idx.tokenSegments tok p = true ↔
    live.Has p (fun e => tok ∈ tokenize e.message)
  services : ∀ s p, s ≠ "" → (Postings.posted idx.serviceSegments s p = true ↔
    live.Has p (fun e => e.service = s))
  namespaces : ∀ ns p, Postings.posted idx.namespaceSegments ns p = true ↔
    live.Has p (fun e => e.namespace = ns)
  bounds : ∀ p, Bounds live p (idx.segmentMeta.get p)
  trim : Postings.Trim idx.tokenSegments

theorem new_rep : Rep new [] where
  tokens := by simp [new, Live.Has]
  services := by simp [new, Live.Has]
  namespaces := by simp [new, Live.Has]
  bounds := by simp [new, Bounds]
  trim := by intro k s h; simp [new] at h

theorem has_append (live : Live) (p path : String) (e : LogEntry) (q : LogEntry → Prop) :
    Live.Has (live ++ [(path, e)]) p q ↔ live.Has p q ∨ (p = path ∧ q e) := by
  constructor
  · rintro ⟨x, hx, hq⟩
    rcases List.mem_append.mp hx with hx | hx
    · exact Or.inl ⟨x, hx, hq⟩
    · simp only [List.mem_singleton, Prod.mk.injEq] at hx
      exact Or.inr ⟨hx.1, hx.2 ▸ hq⟩
  · rintro (⟨x, hx, hq⟩ | ⟨rfl, hq⟩)
    · exact ⟨x, List.mem_append_left _ hx, hq⟩
    · exact ⟨e, by simp, hq⟩

theorem posted_foldl (toks : List String) (m : Postings String String) (tok p path : String) :
    Postings.posted (toks.foldl (fun m t => Postings.add m t path) m) tok p = true ↔
      Postings.posted m tok p = true ∨ (p = path ∧ tok ∈ toks) := by
  induction toks generalizing m with
  | nil => simp
  | cons t ts ih =>
    rw [List.foldl_cons, ih, Postings.posted_add]
    constructor
    · rintro ((h | ⟨rfl, rfl⟩) | ⟨rfl, h⟩)
      · exact Or.inl h
      · exact Or.inr ⟨rfl, by simp⟩
      · exact Or.inr ⟨rfl, by simp [h]⟩
    · rintro (h | ⟨rfl, h⟩)
      · exact Or.inl (Or.inl h)
      · rcases List.mem_cons.mp h with rfl | h
        · exact Or.inl (Or.inr ⟨rfl, rfl⟩)
        · exact Or.inr ⟨rfl, h⟩

theorem foldl_trim {m : Postings String String} (h : Postings.Trim m) (toks : List String)
    (path : String) : Postings.Trim (toks.foldl (fun m t => Postings.add m t path) m) := by
  induction toks generalizing m with
  | nil => exact h
  | cons t ts ih => exact ih (Postings.add_trim h t path)

theorem widen_toInt (b : SegmentMeta) (ts : Int64) :
    (widen (some b) ts).minTime.toInt = min b.minTime.toInt ts.toInt ∧
      (widen (some b) ts).maxTime.toInt = max b.maxTime.toInt ts.toInt := by
  simp only [widen, gt_iff_lt, Int64.lt_iff_toInt_lt]
  constructor <;> split <;> omega

theorem widen_attained (b : SegmentMeta) (ts : Int64) :
    ((widen (some b) ts).minTime = b.minTime ∨ (widen (some b) ts).minTime = ts) ∧
      ((widen (some b) ts).maxTime = b.maxTime ∨ (widen (some b) ts).maxTime = ts) := by
  simp only [widen]
  constructor <;> split <;> simp

theorem widen_bounds {live : Live} {p : String} {old : Option SegmentMeta}
    (h : Bounds live p old) (e : LogEntry) :
    Bounds (live ++ [(p, e)]) p (some (widen old e.timestamp)) := by
  have hnew : ∀ x, (p, x) ∈ live ++ [(p, e)] ↔ (p, x) ∈ live ∨ x = e := by simp
  cases old with
  | none =>
    refine ⟨⟨e, by simp, rfl⟩, ⟨e, by simp, rfl⟩, ?_⟩
    intro x hx
    rcases (hnew x).mp hx with hx | rfl
    · exact absurd hx (h x)
    · simp [widen]
  | some b =>
    obtain ⟨⟨x, hx, hxt⟩, ⟨y, hy, hyt⟩, hall⟩ := h
    obtain ⟨hmin, hmax⟩ := widen_attained b e.timestamp
    refine ⟨?_, ?_, ?_⟩
    · rcases hmin with hmin | hmin
      · exact ⟨x, (hnew x).mpr (Or.inl hx), hxt.trans hmin.symm⟩
      · exact ⟨e, (hnew e).mpr (Or.inr rfl), hmin.symm⟩
    · rcases hmax with hmax | hmax
      · exact ⟨y, (hnew y).mpr (Or.inl hy), hyt.trans hmax.symm⟩
      · exact ⟨e, (hnew e).mpr (Or.inr rfl), hmax.symm⟩
    · intro z hz
      obtain ⟨hlo, hhi⟩ := widen_toInt b e.timestamp
      rw [hlo, hhi]
      rcases (hnew z).mp hz with hz | rfl
      · have := hall z hz
        omega
      · omega

theorem bounds_other {live : Live} {p path : String} {m : Option SegmentMeta}
    (h : Bounds live p m) (hne : p ≠ path) (e : LogEntry) :
    Bounds (live ++ [(path, e)]) p m := by
  have hmem : ∀ x, (p, x) ∈ live ++ [(path, e)] ↔ (p, x) ∈ live := by
    intro x
    simp [hne]
  cases m with
  | none => intro x; rw [hmem]; exact h x
  | some b => simpa only [Bounds, Live.Has, hmem] using h

/-- `Add` makes one more pair live. -/
theorem Rep.add {idx : Index} {live : Live} (h : Rep idx live) (e : LogEntry) (path : String) :
    Rep (idx.add e path) (live ++ [(path, e)]) where
  tokens tok p := by
    rw [Index.add, posted_foldl, h.tokens, has_append]
  services s p hs := by
    rw [has_append, ← h.services s p hs]
    unfold Index.add
    by_cases he : e.service = ""
    · simp only [he, ne_eq, not_true_eq_false, ↓reduceIte]
      constructor
      · exact Or.inl
      · rintro (h | ⟨_, h⟩)
        · exact h
        · exact absurd h.symm hs
    · simp only [ne_eq, he, not_false_eq_true, ↓reduceIte, Postings.posted_add]
      constructor
      · rintro (h | ⟨rfl, rfl⟩)
        · exact Or.inl h
        · exact Or.inr ⟨rfl, rfl⟩
      · rintro (h | ⟨rfl, rfl⟩)
        · exact Or.inl h
        · exact Or.inr ⟨rfl, rfl⟩
  namespaces ns p := by
    rw [Index.add, Postings.posted_add, h.namespaces, has_append]
    constructor
    · rintro (h | ⟨rfl, rfl⟩)
      · exact Or.inl h
      · exact Or.inr ⟨rfl, rfl⟩
    · rintro (h | ⟨rfl, rfl⟩)
      · exact Or.inl h
      · exact Or.inr ⟨rfl, rfl⟩
  bounds p := by
    by_cases hp : p = path
    · subst p
      simp only [Index.add, GoMap.get_set_self]
      exact widen_bounds (h.bounds path) e
    · simp only [Index.add, GoMap.get_set_ne _ _ hp]
      exact bounds_other (h.bounds p) hp e
  trim := by
    have ht := foldl_trim h.trim (tokenize e.message) path
    simpa only [Index.add] using ht

theorem Rep.addAll {idx : Index} {live : Live} (h : Rep idx live) (path : String)
    (entries : List LogEntry) :
    Rep (idx.addAll path entries) (live ++ entries.map (fun e => (path, e))) := by
  induction entries generalizing idx live with
  | nil => simpa [addAll_nil] using h
  | cons e es ih =>
    have hrest := ih (h.add e path)
    rw [List.append_assoc] at hrest
    rw [addAll_cons]
    exact hrest

theorem has_remove (live : Live) (p path : String) (q : LogEntry → Prop) :
    Live.Has (live.filter (fun x => x.1 ≠ path)) p q ↔ live.Has p q ∧ p ≠ path := by
  constructor
  · rintro ⟨e, he, hq⟩
    obtain ⟨hm, hne⟩ := List.mem_filter.mp he
    exact ⟨⟨e, hm, hq⟩, by simpa using hne⟩
  · rintro ⟨⟨e, he, hq⟩, hne⟩
    exact ⟨e, List.mem_filter.mpr ⟨he, by simpa using hne⟩, hq⟩

/-- `RemoveSegment` makes every pair of its segment dead. -/
theorem Rep.removeSegment {idx : Index} {live : Live} (h : Rep idx live) (path : String) :
    Rep (idx.removeSegment path) (live.filter (fun x => x.1 ≠ path)) where
  tokens tok p := by rw [Index.removeSegment, Postings.posted_remove, h.tokens, has_remove]
  services s p hs := by
    rw [Index.removeSegment, Postings.posted_remove, h.services s p hs, has_remove]
  namespaces ns p := by
    rw [Index.removeSegment, Postings.posted_remove, h.namespaces, has_remove]
  bounds p := by
    by_cases hp : p = path
    · subst p
      simp [Index.removeSegment, Bounds]
    · have hb := h.bounds p
      simp only [Index.removeSegment, GoMap.get_delete_ne _ hp]
      cases hm : idx.segmentMeta.get p with
      | none =>
        rw [hm] at hb
        intro e he
        exact hb e (List.mem_filter.mp he).1
      | some b =>
        rw [hm] at hb
        refine ⟨(has_remove _ _ _ _).mpr ⟨hb.1, hp⟩, (has_remove _ _ _ _).mpr ⟨hb.2.1, hp⟩, ?_⟩
        intro e he
        exact hb.2.2 e (List.mem_filter.mp he).1
  trim := Postings.remove_trim idx.tokenSegments path

theorem Rep.rebuild {ε : Type} {idx : Index} {live : Live} (h : Rep idx live)
    {readFn : String → Except ε (List LogEntry)} {contents : String → List LogEntry}
    (paths : List String) (hread : ∀ p ∈ paths, readFn p = .ok (contents p)) :
    ∃ idx', idx.rebuildFromSegments readFn paths = .ok idx' ∧
      Rep idx' (live ++ paths.flatMap (fun p => (contents p).map (fun e => (p, e)))) := by
  induction paths generalizing idx live with
  | nil => exact ⟨idx, rfl, by simpa using h⟩
  | cons p ps ih =>
    obtain ⟨idx', hok, hrep⟩ := ih (h.addAll p (contents p)) (fun q hq => hread q (by simp [hq]))
    refine ⟨idx', ?_, ?_⟩
    · simpa only [rebuildFromSegments, hread p (by simp)] using hok
    · rw [List.flatMap_cons, ← List.append_assoc]
      exact hrep

/-- `Resolve` over the live entries: the segments in which every token, the namespace
and the service each occur in some live entry, and whose time bounds meet the range. -/
theorem Rep.mem_resolve {idx : Index} {live : Live} (h : Rep idx live) (tokens : List String)
    (ns service : String) (startTime endTime : Int64) (p : String) :
    p ∈ idx.resolve tokens ns service startTime endTime ↔
      (∃ e, (p, e) ∈ live) ∧
      (∀ tok ∈ tokens, live.Has p (fun e => tok ∈ tokenize e.message)) ∧
      (ns = "" ∨ live.Has p (fun e => e.namespace = ns)) ∧
      (service = "" ∨ live.Has p (fun e => e.service = service)) ∧
      (0 < startTime.toInt → live.Has p (fun e => startTime.toInt ≤ e.timestamp.toInt)) ∧
      (0 < endTime.toInt → live.Has p (fun e => e.timestamp.toInt ≤ endTime.toInt)) := by
  have hservice : (service = "" ∨ Postings.posted idx.serviceSegments service p = true) ↔
      (service = "" ∨ live.Has p (fun e => e.service = service)) := by
    by_cases hs : service = ""
    · simp [hs]
    · rw [h.services service p hs]
  have hrange : idx.inRange startTime endTime p = true ↔
      (∃ e, (p, e) ∈ live) ∧
      (0 < startTime.toInt → live.Has p (fun e => startTime.toInt ≤ e.timestamp.toInt)) ∧
      (0 < endTime.toInt → live.Has p (fun e => e.timestamp.toInt ≤ endTime.toInt)) := by
    have hb := h.bounds p
    unfold inRange
    cases hm : idx.segmentMeta.get p with
    | none =>
      rw [hm] at hb
      simp only [Bool.false_eq_true, false_iff, not_and]
      rintro ⟨e, he⟩
      exact absurd he (hb e)
    | some b =>
      rw [hm] at hb
      obtain ⟨⟨x, hx, hxt⟩, ⟨y, hy, hyt⟩, hall⟩ := hb
      simp only [Bool.and_eq_true, Bool.not_eq_true', Bool.and_eq_false_iff,
        decide_eq_false_iff_not, gt_iff_lt, Int64.lt_iff_toInt_lt, Int64.toInt_zero, not_lt]
      constructor
      · rintro ⟨hs, he⟩
        refine ⟨⟨x, hx⟩, fun hpos => ⟨y, hy, ?_⟩, fun hpos => ⟨x, hx, ?_⟩⟩
        · change startTime.toInt ≤ y.timestamp.toInt
          rw [hyt]; omega
        · change x.timestamp.toInt ≤ endTime.toInt
          rw [hxt]; omega
      · rintro ⟨_, hs, he⟩
        constructor
        · by_cases hpos : 0 < startTime.toInt
          · obtain ⟨z, hz, hzt⟩ := hs hpos
            have := (hall z hz).2
            exact Or.inr (by omega)
          · exact Or.inl (by omega)
        · by_cases hpos : 0 < endTime.toInt
          · obtain ⟨z, hz, hzt⟩ := he hpos
            have := (hall z hz).1
            exact Or.inr (by omega)
          · exact Or.inl (by omega)
  simp only [Index.mem_resolve, h.tokens, h.namespaces, hservice, hrange]
  constructor
  · rintro ⟨ht, hn, hs, hl, hr⟩
    exact ⟨hl, ht, hn, hs, hr⟩
  · rintro ⟨hl, ht, hn, hs, hr⟩
    exact ⟨ht, hn, hs, hl, hr⟩

/-- Indexes of the same live entries resolve alike. -/
theorem Rep.resolve_congr {idx idx' : Index} {live live' : Live} (h : Rep idx live)
    (h' : Rep idx' live') (hlive : ∀ p e, (p, e) ∈ live ↔ (p, e) ∈ live') (tokens : List String)
    (ns service : String) (startTime endTime : Int64) :
    idx.resolve tokens ns service startTime endTime =
      idx'.resolve tokens ns service startTime endTime := by
  have hmem : ∀ p, p ∈ idx.resolve tokens ns service startTime endTime ↔
      p ∈ idx'.resolve tokens ns service startTime endTime := by
    intro p
    simp only [h.mem_resolve, h'.mem_resolve, Live.Has, hlive]
  have hperm := (List.perm_ext_iff_of_nodup (resolve_nodup _ _ _ _ _ _)
    (resolve_nodup _ _ _ _ _ _)).mpr hmem
  exact hperm.eq_of_pairwise (fun a b _ _ hab hba => le_antisymm hab hba)
    (List.pairwise_insertionSort _ _) (List.pairwise_insertionSort _ _)

/-- `TokenCount` is the number of distinct words of the live entries. -/
theorem Rep.tokenCount {idx : Index} {live : Live} (h : Rep idx live) :
    idx.tokenCount = (live.flatMap (fun x => tokenize x.2.message)).dedup.length := by
  refine ((List.perm_ext_iff_of_nodup idx.tokenSegments.nodup (List.nodup_dedup _)).mpr
    (fun tok => ?_)).length_eq
  rw [Postings.mem_keys_posted h.trim, List.mem_dedup, List.mem_flatMap]
  constructor
  · intro hgiven
    obtain ⟨p, hp⟩ := hgiven
    obtain ⟨e, he, htok⟩ := (h.tokens tok p).mp hp
    exact ⟨(p, e), he, htok⟩
  · intro hgiven
    obtain ⟨⟨p, e⟩, he, htok⟩ := hgiven
    exact ⟨p, (h.tokens tok p).mpr ⟨e, he, htok⟩⟩

end LogEngine.Index
