import Mathlib.Data.Set.Card
import Mathlib.Order.Bounds.Basic
import LogEngine.Index.Rep

namespace LogEngine.Index
open Lib

inductive Change where
  | add (e : LogEntry) (path : String)
  | remove (path : String)

def Change.apply (idx : Index) : Change → Index
  | .add e path => idx.add e path
  | .remove path => idx.removeSegment path

def after (history : List Change) : Index := history.foldl Change.apply .new

/-- `e` was added under `p` after the last removal of `p`. -/
def LiveIn (history : List Change) (p : String) (e : LogEntry) : Prop :=
  ∃ past later, history = past ++ .add e p :: later ∧ .remove p ∉ later

/-- The live pairs, kept up call by call. -/
def Change.live (live : Live) : Change → Live
  | .add e path => live ++ [(path, e)]
  | .remove path => live.filter (fun x => x.1 ≠ path)

def liveAfter (history : List Change) : Live := history.foldl Change.live []

theorem Rep.change {idx : Index} {live : Live} (h : Rep idx live) (c : Change) :
    Rep (c.apply idx) (c.live live) := by
  cases c with
  | add e path => exact h.add e path
  | remove path => exact h.removeSegment path

theorem after_rep (history : List Change) : Rep (after history) (liveAfter history) := by
  induction history using List.reverseRecOn with
  | nil => exact new_rep
  | append_singleton history c ih =>
    rw [after, liveAfter, List.foldl_concat, List.foldl_concat]
    exact ih.change c

theorem liveIn_nil (p : String) (e : LogEntry) : ¬ LiveIn [] p e := by
  rintro ⟨past, later, heq, -⟩
  simp at heq

theorem liveIn_add (history : List Change) (e x : LogEntry) (path p : String) :
    LiveIn (history ++ [.add e path]) p x ↔ LiveIn history p x ∨ (p = path ∧ x = e) := by
  constructor
  · rintro ⟨past, later, heq, hlater⟩
    rcases List.eq_nil_or_concat later with rfl | ⟨init, c, rfl⟩
    · obtain ⟨-, hc⟩ := List.append_inj' heq rfl
      simp only [List.cons.injEq, Change.add.injEq, and_true] at hc
      exact .inr ⟨hc.2.symm, hc.1.symm⟩
    · rw [List.concat_eq_append, ← List.cons_append, ← List.append_assoc] at heq
      obtain ⟨hinit, -⟩ := List.append_inj' heq rfl
      exact .inl ⟨past, init, hinit, fun h => hlater (by simp [h])⟩
  · rintro (⟨past, later, rfl, hlater⟩ | ⟨rfl, rfl⟩)
    · exact ⟨past, later ++ [.add e path], by simp, by simpa using hlater⟩
    · exact ⟨history, [], rfl, List.not_mem_nil⟩

theorem liveIn_remove (history : List Change) (x : LogEntry) (path p : String) :
    LiveIn (history ++ [.remove path]) p x ↔ LiveIn history p x ∧ p ≠ path := by
  constructor
  · rintro ⟨past, later, heq, hlater⟩
    rcases List.eq_nil_or_concat later with rfl | ⟨init, c, rfl⟩
    · obtain ⟨-, hc⟩ := List.append_inj' heq rfl
      simp at hc
    · rw [List.concat_eq_append, ← List.cons_append, ← List.append_assoc] at heq
      obtain ⟨hinit, hc⟩ := List.append_inj' heq rfl
      simp only [List.cons.injEq, and_true] at hc
      subst hc
      refine ⟨⟨past, init, hinit, fun h => hlater (by simp [h])⟩, ?_⟩
      rintro rfl
      exact hlater (by simp)
  · rintro ⟨⟨past, later, rfl, hlater⟩, hne⟩
    exact ⟨past, later ++ [.remove path], by simp, by simpa [hlater] using hne⟩

theorem mem_liveAfter (history : List Change) (p : String) (x : LogEntry) :
    (p, x) ∈ liveAfter history ↔ LiveIn history p x := by
  induction history using List.reverseRecOn with
  | nil => simp [liveAfter, liveIn_nil]
  | append_singleton history c ih =>
    rw [liveAfter, List.foldl_concat, ← liveAfter]
    cases c with
    | add e path => simp [Change.live, liveIn_add, ih]
    | remove path => simp [Change.live, liveIn_remove, ih]

/-- The timestamps of the live entries of a segment. -/
def liveTimes (history : List Change) (p : String) : Set Int :=
  {t | ∃ e, LiveIn history p e ∧ e.timestamp.toInt = t}

def liveTokens (history : List Change) : Set String :=
  {tok | ∃ p e, LiveIn history p e ∧ tok ∈ tokenize e.message}

theorem liveTimes_bounds (history : List Change) {p : String} {e : LogEntry}
    (he : LiveIn history p e) :
    ∃ b : SegmentMeta, IsLeast (liveTimes history p) b.minTime.toInt ∧
      IsGreatest (liveTimes history p) b.maxTime.toInt := by
  have hbounds := (after_rep history).bounds p
  cases hmeta : (after history).segmentMeta.get p with
  | none =>
    rw [hmeta] at hbounds
    exact absurd ((mem_liveAfter history p e).mpr he) (hbounds e)
  | some b =>
    rw [hmeta] at hbounds
    obtain ⟨⟨x, hx, hmin⟩, ⟨y, hy, hmax⟩, hall⟩ := hbounds
    refine ⟨b, ⟨⟨x, (mem_liveAfter _ _ _).mp hx, by rw [hmin]⟩, ?_⟩,
      ⟨y, (mem_liveAfter _ _ _).mp hy, by rw [hmax]⟩, ?_⟩
    · rintro t ⟨z, hz, rfl⟩
      exact (hall z ((mem_liveAfter _ _ _).mpr hz)).1
    · rintro t ⟨z, hz, rfl⟩
      exact (hall z ((mem_liveAfter _ _ _).mpr hz)).2

theorem exists_ge_iff {α : Type} [Preorder α] {S : Set α} {m : α} (h : IsGreatest S m) (a : α) :
    (∃ t ∈ S, a ≤ t) ↔ ∃ t, IsGreatest S t ∧ a ≤ t := by
  constructor
  · rintro ⟨t, ht, hat⟩
    exact ⟨m, h, hat.trans (h.2 ht)⟩
  · rintro ⟨t, ht, hat⟩
    exact ⟨t, ht.1, hat⟩

theorem exists_le_iff {α : Type} [Preorder α] {S : Set α} {m : α} (h : IsLeast S m) (a : α) :
    (∃ t ∈ S, t ≤ a) ↔ ∃ t, IsLeast S t ∧ t ≤ a :=
  exists_ge_iff (α := αᵒᵈ) h a

theorem resolve_ascending (idx : Index) (tokens : List String) (ns service : String)
    (startTime endTime : Int64) :
    (idx.resolve tokens ns service startTime endTime).Pairwise (· < ·) := by
  have hsorted : (idx.resolve tokens ns service startTime endTime).Pairwise (· ≤ ·) :=
    List.pairwise_insertionSort _ _
  have hdistinct := resolve_nodup idx tokens ns service startTime endTime
  exact (hsorted.and hdistinct).imp fun h => lt_of_le_of_ne h.1 h.2

theorem tokenCount_after (history : List Change) :
    (after history).tokenCount = (liveTokens history).ncard := by
  rw [(after_rep history).tokenCount, ← List.card_toFinset, ← Set.ncard_coe_finset]
  congr 1
  ext tok
  simp only [List.coe_toFinset, List.mem_flatMap, Prod.exists, mem_liveAfter, Set.mem_ofPred_eq,
    liveTokens]

/-- `Resolve` and `TokenCount` after any history of `Add` and `RemoveSegment`. -/
theorem resolve_after (history : List Change) :
    (∀ (tokens : List String) (ns service : String) (startTime endTime : Int64),
      ((after history).resolve tokens ns service startTime endTime).Pairwise (· < ·) ∧
      ∀ p, p ∈ (after history).resolve tokens ns service startTime endTime ↔
        (∃ e, LiveIn history p e) ∧
        (∀ tok ∈ tokens, ∃ e, LiveIn history p e ∧ tok ∈ tokenize e.message) ∧
        (ns ≠ "" → ∃ e, LiveIn history p e ∧ e.namespace = ns) ∧
        (service ≠ "" → ∃ e, LiveIn history p e ∧ e.service = service) ∧
        (startTime > 0 → ∃ t, IsGreatest (liveTimes history p) t ∧ startTime.toInt ≤ t) ∧
        (endTime > 0 → ∃ t, IsLeast (liveTimes history p) t ∧ t ≤ endTime.toInt)) ∧
    (after history).tokenCount = (liveTokens history).ncard := by
  refine ⟨fun tokens ns service startTime endTime => ⟨resolve_ascending _ _ _ _ _ _, fun p => ?_⟩,
    tokenCount_after history⟩
  simp only [(after_rep history).mem_resolve, Live.Has, mem_liveAfter, gt_iff_lt,
    Int64.lt_iff_toInt_lt, Int64.toInt_zero, ne_eq, ← or_iff_not_imp_left]
  refine and_congr_right fun hlive => ?_
  obtain ⟨e, he⟩ := hlive
  obtain ⟨b, hmin, hmax⟩ := liveTimes_bounds history he
  rw [← exists_ge_iff hmax, ← exists_le_iff hmin]
  simp only [liveTimes, Set.mem_ofPred_eq, exists_exists_and_eq_and]

end LogEngine.Index
