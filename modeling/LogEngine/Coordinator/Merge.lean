import LogEngine.Lib.Format
import LogEngine.Lib.TopK
import LogEngine.Packages
import LogEngine.Query.Server

namespace LogEngine.Coordinator
open Lib Query

/-- Why a node did not answer: no connection within its deadline, or a status. -/
inductive NodeError where
  | unreachable
  | status (status : QueryStatus)
  deriving DecidableEq

structure NodeResult where
  nodeID : String
  entries : List LogEntry
  total : Int32
  err : Option NodeError
  deriving DecidableEq

structure MergeOutput where
  entries : List LogEntry
  total : Int32
  isPartial : Bool
  deriving DecidableEq

/-- The entries of the parts that came without an error, in order of arrival. -/
def received (parts : List NodeResult) : List LogEntry :=
  (parts.filter (fun p => p.err.isNone)).flatMap NodeResult.entries

/-- The entries that `MergeResults` counts, in the order in which it pages through them. -/
def combined (parts : List NodeResult) : List LogEntry :=
  (firsts LogEntry.id [] (received parts)).insertionSort before

/-- `MergeResults`, for an offset that is not negative. -/
def mergeResults (parts : List NodeResult) (offset limit : Int32) : MergeOutput :=
  let rest := (combined parts).drop offset.toInt.toNat
  { entries := if 0 < limit.toInt then rest.take limit.toInt.toNat else rest
    total := Int32.ofNat (combined parts).length
    isPartial := parts.any (fun p => p.err.isSome) }

theorem combined_ids (parts : List NodeResult) : ((combined parts).map LogEntry.id).Nodup := by
  have hperm := List.perm_insertionSort before (firsts LogEntry.id [] (received parts))
  exact (hperm.map LogEntry.id).nodup_iff.mpr (firsts_keys_nodup _ _)

theorem combined_sorted (parts : List NodeResult) : (combined parts).Pairwise before :=
  List.pairwise_insertionSort _ _

theorem mem_combined {parts : List NodeResult} {x : LogEntry} :
    x ∈ combined parts ↔ IsFirst LogEntry.id (received parts) x := by
  rw [combined, List.mem_insertionSort, mem_firsts]
  simp

theorem combined_length (parts : List NodeResult) :
    (combined parts).length = ((received parts).map LogEntry.id).dedup.length := by
  rw [combined, List.length_insertionSort, firsts_length]

/-- With no errors everything that was sent is received. -/
theorem received_eq {parts : List NodeResult} (h : ∀ p ∈ parts, p.err = none) :
    received parts = (parts.map NodeResult.entries).flatten := by
  have hall : parts.filter (fun p => p.err.isNone) = parts :=
    List.filter_eq_self.mpr (fun p hp => by simp [h p hp])
  rw [received, hall, List.flatMap_def]

/-- The first `K` entries of a node's match set. -/
def window (K : Nat) (matches_ : List LogEntry) : List LogEntry :=
  (matches_.insertionSort before).take K

/-- The answer of one query over all match sets together. -/
def central (family : List (List LogEntry)) : List LogEntry :=
  family.flatten.dedup.insertionSort before

section Central

variable {family : List (List LogEntry)}

theorem mem_central {x : LogEntry} : x ∈ central family ↔ ∃ l ∈ family, x ∈ l := by
  rw [central, List.mem_insertionSort, List.mem_dedup, List.mem_flatten]

/-- Entries with one ID are one entry, in and across the match sets. -/
def OneEntryPerID (family : List (List LogEntry)) : Prop :=
  ∀ a ∈ family.flatten, ∀ b ∈ family.flatten, a.id = b.id → a = b

theorem central_ids (hids : OneEntryPerID family) :
    ((central family).map LogEntry.id).Nodup := by
  have hperm := List.perm_insertionSort before family.flatten.dedup
  refine (hperm.map LogEntry.id).nodup_iff.mpr ?_
  refine List.Nodup.map_on ?_ (List.nodup_dedup _)
  intro a ha b hb
  exact hids a (List.mem_dedup.mp ha) b (List.mem_dedup.mp hb)

theorem sorted_ids (hids : OneEntryPerID family) (hsets : ∀ l ∈ family, l.Nodup)
    {l : List LogEntry} (hl : l ∈ family) :
    ((l.insertionSort before).map LogEntry.id).Nodup := by
  have hperm := List.perm_insertionSort before l
  refine (hperm.map LogEntry.id).nodup_iff.mpr (List.Nodup.map_on ?_ (hsets l hl))
  intro a ha b hb
  exact hids a (List.mem_flatten.mpr ⟨l, hl, ha⟩) b (List.mem_flatten.mpr ⟨l, hl, hb⟩)

variable {parts : List NodeResult} {K : Nat}

/-- The parts are the windows of the match sets, in any order. -/
structure Windows (K : Nat) (family : List (List LogEntry)) (parts : List NodeResult) : Prop where
  sent : (parts.map NodeResult.entries).Perm (family.map (window K))
  answered : ∀ p ∈ parts, p.err = none

theorem Windows.mem_received (h : Windows K family parts) {x : LogEntry} :
    x ∈ received parts ↔ ∃ l ∈ family, x ∈ window K l := by
  rw [received_eq h.answered, h.sent.flatten.mem_iff, List.mem_flatten]
  simp

theorem Windows.mem_combined (h : Windows K family parts) (hids : OneEntryPerID family)
    {x : LogEntry} : x ∈ combined parts ↔ ∃ l ∈ family, x ∈ window K l := by
  have hfull : ∀ y ∈ received parts, y ∈ family.flatten := by
    intro y hy
    obtain ⟨l, hl, hyl⟩ := h.mem_received.mp hy
    exact List.mem_flatten.mpr ⟨l, hl, (List.mem_insertionSort _).mp (List.mem_of_mem_take hyl)⟩
  rw [Coordinator.mem_combined, ← h.mem_received]
  constructor
  · exact IsFirst.mem
  · intro hx
    refine isFirst_of_mem ?_ hx
    exact fun b hb hkey => hids b (hfull b hb) x (hfull x hx) hkey

/-- The first entries of the merged list are those of the central query. -/
theorem Windows.take (h : Windows K family parts) (hids : OneEntryPerID family)
    (hsets : ∀ l ∈ family, l.Nodup) {m : Nat} (hm : m ≤ K) :
    (combined parts).take m = (central family).take m := by
  have hsorted : ∀ l ∈ family.map (fun l => l.insertionSort before),
      (l.map LogEntry.id).Nodup ∧ l.Pairwise before := by
    intro l' hl'
    obtain ⟨l, hl, rfl⟩ := List.mem_map.mp hl'
    exact ⟨sorted_ids hids hsets hl, List.pairwise_insertionSort _ _⟩
  refine windows_take before_ties hm hsorted
    ⟨central_ids hids, List.pairwise_insertionSort _ _⟩
    ⟨combined_ids parts, combined_sorted parts⟩ ?_ ?_
  · intro x
    simp [mem_central]
  · intro x
    simp [h.mem_combined hids, window]

theorem Windows.length_le (h : Windows K family parts) (hids : OneEntryPerID family) :
    (combined parts).length ≤ (central family).length := by
  have hsub : combined parts ⊆ central family := by
    intro x hx
    obtain ⟨l, hl, hxl⟩ := (h.mem_combined hids).mp hx
    exact mem_central.mpr ⟨l, hl, (List.mem_insertionSort _).mp (List.mem_of_mem_take hxl)⟩
  exact (List.subperm_of_subset (.of_map _ (combined_ids parts)) hsub).length_le

theorem Windows.le_length (h : Windows K family parts) (hids : OneEntryPerID family)
    (hsets : ∀ l ∈ family, l.Nodup) {m : Nat} (hm : m ≤ K) :
    min (central family).length m ≤ (combined parts).length := by
  have hlen := congrArg List.length (h.take hids hsets hm)
  rw [List.length_take, List.length_take] at hlen
  omega

end Central

/-- A count converted to `int32` is never above the count. -/
theorem ofNat_toInt_le (n : Nat) : (Int32.ofNat n).toInt ≤ n := by
  rw [Int32.toInt_ofNat', show Int32.size = 2 ^ 32 from rfl]
  simp only [Int.bmod_def]
  omega

theorem ofNat_toInt_lt (n : Nat) : (Int32.ofNat n).toInt < 2 ^ 31 := (Int32.ofNat n).toInt_lt

/-- How many distinct entries the nodes send between them. -/
def sentCount (K : Nat) (family : List (List LogEntry)) : Nat :=
  keyCount LogEntry.id (family.map (window K))

theorem Windows.sentCount {K : Nat} {family : List (List LogEntry)} {parts : List NodeResult}
    (h : Windows K family parts) : (combined parts).length = sentCount K family := by
  rw [combined_length, Coordinator.sentCount, keyCount, received_eq h.answered]
  have hperm := (h.sent.flatten.map LogEntry.id)
  exact Nat.le_antisymm (dedup_length_le hperm.subset) (dedup_length_le hperm.symm.subset)

/-- The merged page is that of the central query for any order of the parts. Its total is between
the bounds exactly when the number of entries sent fits the `int32` it is converted to, or wraps to
one that still reaches the end of the page. -/
theorem merge_central_iff {family : List (List LogEntry)} (hsets : ∀ l ∈ family, l.Nodup)
    (hids : OneEntryPerID family) {offset limit : Int32} (hoffset : 0 ≤ offset.toInt)
    (hlimit : 0 < limit.toInt) {K : Nat} (hK : offset.toInt + limit.toInt ≤ K)
    {parts : List NodeResult} (h : Windows K family parts) :
    (mergeResults parts offset limit).entries =
      ((central family).drop offset.toInt.toNat).take limit.toInt.toNat ∧
    (min ((central family).length : Int) (offset.toInt + limit.toInt) ≤
        (mergeResults parts offset limit).total.toInt ∧
      (mergeResults parts offset limit).total.toInt ≤ (central family).length ↔
    sentCount K family < 2 ^ 31 ∨
      offset.toInt + limit.toInt ≤ (Int32.ofNat (sentCount K family)).toInt) := by
  have hm : offset.toInt.toNat + limit.toInt.toNat ≤ K := by omega
  have htake := h.take hids hsets hm
  have hle := h.length_le hids
  have hge := h.le_length hids hsets hm
  constructor
  · simp only [mergeResults, if_pos hlimit]
    rw [List.take_drop, List.take_drop, htake]
  · simp only [mergeResults]
    rw [h.sentCount] at hle hge ⊢
    have hwrap := ofNat_toInt_le (sentCount K family)
    have hlt := ofNat_toInt_lt (sentCount K family)
    constructor
    · intro hgiven
      obtain ⟨hlow, _⟩ := hgiven
      by_cases hsmall : sentCount K family < 2 ^ 31
      · exact .inl hsmall
      · exact .inr (by omega)
    · intro hcond
      refine ⟨?_, by omega⟩
      rcases hcond with hsmall | hreach
      · rw [Int32.toInt_ofNat_of_lt hsmall]
        omega
      · omega

def twoNodes : List (List LogEntry) :=
  [[line "1" "t" "api" "up" 10, line "2" "t" "api" "down" 30, line "3" "t" "api" "up" 20],
    [line "4" "t" "api" "slow" 20, line "2" "t" "api" "down" 30]]

/-- What they send for a page of two, in the other order. -/
def twoParts : List NodeResult :=
  [⟨"b", [line "2" "t" "api" "down" 30, line "4" "t" "api" "slow" 20], 2, none⟩,
    ⟨"a", [line "2" "t" "api" "down" 30, line "3" "t" "api" "up" 20], 3, none⟩]

theorem merge_central_sample :
    (mergeResults twoParts 1 1).entries = ((central twoNodes).drop 1).take 1 ∧
    2 ≤ (mergeResults twoParts 1 1).total.toInt ∧ (mergeResults twoParts 1 1).total.toInt ≤ 4 := by
  have hwindows : Windows 2 twoNodes twoParts := by
    refine ⟨?_, by decide⟩
    have hsent : twoParts.map NodeResult.entries = (twoNodes.map (window 2)).reverse := by
      decide +kernel
    rw [hsent]
    exact List.reverse_perm _
  have hids : OneEntryPerID twoNodes := by
    unfold OneEntryPerID
    decide +kernel
  obtain ⟨hpage, hbounds⟩ := @merge_central_iff twoNodes (by decide +kernel) hids 1 1 (by decide)
    (by decide) 2 (by decide) twoParts hwindows
  have hlen : (central twoNodes).length = 4 := by decide +kernel
  rw [hlen] at hbounds
  exact ⟨hpage, hbounds.mpr (.inl (by decide +kernel))⟩

def manyMatches (n : Nat) : List LogEntry :=
  (List.range n).map (fun i => line i.repr "t" "api" "up" 0)

theorem manyMatches_ids (n : Nat) : ((manyMatches n).map LogEntry.id).Nodup := by
  have hids : (manyMatches n).map LogEntry.id = (List.range n).map Nat.repr := by
    rw [manyMatches, List.map_map]
    rfl
  rw [hids]
  exact (List.nodup_range).map (fun i j h => repr_inj h)

theorem sentCount_many (n : Nat) : sentCount n [manyMatches n] = n := by
  have hperm := (List.perm_insertionSort before (manyMatches n)).map LogEntry.id
  have hlen : (manyMatches n).length = n := by simp [manyMatches]
  have hwindow : window n (manyMatches n) = (manyMatches n).insertionSort before :=
    List.take_of_length_le (by rw [List.length_insertionSort, hlen])
  rw [sentCount, keyCount, List.map_singleton, List.flatten_singleton, hwindow,
    (hperm.nodup_iff.mpr (manyMatches_ids n)).dedup, List.length_map, List.length_insertionSort,
    hlen]

/-- A node that sends 2^31 matches makes the total negative. -/
theorem merge_total_wraps :
    (∀ l ∈ [manyMatches (2 ^ 31)], l.Nodup) ∧ OneEntryPerID [manyMatches (2 ^ 31)] ∧
    Windows (2 ^ 31) [manyMatches (2 ^ 31)]
      [⟨"a", window (2 ^ 31) (manyMatches (2 ^ 31)), 0, none⟩] ∧
    (mergeResults [⟨"a", window (2 ^ 31) (manyMatches (2 ^ 31)), 0, none⟩] 0 1).total.toInt =
      -2 ^ 31 := by
  have hids := manyMatches_ids (2 ^ 31)
  have hwindows : Windows (2 ^ 31) [manyMatches (2 ^ 31)]
      [⟨"a", window (2 ^ 31) (manyMatches (2 ^ 31)), 0, none⟩] :=
    ⟨by rw [List.map_singleton, List.map_singleton], by simp⟩
  refine ⟨?_, ?_, hwindows, ?_⟩
  · intro l hl
    rw [List.mem_singleton.mp hl]
    exact .of_map _ hids
  · intro a ha b hb heq
    rw [List.flatten_singleton] at ha hb
    exact eq_of_key hids ha hb heq
  · simp only [mergeResults]
    rw [hwindows.sentCount, sentCount_many]
    decide

end LogEngine.Coordinator
