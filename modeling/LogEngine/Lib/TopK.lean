import Mathlib.Data.List.Dedup
import LogEngine.Lib.Firsts

namespace LogEngine.Lib

variable {α κ : Type}

/-- The first `m` elements that are all kept by a filter are the first `m` that it keeps. -/
theorem take_filter {p : α → Bool} {l : List α} {m : Nat} (h : ∀ x ∈ l.take m, p x = true) :
    (l.filter p).take m = l.take m := by
  have hkeep : (l.take m).filter p = l.take m := List.filter_eq_self.mpr h
  have hsplit : l.filter p = l.take m ++ (l.drop m).filter p := by
    rw [← hkeep, ← List.filter_append, List.take_append_drop]
  by_cases hlen : m ≤ l.length
  · have htake : (l.take m).length = m := List.length_take_of_le hlen
    rw [hsplit, List.take_append_of_le_length (by omega), List.take_of_length_le (by omega)]
  · have hall : l.take m = l := List.take_of_length_le (by omega)
    rw [hall] at hkeep ⊢
    rw [hkeep, hall]

/-- An element among the first `m` is among the first `m` of any filter that keeps it. -/
theorem mem_take_filter {p : α → Bool} {l : List α} {m : Nat} {x : α} (hx : x ∈ l.take m)
    (hp : p x = true) : x ∈ (l.filter p).take m := by
  have hsplit : l.filter p = (l.take m).filter p ++ (l.drop m).filter p := by
    rw [← List.filter_append, List.take_append_drop]
  have hle : ((l.take m).filter p).length ≤ m :=
    Nat.le_trans (List.length_filter_le _ _) (List.length_take_le _ _)
  rw [hsplit, List.take_append]
  refine List.mem_append_left _ ?_
  rw [List.take_of_length_le hle]
  exact List.mem_filter.mpr ⟨hx, hp⟩

section Sorted

variable {key : α → κ} {r : α → α → Prop} [DecidableEq α]

/-- A sorted list of some elements of another is the other without the rest. -/
theorem eq_filter_of_sorted (hties : ∀ a b, r a b → r b a → key a = key b) {l s : List α}
    (hl : (l.map key).Nodup) (hr : l.Pairwise r) (hs : (s.map key).Nodup) (hsr : s.Pairwise r)
    (hsub : ∀ x ∈ l, x ∈ s) : l = s.filter (· ∈ l) := by
  refine eq_of_sorted hties hl ((List.filter_sublist.map key).nodup hs) hr (hsr.filter _) ?_
  intro x
  simp only [List.mem_filter, decide_eq_true_eq]
  exact ⟨fun hx => ⟨hsub x hx, hx⟩, fun hx => hx.2⟩

/-- Cutting each of several sorted lists at `K` loses none of the first `m ≤ K` elements of their
union. -/
theorem windows_take (hties : ∀ a b, r a b → r b a → key a = key b) {parts : List (List α)}
    {union merged : List α} {K m : Nat} (hm : m ≤ K)
    (hparts : ∀ l ∈ parts, (l.map key).Nodup ∧ l.Pairwise r)
    (hunion : (union.map key).Nodup ∧ union.Pairwise r)
    (hmerged : (merged.map key).Nodup ∧ merged.Pairwise r)
    (hall : ∀ x, x ∈ union ↔ ∃ l ∈ parts, x ∈ l)
    (hcut : ∀ x, x ∈ merged ↔ ∃ l ∈ parts, x ∈ l.take K) : merged.take m = union.take m := by
  have hsub : ∀ x ∈ merged, x ∈ union := by
    intro x hx
    obtain ⟨l, hl, hxl⟩ := (hcut x).mp hx
    exact (hall x).mpr ⟨l, hl, List.mem_of_mem_take hxl⟩
  have hfilter := eq_filter_of_sorted hties hmerged.1 hmerged.2 hunion.1 hunion.2 hsub
  rw [hfilter]
  refine take_filter ?_
  intro x hx
  obtain ⟨l, hl, hxl⟩ := (hall x).mp (List.mem_of_mem_take hx)
  have hpart := eq_filter_of_sorted hties (hparts l hl).1 (hparts l hl).2 hunion.1 hunion.2
    (fun y hy => (hall y).mpr ⟨l, hl, hy⟩)
  have hxm : x ∈ l.take m := by
    rw [hpart]
    exact mem_take_filter hx (by simpa using hxl)
  rw [decide_eq_true_eq, hcut]
  exact ⟨l, hl, List.mem_of_mem_take (by rwa [List.take_take, Nat.min_eq_left hm])⟩

end Sorted

section Count

variable {key : α → κ} [DecidableEq κ]

theorem firsts_length (l : List α) : (firsts key [] l).length = (l.map key).dedup.length := by
  have hperm : ((firsts key [] l).map key).Perm (l.map key).dedup := by
    refine (List.perm_ext_iff_of_nodup (firsts_keys_nodup l []) (List.nodup_dedup _)).mpr ?_
    intro k
    rw [List.mem_dedup, List.mem_map, List.mem_map]
    constructor
    · intro h
      obtain ⟨a, ha, hk⟩ := h
      exact ⟨a, (mem_firsts.mp ha).2.mem, hk⟩
    · intro h
      obtain ⟨a, ha, hk⟩ := h
      have hsome : (l.find? (fun b => key b = key a)).isSome = true :=
        List.find?_isSome.mpr ⟨a, ha, by simp⟩
      obtain ⟨b, hb⟩ := Option.isSome_iff_exists.mp hsome
      have hkey : key b = key a := by simpa using List.find?_some hb
      refine ⟨b, mem_firsts.mpr ⟨by simp, ?_⟩, hkey.trans hk⟩
      simpa only [IsFirst, hkey] using hb
  simpa using hperm.length_eq

/-- The number of keys that several lists have between them. -/
def keyCount (key : α → κ) (parts : List (List α)) : Nat :=
  (parts.flatten.map key).dedup.length

theorem dedup_length_le {l l' : List κ} (h : l ⊆ l') : l.dedup.length ≤ l'.dedup.length := by
  refine (List.subperm_of_subset (List.nodup_dedup l) ?_).length_le
  intro k hk
  exact List.mem_dedup.mpr (h (List.mem_dedup.mp hk))

/-- Cutting each list at `K` leaves all keys, or at least `K`. -/
theorem windows_count {parts : List (List α)} (hparts : ∀ l ∈ parts, (l.map key).Nodup)
    (K : Nat) : min (keyCount key parts) K ≤ keyCount key (parts.map (List.take K)) ∧
      keyCount key (parts.map (List.take K)) ≤ keyCount key parts := by
  constructor
  · by_cases hshort : ∀ l ∈ parts, l.length ≤ K
    · have hsame : parts.map (List.take K) = parts := by
        conv => rhs; rw [← List.map_id parts]
        exact List.map_congr_left (fun l hl => List.take_of_length_le (hshort l hl))
      rw [hsame]
      exact Nat.min_le_left _ _
    · simp only [not_forall, not_le] at hshort
      obtain ⟨l, hl, hlen⟩ := hshort
      have hnodup : ((l.take K).map key).Nodup :=
        ((List.take_sublist K l).map key).nodup (hparts l hl)
      have hsub : ((l.take K).map key) ⊆ ((parts.map (List.take K)).flatten.map key) := by
        intro k hk
        obtain ⟨a, ha, hk⟩ := List.mem_map.mp hk
        exact List.mem_map.mpr ⟨a, List.mem_flatten.mpr
          ⟨l.take K, List.mem_map.mpr ⟨l, hl, rfl⟩, ha⟩, hk⟩
      have hle := dedup_length_le hsub
      rw [hnodup.dedup, List.length_map, List.length_take_of_le (by omega)] at hle
      exact Nat.le_trans (Nat.min_le_right _ _) hle
  · refine dedup_length_le ?_
    intro k hk
    obtain ⟨a, ha, hk⟩ := List.mem_map.mp hk
    obtain ⟨l', hl', hal⟩ := List.mem_flatten.mp ha
    obtain ⟨l, hl, hcut⟩ := List.mem_map.mp hl'
    rw [← hcut] at hal
    exact List.mem_map.mpr ⟨a, List.mem_flatten.mpr ⟨l, hl, List.mem_of_mem_take hal⟩, hk⟩

end Count
end LogEngine.Lib
