import Mathlib.Algebra.BigOperators.Group.List.Basic
import Mathlib.Algebra.Ring.Int.Defs
import Mathlib.Algebra.Ring.Nat
import Mathlib.Data.List.Chain

namespace LogEngine.Lib

variable {α : Type} {limit : Int} {size : α → Nat}

/-- What the items of a bin take up together. -/
def load (size : α → Nat) (bin : List α) : Nat := (bin.map size).sum

/-- An item goes into the last bin, or into a new one where it does not fit there. -/
def place (limit : Int) (size : α → Nat) (bins : List (List α)) (a : α) : List (List α) :=
  let bin := bins.getLast?.getD []
  if load size bin + size a > limit then bins ++ [[a]] else bins.dropLast ++ [bin ++ [a]]

/-- Next-fit packing of items in the order in which they come. -/
def nextFit (limit : Int) (size : α → Nat) (items : List α) : List (List α) :=
  items.foldl (place limit size) [[]]

theorem load_append (size : α → Nat) (b b' : List α) :
    load size (b ++ b') = load size b + load size b' := by
  rw [load, List.map_append, List.sum_append]
  rfl

theorem place_concat (front : List (List α)) (bin : List α) (a : α) :
    place limit size (front ++ [bin]) a =
      if load size bin + size a > limit then front ++ [bin] ++ [[a]]
      else front ++ [bin ++ [a]] := by
  simp only [place, List.getLast?_concat, Option.getD_some, List.dropLast_concat]

theorem nextFit_concat (items : List α) (a : α) :
    nextFit limit size (items ++ [a]) = place limit size (nextFit limit size items) a := by
  rw [nextFit, List.foldl_concat, nextFit]

/-- There is a last bin, and two neighbouring bins never fit into one. -/
theorem nextFit_tight (limit : Int) (size : α → Nat) (items : List α) :
    ∃ front bin, nextFit limit size items = front ++ [bin] ∧ (front ++ [bin]).IsChain
      (fun b b' => limit < load size b + load size b') := by
  induction items using List.reverseRecOn with
  | nil => exact ⟨[], [], rfl, List.isChain_singleton _⟩
  | append_singleton items a ih =>
    obtain ⟨front, bin, hbins, hchain⟩ := ih
    obtain ⟨hfront, -, hlast⟩ := List.isChain_append.mp hchain
    rw [nextFit_concat, hbins, place_concat]
    split
    · rename_i hfull
      refine ⟨front ++ [bin], [a], rfl, List.isChain_append.mpr ⟨hchain, .singleton _, ?_⟩⟩
      intro b hb b' hb'
      rw [List.getLast?_concat, Option.mem_some_iff] at hb
      rw [List.head?_cons, Option.mem_some_iff] at hb'
      rw [← hb, ← hb']
      simpa [load] using hfull
    · refine ⟨front, bin ++ [a], rfl, List.isChain_append.mpr ⟨hfront, .singleton _, ?_⟩⟩
      intro b hb b' hb'
      rw [List.head?_cons, Option.mem_some_iff] at hb'
      have hbefore := hlast b hb bin (by simp)
      rw [← hb', load_append]
      omega

theorem nextFit_flatten (limit : Int) (size : α → Nat) (items : List α) :
    (nextFit limit size items).flatten = items := by
  induction items using List.reverseRecOn with
  | nil => rfl
  | append_singleton items a ih =>
    obtain ⟨front, bin, hbins, -⟩ := nextFit_tight limit size items
    rw [hbins] at ih
    rw [nextFit_concat, hbins, place_concat]
    split <;> simp [← ih]

/-- Bins of which no two neighbours fit into one are half full on average. -/
theorem bins_le {bin : List α} {bins : List (List α)}
    (h : (bin :: bins).IsChain (fun b b' => limit < load size b + load size b')) :
    bins.length * limit + load size bin ≤ 2 * load size (bin :: bins).flatten := by
  induction bins generalizing bin with
  | nil =>
    simp only [List.length_nil, List.flatten_cons, List.flatten_nil, List.append_nil]
    omega
  | cons b bins ih =>
    obtain ⟨hpair, hrest⟩ := List.isChain_cons_cons.mp h
    have hbins := ih hrest
    rw [List.flatten_cons, load_append, List.length_cons]
    push_cast
    rw [add_mul, one_mul]
    omega

/-- Next fit needs at most one bin more than twice what the items fill. -/
theorem nextFit_length (limit : Int) (size : α → Nat) (items : List α) :
    ((nextFit limit size items).length - 1) * limit ≤ 2 * load size items := by
  obtain ⟨front, bin, hbins, hchain⟩ := nextFit_tight limit size items
  rw [← hbins] at hchain
  obtain ⟨b, bins, hcons⟩ := List.exists_cons_of_ne_nil (show nextFit limit size items ≠ [] by
    simp [hbins])
  rw [hcons] at hchain
  have hle := bins_le hchain
  rw [← hcons, nextFit_flatten] at hle
  rw [hcons, List.length_cons]
  push_cast
  rw [add_sub_cancel_right]
  omega

end LogEngine.Lib
