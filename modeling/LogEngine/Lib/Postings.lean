import LogEngine.Lib.GoMap

namespace LogEngine.Lib

/-- A map from keys to sets, as an inverted index keeps it: Go's
`map[κ]map[α]struct{}`. -/
abbrev Postings (κ α : Type) := GoMap κ (GoMap α Unit)

namespace Postings

variable {κ α : Type} [DecidableEq κ] [DecidableEq α]

/-- `x` is in the set under `k`. -/
def posted (m : Postings κ α) (k : κ) (x : α) : Bool :=
  match m.get k with
  | none => false
  | some s => (s.get x).isSome

/-- `if m[k] == nil { m[k] = make(...) }; m[k][x] = struct{}{}`. -/
def add (m : Postings κ α) (k : κ) (x : α) : Postings κ α :=
  m.set k (((m.get k).getD .empty).set x ())

/-- Delete `x` from every set, and every set that this empties. -/
def remove (m : Postings κ α) (x : α) : Postings κ α :=
  m.filterMap (fun s => if (s.delete x).keys = [] then none else some (s.delete x))

/-- No key is kept for an empty set. -/
def Trim (m : Postings κ α) : Prop := ∀ k s, m.get k = some s → s.keys ≠ []

omit [DecidableEq κ] [DecidableEq α] in
@[simp] theorem posted_empty (k : κ) (x : α) : posted (.empty : Postings κ α) k x = false := rfl

theorem posted_add (m : Postings κ α) (k j : κ) (x y : α) :
    posted (add m k x) j y = true ↔ posted m j y = true ∨ (j = k ∧ y = x) := by
  unfold posted add
  rw [GoMap.get_set]
  by_cases hj : j = k
  · subst j
    by_cases hy : y = x
    · simp [hy]
    · cases hm : m.get k <;> simp [hy, GoMap.get_set_ne]
  · simp [hj]

omit [DecidableEq κ] in
theorem posted_remove (m : Postings κ α) (k : κ) (x y : α) :
    posted (remove m x) k y = true ↔ posted m k y = true ∧ y ≠ x := by
  unfold posted remove
  rw [GoMap.get_filterMap]
  cases hm : m.get k with
  | none => simp
  | some s =>
    simp only [Option.bind_some]
    have hdel : (s.delete x).get y = if y = x then none else s.get y := GoMap.get_delete s x y
    split
    · rename_i hnone
      split at hnone
      · rename_i hkeys
        have : (s.delete x).get y = none := by
          rw [← GoMap.not_mem_keys, hkeys]; simp
        rw [hdel] at this
        by_cases hy : y = x <;> simp_all
      · cases hnone
    · rename_i t hsome
      split at hsome
      · cases hsome
      · cases hsome
        rw [hdel]
        by_cases hy : y = x <;> simp [hy]

theorem add_trim {m : Postings κ α} (h : Trim m) (k : κ) (x : α) : Trim (add m k x) := by
  intro j s hs
  rw [add, GoMap.get_set] at hs
  split at hs
  · cases hs
    apply List.ne_nil_of_mem (a := x)
    simp [GoMap.mem_keys_iff]
  · exact h j s hs

omit [DecidableEq κ] in
theorem remove_trim (m : Postings κ α) (x : α) : Trim (remove m x) := by
  intro k s hs
  rw [remove, GoMap.get_filterMap] at hs
  obtain ⟨t, _, ht⟩ := Option.bind_eq_some_iff.mp hs
  split at ht
  · cases ht
  · cases ht; assumption

omit [DecidableEq κ] [DecidableEq α] in
/-- In a trimmed map a key is present exactly when something is posted under it. -/
theorem mem_keys_posted {m : Postings κ α} (h : Trim m) (k : κ) :
    k ∈ m.keys ↔ ∃ x, posted m k x = true := by
  rw [GoMap.mem_keys_iff]
  constructor
  · rintro ⟨s, hs⟩
    obtain ⟨x, hx⟩ := List.exists_mem_of_ne_nil _ (h k s hs)
    exact ⟨x, by simpa [posted, hs] using (s.mem_keys x).mp hx⟩
  · rintro ⟨x, hx⟩
    unfold posted at hx
    cases hm : m.get k with
    | none => simp [hm] at hx
    | some s => exact ⟨s, rfl⟩

end Postings
end LogEngine.Lib
