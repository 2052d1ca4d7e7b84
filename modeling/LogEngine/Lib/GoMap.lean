namespace LogEngine.Lib

/-- A finite map in the manner of a Go `map`: the keys present, each once and in
no promised order, and the lookup function they determine. -/
structure GoMap (α β : Type) where
  keys : List α
  get : α → Option β
  nodup : keys.Nodup
  mem_keys : ∀ k, k ∈ keys ↔ (get k).isSome = true

namespace GoMap

variable {α β γ : Type}

def empty : GoMap α β := ⟨[], fun _ => none, .nil, by simp⟩

instance : Inhabited (GoMap α β) := ⟨empty⟩

/-- `m[k] = v`. -/
def set [DecidableEq α] (m : GoMap α β) (k : α) (v : β) : GoMap α β where
  keys := if k ∈ m.keys then m.keys else m.keys ++ [k]
  get := fun j => if j = k then some v else m.get j
  nodup := by
    split
    · exact m.nodup
    · rename_i h
      refine List.nodup_append.mpr ⟨m.nodup, by simp, ?_⟩
      intro a ha b hb he
      rw [List.mem_singleton] at hb
      exact h (hb ▸ he ▸ ha)
  mem_keys := by
    intro j
    split <;> rename_i h <;> by_cases hj : j = k
    · simp [hj, h]
    · simp [hj, m.mem_keys j]
    · simp [hj]
    · simp [hj, m.mem_keys j]

/-- `delete(m, k)`. -/
def delete [DecidableEq α] (m : GoMap α β) (k : α) : GoMap α β where
  keys := m.keys.filter (· ≠ k)
  get := fun j => if j = k then none else m.get j
  nodup := m.nodup.filter _
  mem_keys := by
    intro j
    by_cases hj : j = k <;> simp [hj, m.mem_keys]

/-- Rewrite every value in place and drop the keys whose value becomes `none`. -/
def filterMap (m : GoMap α β) (f : β → Option γ) : GoMap α γ where
  keys := m.keys.filter (fun k => ((m.get k).bind f).isSome)
  get := fun k => (m.get k).bind f
  nodup := m.nodup.filter _
  mem_keys := by
    intro k
    cases h : m.get k <;> simp [h, m.mem_keys]

@[simp] theorem get_empty (k : α) : (empty : GoMap α β).get k = none := rfl

theorem get_set [DecidableEq α] (m : GoMap α β) (k j : α) (v : β) :
    (m.set k v).get j = if j = k then some v else m.get j := rfl

@[simp] theorem get_set_self [DecidableEq α] (m : GoMap α β) (k : α) (v : β) :
    (m.set k v).get k = some v := by
  simp [get_set]

theorem get_set_ne [DecidableEq α] (m : GoMap α β) {k j : α} (v : β) (h : j ≠ k) :
    (m.set k v).get j = m.get j := by
  simp [get_set, h]

theorem get_delete [DecidableEq α] (m : GoMap α β) (k j : α) :
    (m.delete k).get j = if j = k then none else m.get j := rfl

@[simp] theorem get_delete_self [DecidableEq α] (m : GoMap α β) (k : α) :
    (m.delete k).get k = none := by
  simp [get_delete]

theorem get_delete_ne [DecidableEq α] (m : GoMap α β) {k j : α} (h : j ≠ k) :
    (m.delete k).get j = m.get j := by
  simp [get_delete, h]

@[simp] theorem get_filterMap (m : GoMap α β) (f : β → Option γ) (k : α) :
    (m.filterMap f).get k = (m.get k).bind f := rfl

theorem mem_keys_iff (m : GoMap α β) {k : α} : k ∈ m.keys ↔ ∃ v, m.get k = some v := by
  rw [m.mem_keys, Option.isSome_iff_exists]

theorem not_mem_keys (m : GoMap α β) {k : α} : k ∉ m.keys ↔ m.get k = none := by
  rw [m.mem_keys]
  cases m.get k <;> simp

end GoMap
end LogEngine.Lib
