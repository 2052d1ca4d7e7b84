import LogEngine.Lib.Firsts
import LogEngine.Lib.GoMap

namespace LogEngine.Lib

variable {α β : Type}

/-- The order in which one `range` over a map visits its keys. Go promises none. -/
structure Order (α : Type) where
  arrange : List α → List α
  perm : ∀ l, (arrange l).Perm l

namespace Order

def listed : Order α := ⟨id, fun _ => .refl _⟩

def reversed : Order α := ⟨List.reverse, List.reverse_perm⟩

theorem mem (o : Order α) {l : List α} {a : α} : a ∈ o.arrange l ↔ a ∈ l := (o.perm l).mem_iff

theorem nodup (o : Order α) {l : List α} (h : l.Nodup) : (o.arrange l).Nodup :=
  (o.perm l).nodup_iff.mpr h

end Order

/-- Where one key alone has an answer, a range finds just that. -/
theorem filterMap_single {f : α → Option β} {l : List α} {a : α} {t : β}
    (hnodup : l.Nodup) (ha : a ∈ l) (hsome : f a = some t)
    (hnone : ∀ i ∈ l, i ≠ a → f i = none) : l.filterMap f = [t] := by
  induction l with
  | nil => cases ha
  | cons i l ih =>
    obtain ⟨hi, hl⟩ := List.nodup_cons.mp hnodup
    by_cases heq : i = a
    · rw [List.filterMap_cons_some (heq ▸ hsome), List.filterMap_eq_nil_iff.mpr]
      intro j hj
      exact hnone j (List.mem_cons_of_mem _ hj) (fun hja => hi (by rw [heq, ← hja]; exact hj))
    · rw [List.filterMap_cons_none (hnone i List.mem_cons_self heq)]
      exact ih hl ((List.mem_cons.mp ha).resolve_left (fun h => heq h.symm))
        (fun j hj => hnone j (List.mem_cons_of_mem _ hj))

/-- `sort.Strings` and `sort.Ints`. -/
def sorted [LinearOrder α] (l : List α) : List α := l.insertionSort (· ≤ ·)

section Sorted

variable [LinearOrder α]

theorem mem_sorted {l : List α} {a : α} : a ∈ sorted l ↔ a ∈ l := List.mem_insertionSort _

theorem sorted_pairwise {l : List α} (h : l.Nodup) : (sorted l).Pairwise (· < ·) := by
  have hle : (sorted l).Pairwise (· ≤ ·) := List.pairwise_insertionSort _ _
  have hnodup : (sorted l).Nodup := (List.perm_insertionSort _ l).nodup_iff.mpr h
  exact (hle.and hnodup).imp (fun h => lt_of_le_of_ne h.1 h.2)

/-- Sorting gives the one ascending list of the elements. -/
theorem sorted_eq {l l' : List α} (hl : l.Nodup) (hl' : l'.Pairwise (· < ·))
    (hmem : ∀ a, a ∈ l ↔ a ∈ l') : sorted l = l' := by
  have hsorted := sorted_pairwise hl
  have hties : ∀ a b : α, a ≤ b → b ≤ a → id a = id b := fun a b => le_antisymm
  refine eq_of_sorted hties ?_ ?_ ?_ ?_ ?_
  · rw [List.map_id]
    exact hsorted.imp ne_of_lt
  · rw [List.map_id]
    exact hl'.imp ne_of_lt
  · exact hsorted.imp le_of_lt
  · exact hl'.imp le_of_lt
  · exact fun a => mem_sorted.trans (hmem a)

/-- An ascending list is left as it is. -/
theorem sorted_of_pairwise {l : List α} (h : l.Pairwise (· < ·)) : sorted l = l :=
  sorted_eq (h.imp ne_of_lt) h (fun _ => .rfl)

end Sorted

namespace GoMap

variable [DecidableEq α]

/-- `v := m[k]; v = f(v); m[k] = v`, where a missing key reads as the zero value. -/
def modify [Inhabited β] (m : GoMap α β) (k : α) (f : β → β) : GoMap α β :=
  m.set k (f ((m.get k).getD default))

/-- `for k, v := range m { m[k] = f(k, v) }`. -/
def rewrite [Inhabited β] (m : GoMap α β) (o : Order α) (f : α → β → β) : GoMap α β :=
  (o.arrange m.keys).foldl (fun m k => m.modify k (f k)) m

/-- `for k, v := range m { out[k] = f(v) }` into a new map. -/
def copy [Inhabited β] (m : GoMap α β) (o : Order α) (f : β → β) : GoMap α β :=
  (o.arrange m.keys).foldl (fun out k => out.set k (f ((m.get k).getD default))) .empty

theorem get_modify [Inhabited β] (m : GoMap α β) (k j : α) (f : β → β) :
    (m.modify k f).get j = if j = k then some (f ((m.get k).getD default)) else m.get j := rfl

theorem foldl_modify_get [Inhabited β] (f : α → β → β) {ks : List α} (hks : ks.Nodup)
    (m : GoMap α β) (k : α) : (ks.foldl (fun m k => m.modify k (f k)) m).get k =
      if k ∈ ks then some (f k ((m.get k).getD default)) else m.get k := by
  induction ks generalizing m with
  | nil => simp
  | cons j ks ih =>
    obtain ⟨hj, hks⟩ := List.nodup_cons.mp hks
    rw [List.foldl_cons, ih hks, get_modify]
    by_cases hk : k = j
    · subst hk
      simp [hj]
    · simp [hk]

/-- Rewriting the values in place does not depend on the order. -/
@[simp] theorem get_rewrite [Inhabited β] (m : GoMap α β) (o : Order α) (f : α → β → β) (k : α) :
    (m.rewrite o f).get k = (m.get k).map (f k) := by
  rw [rewrite, foldl_modify_get f (o.nodup m.nodup)]
  simp only [o.mem, m.mem_keys]
  cases m.get k <;> simp

theorem foldl_set_get (f : α → β) (ks : List α) (m : GoMap α β) (k : α) :
    (ks.foldl (fun m k => m.set k (f k)) m).get k =
      if k ∈ ks then some (f k) else m.get k := by
  induction ks generalizing m with
  | nil => simp
  | cons j ks ih =>
    rw [List.foldl_cons, ih, get_set]
    by_cases hk : k = j <;> simp [hk]

@[simp] theorem get_copy [Inhabited β] (m : GoMap α β) (o : Order α) (f : β → β) (k : α) :
    (m.copy o f).get k = (m.get k).map f := by
  rw [copy, foldl_set_get (fun k => f ((m.get k).getD default))]
  simp only [o.mem, m.mem_keys]
  cases m.get k <;> simp

/-- A map whose values know their keys survives being listed and collected again. -/
theorem get_collect [Inhabited β] {γ δ : Type} (m : GoMap α β) (o : Order α) {f : β → γ}
    (key : γ → α) (g : γ → δ) (hkey : ∀ k v, m.get k = some v → key (f v) = k) (k : α) :
    (((o.arrange m.keys).map (fun k => f ((m.get k).getD default))).foldl
      (fun (out : GoMap α δ) c => out.set (key c) (g c)) .empty).get k =
        (m.get k).map (fun v => g (f v)) := by
  have hkeys : ((o.arrange m.keys).map (fun k => f ((m.get k).getD default))).foldl
      (fun (out : GoMap α δ) c => out.set (key c) (g c)) .empty =
      (o.arrange m.keys).foldl
        (fun out k => out.set k (g (f ((m.get k).getD default)))) .empty := by
    rw [List.foldl_map]
    refine List.foldl_ext _ _ _ (fun out j hj => ?_)
    obtain ⟨v, hv⟩ := m.mem_keys_iff.mp (o.mem.mp hj)
    rw [hv, Option.getD_some, hkey j v hv]
  rw [hkeys, foldl_set_get (fun k => g (f ((m.get k).getD default)))]
  simp only [o.mem, m.mem_keys]
  cases m.get k <;> simp

end GoMap
end LogEngine.Lib
