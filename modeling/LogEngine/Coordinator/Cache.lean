import LogEngine.Lib.GoMap

namespace LogEngine.Coordinator
open Lib

/-- `cacheEntry`: the result and the time it was put, on a clock in nanoseconds. -/
structure CacheEntry (ρ : Type) where
  result : ρ
  insertedAt : Int
  deriving DecidableEq

/-- `QueryCache`. The linked list is given by its keys, most recently used first; every entry is in
the map and in the list. -/
structure QueryCache (κ ρ : Type) where
  ttl : Int
  maxSize : Int
  items : GoMap κ (CacheEntry ρ)
  list : List κ
  nodup : list.Nodup
  linked : ∀ k, k ∈ list ↔ (items.get k).isSome = true

namespace QueryCache

variable {κ ρ : Type} [DecidableEq κ]

def new (ttl maxSize : Int) : QueryCache κ ρ where
  ttl
  maxSize
  items := .empty
  list := []
  nodup := List.nodup_nil
  linked := fun _ => by simp only [List.not_mem_nil, GoMap.get_empty, Option.isSome_none,
    Bool.false_eq_true]

def remove (c : QueryCache κ ρ) (k : κ) : QueryCache κ ρ where
  ttl := c.ttl
  maxSize := c.maxSize
  items := c.items.delete k
  list := c.list.filter (· ≠ k)
  nodup := c.nodup.filter _
  linked := by
    intro j
    rw [List.mem_filter, c.linked, GoMap.get_delete]
    by_cases hj : j = k <;> simp [hj]

/-- An entry stored under `k` and moved or inserted to the front. -/
def store (c : QueryCache κ ρ) (k : κ) (e : CacheEntry ρ) : QueryCache κ ρ where
  ttl := c.ttl
  maxSize := c.maxSize
  items := c.items.set k e
  list := k :: c.list.filter (· ≠ k)
  nodup := List.nodup_cons.mpr ⟨by simp, c.nodup.filter _⟩
  linked := by
    intro j
    rw [List.mem_cons, List.mem_filter, c.linked, GoMap.get_set]
    by_cases hj : j = k <;> simp [hj]

def get (c : QueryCache κ ρ) (now : Int) (k : κ) : QueryCache κ ρ × Option ρ :=
  match c.items.get k with
  | none => (c, none)
  | some e =>
    if c.ttl < now - e.insertedAt then (c.remove k, none)
    else (c.store k e, some e.result)

def evictLRU (c : QueryCache κ ρ) : QueryCache κ ρ :=
  match c.list.getLast? with
  | none => c
  | some k => c.remove k

def put (c : QueryCache κ ρ) (now : Int) (k : κ) (result : ρ) : QueryCache κ ρ :=
  match c.items.get k with
  | some _ => c.store k ⟨result, now⟩
  | none =>
    let c := if c.maxSize ≤ c.items.keys.length then c.evictLRU else c
    c.store k ⟨result, now⟩

/-- Every entry of a cache satisfies a property of its key. -/
def Holds (c : QueryCache κ ρ) (Q : κ → CacheEntry ρ → Prop) : Prop :=
  ∀ k e, c.items.get k = some e → Q k e

variable {c : QueryCache κ ρ} {Q : κ → CacheEntry ρ → Prop}

theorem Holds.remove (h : c.Holds Q) (k : κ) : (c.remove k).Holds Q := by
  intro j e hj
  simp only [QueryCache.remove, GoMap.get_delete] at hj
  split at hj
  · cases hj
  · exact h j e hj

theorem Holds.store (h : c.Holds Q) {k : κ} {e : CacheEntry ρ} (he : Q k e) :
    (c.store k e).Holds Q := by
  intro j d hj
  simp only [QueryCache.store, GoMap.get_set] at hj
  split at hj
  · rename_i hk
    rw [hk, ← Option.some.inj hj]
    exact he
  · exact h j d hj

theorem Holds.get (h : c.Holds Q) (now : Int) (k : κ) : (c.get now k).1.Holds Q := by
  unfold QueryCache.get
  split
  · exact h
  · rename_i e he
    split
    · exact h.remove k
    · exact h.store (h k e he)

theorem Holds.evictLRU (h : c.Holds Q) : c.evictLRU.Holds Q := by
  unfold QueryCache.evictLRU
  split
  · exact h
  · exact h.remove _

theorem Holds.put (h : c.Holds Q) {now : Int} {k : κ} {result : ρ} (hnew : Q k ⟨result, now⟩) :
    (c.put now k result).Holds Q := by
  unfold QueryCache.put
  split
  · exact h.store hnew
  · dsimp only
    split
    · exact h.evictLRU.store hnew
    · exact h.store hnew

omit [DecidableEq κ] in
theorem Holds.mono {Q' : κ → CacheEntry ρ → Prop} (h : c.Holds Q)
    (hmono : ∀ k e, Q k e → Q' k e) : c.Holds Q' := fun k e he => hmono k e (h k e he)

/-- A hit is an entry that has not expired. -/
theorem get_hit {now : Int} {k : κ} {result : ρ} (h : (c.get now k).2 = some result) :
    ∃ t, c.items.get k = some ⟨result, t⟩ ∧ now - t ≤ c.ttl := by
  unfold QueryCache.get at h
  split at h
  · cases h
  · rename_i e he
    split at h
    · cases h
    · rename_i hfresh
      refine ⟨e.insertedAt, ?_, by omega⟩
      rw [he, ← Option.some.inj h]

theorem evictLRU_ttl (c : QueryCache κ ρ) : c.evictLRU.ttl = c.ttl := by
  unfold evictLRU
  split <;> rfl

theorem get_ttl (c : QueryCache κ ρ) (now : Int) (k : κ) : (c.get now k).1.ttl = c.ttl := by
  unfold get
  split
  · rfl
  · split <;> rfl

theorem put_ttl (c : QueryCache κ ρ) (now : Int) (k : κ) (result : ρ) :
    (c.put now k result).ttl = c.ttl := by
  unfold put
  split
  · rfl
  · simp only [store]
    split
    · exact c.evictLRU_ttl
    · rfl

/-- What was just put is found until it expires. -/
theorem get_put (c : QueryCache κ ρ) {t now : Int} (k : κ) (result : ρ) (h : now - t ≤ c.ttl) :
    ((c.put t k result).get now k).2 = some result := by
  have hitem : (c.put t k result).items.get k = some ⟨result, t⟩ := by
    unfold put
    split <;> simp [store]
  have hfresh : ¬ (c.put t k result).ttl < now - t := by
    rw [put_ttl]
    omega
  simp only [get, hitem, if_neg hfresh]

end QueryCache
end LogEngine.Coordinator
