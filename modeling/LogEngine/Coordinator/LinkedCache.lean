import Mathlib.Data.List.Nodup
import LogEngine.Lib.DoublyLinked
import LogEngine.Lib.GoMap

namespace LogEngine.Coordinator
open Lib DoublyLinked

/-- The key, result and time of a `cacheEntry`. -/
structure Item (κ ρ : Type) where
  key : κ
  result : ρ
  insertedAt : Int
  deriving DecidableEq, Inhabited

/-- `QueryCache` with its cells: a `cacheEntry` is a cell of the heap, and the map gives the
address of a key's cell. -/
structure LinkedCache (κ ρ : Type) where
  ttl : Int
  maxSize : Int
  heap : Heap (Item κ ρ)
  items : GoMap κ Nat
  head : Nat
  tail : Nat

namespace LinkedCache

variable {κ ρ : Type}

/-- `NewQueryCache`: two sentinels that point to each other. -/
def new [Inhabited κ] [Inhabited ρ] (ttl maxSize : Int) : LinkedCache κ ρ where
  ttl
  maxSize
  heap := [⟨default, none, some 1⟩, ⟨default, some 0, none⟩]
  items := .empty
  head := 0
  tail := 1

def insertFront (c : LinkedCache κ ρ) (e : Nat) : Option (LinkedCache κ ρ) := do
  let heap ← c.heap.insertAfter c.head e
  some { c with heap }

def moveToFront (c : LinkedCache κ ρ) (e : Nat) : Option (LinkedCache κ ρ) := do
  let heap ← c.heap.unlink e
  { c with heap }.insertFront e

variable [DecidableEq κ]

def remove (c : LinkedCache κ ρ) (e : Nat) : Option (LinkedCache κ ρ) := do
  let heap ← c.heap.unlink e
  let cell ← heap[e]?
  some { c with heap, items := c.items.delete cell.value.key }

def evictLRU (c : LinkedCache κ ρ) : Option (LinkedCache κ ρ) := do
  let last ← c.heap[c.tail]?
  if last.prev = some c.head then some c
  else
    let lru ← last.prev
    c.remove lru

/-- `Get` at a time. The outer option is `none` where the code would dereference nil. -/
def get (c : LinkedCache κ ρ) (now : Int) (key : κ) : Option (LinkedCache κ ρ × Option ρ) :=
  match c.items.get key with
  | none => some (c, none)
  | some e => do
    let cell ← c.heap[e]?
    if now - cell.value.insertedAt > c.ttl then
      let c ← c.remove e
      some (c, none)
    else
      let c ← c.moveToFront e
      let cell ← c.heap[e]?
      some (c, some cell.value.result)

def put (c : LinkedCache κ ρ) (now : Int) (key : κ) (result : ρ) : Option (LinkedCache κ ρ) :=
  match c.items.get key with
  | some e => do
    let cell ← c.heap[e]?
    let heap ← c.heap.setValue (some e) { cell.value with result, insertedAt := now }
    { c with heap }.moveToFront e
  | none => do
    let c ← if c.items.keys.length ≥ c.maxSize then c.evictLRU else some c
    let new := c.heap.alloc ⟨key, result, now⟩
    { c with heap := new.1, items := c.items.set key new.2 }.insertFront new.2

end LinkedCache

/-- A call of the cache, with the time at which it is made. -/
inductive CacheCall (κ ρ : Type) where
  | get (now : Int) (key : κ)
  | put (now : Int) (key : κ) (result : ρ)

/-- The cache that `QueryCache` implements: its entries, most recently used first. -/
abbrev Recent (κ ρ : Type) := List (Item κ ρ)

namespace Recent

variable {κ ρ : Type} [DecidableEq κ]

def without (l : Recent κ ρ) (key : κ) : Recent κ ρ := l.filter (fun item => item.key ≠ key)

def get (l : Recent κ ρ) (ttl now : Int) (key : κ) : Recent κ ρ × Option ρ :=
  match l.find? (fun item => item.key = key) with
  | none => (l, none)
  | some item =>
    if now - item.insertedAt ≤ ttl then (item :: l.without key, some item.result)
    else (l.without key, none)

def put (l : Recent κ ρ) (maxSize now : Int) (key : κ) (result : ρ) : Recent κ ρ :=
  if l.any (fun item => item.key = key) then ⟨key, result, now⟩ :: l.without key
  else if l.length ≥ maxSize then ⟨key, result, now⟩ :: l.dropLast
  else ⟨key, result, now⟩ :: l

/-- A history of calls, with the answers to its `Get` calls. -/
def run (ttl maxSize : Int) : Recent κ ρ → List (CacheCall κ ρ) → Recent κ ρ × List (Option ρ)
  | l, [] => (l, [])
  | l, .get now key :: calls =>
    let got := l.get ttl now key
    let rest := run ttl maxSize got.1 calls
    (rest.1, got.2 :: rest.2)
  | l, .put now key result :: calls => run ttl maxSize (l.put maxSize now key result) calls

end Recent

namespace LinkedCache

variable {κ ρ : Type} [DecidableEq κ]

def run : LinkedCache κ ρ → List (CacheCall κ ρ) → Option (LinkedCache κ ρ × List (Option ρ))
  | c, [] => some (c, [])
  | c, .get now key :: calls => do
    let got ← c.get now key
    let rest ← run got.1 calls
    some (rest.1, got.2 :: rest.2)
  | c, .put now key result :: calls => do
    let c ← c.put now key result
    run c calls

/-- The list between the sentinels is linked in both directions, and holds each entry of the
map once. -/
structure Holds (c : LinkedCache κ ρ) (nodes : List (Nat × Item κ ρ)) : Prop where
  linked : Linked c.heap (c.head :: (nodes.map Prod.fst ++ [c.tail]))
  values : ∀ x ∈ nodes, c.heap.valueOf x.1 = some x.2
  keys : (nodes.map (fun x => x.2.key)).Nodup
  items : ∀ key a, c.items.get key = some a ↔ ∃ item, (a, item) ∈ nodes ∧ item.key = key

/-- Caches that differ in their list and map only. -/
structure SameLimits (c c' : LinkedCache κ ρ) : Prop where
  ttl : c'.ttl = c.ttl
  maxSize : c'.maxSize = c.maxSize

variable {c : LinkedCache κ ρ} {nodes xs ys : List (Nat × Item κ ρ)} {a : Nat} {item : Item κ ρ}

section Links

omit [DecidableEq κ]

theorem new_holds [Inhabited κ] [Inhabited ρ] (ttl maxSize : Int) :
    (new ttl maxSize : LinkedCache κ ρ).Holds [] where
  linked := by
    refine ⟨by simp [new], ?_, by simp [new, Heap.prevOf], by simp [new, Heap.nextOf]⟩
    simp [new, Link, Heap.nextOf, Heap.prevOf]
  values := by simp
  keys := by simp
  items := by simp [new]

theorem Holds.cell (h : c.Holds nodes) (ha : (a, item) ∈ nodes) :
    ∃ cell, c.heap[a]? = some cell ∧ cell.value = item := by
  have hvalue := h.values _ ha
  obtain ⟨cell, hcell, -, -, hv⟩ := cell_of_lt (lt_of_field hvalue)
  exact ⟨cell, hcell, Option.some.inj (hv.symm.trans hvalue)⟩

/-- The list with the cell of one entry shown. -/
theorem Holds.middle (h : c.Holds (xs ++ (a, item) :: ys)) :
    Linked c.heap ((c.head :: xs.map Prod.fst) ++ a :: (ys.map Prod.fst ++ [c.tail])) := by
  have hlinked := h.linked
  rwa [List.map_append, List.map_cons, List.append_assoc, List.cons_append,
    ← List.cons_append] at hlinked

/-- Unlinking an entry's cell leaves the other entries linked. -/
theorem Holds.unlink (h : c.Holds (xs ++ (a, item) :: ys)) :
    ∃ heap, c.heap.unlink a = some heap ∧ Wrote c.heap heap ∧
      Linked heap (c.head :: ((xs ++ ys).map Prod.fst ++ [c.tail])) := by
  obtain ⟨heap, hunlink, hrest, hw⟩ := h.middle.unlink (by simp) (by simp)
  refine ⟨heap, hunlink, hw, ?_⟩
  rwa [List.map_append, List.append_assoc, ← List.cons_append]

theorem Holds.address_unique (h : c.Holds (xs ++ (a, item) :: ys)) :
    a ∉ c.head :: ((xs ++ ys).map Prod.fst ++ [c.tail]) := by
  have hnot := (List.nodup_cons.mp (List.nodup_middle.mp h.middle.nodup)).1
  rwa [List.cons_append, ← List.append_assoc, ← List.map_append] at hnot

theorem Holds.key_unique (h : c.Holds (xs ++ (a, item) :: ys)) :
    ((xs ++ ys).map (fun x => x.2.key)).Nodup ∧ ∀ x ∈ xs ++ ys, x.2.key ≠ item.key := by
  have hkeys := h.keys
  rw [List.map_append, List.map_cons, List.nodup_middle, List.nodup_cons, ← List.map_append,
    List.mem_map] at hkeys
  exact ⟨hkeys.2, fun x hx heq => hkeys.1 ⟨x, hx, heq⟩⟩

theorem mem_middle {x : Nat × Item κ ρ} :
    x ∈ xs ++ (a, item) :: ys ↔ x = (a, item) ∨ x ∈ xs ++ ys := by
  rw [List.perm_middle.mem_iff, List.mem_cons]

theorem Holds.moveToFront (h : c.Holds (xs ++ (a, item) :: ys)) :
    ∃ c', c.moveToFront a = some c' ∧ c'.Holds ((a, item) :: (xs ++ ys)) ∧ SameLimits c c' := by
  obtain ⟨heap, hunlink, hw, hrest⟩ := h.unlink
  have hlt : a < heap.length := lt_of_field ((hw.values a).trans (h.values (a, item) (by simp)))
  obtain ⟨heap', hinsert, hlinked, hw'⟩ :=
    hrest.insertAfter (by simp) h.address_unique hlt
  refine ⟨{ c with heap := heap' }, ?_, ⟨hlinked, fun x hx => ?_, ?_, fun key b => ?_⟩, rfl, rfl⟩
  · simp only [LinkedCache.moveToFront, LinkedCache.insertFront, hunlink, hinsert,
      Option.bind_eq_bind, Option.bind_some]
  · refine ((hw.trans hw').values x.1).trans (h.values x ?_)
    exact mem_middle.mpr (List.mem_cons.mp hx)
  · exact (List.perm_middle.map _).nodup_iff.mp h.keys
  · refine (h.items key b).trans (exists_congr fun other => and_congr_left fun _ => ?_)
    rw [mem_middle, List.mem_cons]

/-- Storing a new result and time in the cell of a key. -/
theorem Holds.setValue (h : c.Holds (xs ++ (a, item) :: ys)) (item' : Item κ ρ)
    (hkey : item'.key = item.key) :
    ∃ heap, c.heap.setValue (some a) item' = some heap ∧
      { c with heap }.Holds (xs ++ (a, item') :: ys) := by
  have hlt : a < c.heap.length := lt_of_field (h.values (a, item) (by simp))
  obtain ⟨heap, hset, hnext, hprev, hvalue⟩ := setValue_some item' hlt
  refine ⟨heap, hset, ⟨?_, fun x hx => ?_, ?_, fun key b => ?_⟩⟩
  · have hlinked := h.linked.congr hnext hprev
    simpa only [List.map_append, List.map_cons] using hlinked
  · rcases mem_middle.mp hx with rfl | hx
    · rw [hvalue, if_pos rfl]
    · have hne : x.1 ≠ a := by
        intro heq
        refine h.address_unique (List.mem_cons_of_mem _ (List.mem_append_left _ ?_))
        exact heq ▸ List.mem_map_of_mem hx
      rw [hvalue, if_neg hne]
      exact h.values x (mem_middle.mpr (.inr hx))
  · have hkeys := h.keys
    simpa only [List.map_append, List.map_cons, hkey] using hkeys
  · refine (h.items key b).trans ?_
    simp only [mem_middle, or_and_right, exists_or, Prod.mk.injEq]
    refine or_congr_left ⟨?_, ?_⟩
    · rintro ⟨_, ⟨rfl, rfl⟩, hk⟩
      exact ⟨item', ⟨rfl, rfl⟩, hkey.trans hk⟩
    · rintro ⟨_, ⟨rfl, rfl⟩, hk⟩
      exact ⟨item, ⟨rfl, rfl⟩, hkey.symm.trans hk⟩

/-- The cell before the last sentinel. -/
theorem Holds.last (h : c.Holds (xs ++ [(a, item)])) :
    ∃ cell, c.heap[c.tail]? = some cell ∧ cell.prev = some a ∧ a ≠ c.head := by
  have hmiddle := h.middle
  have hlink := (List.isChain_append_cons_cons.mp hmiddle.chain).2.1
  obtain ⟨cell, hcell, -, hprev, -⟩ := cell_of_lt (lt_of_field hlink.2)
  refine ⟨cell, hcell, hprev.symm.trans hlink.2, ?_⟩
  rintro rfl
  exact h.address_unique List.mem_cons_self

theorem Holds.empty (h : c.Holds []) :
    ∃ cell, c.heap[c.tail]? = some cell ∧ cell.prev = some c.head := by
  have hlink := (List.isChain_cons_cons.mp h.linked.chain).1
  obtain ⟨cell, hcell, -, hprev, -⟩ := cell_of_lt (lt_of_field hlink.2)
  exact ⟨cell, hcell, hprev.symm.trans hlink.2⟩

end Links

theorem Holds.remove (h : c.Holds (xs ++ (a, item) :: ys)) :
    ∃ c', c.remove a = some c' ∧ c'.Holds (xs ++ ys) ∧ SameLimits c c' := by
  obtain ⟨heap, hunlink, hw, hlinked⟩ := h.unlink
  have hvalue : heap.valueOf a = some item := (hw.values a).trans (h.values (a, item) (by simp))
  obtain ⟨cell, hcell, -, -, hv⟩ := cell_of_lt (lt_of_field hvalue)
  obtain rfl : cell.value = item := Option.some.inj (hv.symm.trans hvalue)
  obtain ⟨hkeys, hunique⟩ := h.key_unique
  refine ⟨{ c with heap, items := c.items.delete cell.value.key }, ?_,
    ⟨hlinked, fun x hx => ?_, hkeys, fun key b => ?_⟩, rfl, rfl⟩
  · simp only [LinkedCache.remove, hunlink, hcell, Option.bind_eq_bind, Option.bind_some]
  · exact (hw.values x.1).trans (h.values x (mem_middle.mpr (.inr hx)))
  · rw [GoMap.get_delete]
    by_cases hkey : key = cell.value.key
    · rw [if_pos hkey]
      refine iff_of_false (by simp) ?_
      rintro ⟨other, hother, hsame⟩
      exact hunique _ hother (hsame.trans hkey)
    · rw [if_neg hkey, h.items]
      refine exists_congr fun other => and_congr_left fun hsame => ?_
      rw [mem_middle]
      refine or_iff_right fun heq => ?_
      cases heq
      exact hkey hsame.symm

theorem Holds.evictLRU (h : c.Holds nodes) :
    ∃ c', c.evictLRU = some c' ∧ c'.Holds nodes.dropLast ∧ SameLimits c c' := by
  rcases List.eq_nil_or_concat nodes with rfl | ⟨xs, x, rfl⟩
  · obtain ⟨cell, hcell, hprev⟩ := h.empty
    refine ⟨c, ?_, h, rfl, rfl⟩
    simp only [LinkedCache.evictLRU, hcell, hprev, if_true, Option.bind_eq_bind, Option.bind_some]
  · obtain ⟨a, item⟩ := x
    rw [List.concat_eq_append] at h ⊢
    obtain ⟨cell, hcell, hprev, hne⟩ := h.last
    obtain ⟨c', hremove, hholds, hsame⟩ := h.remove
    rw [List.append_nil] at hholds
    rw [List.dropLast_concat]
    refine ⟨c', ?_, hholds, hsame⟩
    simp only [LinkedCache.evictLRU, hcell, hprev, Option.some.injEq, hne, if_false, hremove,
      Option.bind_eq_bind, Option.bind_some]

/-- A new entry at the front, for a key that the cache does not have. -/
theorem Holds.insertNew (h : c.Holds nodes) (item : Item κ ρ)
    (hkey : c.items.get item.key = none) :
    let new := c.heap.alloc item
    ∃ c', { c with heap := new.1, items := c.items.set item.key new.2 }.insertFront new.2 =
        some c' ∧
      c'.Holds ((c.heap.length, item) :: nodes) ∧ SameLimits c c' := by
  intro new
  obtain ⟨hnext, hprev, hvalue⟩ := alloc_fields c.heap item
  have hfresh : c.heap.length ∉ c.head :: (nodes.map Prod.fst ++ [c.tail]) :=
    fun hmem => Nat.lt_irrefl _ (h.linked.lt (by simp) _ hmem)
  have hlt : c.heap.length < new.1.length := by simp [new, Heap.alloc]
  have habsent : ∀ x ∈ nodes, x.2.key ≠ item.key := by
    intro x hx heq
    have hget := (h.items item.key x.1).mpr ⟨x.2, hx, heq⟩
    rw [hkey] at hget
    cases hget
  obtain ⟨heap, hinsert, hlinked, hw⟩ :=
    (h.linked.congr hnext hprev).insertAfter (by simp) hfresh hlt
  refine ⟨{ c with heap, items := c.items.set item.key new.2 },
    Option.bind_eq_some_iff.mpr ⟨heap, hinsert, rfl⟩, ⟨hlinked, ?_, ?_, fun key b => ?_⟩, rfl, rfl⟩
  · intro x hx
    rw [hw.values, hvalue]
    rcases List.mem_cons.mp hx with rfl | hx
    · rw [if_pos rfl]
    · have hvalue := h.values x hx
      rw [if_neg (Nat.ne_of_lt (lt_of_field hvalue)), hvalue]
  · exact List.nodup_cons.mpr ⟨by simpa using habsent, h.keys⟩
  · rw [GoMap.get_set]
    by_cases hk : key = item.key
    · rw [if_pos hk, Option.some.injEq]
      constructor
      · rintro rfl
        exact ⟨item, List.mem_cons_self, hk.symm⟩
      · rintro ⟨other, hother, hsame⟩
        rcases List.mem_cons.mp hother with heq | hother
        · exact (Prod.mk.inj heq).1.symm
        · exact absurd (hsame.trans hk) (habsent _ hother)
    · rw [if_neg hk, h.items]
      refine exists_congr fun other => and_congr_left fun hsame => ?_
      rw [List.mem_cons]
      refine (or_iff_right fun heq => ?_).symm
      obtain ⟨-, rfl⟩ := Prod.mk.inj heq
      exact hk hsame.symm

end LinkedCache
end LogEngine.Coordinator
