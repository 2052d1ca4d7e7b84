import LogEngine.Coordinator.Cache
import LogEngine.Coordinator.LinkedCache

namespace LogEngine.Coordinator
open Lib DoublyLinked

variable {κ ρ : Type} [DecidableEq κ]

namespace Recent

variable {l xs : Recent κ ρ} {item : Item κ ρ}

theorem map_without (l : Recent κ ρ) (key : κ) :
    (l.without key).map Item.key = (l.map Item.key).filter (· ≠ key) := by
  rw [without, List.filter_map]
  rfl

theorem without_absent {key : κ} (h : ∀ i ∈ l, i.key ≠ key) : l.without key = l :=
  List.filter_eq_self.mpr fun i hi => by simpa using h i hi

/-- An entry whose key no other has is the only one its key takes away. -/
theorem without_middle {ys : Recent κ ρ} (hxs : ∀ i ∈ xs, i.key ≠ item.key)
    (hys : ∀ i ∈ ys, i.key ≠ item.key) : (xs ++ item :: ys).without item.key = xs ++ ys := by
  rw [without, List.filter_append, List.filter_cons_of_neg (by simp)]
  exact congrArg₂ _ (without_absent hxs) (without_absent hys)

end Recent

namespace LinkedCache

variable {c : LinkedCache κ ρ} {nodes xs ys : List (Nat × Item κ ρ)} {a : Nat} {item : Item κ ρ}

omit [DecidableEq κ] in
theorem Holds.get_none (h : c.Holds nodes) {key : κ} (hkey : c.items.get key = none) :
    ∀ i ∈ nodes.map Prod.snd, i.key ≠ key := by
  refine List.forall_mem_map.mpr fun x hx heq => ?_
  have hget := (h.items key x.1).mpr ⟨x.2, hx, heq⟩
  rw [hkey] at hget
  cases hget

omit [DecidableEq κ] in
theorem Holds.absent (h : c.Holds nodes) {key : κ}
    (hkey : ∀ i ∈ nodes.map Prod.snd, i.key ≠ key) : c.items.get key = none := by
  rw [Option.eq_none_iff_forall_ne_some]
  intro a ha
  obtain ⟨item, hmem, heq⟩ := (h.items key a).mp ha
  exact hkey item (List.mem_map_of_mem hmem) heq

omit [DecidableEq κ] in
theorem Holds.get_some (h : c.Holds nodes) {key : κ} (hkey : c.items.get key = some a) :
    ∃ item xs ys, nodes = xs ++ (a, item) :: ys ∧ item.key = key := by
  obtain ⟨item, hmem, heq⟩ := (h.items key a).mp hkey
  obtain ⟨xs, ys, hsplit⟩ := List.append_of_mem hmem
  exact ⟨item, xs, ys, hsplit, heq⟩

/-- The reference list around an entry that it has. -/
theorem Holds.recent (h : c.Holds (xs ++ (a, item) :: ys)) :
    let l : Recent κ ρ := (xs ++ (a, item) :: ys).map Prod.snd
    l.find? (fun i => i.key = item.key) = some item ∧
      l.without item.key = (xs ++ ys).map Prod.snd := by
  obtain ⟨-, hunique⟩ := h.key_unique
  have hxs : ∀ i ∈ xs.map Prod.snd, i.key ≠ item.key :=
    List.forall_mem_map.mpr fun x hx => hunique x (List.mem_append_left _ hx)
  have hys : ∀ i ∈ ys.map Prod.snd, i.key ≠ item.key :=
    List.forall_mem_map.mpr fun x hx => hunique x (List.mem_append_right _ hx)
  constructor
  · rw [List.map_append, List.map_cons, List.find?_append,
      List.find?_eq_none.mpr fun i hi => by simpa using hxs i hi]
    simp
  · rw [List.map_append, List.map_append, List.map_cons]
    exact Recent.without_middle hxs hys

/-- `Get` dereferences no nil and answers as the reference list. -/
theorem Holds.get (h : c.Holds nodes) (now : Int) (key : κ) :
    let got := Recent.get (nodes.map Prod.snd) c.ttl now key
    ∃ c' nodes', c.get now key = some (c', got.2) ∧ c'.Holds nodes' ∧
      nodes'.map Prod.snd = got.1 ∧ SameLimits c c' := by
  cases hkey : c.items.get key with
  | none =>
    have hnone : (nodes.map Prod.snd).find? (fun i => i.key = key) = none :=
      List.find?_eq_none.mpr fun i hi => by simpa using h.get_none hkey i hi
    refine ⟨c, nodes, ?_, h, ?_, rfl, rfl⟩
    · simp only [LinkedCache.get, hkey, Recent.get, hnone]
    · simp only [Recent.get, hnone]
  | some a =>
    obtain ⟨item, xs, ys, rfl, rfl⟩ := h.get_some hkey
    obtain ⟨hfind, hwithout⟩ := h.recent
    obtain ⟨cell, hcell, rfl⟩ := h.cell (List.mem_append_right xs List.mem_cons_self)
    simp only [LinkedCache.get, hkey, Recent.get, hfind, hwithout, hcell, Option.bind_eq_bind,
      Option.bind_some]
    by_cases hold : now - cell.value.insertedAt > c.ttl
    · obtain ⟨c', hremove, hholds, hsame⟩ := h.remove
      refine ⟨c', xs ++ ys, ?_, hholds, ?_, hsame⟩
      · rw [if_pos hold, if_neg (Int.not_le.mpr hold), hremove]
        rfl
      · rw [if_neg (Int.not_le.mpr hold)]
    · obtain ⟨c', hmove, hholds, hsame⟩ := h.moveToFront
      obtain ⟨cell', hcell', hvalue⟩ := hholds.cell List.mem_cons_self
      refine ⟨c', _, ?_, hholds, ?_, hsame⟩
      · rw [if_neg hold, if_pos (Int.not_lt.mp hold), hmove]
        simp only [Option.bind_some, hcell', hvalue]
      · rw [if_pos (Int.not_lt.mp hold)]
        rfl

omit [DecidableEq κ] in
/-- The map has as many entries as the list. -/
theorem Holds.length (h : c.Holds nodes) : c.items.keys.length = nodes.length := by
  have hperm : c.items.keys.Perm (nodes.map (fun x => x.2.key)) := by
    refine (List.perm_ext_iff_of_nodup c.items.nodup h.keys).mpr fun key => ?_
    rw [GoMap.mem_keys_iff, List.mem_map]
    simp only [h.items, Prod.exists]
  rw [hperm.length_eq, List.length_map]

/-- `Put` dereferences no nil and does what the reference list does. -/
theorem Holds.put (h : c.Holds nodes) (now : Int) (key : κ) (result : ρ) :
    ∃ c' nodes', c.put now key result = some c' ∧ c'.Holds nodes' ∧
      nodes'.map Prod.snd = Recent.put (nodes.map Prod.snd) c.maxSize now key result ∧
      SameLimits c c' := by
  cases hkey : c.items.get key with
  | some a =>
    obtain ⟨item, xs, ys, rfl, rfl⟩ := h.get_some hkey
    obtain ⟨-, hwithout⟩ := h.recent
    obtain ⟨cell, hcell, rfl⟩ := h.cell (List.mem_append_right xs List.mem_cons_self)
    have hany : ((xs ++ (a, cell.value) :: ys).map Prod.snd).any
        (fun i => i.key = cell.value.key) = true := by simp
    obtain ⟨heap, hset, hstored⟩ := h.setValue { cell.value with result, insertedAt := now } rfl
    obtain ⟨c', hmove, hholds, hsame⟩ := hstored.moveToFront
    refine ⟨c', _, ?_, hholds, ?_, hsame.ttl, hsame.maxSize⟩
    · simp only [LinkedCache.put, hkey, hcell, hset, hmove, Option.bind_eq_bind, Option.bind_some]
    · rw [Recent.put, if_pos hany, hwithout]
      rfl
  | none =>
    have hany : ¬ (nodes.map Prod.snd).any (fun i => i.key = key) = true := by
      rw [List.any_eq_true]
      rintro ⟨i, hi, heq⟩
      exact h.get_none hkey i hi (by simpa using heq)
    have hlength := h.length
    simp only [LinkedCache.put, hkey, Recent.put, if_neg hany, List.length_map, hlength]
    by_cases hfull : (nodes.length : Int) ≥ c.maxSize
    · obtain ⟨c₁, hevict, hholds₁, hsame₁⟩ := h.evictLRU
      have habsent : c₁.items.get key = none := by
        refine hholds₁.absent fun i hi => h.get_none hkey i ?_
        rw [List.map_dropLast] at hi
        exact List.dropLast_subset _ hi
      obtain ⟨c', hinsert, hholds, hsame⟩ := hholds₁.insertNew ⟨key, result, now⟩ habsent
      refine ⟨c', _, ?_, hholds, ?_, hsame.ttl.trans hsame₁.ttl,
        hsame.maxSize.trans hsame₁.maxSize⟩
      · rw [if_pos hfull, hevict]
        exact hinsert
      · rw [if_pos hfull, List.map_cons, List.map_dropLast]
    · obtain ⟨c', hinsert, hholds, hsame⟩ := h.insertNew ⟨key, result, now⟩ hkey
      refine ⟨c', _, ?_, hholds, ?_, hsame⟩
      · rw [if_neg hfull]
        exact hinsert
      · rw [if_neg hfull]
        rfl

end LinkedCache

namespace Recent

theorem length_without_lt {l : Recent κ ρ} {item : Item κ ρ} (h : item ∈ l) :
    (l.without item.key).length < l.length :=
  List.length_filter_lt_length_iff_exists.mpr ⟨item, h, by simp⟩

theorem length_get (l : Recent κ ρ) (ttl now : Int) (key : κ) :
    (l.get ttl now key).1.length ≤ l.length := by
  unfold get
  split
  · exact Nat.le_refl _
  · rename_i item hitem
    have hlt := length_without_lt (List.mem_of_find?_eq_some hitem)
    obtain rfl : item.key = key := by simpa using List.find?_some hitem
    split
    · exact hlt
    · exact Nat.le_of_lt hlt

theorem length_put (l : Recent κ ρ) {maxSize : Int} (hmax : 1 ≤ maxSize)
    (hl : l.length ≤ maxSize) (now : Int) (key : κ) (result : ρ) :
    (l.put maxSize now key result).length ≤ maxSize := by
  unfold put
  split
  · rename_i hany
    obtain ⟨item, hitem, hkey⟩ := List.any_eq_true.mp hany
    have hlt := length_without_lt hitem
    rw [of_decide_eq_true hkey] at hlt
    rw [List.length_cons]
    omega
  · split
    · rw [List.length_cons, List.length_dropLast]
      omega
    · rw [List.length_cons]
      omega

end Recent

/-- A history of calls on linked cells, by induction on the calls: nothing fails, the list stays
well formed and within its size, and the answers are those of the reference list. -/
theorem LinkedCache.Holds.run {c : LinkedCache κ ρ} {nodes : List (Nat × Item κ ρ)}
    (h : c.Holds nodes) (hmax : 1 ≤ c.maxSize) (hlen : nodes.length ≤ c.maxSize)
    (calls : List (CacheCall κ ρ)) :
    let final := Recent.run c.ttl c.maxSize (nodes.map Prod.snd) calls
    ∃ c' nodes', c.run calls = some (c', final.2) ∧ c'.Holds nodes' ∧
      nodes'.map Prod.snd = final.1 ∧ nodes'.length ≤ c.maxSize := by
  induction calls generalizing c nodes with
  | nil => exact ⟨c, nodes, rfl, h, rfl, hlen⟩
  | cons call calls ih =>
    cases call with
    | get now key =>
      obtain ⟨c₁, nodes₁, hget, hholds, hlist, hsame⟩ := h.get now key
      have hshort : nodes₁.length ≤ c₁.maxSize := by
        have hle := Recent.length_get (nodes.map Prod.snd) c.ttl now key
        rw [← hlist, List.length_map, List.length_map] at hle
        rw [hsame.maxSize]
        omega
      obtain ⟨c', nodes', hrun, hholds', hlist', hlen'⟩ :=
        ih hholds (hsame.maxSize ▸ hmax) hshort
      rw [hsame.ttl, hsame.maxSize, hlist] at hrun hlist'
      rw [hsame.maxSize] at hlen'
      refine ⟨c', nodes', ?_, hholds', hlist', hlen'⟩
      simp only [LinkedCache.run, hget, hrun, Option.bind_eq_bind, Option.bind_some, Recent.run]
    | put now key result =>
      obtain ⟨c₁, nodes₁, hput, hholds, hlist, hsame⟩ := h.put now key result
      have hshort : nodes₁.length ≤ c₁.maxSize := by
        have hle := Recent.length_put (nodes.map Prod.snd) hmax
          (by rwa [List.length_map]) now key result
        rwa [← hlist, List.length_map, ← hsame.maxSize] at hle
      obtain ⟨c', nodes', hrun, hholds', hlist', hlen'⟩ :=
        ih hholds (hsame.maxSize ▸ hmax) hshort
      rw [hsame.ttl, hsame.maxSize, hlist] at hrun hlist'
      rw [hsame.maxSize] at hlen'
      refine ⟨c', nodes', ?_, hholds', hlist', hlen'⟩
      simp only [LinkedCache.run, hput, hrun, Option.bind_eq_bind, Option.bind_some, Recent.run]

/-- `QueryCache` is a least recently used cache: after every history of calls its cells are a
well-formed list of the map's entries, no more than `maxSize`, and the answers have been those
of the list of entries, most recently used first. -/
theorem cache_refines_recent [Inhabited κ] [Inhabited ρ] (ttl maxSize : Int) (hmax : 1 ≤ maxSize)
    (calls : List (CacheCall κ ρ)) :
    let final := Recent.run ttl maxSize [] calls
    ∃ c nodes, (LinkedCache.new ttl maxSize).run calls = some (c, final.2) ∧ c.Holds nodes ∧
      nodes.map Prod.snd = final.1 ∧ c.items.keys.length ≤ maxSize := by
  have hnew := LinkedCache.new_holds (κ := κ) (ρ := ρ) ttl maxSize
  have hpos : 0 ≤ maxSize := by omega
  obtain ⟨c, nodes, hrun, hholds, hlist, hlen⟩ := hnew.run hmax hpos calls
  exact ⟨c, nodes, hrun, hholds, hlist, by rw [hholds.length]; exact hlen⟩

/-- An entry is found, another one evicted, one refreshed, and one expires. -/
def sampleCalls : List (CacheCall String Nat) :=
  [.put 0 "a" 1, .put 1 "b" 2, .get 2 "a", .put 3 "c" 3, .get 4 "b", .put 6 "a" 4, .get 8 "a",
    .get 9 "c"]

theorem cache_refines_recent_sample :
    ∃ c nodes, (LinkedCache.new 5 2).run sampleCalls = some (c, [some 1, none, some 4, none]) ∧
      c.Holds nodes ∧ nodes.map Prod.snd = [⟨"a", 4, 6⟩] ∧ (c.items.keys.length : Int) ≤ 2 := by
  have hrun : Recent.run 5 2 [] sampleCalls = ([⟨"a", 4, 6⟩], [some 1, none, some 4, none]) := by
    decide
  have hall := cache_refines_recent 5 2 (by decide) sampleCalls
  rwa [hrun] at hall

namespace QueryCache

/-- The calls of a history on the cache without cells. -/
def run : QueryCache κ ρ → List (CacheCall κ ρ) → List (Option ρ)
  | _, [] => []
  | q, .get now key :: calls => (q.get now key).2 :: run (q.get now key).1 calls
  | q, .put now key result :: calls => run (q.put now key result) calls

/-- The keys and entries of the cache are those of a reference list. -/
structure Agrees (q : QueryCache κ ρ) (l : Recent κ ρ) : Prop where
  list : q.list = l.map Item.key
  items : ∀ i ∈ l, q.items.get i.key = some ⟨i.result, i.insertedAt⟩

variable {q : QueryCache κ ρ} {l : Recent κ ρ}

omit [DecidableEq κ] in
theorem Agrees.length (h : Agrees q l) : q.items.keys.length = l.length := by
  have hperm : q.items.keys.Perm q.list :=
    (List.perm_ext_iff_of_nodup q.items.nodup q.nodup).mpr fun k =>
      (q.items.mem_keys k).trans (q.linked k).symm
  rw [hperm.length_eq, h.list, List.length_map]

/-- The map finds what the reference list finds. -/
theorem Agrees.lookup (h : Agrees q l) (key : κ) :
    q.items.get key =
      (l.find? (fun i => i.key = key)).map (fun i => ⟨i.result, i.insertedAt⟩) := by
  cases hfind : l.find? (fun i => i.key = key) with
  | none =>
    have habsent : key ∉ q.list := by
      rw [h.list, List.mem_map]
      rintro ⟨i, hi, heq⟩
      exact List.find?_eq_none.mp hfind i hi (by simpa using heq)
    rw [q.linked, Bool.not_eq_true, Option.isSome_eq_false_iff, Option.isNone_iff_eq_none]
      at habsent
    exact habsent
  | some i =>
    obtain rfl : i.key = key := by simpa using List.find?_some hfind
    exact h.items i (List.mem_of_find?_eq_some hfind)

theorem Agrees.remove (h : Agrees q l) (key : κ) : Agrees (q.remove key) (l.without key) where
  list := by
    rw [Recent.map_without, ← h.list]
    rfl
  items := by
    intro i hi
    obtain ⟨hi, hne⟩ := List.mem_filter.mp hi
    rw [QueryCache.remove, GoMap.get_delete_ne _ (by simpa using hne)]
    exact h.items i hi

theorem Agrees.store (h : Agrees q l) (i : Item κ ρ) :
    Agrees (q.store i.key ⟨i.result, i.insertedAt⟩) (i :: l.without i.key) where
  list := by
    rw [List.map_cons, Recent.map_without, ← h.list]
    rfl
  items := by
    intro j hj
    rcases List.mem_cons.mp hj with rfl | hj
    · exact GoMap.get_set_self _ _ _
    · obtain ⟨hj, hne⟩ := List.mem_filter.mp hj
      rw [QueryCache.store, GoMap.get_set_ne _ _ (by simpa using hne)]
      exact h.items j hj

theorem Agrees.evictLRU (h : Agrees q l) : Agrees q.evictLRU l.dropLast := by
  unfold QueryCache.evictLRU
  rcases List.eq_nil_or_concat' l with rfl | ⟨xs, item, rfl⟩
  · have hlist : q.list = [] := h.list
    simp only [hlist, List.getLast?_nil]
    exact h
  · have hlast : q.list.getLast? = some item.key := by
      rw [h.list, List.map_append, List.map_singleton, List.getLast?_concat]
    have hnodup := q.nodup
    rw [h.list, List.map_append, List.nodup_append] at hnodup
    have hxs : ∀ i ∈ xs, i.key ≠ item.key := fun i hi =>
      hnodup.2.2 _ (List.mem_map_of_mem hi) _ List.mem_cons_self
    have hremove := h.remove item.key
    rw [Recent.without_middle hxs (fun i hi => absurd hi List.not_mem_nil),
      List.append_nil] at hremove
    simp only [hlast, List.dropLast_concat]
    exact hremove

/-- `Get` answers as the reference list. -/
theorem Agrees.get (h : Agrees q l) (now : Int) (key : κ) :
    Agrees (q.get now key).1 (l.get q.ttl now key).1 ∧
      (q.get now key).2 = (l.get q.ttl now key).2 := by
  have hlookup := h.lookup key
  cases hfind : l.find? (fun i => i.key = key) with
  | none =>
    rw [hfind, Option.map_none] at hlookup
    rw [QueryCache.get, hlookup, Recent.get, hfind]
    exact ⟨h, rfl⟩
  | some i =>
    rw [hfind, Option.map_some] at hlookup
    obtain rfl : i.key = key := by simpa using List.find?_some hfind
    simp only [QueryCache.get, hlookup, Recent.get, hfind]
    by_cases hold : q.ttl < now - i.insertedAt
    · rw [if_pos hold, if_neg (Int.not_le.mpr hold)]
      exact ⟨h.remove i.key, rfl⟩
    · rw [if_neg hold, if_pos (Int.not_lt.mp hold)]
      exact ⟨h.store i, rfl⟩

/-- `Put` does what the reference list does. -/
theorem Agrees.put (h : Agrees q l) (now : Int) (key : κ) (result : ρ) :
    Agrees (q.put now key result) (l.put q.maxSize now key result) := by
  have hlookup := h.lookup key
  cases hfind : l.find? (fun i => i.key = key) with
  | some i =>
    have hany : l.any (fun i => i.key = key) = true :=
      List.any_eq_true.mpr
        ⟨i, List.mem_of_find?_eq_some hfind, by simpa using List.find?_some hfind⟩
    rw [hfind, Option.map_some] at hlookup
    simp only [QueryCache.put, hlookup, Recent.put, if_pos hany]
    exact h.store ⟨key, result, now⟩
  | none =>
    have habsent : ∀ i ∈ l, i.key ≠ key := fun i hi =>
      by simpa using List.find?_eq_none.mp hfind i hi
    have hany : ¬ l.any (fun i => i.key = key) = true := by simpa using habsent
    rw [hfind, Option.map_none] at hlookup
    simp only [QueryCache.put, hlookup, Recent.put, if_neg hany, h.length]
    by_cases hfull : q.maxSize ≤ l.length
    · have hstore := h.evictLRU.store ⟨key, result, now⟩
      rw [Recent.without_absent fun i hi => habsent i (List.dropLast_subset _ hi)] at hstore
      rw [if_pos hfull, if_pos hfull]
      exact hstore
    · have hstore := h.store ⟨key, result, now⟩
      rw [Recent.without_absent habsent] at hstore
      rw [if_neg hfull, if_neg hfull]
      exact hstore

theorem get_maxSize (q : QueryCache κ ρ) (now : Int) (key : κ) :
    (q.get now key).1.maxSize = q.maxSize := by
  unfold QueryCache.get
  split
  · rfl
  · split <;> rfl

theorem evictLRU_maxSize (q : QueryCache κ ρ) : q.evictLRU.maxSize = q.maxSize := by
  unfold QueryCache.evictLRU
  split <;> rfl

theorem put_maxSize (q : QueryCache κ ρ) (now : Int) (key : κ) (result : ρ) :
    (q.put now key result).maxSize = q.maxSize := by
  unfold QueryCache.put
  split
  · rfl
  · simp only [store]
    split
    · exact q.evictLRU_maxSize
    · rfl

theorem Agrees.run (h : Agrees q l) (calls : List (CacheCall κ ρ)) :
    q.run calls = (Recent.run q.ttl q.maxSize l calls).2 := by
  induction calls generalizing q l with
  | nil => rfl
  | cons call calls ih =>
    cases call with
    | get now key =>
      obtain ⟨hstate, hanswer⟩ := h.get now key
      have hrest := ih hstate
      rw [get_ttl, get_maxSize] at hrest
      rw [QueryCache.run, Recent.run, hanswer, hrest]
    | put now key result =>
      have hrest := ih (h.put now key result)
      rwa [put_ttl, put_maxSize] at hrest

end QueryCache

/-- The linked cells answer every history of calls as the cache without cells does. -/
theorem LinkedCache.run_answers [Inhabited κ] [Inhabited ρ] {ttl maxSize : Int}
    (hmax : 1 ≤ maxSize) (calls : List (CacheCall κ ρ)) :
    ∃ c, (LinkedCache.new ttl maxSize).run calls =
      some (c, (QueryCache.new ttl maxSize).run calls) := by
  have hnew := LinkedCache.new_holds (κ := κ) (ρ := ρ) ttl maxSize
  have hpos : 0 ≤ maxSize := by omega
  obtain ⟨c, -, hrun, -⟩ := hnew.run hmax hpos calls
  have hagrees : (QueryCache.new (κ := κ) (ρ := ρ) ttl maxSize).Agrees [] :=
    ⟨rfl, fun _ hi => absurd hi List.not_mem_nil⟩
  refine ⟨c, ?_⟩
  rw [hagrees.run calls]
  exact hrun

end LogEngine.Coordinator
