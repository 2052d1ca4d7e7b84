import Mathlib.Data.List.Chain

namespace LogEngine.Lib.DoublyLinked

variable {α : Type}

/-- A cell of a doubly linked list, with pointers that may be nil. -/
structure Cell (α : Type) where
  value : α
  prev : Option Nat
  next : Option Nat

/-- The cells allocated so far; an address is a position. -/
abbrev Heap (α : Type) := List (Cell α)

namespace Heap

/-- A write through a pointer, which fails when the pointer is nil. -/
def modify (h : Heap α) (p : Option Nat) (f : Cell α → Cell α) : Option (Heap α) :=
  p.bind fun a => (h[a]?).map fun c => h.set a (f c)

def setNext (h : Heap α) (p q : Option Nat) : Option (Heap α) :=
  h.modify p fun c => { c with next := q }

def setPrev (h : Heap α) (p q : Option Nat) : Option (Heap α) :=
  h.modify p fun c => { c with prev := q }

def setValue (h : Heap α) (p : Option Nat) (v : α) : Option (Heap α) :=
  h.modify p fun c => { c with value := v }

/-- A new cell with nil pointers, at the returned address. -/
def alloc (h : Heap α) (v : α) : Heap α × Nat := (h ++ [⟨v, none, none⟩], h.length)

/-- `e.prev.next = e.next; e.next.prev = e.prev`. -/
def unlink (h : Heap α) (e : Nat) : Option (Heap α) := do
  let c ← h[e]?
  let h ← h.setNext c.prev c.next
  let c ← h[e]?
  h.setPrev c.next c.prev

/-- `e.next = p.next; e.prev = p; p.next.prev = e; p.next = e`. -/
def insertAfter (h : Heap α) (p e : Nat) : Option (Heap α) := do
  let c ← h[p]?
  let h ← h.setNext (some e) c.next
  let h ← h.setPrev (some e) (some p)
  let c ← h[p]?
  let h ← h.setPrev c.next (some e)
  h.setNext (some p) (some e)

def nextOf (h : Heap α) (a : Nat) : Option Nat := (h[a]?).bind Cell.next

def prevOf (h : Heap α) (a : Nat) : Option Nat := (h[a]?).bind Cell.prev

def valueOf (h : Heap α) (a : Nat) : Option α := (h[a]?).bind fun c => some c.value

end Heap

open Heap

/-- Each of two neighbours points to the other. -/
def Link (h : Heap α) (a b : Nat) : Prop := h.nextOf a = some b ∧ h.prevOf b = some a

/-- The addresses of a doubly linked list from its first cell to its last. -/
structure Linked (h : Heap α) (l : List Nat) : Prop where
  nodup : l.Nodup
  chain : l.IsChain (Link h)
  first : ∀ a ∈ l.head?, h.prevOf a = none
  last : ∀ a ∈ l.getLast?, h.nextOf a = none

variable {h h' : Heap α} {a e p : Nat} {l xs ys : List Nat}

theorem modify_some (f : Cell α → Cell α) (ha : a < h.length) :
    ∃ h', h.modify (some a) f = some h' ∧ h'.length = h.length ∧
      ∀ x, h'[x]? = if x = a then (h[x]?).map f else h[x]? := by
  obtain ⟨c, hc⟩ : ∃ c, h[a]? = some c := ⟨h[a], List.getElem?_eq_getElem ha⟩
  refine ⟨h.set a (f c), by simp [Heap.modify, hc], List.length_set, fun x => ?_⟩
  rw [List.getElem?_set]
  by_cases hx : x = a
  · subst hx
    rw [if_pos rfl, if_pos rfl, if_pos ha, hc, Option.map_some]
  · rw [if_neg hx, if_neg (Ne.symm hx)]

/-- What a write to a pointer field leaves alone. -/
structure Wrote (h h' : Heap α) : Prop where
  length : h'.length = h.length
  values : ∀ x, h'.valueOf x = h.valueOf x

theorem Wrote.trans {h'' : Heap α} (hw : Wrote h h') (hw' : Wrote h' h'') : Wrote h h'' :=
  ⟨hw'.length.trans hw.length, fun x => (hw'.values x).trans (hw.values x)⟩

section Fields

variable {f : Cell α → Cell α}

theorem modified_kept {β : Type} {g : Cell α → Option β}
    (hget : ∀ x, h'[x]? = if x = a then (h[x]?).map f else h[x]?) (hf : ∀ c, g (f c) = g c)
    (x : Nat) :
    (h'[x]?).bind g = (h[x]?).bind g := by
  rw [hget]
  split
  · rw [Option.bind_map]
    exact congrArg _ (funext hf)
  · rfl

theorem modified_changed {β : Type} {g : Cell α → Option β} {q : Option β} (hf : ∀ c, g (f c) = q)
    (ha : a < h.length) (hget : ∀ x, h'[x]? = if x = a then (h[x]?).map f else h[x]?) (x : Nat) :
    (h'[x]?).bind g = if x = a then q else (h[x]?).bind g := by
  rw [hget]
  split
  · rename_i hx
    rw [hx, List.getElem?_eq_getElem ha, Option.map_some, Option.bind_some, hf]
  · rfl

end Fields

theorem setNext_some (q : Option Nat) (ha : a < h.length) :
    ∃ h', h.setNext (some a) q = some h' ∧ Wrote h h' ∧ (∀ x, h'.prevOf x = h.prevOf x) ∧
      ∀ x, h'.nextOf x = if x = a then q else h.nextOf x := by
  obtain ⟨h', hset, hlength, hget⟩ := modify_some (fun c => { c with next := q }) ha
  exact ⟨h', hset, ⟨hlength, modified_kept hget (fun _ => rfl)⟩,
    modified_kept hget (fun _ => rfl), modified_changed (fun _ => rfl) ha hget⟩

theorem setPrev_some (q : Option Nat) (ha : a < h.length) :
    ∃ h', h.setPrev (some a) q = some h' ∧ Wrote h h' ∧ (∀ x, h'.nextOf x = h.nextOf x) ∧
      ∀ x, h'.prevOf x = if x = a then q else h.prevOf x := by
  obtain ⟨h', hset, hlength, hget⟩ := modify_some (fun c => { c with prev := q }) ha
  exact ⟨h', hset, ⟨hlength, modified_kept hget (fun _ => rfl)⟩,
    modified_kept hget (fun _ => rfl), modified_changed (fun _ => rfl) ha hget⟩

theorem lt_of_field {β : Type} {g : Cell α → Option β} {v : β} (hv : (h[a]?).bind g = some v) :
    a < h.length := by
  by_contra hge
  rw [List.getElem?_eq_none (Nat.le_of_not_lt hge)] at hv
  cases hv

theorem cell_of_lt (ha : a < h.length) :
    ∃ c, h[a]? = some c ∧ h.nextOf a = c.next ∧ h.prevOf a = c.prev ∧
      h.valueOf a = some c.value := by
  refine ⟨h[a], List.getElem?_eq_getElem ha, ?_, ?_, ?_⟩
  · rw [nextOf, List.getElem?_eq_getElem ha, Option.bind_some]
  · rw [prevOf, List.getElem?_eq_getElem ha, Option.bind_some]
  · rw [valueOf, List.getElem?_eq_getElem ha, Option.bind_some]

/-- A chain stays one where none of its pointers changes. -/
theorem chain_kept (hl : l.IsChain (Link h))
    (hnext : ∀ x ∈ l.dropLast, h'.nextOf x = h.nextOf x)
    (hprev : ∀ x ∈ l.tail, h'.prevOf x = h.prevOf x) : l.IsChain (Link h') := by
  induction l with
  | nil => exact .nil
  | cons a l ih =>
    cases l with
    | nil => exact .singleton a
    | cons b l =>
      rw [List.isChain_cons_cons] at hl ⊢
      refine ⟨?_, ih hl.2 (fun x hx => hnext x (by simp [hx])) fun x hx =>
        hprev x (List.mem_of_mem_tail hx)⟩
      rw [Link, hnext a (by simp), hprev b (by simp)]
      exact hl.1

/-- The pointers after `unlink`, when both neighbours are cells. -/
theorem unlink_some {n : Nat} (hp : h.prevOf e = some p) (hn : h.nextOf e = some n)
    (hpe : e ≠ p) (hplt : p < h.length) (hnlt : n < h.length) :
    ∃ h', h.unlink e = some h' ∧ Wrote h h' ∧
      (∀ x, h'.nextOf x = if x = p then some n else h.nextOf x) ∧
      ∀ x, h'.prevOf x = if x = n then some p else h.prevOf x := by
  have helt := lt_of_field hn
  obtain ⟨c, hc, hcn, hcp, -⟩ := cell_of_lt helt
  obtain ⟨h₁, hset, hw, hprev, hnext⟩ := setNext_some (some n) hplt
  obtain ⟨c₁, hc₁, hcn₁, hcp₁, -⟩ := cell_of_lt (h := h₁) (hw.length ▸ helt)
  obtain ⟨h₂, hset', hw', hnext', hprev'⟩ := setPrev_some (h := h₁) (some p) (hw.length ▸ hnlt)
  rw [hn] at hcn
  rw [hp] at hcp
  rw [hnext, if_neg hpe, hn] at hcn₁
  rw [hprev, hp] at hcp₁
  refine ⟨h₂, ?_, hw.trans hw', fun x => (hnext' x).trans (hnext x), fun x => ?_⟩
  · simp only [unlink, hc, ← hcn, ← hcp, hset, hc₁, ← hcn₁, ← hcp₁, hset', Option.bind_eq_bind,
      Option.bind_some]
  · rw [hprev', hprev]

/-- The pointers after `insertAfter` of a cell between two others. -/
theorem insertAfter_some {n : Nat} (hn : h.nextOf p = some n) (hpe : p ≠ e)
    (helt : e < h.length) (hnlt : n < h.length) :
    ∃ h', h.insertAfter p e = some h' ∧ Wrote h h' ∧
      (∀ x, h'.nextOf x = if x = p then some e else if x = e then some n else h.nextOf x) ∧
      ∀ x, h'.prevOf x = if x = n then some e else if x = e then some p else h.prevOf x := by
  have hplt := lt_of_field hn
  obtain ⟨c, hc, hcn, -, -⟩ := cell_of_lt hplt
  obtain ⟨h₁, hset₁, hw₁, hprev₁, hnext₁⟩ := setNext_some (some n) helt
  obtain ⟨h₂, hset₂, hw₂, hnext₂, hprev₂⟩ :=
    setPrev_some (h := h₁) (some p) (hw₁.length ▸ helt)
  have hw := hw₁.trans hw₂
  obtain ⟨c₂, hc₂, hcn₂, -, -⟩ := cell_of_lt (h := h₂) (hw.length ▸ hplt)
  obtain ⟨h₃, hset₃, hw₃, hnext₃, hprev₃⟩ :=
    setPrev_some (h := h₂) (some e) (hw.length ▸ hnlt)
  obtain ⟨h₄, hset₄, hw₄, hprev₄, hnext₄⟩ :=
    setNext_some (h := h₃) (some e) ((hw.trans hw₃).length ▸ hplt)
  rw [hn] at hcn
  rw [hnext₂, hnext₁, if_neg hpe, hn] at hcn₂
  refine ⟨h₄, ?_, (hw.trans hw₃).trans hw₄, fun x => ?_, fun x => ?_⟩
  · simp only [insertAfter, hc, ← hcn, hset₁, hset₂, hc₂, ← hcn₂, hset₃, hset₄,
      Option.bind_eq_bind, Option.bind_some]
  · rw [hnext₄, hnext₃, hnext₂, hnext₁]
  · rw [hprev₄, hprev₃, hprev₂, hprev₁]

/-- A cell inside a list can be taken out. -/
theorem Linked.unlink (hl : Linked h (xs ++ e :: ys)) (hxs : xs ≠ []) (hys : ys ≠ []) :
    ∃ h', h.unlink e = some h' ∧ Linked h' (xs ++ ys) ∧ Wrote h h' := by
  obtain ⟨as, p, rfl⟩ := (List.eq_nil_or_concat xs).resolve_left hxs
  obtain ⟨n, bs, rfl⟩ := List.exists_cons_of_ne_nil hys
  rw [List.concat_eq_append, List.append_assoc, List.singleton_append] at hl ⊢
  obtain ⟨hnodup, hchain, hfirst, hlast⟩ := hl
  rw [List.isChain_append_cons_cons, List.isChain_cons_cons] at hchain
  obtain ⟨hfront, hpe, hen, hback⟩ := hchain
  have hdistinct := hnodup
  simp only [List.nodup_append, List.nodup_cons, List.mem_cons, not_or] at hdistinct
  obtain ⟨-, ⟨⟨hne, hnp, hpbs⟩, ⟨hene, hebs⟩, hnbs, -⟩, hdisjoint⟩ := hdistinct
  obtain ⟨h', hunlink, hw, hnext, hprev⟩ := unlink_some hpe.2 hen.1 (Ne.symm hne)
    (lt_of_field hpe.1) (lt_of_field hen.2)
  have hasp : ∀ x ∈ as, x ≠ p := fun x hx => hdisjoint x hx p (by simp)
  have hasn : ∀ x ∈ as, x ≠ n := fun x hx => hdisjoint x hx n (by simp)
  have hfrontn : ∀ x ∈ as ++ [p], x ≠ n := by
    intro x hx
    rcases List.mem_append.mp hx with hx | hx
    · exact hasn x hx
    · exact List.mem_singleton.mp hx ▸ hnp
  have hbackp : ∀ x ∈ n :: bs, x ≠ p := by
    intro x hx
    rcases List.mem_cons.mp hx with rfl | hx
    · exact Ne.symm hnp
    · exact fun hxp => hpbs (hxp ▸ hx)
  refine ⟨h', hunlink, ⟨?_, ?_, ?_, ?_⟩, hw⟩
  · exact hnodup.sublist (by simp)
  · rw [List.isChain_append_cons_cons]
    refine ⟨chain_kept hfront (fun x hx => ?_) (fun x hx => ?_), ?_,
      chain_kept hback (fun x hx => ?_) (fun x hx => ?_)⟩
    · rw [List.dropLast_concat] at hx
      rw [hnext, if_neg (hasp x hx)]
    · rw [hprev, if_neg (hfrontn x (List.mem_of_mem_tail hx))]
    · rw [Link, hnext, hprev, if_pos rfl, if_pos rfl]
      exact ⟨rfl, rfl⟩
    · rw [hnext, if_neg (hbackp x (List.dropLast_subset _ hx))]
    · have hxn : x ≠ n := fun hxn => hnbs (hxn ▸ hx)
      rw [hprev, if_neg hxn]
  · intro x hx
    have hfront : x ∈ (as ++ [p]).head? := by cases as <;> exact hx
    rw [hprev, if_neg (hfrontn x (List.mem_of_mem_head? hfront))]
    exact hfirst x (by cases as <;> exact hfront)
  · intro x hx
    have hend : ∀ zs, (as ++ p :: (zs ++ n :: bs)).getLast? = (n :: bs).getLast? := by
      intro zs
      rw [← List.cons_append, ← List.append_assoc, List.getLast?_append_of_ne_nil _ (by simp)]
    have hback : x ∈ (n :: bs).getLast? := hend [] ▸ hx
    rw [hnext, if_neg (hbackp x (List.mem_of_mem_getLast? hback))]
    exact hlast x ((hend [e]).symm ▸ hback)

/-- A cell outside a list can be put behind its first one. -/
theorem Linked.insertAfter (hl : Linked h (p :: ys)) (hys : ys ≠ []) (he : e ∉ p :: ys)
    (helt : e < h.length) :
    ∃ h', h.insertAfter p e = some h' ∧ Linked h' (p :: e :: ys) ∧ Wrote h h' := by
  obtain ⟨n, bs, rfl⟩ := List.exists_cons_of_ne_nil hys
  obtain ⟨hnodup, hchain, hfirst, hlast⟩ := hl
  rw [List.isChain_cons_cons] at hchain
  obtain ⟨hpn, hback⟩ := hchain
  simp only [List.mem_cons, not_or] at he
  obtain ⟨hep, hen, hebs⟩ := he
  have hdistinct := hnodup
  simp only [List.nodup_cons, List.mem_cons, not_or] at hdistinct
  obtain ⟨⟨hnp, hpbs⟩, hnbs, -⟩ := hdistinct
  obtain ⟨h', hinsert, hw, hnext, hprev⟩ := insertAfter_some hpn.1 (Ne.symm hep) helt
    (lt_of_field hpn.2)
  have hbackp : ∀ x ∈ n :: bs, x ≠ p ∧ x ≠ e := by
    intro x hx
    rcases List.mem_cons.mp hx with rfl | hx
    · exact ⟨Ne.symm hnp, Ne.symm hen⟩
    · exact ⟨fun hxp => hpbs (hxp ▸ hx), fun hxe => hebs (hxe ▸ hx)⟩
  refine ⟨h', hinsert, ⟨?_, ?_, ?_, ?_⟩, hw⟩
  · simp only [List.nodup_cons, List.mem_cons, not_or] at hnodup ⊢
    exact ⟨⟨Ne.symm hep, hnp, hpbs⟩, ⟨hen, hebs⟩, hnodup.2⟩
  · rw [List.isChain_cons_cons, List.isChain_cons_cons]
    refine ⟨?_, ?_, chain_kept hback (fun x hx => ?_) (fun x hx => ?_)⟩
    · rw [Link, hnext, hprev, if_pos rfl, if_neg hen, if_pos rfl]
      exact ⟨rfl, rfl⟩
    · rw [Link, hnext, hprev, if_neg hep, if_pos rfl, if_pos rfl]
      exact ⟨rfl, rfl⟩
    · obtain ⟨hxp, hxe⟩ := hbackp x (List.dropLast_subset _ hx)
      rw [hnext, if_neg hxp, if_neg hxe]
    · have hxn : x ≠ n := fun hxn => hnbs (hxn ▸ hx)
      rw [hprev, if_neg hxn, if_neg (hbackp x (List.mem_of_mem_tail hx)).2]
  · intro x hx
    obtain rfl : p = x := Option.some.inj hx
    rw [hprev, if_neg hnp, if_neg (Ne.symm hep)]
    exact hfirst p rfl
  · intro x hx
    rw [List.getLast?_cons_cons, List.getLast?_cons_cons] at hx
    obtain ⟨hxp, hxe⟩ := hbackp x (List.mem_of_mem_getLast? hx)
    rw [hnext, if_neg hxp, if_neg hxe]
    exact hlast x (by rw [List.getLast?_cons_cons]; exact hx)

/-- The addresses of a list with more than one cell are allocated. -/
theorem Linked.lt (hl : Linked h (a :: l)) (hne : l ≠ []) : ∀ x ∈ a :: l, x < h.length := by
  have hchain := hl.chain
  clear hl
  induction l generalizing a with
  | nil => exact absurd rfl hne
  | cons b l ih =>
    obtain ⟨hab, hrest⟩ := List.isChain_cons_cons.mp hchain
    intro x hx
    rcases List.mem_cons.mp hx with rfl | hx
    · exact lt_of_field hab.1
    · cases l with
      | nil => exact List.mem_singleton.mp hx ▸ lt_of_field hab.2
      | cons d l => exact ih (by simp) hrest x hx

/-- A list is linked in any heap with the same pointers. -/
theorem Linked.congr (hl : Linked h l) (hnext : ∀ x, h'.nextOf x = h.nextOf x)
    (hprev : ∀ x, h'.prevOf x = h.prevOf x) : Linked h' l := by
  refine ⟨hl.nodup, ?_, fun a ha => (hprev a).trans (hl.first a ha),
    fun a ha => (hnext a).trans (hl.last a ha)⟩
  exact chain_kept hl.chain (fun x _ => hnext x) (fun x _ => hprev x)

theorem setValue_some (v : α) (ha : a < h.length) :
    ∃ h', h.setValue (some a) v = some h' ∧ (∀ x, h'.nextOf x = h.nextOf x) ∧
      (∀ x, h'.prevOf x = h.prevOf x) ∧
      ∀ x, h'.valueOf x = if x = a then some v else h.valueOf x := by
  obtain ⟨h', hset, -, hget⟩ := modify_some (fun c => { c with value := v }) ha
  exact ⟨h', hset, modified_kept hget (fun _ => rfl), modified_kept hget (fun _ => rfl),
    modified_changed (fun _ => rfl) ha hget⟩

theorem alloc_cell (h : Heap α) (v : α) (x : Nat) :
    (h.alloc v).1[x]? = if x = h.length then some ⟨v, none, none⟩ else h[x]? := by
  rw [alloc, List.getElem?_append]
  by_cases hlt : x < h.length
  · rw [if_pos hlt, if_neg (by omega)]
  · rw [if_neg hlt, List.getElem?_eq_none (Nat.le_of_not_lt hlt)]
    by_cases hx : x = h.length
    · simp [hx]
    · rw [if_neg hx, List.getElem?_eq_none]
      simp only [List.length_singleton]
      omega

/-- A new cell is behind all others and its pointers are nil. -/
theorem alloc_fields (h : Heap α) (v : α) :
    (∀ x, (h.alloc v).1.nextOf x = h.nextOf x) ∧ (∀ x, (h.alloc v).1.prevOf x = h.prevOf x) ∧
      ∀ x, (h.alloc v).1.valueOf x = if x = h.length then some v else h.valueOf x := by
  have hnone : h[h.length]? = none := List.getElem?_eq_none le_rfl
  refine ⟨fun x => ?_, fun x => ?_, fun x => ?_⟩
  · rw [nextOf, nextOf, alloc_cell]
    split
    · rename_i hx
      rw [hx, hnone]
      rfl
    · rfl
  · rw [prevOf, prevOf, alloc_cell]
    split
    · rename_i hx
      rw [hx, hnone]
      rfl
    · rfl
  · rw [valueOf, valueOf, alloc_cell]
    split <;> rfl

end LogEngine.Lib.DoublyLinked
