import Mathlib.Data.List.Sort

namespace LogEngine.Lib

variable {α κ : Type} [DecidableEq κ]

/-- Keep the first element of each key, and none with a key that was seen before. -/
def firsts (key : α → κ) (seen : List κ) : List α → List α
  | [] => []
  | a :: as =>
    if key a ∈ seen then firsts key seen as else a :: firsts key (key a :: seen) as

/-- No other element with the same key stands before the first `a`. -/
def IsFirst (key : α → κ) (l : List α) (a : α) : Prop := l.find? (fun b => key b = key a) = some a

instance [DecidableEq α] (key : α → κ) (l : List α) (a : α) : Decidable (IsFirst key l a) :=
  inferInstanceAs (Decidable (_ = _))

variable {key : α → κ}

theorem IsFirst.mem {l : List α} {a : α} (h : IsFirst key l a) : a ∈ l :=
  List.mem_of_find?_eq_some h

theorem isFirst_cons {l : List α} {a b : α} :
    IsFirst key (b :: l) a ↔ b = a ∨ key b ≠ key a ∧ IsFirst key l a := by
  unfold IsFirst
  by_cases hk : key b = key a
  · simp [hk]
  · have hne : b ≠ a := fun h => hk (h ▸ rfl)
    simp [hk, hne]

theorem isFirst_append {l l' : List α} {a : α} : IsFirst key (l ++ l') a ↔
    IsFirst key l a ∨ (∀ b ∈ l, key b ≠ key a) ∧ IsFirst key l' a := by
  induction l with
  | nil => simp [IsFirst]
  | cons b l ih =>
    rw [List.cons_append, isFirst_cons, ih, isFirst_cons, List.forall_mem_cons]
    tauto

/-- The first of its key in blocks that are read in order: it stands first in its block, and
no earlier block has its key. -/
theorem isFirst_flatMap {β : Type} [LinearOrder β] {blocks : List β} {f : β → List α} {a : α}
    (hsorted : blocks.Pairwise (· ≤ ·)) : IsFirst key (blocks.flatMap f) a ↔
      ∃ p ∈ blocks, IsFirst key (f p) a ∧ ∀ q ∈ blocks, q < p → ∀ b ∈ f q, key b ≠ key a := by
  induction blocks with
  | nil => simp [IsFirst]
  | cons p blocks ih =>
    obtain ⟨hp, hsorted⟩ := List.pairwise_cons.mp hsorted
    rw [List.flatMap_cons, isFirst_append, ih hsorted]
    constructor
    · intro hor
      rcases hor with hfirst | ⟨hnone, q, hq, hfirst, hbefore⟩
      · refine ⟨p, List.mem_cons_self, hfirst, ?_⟩
        intro q hq hlt
        rcases List.mem_cons.mp hq with heq | hq
        · exact absurd (heq ▸ hlt) (lt_irrefl _)
        · exact absurd hlt (not_lt.mpr (hp q hq))
      · refine ⟨q, List.mem_cons_of_mem _ hq, hfirst, ?_⟩
        intro r hr hlt
        rcases List.mem_cons.mp hr with heq | hr
        · exact heq ▸ hnone
        · exact hbefore r hr hlt
    · intro h
      obtain ⟨q, hq, hfirst, hbefore⟩ := h
      by_cases hkey : ∀ b ∈ f p, key b ≠ key a
      · refine .inr ⟨hkey, q, ?_, hfirst, fun r hr => hbefore r (List.mem_cons_of_mem _ hr)⟩
        rcases List.mem_cons.mp hq with heq | hq
        · exact absurd rfl (hkey a (heq ▸ hfirst.mem))
        · exact hq
      · have hle : ¬ p < q := fun hlt => hkey (hbefore p List.mem_cons_self hlt)
        have heq : q = p := by
          rcases List.mem_cons.mp hq with heq | hq
          · exact heq
          · exact le_antisymm (not_lt.mp hle) (hp q hq)
        exact .inl (heq ▸ hfirst)

theorem mem_firsts {l : List α} {seen : List κ} {a : α} :
    a ∈ firsts key seen l ↔ key a ∉ seen ∧ IsFirst key l a := by
  induction l generalizing seen with
  | nil => simp [firsts, IsFirst]
  | cons b l ih =>
    rw [isFirst_cons, firsts]
    split
    · rename_i hb
      rw [ih]
      constructor
      · intro hgiven
        obtain ⟨hseen, hfirst⟩ := hgiven
        exact ⟨hseen, .inr ⟨fun h => hseen (h ▸ hb), hfirst⟩⟩
      · intro hgiven
        obtain ⟨hseen, hor⟩ := hgiven
        rcases hor with heq | ⟨-, hfirst⟩
        · exact absurd (heq ▸ hb) hseen
        · exact ⟨hseen, hfirst⟩
    · rename_i hb
      rw [List.mem_cons, ih, List.mem_cons, not_or]
      constructor
      · intro hor
        rcases hor with heq | ⟨⟨hne, hseen⟩, hfirst⟩
        · exact ⟨heq ▸ hb, .inl heq.symm⟩
        · exact ⟨hseen, .inr ⟨fun h => hne h.symm, hfirst⟩⟩
      · intro hgiven
        obtain ⟨hseen, hor⟩ := hgiven
        rcases hor with heq | ⟨hne, hfirst⟩
        · exact .inl heq.symm
        · exact .inr ⟨⟨fun h => hne h.symm, hseen⟩, hfirst⟩

theorem firsts_keys_nodup (l : List α) (seen : List κ) : ((firsts key seen l).map key).Nodup := by
  induction l generalizing seen with
  | nil => simp [firsts]
  | cons b l ih =>
    rw [firsts]
    split
    · exact ih seen
    · refine List.nodup_cons.mpr ⟨?_, ih _⟩
      intro hmem
      obtain ⟨a, ha, hk⟩ := List.mem_map.mp hmem
      exact (mem_firsts.mp ha).1 (by rw [hk]; exact List.mem_cons_self)

/-- Where elements with one key are one element, each element stands first. -/
theorem isFirst_of_mem {l : List α} {a : α} (h : ∀ b ∈ l, key b = key a → b = a) (ha : a ∈ l) :
    IsFirst key l a := by
  induction l with
  | nil => cases ha
  | cons b l ih =>
    obtain ⟨hb, hl⟩ := List.forall_mem_cons.mp h
    rw [isFirst_cons]
    by_cases hk : key b = key a
    · exact .inl (hb hk)
    · refine .inr ⟨hk, ih hl ?_⟩
      rcases List.mem_cons.mp ha with heq | ha
      · exact absurd (heq ▸ rfl) hk
      · exact ha

omit [DecidableEq κ] in
theorem eq_of_key {l : List α} (h : (l.map key).Nodup) {a b : α} (ha : a ∈ l) (hb : b ∈ l)
    (hk : key a = key b) : a = b :=
  List.inj_on_of_nodup_map h ha hb hk

omit [DecidableEq κ] in
/-- A list sorted by an order that only elements of one key tie in is determined by its
elements. -/
theorem eq_of_sorted {r : α → α → Prop} (hties : ∀ a b, r a b → r b a → key a = key b)
    {l l' : List α} (hl : (l.map key).Nodup) (hl' : (l'.map key).Nodup) (hr : l.Pairwise r)
    (hr' : l'.Pairwise r) (hmem : ∀ a, a ∈ l ↔ a ∈ l') : l = l' := by
  have hperm : l.Perm l' :=
    (List.perm_ext_iff_of_nodup (.of_map key hl) (.of_map key hl')).mpr hmem
  refine hperm.eq_of_pairwise ?_ hr hr'
  intro a b ha hb hab hba
  exact eq_of_key hl ha ((hmem b).mpr hb) (hties a b hab hba)

end LogEngine.Lib
