import Mathlib.Data.List.SplitBy

namespace LogEngine.Lib

variable {α : Type} {small : α → Bool}

/-- A list cut into its maximal runs of elements with a property; every other element stands
alone. -/
def maximalRuns (small : α → Bool) (l : List α) : List (List α) :=
  l.splitBy (fun a b => small a && small b)

theorem maximalRuns_flatten (small : α → Bool) (l : List α) : (maximalRuns small l).flatten = l :=
  List.flatten_splitBy _ l

theorem maximalRuns_ne_nil {l g : List α} (h : g ∈ maximalRuns small l) : g ≠ [] :=
  List.ne_nil_of_mem_splitBy h

theorem maximalRuns_of_all {l : List α} (hne : l ≠ []) (h : ∀ a ∈ l, small a = true) :
    maximalRuns small l = [l] := by
  refine List.splitBy_of_isChain hne ?_
  have hpairs : l.Pairwise (fun a b => small a && small b) :=
    List.pairwise_of_forall_mem_list (fun a ha b hb => by simp [h a ha, h b hb])
  exact hpairs.isChain

/-- An element without the property ends the run before it. -/
theorem maximalRuns_append_cons {l m : List α} {a : α} (h : small a = false) :
    maximalRuns small (l ++ a :: m) = maximalRuns small l ++ [a] :: maximalRuns small m := by
  have hleft : maximalRuns small (l ++ a :: m) =
      maximalRuns small l ++ maximalRuns small (a :: m) :=
    List.splitBy_append_cons m (fun x _ => by simp [h])
  have hright : maximalRuns small ([a] ++ m) = maximalRuns small [a] ++ maximalRuns small m :=
    List.splitBy_append (fun x hx y _ => by
      have hxa : a = x := by simpa using hx
      simp [← hxa, h])
  rw [hleft]
  exact congrArg (maximalRuns small l ++ ·) hright

/-- A run has one element, or all of it has the property. -/
theorem maximalRuns_alone {l g : List α} (h : g ∈ maximalRuns small l) :
    (∃ a, g = [a]) ∨ ∀ a ∈ g, small a = true := by
  have hchain : g.IsChain (fun a b => (small a && small b) = true) :=
    List.isChain_of_mem_splitBy h
  have htrans : IsTrans α (fun a b => (small a && small b) = true) :=
    ⟨fun a b c hab hbc => by simp_all⟩
  obtain ⟨a, rest, rfl⟩ := List.exists_cons_of_ne_nil (maximalRuns_ne_nil h)
  cases rest with
  | nil => exact .inl ⟨a, rfl⟩
  | cons b rest =>
    have hfirst : ∀ x ∈ b :: rest, small a = true ∧ small x = true :=
      fun x hx => by simpa using (List.pairwise_cons.mp hchain.pairwise).1 x hx
    refine .inr (List.forall_mem_cons.mpr ⟨(hfirst b List.mem_cons_self).1, ?_⟩)
    exact fun x hx => (hfirst x hx).2

/-- Of two neighbouring runs one is an element without the property. -/
theorem maximalRuns_between (small : α → Bool) (l : List α) :
    (maximalRuns small l).IsChain (fun g g' => (∃ a, g = [a] ∧ small a = false) ∨
      ∃ a, g' = [a] ∧ small a = false) := by
  have hchain := List.isChain_getLast_head_splitBy (fun a b => small a && small b) l
  have halone : ∀ g ∈ maximalRuns small l, ∀ a ∈ g, small a = false → g = [a] := by
    intro g hg a ha hsmall
    rcases maximalRuns_alone hg with ⟨b, rfl⟩ | hall
    · rw [List.mem_singleton.mp ha]
    · rw [hall a ha] at hsmall
      cases hsmall
  refine hchain.imp_of_mem_imp (fun g g' hg hg' hbreak => ?_)
  obtain ⟨hne, hne', hbreak⟩ := hbreak
  rcases Bool.and_eq_false_iff.mp hbreak with hlast | hhead
  · exact .inl ⟨_, halone g hg _ (List.getLast_mem hne) hlast, hlast⟩
  · exact .inr ⟨_, halone g' hg' _ (List.head_mem hne') hhead, hhead⟩

end LogEngine.Lib
