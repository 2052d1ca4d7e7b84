import Mathlib.Data.List.Basic

namespace LogEngine.Lib

variable {α : Type}

/-- A sequence to which elements are only ever added: what is there at one moment is the front of
what is there later. -/
def Growing (g : Nat → List α) : Prop := ∀ i j, i ≤ j → g i <+: g j

/-- Reads on from a position until it has `n` elements or a read returns none. The `k`-th read sees
`g k` and may return less than what is there, but something. The elements that were read, and the
number of reads so far. -/
def readFull (g : Nat → List α) (quota : Nat → Nat) : Nat → Nat → Nat → Nat → List α × Nat
  | 0, k, _, _ => ([], k)
  | fuel + 1, k, pos, n =>
    if n = 0 then ([], k)
    else
      let got := ((g k).drop pos).take (min n (quota k + 1))
      if got.isEmpty then ([], k + 1)
      else
        let rest := readFull g quota fuel (k + 1) (pos + got.length) (n - got.length)
        (got ++ rest.1, rest.2)

variable {g : Nat → List α}

theorem Growing.drop_take (hg : Growing g) {i j pos n : Nat} (hij : i ≤ j)
    (hn : pos + n ≤ (g i).length) : ((g i).drop pos).take n = ((g j).drop pos).take n := by
  obtain ⟨more, hmore⟩ := hg i j hij
  rw [← hmore, List.drop_append_of_le_length (by omega),
    List.take_append_of_le_length (by rw [List.length_drop]; omega)]

/-- What was read is what is there at the last read. -/
theorem readFull_eq (quota : Nat → Nat) (hg : Growing g) {fuel k pos n : Nat} (hfuel : n ≤ fuel)
    (hpos : pos ≤ (g k).length) :
    let r := readFull g quota fuel k pos n
    r.1 = ((g (r.2 - 1)).drop pos).take n ∧ k ≤ r.2 ∧ (0 < n → k < r.2) := by
  induction fuel generalizing k pos n with
  | zero =>
    obtain rfl : n = 0 := by omega
    exact ⟨by simp [readFull], Nat.le_refl _, by omega⟩
  | succ fuel ih =>
    intro r
    by_cases hn : n = 0
    · subst hn
      exact ⟨by simp [r, readFull], by simp [r, readFull], by omega⟩
    cases hgot : ((g k).drop pos).take (min n (quota k + 1)) with
    | nil =>
      have hr : r = ([], k + 1) := by
        simp only [r, readFull, if_neg hn, hgot]
        rfl
      have hend : (g k).drop pos = [] := by
        rcases List.take_eq_nil_iff.mp hgot with hzero | hend
        · omega
        · exact hend
      rw [hr]
      exact ⟨by simp [hend], by omega, fun _ => Nat.lt_succ_self k⟩
    | cons a as =>
      have hr : r = (a :: as ++ (readFull g quota fuel (k + 1) (pos + (a :: as).length)
          (n - (a :: as).length)).1, (readFull g quota fuel (k + 1) (pos + (a :: as).length)
          (n - (a :: as).length)).2) := by
        simp only [r, readFull, if_neg hn, hgot]
        rfl
      have hlen := congrArg List.length hgot
      rw [List.length_take, List.length_drop] at hlen
      simp only [List.length_cons] at hlen
      have hnext : pos + (a :: as).length ≤ (g (k + 1)).length := by
        have hle := (hg k (k + 1) (by omega)).length_le
        rw [List.length_cons]
        omega
      obtain ⟨hrest, hk, -⟩ := @ih (k + 1) (pos + (a :: as).length) (n - (a :: as).length)
        (by rw [List.length_cons]; omega) hnext
      rw [hr]
      refine ⟨?_, by omega, fun _ => by omega⟩
      generalize readFull g quota fuel (k + 1) (pos + (a :: as).length)
        (n - (a :: as).length) = rest at hrest hk
      have hsame : a :: as = ((g (rest.2 - 1)).drop pos).take (a :: as).length := by
        rw [← hg.drop_take (i := k) (by omega) (by rw [List.length_cons]; omega), ← hgot,
          List.length_take, List.length_drop, List.take_eq_take_min]
        congr 1
        rw [List.length_drop]
      have hsplit : n = (a :: as).length + (n - (a :: as).length) := by
        rw [List.length_cons]
        omega
      calc (a :: as) ++ rest.1
          = ((g (rest.2 - 1)).drop pos).take (a :: as).length ++
              (((g (rest.2 - 1)).drop pos).drop (a :: as).length).take (n - (a :: as).length) := by
            rw [← hsame, hrest, List.drop_drop]
        _ = ((g (rest.2 - 1)).drop pos).take n := by rw [← List.take_add, ← hsplit]

end LogEngine.Lib
