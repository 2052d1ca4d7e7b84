namespace LogEngine.Lib

/-- `%d` of a signed integer. -/
def decimal (i : Int) : String := i.repr

theorem repr_toList (n : Nat) : n.repr.toList = Nat.toDigits 10 n := by
  rw [Nat.repr_eq_ofList_toDigits, String.toList_ofList]

theorem repr_inj {m n : Nat} (h : m.repr = n.repr) : m = n := by
  have hdigits : Nat.toDigits 10 m = Nat.toDigits 10 n := by
    rw [← repr_toList, ← repr_toList, h]
  rw [← Nat.ofDigitChars_ten_toDigits (n := m), hdigits, Nat.ofDigitChars_ten_toDigits]

/-- The runes of a number are digits, after a sign at most. -/
theorem decimal_runes {i : Int} {c : Char} (h : c ∈ (decimal i).toList) :
    c = '-' ∨ c.isDigit = true := by
  have hdigit : ∀ {n : Nat}, c ∈ n.repr.toList → c.isDigit = true := by
    intro n hn
    rw [repr_toList] at hn
    exact Nat.isDigit_of_mem_toDigits (by decide) (by decide) hn
  rw [decimal, Int.repr_eq_if] at h
  split at h
  · exact .inr (hdigit h)
  · rw [String.toList_append] at h
    rcases List.mem_append.mp h with h | h
    · exact .inl (by simpa using h)
    · exact .inr (hdigit h)

theorem decimal_inj {i j : Int} (h : decimal i = decimal j) : i = j := by
  have hsign : ∀ m n : Nat, m.repr ≠ "-" ++ n.repr := by
    intro m n heq
    have hmem : '-' ∈ m.repr.toList := by
      rw [heq, String.toList_append]
      exact List.mem_append_left _ (by decide)
    rw [repr_toList] at hmem
    exact absurd (Nat.isDigit_of_mem_toDigits (by decide) (by decide) hmem) (by decide)
  rw [decimal, decimal, Int.repr_eq_if, Int.repr_eq_if] at h
  split at h <;> split at h
  · have := repr_inj h
    omega
  · exact absurd h (hsign _ _)
  · exact absurd h.symm (hsign _ _)
  · have hrest : (-i).toNat.repr = (-j).toNat.repr := by
      have hl := congrArg String.toList h
      rw [String.toList_append, String.toList_append] at hl
      exact String.toList_inj.mp (List.append_cancel_left hl)
    have := repr_inj hrest
    omega

/-- Fields after a separator that they do not contain are told apart at its last occurrence. -/
theorem last_field_inj {α : Type} {sep : α} {a a' field field' : List α} (hfield : sep ∉ field)
    (hfield' : sep ∉ field') (h : a ++ sep :: field = a' ++ sep :: field') :
    a = a' ∧ field = field' := by
  have hshift : ∀ {b f f' : List α}, sep ∉ f → sep :: f = b ++ sep :: f' → b = [] ∧ f = f' := by
    intro b f f' hf heq
    cases b with
    | nil => exact ⟨rfl, (List.cons.inj heq).2⟩
    | cons x b =>
      have hmem : sep ∈ f := by
        rw [(List.cons.inj heq).2]
        simp
      exact absurd hmem hf
  rcases List.append_eq_append_iff.mp h with ⟨b, hb, heq⟩ | ⟨b, hb, heq⟩
  · obtain ⟨rfl, rfl⟩ := hshift hfield heq
    exact ⟨by simpa using hb.symm, rfl⟩
  · obtain ⟨rfl, rfl⟩ := hshift hfield' heq
    exact ⟨by simpa using hb, rfl⟩

end LogEngine.Lib
