import Mathlib.Data.String.Basic
import LogEngine.Storage.Bloom

namespace LogEngine.Storage
open Lib

theorem isSeg_iff (name : String) : IsSeg name ↔ ['.', 's', 'e', 'g'] <:+ name.toList := by
  unfold IsSeg hasSuffix
  rw [List.isSuffixOf_iff_suffix]
  rfl

/-- A text that ends in another rune than g is no segment name. -/
theorem not_isSeg {cs : List Char} {c : Char} (hc : c ≠ 'g') (name : String)
    (h : name.toList = cs ++ [c]) : ¬ IsSeg name := by
  rw [isSeg_iff, h, ← List.reverse_prefix]
  simp [Ne.symm hc]

theorem tmpPath_not_seg (path : String) : ¬ IsSeg (tmpPath path) := by
  have h : (tmpPath path).toList = (path.toList ++ ['.', 't', 'm']) ++ ['p'] := by
    simp [tmpPath, String.toList_append]
  exact not_isSeg (by decide) _ h

theorem bloomPath_not_seg (path : String) : ¬ IsSeg (bloomPath path) := by
  have h : (bloomPath path).toList =
      ((trimSuffix path ".seg").toList ++ ['.', 'b', 'l', 'o', 'o']) ++ ['m'] := by
    simp [bloomPath, String.toList_append]
  exact not_isSeg (by decide) _ h

theorem segmentName_isSeg (n : UInt64) : IsSeg (segmentName n) := by
  rw [isSeg_iff, segmentName, String.toList_ofList]
  exact List.suffix_append _ _

theorem toList_seg {name : String} (h : IsSeg name) :
    name.toList = (trimSuffix name ".seg").toList ++ ['.', 's', 'e', 'g'] := by
  obtain ⟨base, hb⟩ := (isSeg_iff name).mp h
  have hs : hasSuffix name ".seg" = true := h
  rw [trimSuffix, if_pos hs, String.toList_ofList, ← hb]
  simp

/-- A sidecar belongs to one segment. -/
theorem bloomPath_inj {a b : String} (ha : IsSeg a) (hb : IsSeg b)
    (h : bloomPath a = bloomPath b) : a = b := by
  have hl := congrArg String.toList h
  simp only [bloomPath, String.toList_append] at hl
  rw [← String.toList_inj, toList_seg ha, toList_seg hb, List.append_cancel_right hl]

theorem tmpPath_ne_bloomPath (a b : String) : tmpPath a ≠ bloomPath b := by
  intro h
  have hl := congrArg (fun s : String => s.toList.reverse) h
  simp [tmpPath, bloomPath, String.toList_append] at hl

theorem digit_rune {d : Nat} (h : d < 10) : (Char.ofNat (48 + d)).toNat = 48 + d :=
  toNat_ofNat (by simp only [Nat.isValidChar]; omega)

def digitOf (c : Char) : Option Nat :=
  if Nat.ble 48 c.toNat && Nat.ble c.toNat 57 then some (c.toNat - 48) else none

theorem digitOf_rune {d : Nat} (h : d < 10) : digitOf (Char.ofNat (48 + d)) = some d := by
  simp only [digitOf, digit_rune h]
  simp
  omega

/-- Reading the padded numeral back gives the number, as long as it has no more digits. -/
theorem padded_value (w n : Nat) (h : n < 10 ^ w) :
    ∃ ds, (padded w n).mapM digitOf = some ds ∧ ds.length = w ∧
      ds.foldl (fun m d => m * 10 + d) 0 = n := by
  induction w generalizing n with
  | zero =>
    refine ⟨[], rfl, rfl, ?_⟩
    simp only [Nat.pow_zero] at h
    simp; omega
  | succ w ih =>
    obtain ⟨ds, hm, hl, hv⟩ := ih (n / 10) (by rw [Nat.pow_succ] at h; omega)
    refine ⟨ds ++ [n % 10], ?_, by simp [hl], ?_⟩
    · simp [padded, List.mapM_append, hm, digitOf_rune (Nat.mod_lt n (by omega))]
    · rw [List.foldl_append, hv]
      simp only [List.foldl_cons, List.foldl_nil]
      omega

theorem trimSuffix_segmentName (n : UInt64) :
    trimSuffix (segmentName n) ".seg" = String.ofList (padded 20 n.toNat) := by
  have h := toList_seg (segmentName_isSeg n)
  rw [segmentName, String.toList_ofList] at h
  rw [← String.toList_inj, String.toList_ofList]
  exact (List.append_cancel_right h).symm

/-- `ParseUint` inverts the file name format. -/
theorem parse_segmentName (n : UInt64) :
    parseUint (trimSuffix (segmentName n) ".seg") = some n.toNat := by
  have hn : n.toNat < 2 ^ 64 := n.toNat_lt
  obtain ⟨ds, hm, hl, hv⟩ := padded_value 20 n.toNat (by omega)
  have hd : digits (String.ofList (padded 20 n.toNat)) = some ds := by
    rw [digits, String.toList_ofList]
    exact hm
  have hne : ds ≠ [] := by
    intro h
    simp [h] at hl
  rw [trimSuffix_segmentName, parseUint, hd]
  simp only [Option.bind_eq_bind, Option.bind_some, hv]
  exact if_pos ⟨hne, hn⟩

theorem segmentName_inj {m n : UInt64} (h : segmentName m = segmentName n) : m = n := by
  have hm := parse_segmentName m
  rw [h, parse_segmentName n] at hm
  exact UInt64.toNat_inj.mp (Option.some.inj hm).symm

theorem padded_length (w n : Nat) : (padded w n).length = w := by
  induction w generalizing n with
  | zero => rfl
  | succ w ih => simp [padded, ih]

theorem lt_append {a b : List Char} (h : a < b) (hlen : a.length = b.length) (x y : List Char) :
    a ++ x < b ++ y := by
  induction h with
  | nil => simp at hlen
  | cons _ ih => exact .cons (ih (by simpa using hlen))
  | rel h => exact .rel h

/-- Numerals of one width are ordered like their numbers. -/
theorem padded_lt {w m n : Nat} (h : m < n) (hn : n < 10 ^ w) : padded w m < padded w n := by
  induction w generalizing m n with
  | zero => simp at hn; omega
  | succ w ih =>
    simp only [padded]
    by_cases hdiv : m / 10 = n / 10
    · have hdigit : ∀ d < 10, ∀ c < d, Char.ofNat (48 + c) < Char.ofNat (48 + d) := by decide
      rw [hdiv]
      refine List.Lex.append_left _ ?_ _
      exact .rel (hdigit _ (Nat.mod_lt n (by omega)) _ (by omega))
    · refine lt_append (ih (by omega) ?_) (by rw [padded_length, padded_length]) _ _
      rw [Nat.pow_succ] at hn
      omega

/-- Segment names are ordered like their numbers. -/
theorem segmentName_lt {m n : UInt64} (h : m < n) : segmentName m < segmentName n := by
  have hn := n.toNat_lt
  rw [String.lt_iff_toList_lt, segmentName, segmentName, String.toList_ofList,
    String.toList_ofList]
  exact lt_append (padded_lt (UInt64.lt_iff_toNat_lt.mp h) (by omega))
    (by rw [padded_length, padded_length]) _ _

end LogEngine.Storage
