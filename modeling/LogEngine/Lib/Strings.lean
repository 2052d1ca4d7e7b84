import Mathlib.Algebra.Group.Int.Defs
import Mathlib.Algebra.Ring.Nat
import LogEngine.Lib.Unicode

namespace LogEngine.Lib

abbrev Bytes := List UInt8

/-- The bytes of a Go string. -/
def utf8 (s : String) : Bytes := s.toByteArray.data.toList

def ofUtf8? (bs : Bytes) : Option String := String.fromUTF8? ⟨bs.toArray⟩

-- From here on the functions of Go's package `strings` stand under their names.

def toLower (s : String) : String := String.ofList (s.toList.map lowerRune)

def equalFold (s t : String) : Bool := s.toList.map foldRune == t.toList.map foldRune

/-- The class `[a-z0-9]`. -/
def isAlnum (c : Char) : Bool :=
  (Nat.ble 97 c.toNat && Nat.ble c.toNat 122) || (Nat.ble 48 c.toNat && Nat.ble c.toNat 57)

/-- Cut a text at every rune satisfying `p` and keep the non-empty pieces. -/
def pieces (p : Char → Bool) (s : String) : List String :=
  ((s.toList.splitOnP p).filter (fun w => !w.isEmpty)).map String.ofList

/-- `regexp.MustCompile("[^a-z0-9]+").Split(s, -1)` without its empty strings. -/
def alnumRuns (s : String) : List String := pieces (fun c => !isAlnum c) s

def fields (s : String) : List String := pieces isSpace s

def trimSpace (s : String) : String :=
  String.ofList ((s.toList.dropWhile isSpace).reverse.dropWhile isSpace).reverse

/-- `strings.ReplaceAll` of a one-rune text. -/
def replaceRune (c : Char) (new : String) (s : String) : String :=
  String.ofList (s.toList.flatMap (fun d => if d = c then new.toList else [d]))

/-- `strings.Contains` of a one-rune text. -/
def containsRune (s : String) (c : Char) : Bool := s.toList.contains c

/-- `strings.SplitN(s, c, 2)` of a text that contains `c`. -/
def splitAtRune (c : Char) (s : String) : String × String :=
  (String.ofList (s.toList.takeWhile (· ≠ c)), String.ofList (s.toList.dropWhile (· ≠ c)).tail)

def containsText (s t : String) : Bool :=
  (List.range (s.toList.length + 1)).any (fun k => t.toList.isPrefixOf (s.toList.drop k))

def hasSuffix (s t : String) : Bool := t.toList.isSuffixOf s.toList

def trimSuffix (s t : String) : String :=
  if hasSuffix s t then String.ofList (s.toList.take (s.toList.length - t.toList.length)) else s

/-- The digit values of a decimal numeral, most significant first. -/
def digits (s : String) : Option (List Nat) :=
  s.toList.mapM (fun c =>
    if Nat.ble 48 c.toNat && Nat.ble c.toNat 57 then some (c.toNat - 48) else none)

/-- `strconv.ParseUint(s, 10, 64)`. -/
def parseUint (s : String) : Option Nat := do
  let ds ← digits s
  let n := ds.foldl (fun n d => n * 10 + d) 0
  if ds ≠ [] ∧ n < 2 ^ 64 then some n else none

/-- `fmt.Sprintf("%0<w>d", n)` of a number of at most `w` digits. -/
def padded : Nat → Nat → List Char
  | 0, _ => []
  | w+1, n => padded w (n / 10) ++ [Char.ofNat (48 + n % 10)]

/-- Lower-casing leaves the letters a to z and the digits alone. -/
theorem lowerRune_alnum {c : Char} (h : isAlnum c = true) : lowerRune c = c := by
  have hall : ∀ n < 123,
      ((Nat.ble 97 n && Nat.ble n 122) || (Nat.ble 48 n && Nat.ble n 57)) = true →
      mapCode lowerTable n = n := by decide +kernel
  have hlt : c.toNat < 123 := by
    simp only [isAlnum, Bool.or_eq_true, Bool.and_eq_true, Nat.ble_eq] at h
    omega
  rw [lowerRune, hall c.toNat hlt h, Char.ofNat_toNat]

theorem toLower_idem (s : String) : toLower (toLower s) = toLower s := by
  simp [toLower, String.toList_ofList, Function.comp_def, lowerRune_idem]

theorem mem_splitOnP {p : Char → Bool} {cs w : List Char} (h : w ∈ cs.splitOnP p) :
    ∀ c ∈ w, p c = false := by
  induction cs generalizing w with
  | nil => simp_all
  | cons d ds ih =>
    rw [List.splitOnP_cons_eq_if_modifyHead] at h
    split at h
    · rcases List.mem_cons.mp h with rfl | h
      · simp
      · exact ih h
    · cases hs : ds.splitOnP p with
      | nil => simp [hs] at h
      | cons v vs =>
        rw [hs, List.modifyHead_cons] at h
        rcases List.mem_cons.mp h with rfl | h
        · intro c hc
          rcases List.mem_cons.mp hc with rfl | hc
          · simp_all
          · exact ih (by simp [hs]) c hc
        · exact ih (by simp [hs, h])

/-- An alphanumeric run is its own lower case. -/
theorem toLower_run {s w : String} (h : w ∈ alnumRuns s) : toLower w = w := by
  obtain ⟨cs, hc, rfl⟩ := List.mem_map.mp h
  have hm := mem_splitOnP (List.mem_filter.mp hc).1
  have hid : cs.map lowerRune = cs := by
    conv => rhs; rw [← List.map_id cs]
    apply List.map_congr_left
    intro c hcm
    exact lowerRune_alnum (by simpa using hm c hcm)
  rw [toLower, String.toList_ofList, hid]

end LogEngine.Lib
