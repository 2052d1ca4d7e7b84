import LogEngine.Lib.Strings

namespace LogEngine.Lib.Wire

/-- A base-128 varint, least significant group first, for a number below `2 ^ fuel`. -/
def varintBits : Nat → Nat → Bytes
  | 0, n => [UInt8.ofNat n]
  | fuel + 1, n =>
    if n < 128 then [UInt8.ofNat n] else UInt8.ofNat (n % 128 + 128) :: varintBits fuel (n / 128)

def varint (n : Nat) : Bytes := varintBits (n.log2 + 1) n

/-- The varint at the start of some bytes, and the bytes after it. -/
def readVarint : Bytes → Option (Nat × Bytes)
  | [] => none
  | b :: rest =>
    if b.toNat < 128 then some (b.toNat, rest)
    else (readVarint rest).map (fun r => (b.toNat - 128 + 128 * r.1, r.2))

theorem readVarint_varintBits {fuel n : Nat} (h : n < 2 ^ fuel) (rest : Bytes) :
    readVarint (varintBits fuel n ++ rest) = some (n, rest) := by
  induction fuel generalizing n with
  | zero =>
    have hn : n = 0 := by simpa using h
    subst hn
    rfl
  | succ fuel ih =>
    simp only [varintBits]
    split
    · rename_i hn
      have hb : (UInt8.ofNat n).toNat = n := by
        rw [UInt8.toNat_ofNat']
        omega
      simp [readVarint, hb, hn]
    · have hb : (UInt8.ofNat (n % 128 + 128)).toNat = n % 128 + 128 := by
        rw [UInt8.toNat_ofNat']
        omega
      have hlt : n / 128 < 2 ^ fuel := by
        rw [Nat.pow_succ] at h
        omega
      have hbig : ¬ n % 128 + 128 < 128 := by omega
      simp only [List.cons_append, readVarint, hb, hbig, if_false, ih hlt, Option.map_some,
        Option.some.injEq, Prod.mk.injEq, and_true]
      omega

theorem readVarint_varint (n : Nat) (rest : Bytes) :
    readVarint (varint n ++ rest) = some (n, rest) :=
  readVarint_varintBits Nat.lt_log2_self rest

theorem varint_ne_nil (n : Nat) : varint n ≠ [] := by
  unfold varint varintBits
  split <;> simp

theorem varintBits_length (fuel n : Nat) : (varintBits fuel n).length ≤ fuel + 1 := by
  induction fuel generalizing n with
  | zero => simp [varintBits]
  | succ fuel ih =>
    simp only [varintBits]
    split
    · simp
    · simpa using ih (n / 128)

/-- A number of 64 bits has a short varint. -/
theorem varint_length {n : Nat} (h : n < 2 ^ 64) : (varint n).length ≤ 65 := by
  have hlog : n.log2 < 64 := by
    by_cases hzero : n = 0
    · simp [hzero]
    · exact (Nat.log2_lt hzero).mpr h
  have hlen := varintBits_length (n.log2 + 1) n
  rw [varint]
  omega

/-- The two wire types that the messages here use. -/
inductive Value where
  | num (n : Nat)
  | bytes (bs : Bytes)
  deriving DecidableEq

abbrev Field := Nat × Value

def encodeField : Field → Bytes
  | (k, .num n) => varint (k * 8) ++ varint n
  | (k, .bytes bs) => varint (k * 8 + 2) ++ (varint bs.length ++ bs)

def encode (fs : List Field) : Bytes := fs.flatMap encodeField

/-- The value of a field after its tag. -/
def readValue (k wireType : Nat) (bs : Bytes) : Option (Field × Bytes) :=
  match wireType with
  | 0 => (readVarint bs).map (fun r => ((k, .num r.1), r.2))
  | 2 =>
    (readVarint bs).bind (fun r =>
      if r.1 ≤ r.2.length then some ((k, .bytes (r.2.take r.1)), r.2.drop r.1) else none)
  | _ => none

def readField (bs : Bytes) : Option (Field × Bytes) :=
  (readVarint bs).bind (fun r => readValue (r.1 / 8) (r.1 % 8) r.2)

def decodeFuel : Nat → Bytes → Option (List Field)
  | _, [] => some []
  | 0, _ => none
  | fuel + 1, bs => (readField bs).bind (fun r => (decodeFuel fuel r.2).map (r.1 :: ·))

/-- All fields of a message, in order. -/
def decode (bs : Bytes) : Option (List Field) := decodeFuel bs.length bs

theorem readField_encodeField (f : Field) (rest : Bytes) :
    readField (encodeField f ++ rest) = some (f, rest) := by
  obtain ⟨k, v⟩ := f
  cases v with
  | num n =>
    have hk : k * 8 / 8 = k := by omega
    have ht : k * 8 % 8 = 0 := by omega
    simp only [encodeField, List.append_assoc, readField, readVarint_varint, Option.bind_some,
      hk, ht, readValue, Option.map_some]
  | bytes bs =>
    have hk : (k * 8 + 2) / 8 = k := by omega
    have ht : (k * 8 + 2) % 8 = 2 := by omega
    simp [encodeField, readField, readVarint_varint, hk, ht, readValue]

theorem encodeField_ne_nil (f : Field) : encodeField f ≠ [] := by
  obtain ⟨k, v⟩ := f
  cases v <;> simp [encodeField, varint_ne_nil]

theorem decodeFuel_encode (fs : List Field) {fuel : Nat} (h : fs.length ≤ fuel) :
    decodeFuel fuel (encode fs) = some fs := by
  induction fs generalizing fuel with
  | nil => cases fuel <;> rfl
  | cons f fs ih =>
    cases fuel with
    | zero => simp at h
    | succ fuel =>
      have hne : encode (f :: fs) ≠ [] := by simp [encode, encodeField_ne_nil]
      have hf : readField (encode (f :: fs)) = some (f, encode fs) :=
        readField_encodeField f (encode fs)
      rw [decodeFuel.eq_3 _ _ hne, hf]
      simp [ih (Nat.le_of_succ_le_succ h)]

theorem length_le_encode (fs : List Field) : fs.length ≤ (encode fs).length := by
  induction fs with
  | nil => simp [encode]
  | cons f fs ih =>
    have hpos := List.length_pos_iff.mpr (encodeField_ne_nil f)
    simp only [encode, List.flatMap_cons, List.length_append, List.length_cons] at ih ⊢
    omega

/-- Reading back what was encoded gives the same fields. -/
theorem decode_encode (fs : List Field) : decode (encode fs) = some fs :=
  decodeFuel_encode fs (length_le_encode fs)

end LogEngine.Lib.Wire
