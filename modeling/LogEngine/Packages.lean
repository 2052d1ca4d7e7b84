import Mathlib.Data.String.Basic
import LogEngine.Types
import LogEngine.Lib.Wire

namespace LogEngine
open Lib Wire

theorem ofUtf8?_utf8 (s : String) : ofUtf8? (utf8 s) = some s := by
  have hbytes : (⟨(utf8 s).toArray⟩ : ByteArray) = s.toByteArray := by simp [utf8]
  rw [ofUtf8?, hbytes]
  simp [String.fromUTF8?, String.fromUTF8, s.isValidUTF8]

namespace Fields

/-- `m[key] = value` on the pairs in key order. -/
def setPairs (key value : String) : List (String × String) → List (String × String)
  | [] => [(key, value)]
  | p :: ps =>
    if key < p.1 then (key, value) :: p :: ps
    else if key = p.1 then (key, value) :: ps
    else p :: setPairs key value ps

theorem mem_setPairs {key value : String} {ps : List (String × String)} {q : String × String}
    (h : q ∈ setPairs key value ps) : q = (key, value) ∨ q ∈ ps := by
  induction ps with
  | nil => simpa [setPairs] using h
  | cons p ps ih =>
    simp only [setPairs] at h
    split at h
    · simpa using h
    · split at h
      · rcases List.mem_cons.mp h with h | h
        · exact .inl h
        · exact .inr (List.mem_cons_of_mem _ h)
      · rcases List.mem_cons.mp h with h | h
        · exact .inr (h ▸ List.mem_cons_self)
        · exact (ih h).imp_right (List.mem_cons_of_mem _)

theorem setPairs_sorted (key value : String) {ps : List (String × String)}
    (h : ps.Pairwise (fun a b => a.1 < b.1)) :
    (setPairs key value ps).Pairwise (fun a b => a.1 < b.1) := by
  induction ps with
  | nil => simp [setPairs]
  | cons p ps ih =>
    obtain ⟨hp, hps⟩ := List.pairwise_cons.mp h
    simp only [setPairs]
    split
    · rename_i hlt
      refine List.pairwise_cons.mpr ⟨?_, h⟩
      intro q hq
      rcases List.mem_cons.mp hq with rfl | hq
      · exact hlt
      · exact String.lt_trans hlt (hp q hq)
    · split
      · rename_i heq
        exact List.pairwise_cons.mpr ⟨fun q hq => by simpa [heq] using hp q hq, hps⟩
      · rename_i hlt hne
        refine List.pairwise_cons.mpr ⟨?_, ih hps⟩
        intro q hq
        rcases mem_setPairs hq with rfl | hq
        · exact lt_of_le_of_ne (not_lt.mp hlt) (Ne.symm hne)
        · exact hp q hq

def set (m : Fields) (key value : String) : Fields :=
  ⟨setPairs key value m.pairs, setPairs_sorted key value m.sorted⟩

theorem setPairs_last {key value : String} {ps : List (String × String)}
    (h : ∀ p ∈ ps, p.1 < key) : setPairs key value ps = ps ++ [(key, value)] := by
  induction ps with
  | nil => rfl
  | cons p ps ih =>
    have hp := h p List.mem_cons_self
    simp only [setPairs, if_neg (lt_asymm hp), if_neg (ne_of_gt hp), List.cons_append,
      ih (fun q hq => h q (List.mem_cons_of_mem _ hq))]

end Fields

/-- A scalar that is left out when it has its default value. -/
def numField (k : Nat) (n : Int64) : List Field :=
  if n = 0 then [] else [(k, .num n.toUInt64.toNat)]

def textField (k : Nat) (s : String) : List Field :=
  if s = "" then [] else [(k, .bytes (utf8 s))]

/-- The entry message of a map field. -/
def mapEntry (p : String × String) : Bytes :=
  encode [(1, .bytes (utf8 p.1)), (2, .bytes (utf8 p.2))]

/-- The fields of `logengine.LogEntry` by their numbers in the schema. -/
def toFields (pb : LogEntryPB) : List Field :=
  textField 1 pb.id ++ numField 2 pb.timestamp ++ numField 3 pb.receivedAt ++
  textField 4 pb.service ++ textField 5 pb.level ++ textField 6 pb.message ++
  pb.fields.pairs.map (fun p => (7, .bytes (mapEntry p))) ++ textField 8 pb.namespace

def setEntryField (p : String × String) : Field → Option (String × String)
  | (1, .bytes bs) => (ofUtf8? bs).map (fun s => (s, p.2))
  | (2, .bytes bs) => (ofUtf8? bs).map (fun s => (p.1, s))
  | _ => some p

def readMapEntry (bs : Bytes) : Option (String × String) :=
  (decode bs).bind (fun fs => fs.foldlM setEntryField ("", ""))

/-- Set the field of a message that was read; unknown ones are skipped. -/
def setField (pb : LogEntryPB) : Field → Option LogEntryPB
  | (1, .bytes bs) => (ofUtf8? bs).map (fun s => { pb with id := s })
  | (2, .num n) => some { pb with timestamp := (UInt64.ofNat n).toInt64 }
  | (3, .num n) => some { pb with receivedAt := (UInt64.ofNat n).toInt64 }
  | (4, .bytes bs) => (ofUtf8? bs).map (fun s => { pb with service := s })
  | (5, .bytes bs) => (ofUtf8? bs).map (fun s => { pb with level := s })
  | (6, .bytes bs) => (ofUtf8? bs).map (fun s => { pb with message := s })
  | (7, .bytes bs) => (readMapEntry bs).map (fun p => { pb with fields := pb.fields.set p.1 p.2 })
  | (8, .bytes bs) => (ofUtf8? bs).map (fun s => { pb with «namespace» := s })
  | _ => some pb

def emptyPB : LogEntryPB := ⟨"", 0, 0, "", "", "", .empty, ""⟩

/-- The wire format of the schema, with map entries in key order. -/
def protobuf : ProtoPackage where
  marshal pb := encode (toFields pb)
  unmarshal bs := (decode bs).bind (fun fs => fs.foldlM setField emptyPB)

theorem readMapEntry_mapEntry (p : String × String) : readMapEntry (mapEntry p) = some p := by
  simp [readMapEntry, mapEntry, decode_encode, setEntryField, ofUtf8?_utf8]

theorem foldlM_textField {k : Nat} {s : String} {pb pb' : LogEntryPB}
    (h : setField pb (k, .bytes (utf8 s)) = some pb') (h0 : s = "" → pb' = pb) :
    (textField k s).foldlM setField pb = some pb' := by
  unfold textField
  split
  · rename_i hs
    rw [h0 hs]
    rfl
  · simp [h]

theorem foldlM_numField {k : Nat} {n : Int64} {pb pb' : LogEntryPB}
    (h : setField pb (k, .num n.toUInt64.toNat) = some pb') (h0 : n = 0 → pb' = pb) :
    (numField k n).foldlM setField pb = some pb' := by
  unfold numField
  split
  · rename_i hn
    rw [h0 hn]
    rfl
  · simp [h]

/-- Reading the entries of a map in key order rebuilds the map. -/
theorem foldlM_mapFields (ps : List (String × String)) (pb : LogEntryPB) (m : Fields)
    (h : pb.fields.pairs ++ ps = m.pairs) :
    (ps.map (fun p => ((7, .bytes (mapEntry p)) : Field))).foldlM setField pb =
      some { pb with fields := m } := by
  induction ps generalizing pb with
  | nil =>
    have hm : pb.fields = m := by
      cases hf : pb.fields
      cases m
      simpa [hf] using h
    simp [← hm]
  | cons p ps ih =>
    have hlast : ∀ q ∈ pb.fields.pairs, q.1 < p.1 := by
      have hs := m.sorted
      rw [← h, List.pairwise_append] at hs
      exact fun q hq => hs.2.2 q hq p List.mem_cons_self
    have hset : (pb.fields.set p.1 p.2).pairs = pb.fields.pairs ++ [p] :=
      Fields.setPairs_last hlast
    have hstep : setField pb (7, .bytes (mapEntry p)) =
        some { pb with fields := pb.fields.set p.1 p.2 } := by
      simp [setField, readMapEntry_mapEntry]
    rw [List.map_cons, List.foldlM_cons, hstep]
    refine ih _ ?_
    rw [hset, List.append_assoc]
    exact h

theorem foldlM_toFields (pb : LogEntryPB) : (toFields pb).foldlM setField emptyPB = some pb := by
  obtain ⟨id, ts, recv, service, level, message, fields, ns⟩ := pb
  have h1 : (textField 1 id).foldlM setField emptyPB = some { emptyPB with id } :=
    foldlM_textField (by simp [setField, ofUtf8?_utf8]) (by rintro rfl; rfl)
  have h2 : (numField 2 ts).foldlM setField { emptyPB with id } =
      some { emptyPB with id, timestamp := ts } :=
    foldlM_numField (by simp [setField]) (by rintro rfl; rfl)
  have h3 : (numField 3 recv).foldlM setField { emptyPB with id, timestamp := ts } =
      some ⟨id, ts, recv, "", "", "", .empty, ""⟩ :=
    foldlM_numField (by simp [setField, emptyPB]) (by rintro rfl; rfl)
  have h4 : (textField 4 service).foldlM setField ⟨id, ts, recv, "", "", "", .empty, ""⟩ =
      some ⟨id, ts, recv, service, "", "", .empty, ""⟩ :=
    foldlM_textField (by simp [setField, ofUtf8?_utf8]) (by rintro rfl; rfl)
  have h5 : (textField 5 level).foldlM setField ⟨id, ts, recv, service, "", "", .empty, ""⟩ =
      some ⟨id, ts, recv, service, level, "", .empty, ""⟩ :=
    foldlM_textField (by simp [setField, ofUtf8?_utf8]) (by rintro rfl; rfl)
  have h6 : (textField 6 message).foldlM setField ⟨id, ts, recv, service, level, "", .empty, ""⟩ =
      some ⟨id, ts, recv, service, level, message, .empty, ""⟩ :=
    foldlM_textField (by simp [setField, ofUtf8?_utf8]) (by rintro rfl; rfl)
  have h7 := foldlM_mapFields fields.pairs ⟨id, ts, recv, service, level, message, .empty, ""⟩
    fields rfl
  have h8 : (textField 8 ns).foldlM setField ⟨id, ts, recv, service, level, message, fields, ""⟩ =
      some ⟨id, ts, recv, service, level, message, fields, ns⟩ :=
    foldlM_textField (by simp [setField, ofUtf8?_utf8]) (by rintro rfl; rfl)
  simp only [toFields, List.foldlM_append, h1, h2, h3, h4, h5, h6, h7, h8, Option.bind_eq_bind,
    Option.bind_some]

theorem protobuf_inverts : protobuf.Inverts := by
  intro pb
  simp [protobuf, decode_encode, foldlM_toFields]

/-- A filter that remembers its strings exactly: one without false positives. -/
def exactFilter : BloomPackage where
  Filter := List String
  newWithEstimates _ := []
  addString f s := s :: f
  testString f s := f.contains s
  writeTo f := encode (f.map (fun s => (1, .bytes (utf8 s))))
  readFrom bs := (decode bs).bind (fun fs => fs.mapM (fun f =>
    match f with
    | (_, .bytes b) => ofUtf8? b
    | (_, .num _) => none))

theorem mem_exactFilter {s : String} (ts : List String) (f : List String) :
    s ∈ ts.foldl (fun f t => t :: f) f ↔ s ∈ ts ∨ s ∈ f := by
  induction ts generalizing f with
  | nil => simp
  | cons t ts ih =>
    rw [List.foldl_cons, ih, List.mem_cons, List.mem_cons]
    tauto

theorem exactFilter_sound : exactFilter.Sound := by
  intro n ts s hs
  exact List.contains_iff_mem.mpr ((mem_exactFilter ts []).mpr (.inl hs))

theorem exactFilter_roundTrips : exactFilter.RoundTrips := by
  intro f
  have hf : ∀ l : List String, (l.map (fun s => ((1, .bytes (utf8 s)) : Field))).mapM (fun f =>
      match f with
      | (_, .bytes b) => ofUtf8? b
      | (_, .num _) => none) = some l := by
    intro l
    induction l with
    | nil => rfl
    | cons s l ih => simp [ofUtf8?_utf8, ih]
  simp only [exactFilter, decode_encode, Option.bind_some]
  exact hf f

/-- A log line without fields. -/
def line (id ns service message : String) (time : Int64) : LogEntry :=
  ⟨id, time, time, ns, service, "INFO", message, .empty⟩

/-- A line whose message has 64 MiB. -/
def longLine : LogEntry :=
  line "1" "" "orders" (String.ofList (List.replicate (64 * 1024 * 1024) 'a')) 1

theorem utf8_replicate (n : Nat) : (utf8 (String.ofList (List.replicate n 'a'))).length = n := by
  have hsize : (List.utf8Encode (List.replicate n 'a')).size = n := by
    induction n with
    | zero => rfl
    | succ n ih =>
      rw [List.replicate_succ, List.utf8Encode_cons, ByteArray.size_append, ih, Nat.add_comm]
      rfl
  simpa [utf8] using hsize

end LogEngine
