import LogEngine.Storage.Append
import LogEngine.Packages

namespace LogEngine.Storage
open Lib

/-- The encoding of a line, by the length of its message. -/
theorem marshal_line_length {message : String} (h : message ≠ "") :
    (marshalLogEntry protobuf (line "1" "" "orders" message 1)).length =
      22 + ((Wire.varint (utf8 message).length).length + (utf8 message).length) := by
  have hfront : (Wire.encode (textField 1 "1" ++ numField 2 1 ++ numField 3 1 ++
      textField 4 "orders" ++ textField 5 "INFO")).length = 21 := by
    decide +kernel
  have hsplit : marshalLogEntry protobuf (line "1" "" "orders" message 1) =
      Wire.encode (textField 1 "1" ++ numField 2 1 ++ numField 3 1 ++ textField 4 "orders" ++
        textField 5 "INFO") ++ Wire.encodeField (6, .bytes (utf8 message)) := by
    have hmessage : textField 6 message = [(6, .bytes (utf8 message))] := if_neg h
    have hns : textField 8 "" = [] := if_pos rfl
    simp only [marshalLogEntry, protobuf, storageEntryToProto, line, toFields, hmessage, hns,
      Fields.empty, List.map_nil, List.append_nil, Wire.encode, List.flatMap_append,
      List.flatMap_cons, List.flatMap_nil]
  have htag : (Wire.varint (6 * 8 + 2)).length = 1 := by decide
  rw [hsplit, List.length_append, hfront, Wire.encodeField, List.length_append,
    List.length_append, htag]
  omega

theorem longLine_length :
    (marshalLogEntry protobuf longLine).length = 22 + (4 + 64 * 1024 * 1024) := by
  have hlen := utf8_replicate (64 * 1024 * 1024)
  have hne : String.ofList (List.replicate (64 * 1024 * 1024) 'a') ≠ "" := by
    intro h
    rw [h] at hlen
    exact absurd hlen (by decide)
  have hvarint : (Wire.varint (64 * 1024 * 1024)).length = 4 := by decide +kernel
  have hsize := marshal_line_length hne
  rw [hlen, hvarint] at hsize
  exact hsize

theorem longLine_size : Writable protobuf longLine ∧ ¬ Fits protobuf longLine := by
  unfold Writable Fits maxRecordSize
  rw [longLine_length]
  omega

end LogEngine.Storage
