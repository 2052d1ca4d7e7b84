import LogEngine.Lib.Strings

namespace LogEngine
open Lib

/-- A `map[string]string`, held as its pairs in key order so that two maps with the
same bindings are the same value. A nil map and an empty one are not told apart. -/
structure Fields where
  pairs : List (String × String)
  sorted : pairs.Pairwise (fun a b => a.1 < b.1)
  deriving DecidableEq

namespace Fields

def empty : Fields := ⟨[], .nil⟩

/-- `m[key]`, the empty string for a key that is absent. -/
def get (m : Fields) (key : String) : String :=
  match m.pairs.find? (fun p => p.1 = key) with
  | some p => p.2
  | none => ""

end Fields

structure LogEntry where
  id : String
  timestamp : Int64
  receivedAt : Int64
  «namespace» : String
  service : String
  level : String
  message : String
  fields : Fields
  deriving DecidableEq

/-- `logengine.LogEntry`, the protobuf message with the same fields. -/
structure LogEntryPB where
  id : String
  timestamp : Int64
  receivedAt : Int64
  service : String
  level : String
  message : String
  fields : Fields
  «namespace» : String
  deriving DecidableEq

structure QueryRequest where
  queryString : String
  «namespace» : String
  service : String
  startTime : Int64
  endTime : Int64
  limit : Int32
  offset : Int32
  deriving DecidableEq

/-- `types.QueryResult` without its duration. A local executor never sets `Partial`. -/
structure QueryResult where
  entries : List LogEntry
  total : Int32
  deriving DecidableEq

/-- The protobuf runtime, which is not part of the repository. `Marshal` fails only on
strings that are not valid UTF-8, which `String` excludes. -/
structure ProtoPackage where
  marshal : LogEntryPB → Bytes
  unmarshal : Bytes → Option LogEntryPB

/-- `Unmarshal` gives back the message that `Marshal` encoded. -/
def ProtoPackage.Inverts (P : ProtoPackage) : Prop :=
  ∀ pb, P.unmarshal (P.marshal pb) = some pb

/-- The bloom filter package, which is not part of the repository. The false positive
rate is the constant 0.01 at the one place that creates a filter. -/
structure BloomPackage where
  Filter : Type
  newWithEstimates : Nat → Filter
  addString : Filter → String → Filter
  testString : Filter → String → Bool
  writeTo : Filter → Bytes
  readFrom : Bytes → Option Filter

/-- `TestString` is true for every string added. -/
def BloomPackage.Sound (B : BloomPackage) : Prop :=
  ∀ (n : Nat) (ts : List String) (s : String), s ∈ ts →
    B.testString (ts.foldl B.addString (B.newWithEstimates n)) s = true

/-- `ReadFrom` gives back the filter that `WriteTo` wrote. -/
def BloomPackage.RoundTrips (B : BloomPackage) : Prop :=
  ∀ f, B.readFrom (B.writeTo f) = some f

/-- The loop that keeps the larger value. -/
theorem foldl_latest_le {α : Type} (f : α → Int64) (es : List α) (m : Int64) (b : Int) :
    (es.foldl (fun m e => if f e > m then f e else m) m).toInt ≤ b ↔
      m.toInt ≤ b ∧ ∀ e ∈ es, (f e).toInt ≤ b := by
  induction es generalizing m with
  | nil => simp
  | cons e es ih =>
    rw [List.foldl_cons, ih, List.forall_mem_cons]
    by_cases h : f e > m
    · have hlt := Int64.lt_iff_toInt_lt.mp h
      rw [if_pos h]
      constructor
      · intro hb
        exact ⟨by omega, hb.1, hb.2⟩
      · intro hb
        exact ⟨hb.2.1, hb.2.2⟩
    · have hle : (f e).toInt ≤ m.toInt := by
        have hnot : ¬ m.toInt < (f e).toInt := fun hlt => h (Int64.lt_iff_toInt_lt.mpr hlt)
        omega
      rw [if_neg h]
      constructor
      · intro hb
        exact ⟨hb.1, by omega, hb.2⟩
      · intro hb
        exact ⟨hb.1, hb.2.2⟩

/-- The gRPC status codes that the servers answer with, and those of a server that cannot be
reached, of a connection that was closed and of a context that has run out. -/
inductive Code where
  | invalidArgument
  | failedPrecondition
  | notFound
  | internal
  | unavailable
  | canceled
  | deadlineExceeded
  deriving DecidableEq

end LogEngine
