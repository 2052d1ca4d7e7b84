import LogEngine.Storage.Read

namespace LogEngine.Storage
open Lib

/-- `segmentNameFmt`: the file name of a sequence number. -/
def segmentName (seq : UInt64) : String :=
  String.ofList (padded 20 seq.toNat ++ ['.', 's', 'e', 'g'])

/-- The names `filepath.Glob` matches for `*.seg`. -/
def IsSeg (name : String) : Prop := hasSuffix name ".seg" = true

instance (name : String) : Decidable (IsSeg name) := inferInstanceAs (Decidable (_ = _))

def bloomPath (segPath : String) : String := trimSuffix segPath ".seg" ++ ".bloom"

/-- The temporary name that `mergeRun`, `WriteBloom` and `transferMissingSegments` rename. -/
def tmpPath (path : String) : String := path ++ ".tmp"

def tokenizeEntry (e : LogEntry) : List String :=
  alnumRuns (toLower e.message) ++ [toLower e.level, toLower e.service, toLower e.namespace]

def buildBloom (B : BloomPackage) (tokens : List String) (expectedN : Nat) : B.Filter :=
  (tokens.map toLower).foldl B.addString
    (B.newWithEstimates (if expectedN < 100 then 100 else expectedN))

/-- The filter that `rotate` and `mergeRun` build for a segment with these entries. -/
def bloomOf (B : BloomPackage) (entries : List LogEntry) : B.Filter :=
  let tokens := entries.flatMap tokenizeEntry
  buildBloom B tokens tokens.length

/-- `ReadBloom(BloomPath(path))`. -/
def readBloom (B : BloomPackage) (d : Disk) (path : String) : Option B.Filter :=
  (d.files.get (bloomPath path)).bind B.readFrom

/-- The largest sequence number among the names, 0 when there is none. -/
def maxSeq (names : List String) : Nat :=
  names.foldl (fun m p =>
    match parseUint (trimSuffix p ".seg") with
    | some n => if n > m then n else m
    | none => m) 0

/-- `nextSeqFromMatches`. The increment wraps like the uint64 it is. -/
def nextSeqFromMatches (names : List String) : UInt64 := UInt64.ofNat (maxSeq names) + 1

example : segmentName 12 = "00000000000000000012.seg" ∧
    bloomPath (segmentName 12) = "00000000000000000012.bloom" := by decide +kernel

end LogEngine.Storage
