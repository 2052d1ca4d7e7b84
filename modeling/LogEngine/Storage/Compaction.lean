import LogEngine.Storage.Manager

namespace LogEngine.Storage
open Lib

/-- Which file steps of a pass fail for a path: its `Stat`, and, for the run that starts
with it, the first read, opening the temp file, the append of one of its entries, the rename and
the sidecar. -/
structure MergeFaults where
  stat : Bool := false
  read : Bool := false
  openTmp : Bool := false
  append : Option Nat := none
  rename : Bool := false
  writeBloom : Bool := false

def noFaults : String → MergeFaults := fun _ => {}

variable {B : BloomPackage} (P : ProtoPackage)

/-- `mergeRun` up to the point where the merged file stands complete under its temp name. -/
def mergeWrite (tmp : String) (all : List LogEntry) : List (Step B) :=
  .remove tmp :: .create tmp :: all.map (fun e => .append tmp (record P e))

/-- `mergeRun` after a failed rename: the index is restored from the old files. -/
def mergeUndo (d : Disk) (tmp : String) (paths : List String) : List (Step B) :=
  .remove tmp :: paths.flatMap (fun op =>
    match readSegments P d [op] with
    | .error _ => []
    | .ok restored => restored.map (fun e => .indexAdd e op))

/-- `mergeRun` after the rename. -/
def mergeCommit (bloomEnabled bloomOk : Bool) (newPath : String) (olds : List String)
    (all : List LogEntry) : List (Step B) :=
  (if bloomEnabled ∧ all.flatMap tokenizeEntry ≠ [] then writeBloom newPath (bloomOf B all) bloomOk
    else []) ++
  all.map (fun e => .indexAdd e newPath) ++
  [.finishMerge newPath olds] ++
  olds.flatMap (fun op => [.remove op, .remove (bloomPath op)])

/-- The first entry whose append to the temp file fails: the disk refuses it, or `WriteRecord`
does. -/
def failedAppend (f : MergeFaults) (all : List LogEntry) : Option Nat :=
  all.zipIdx.findIdx? (fun p => f.append = some p.2 || (writeRecord (marshalLogEntry P p.1)).isNone)

/-- `mergeRun` on the entries it read. -/
def mergeAll (s : Store B) (f : MergeFaults) (newPath : String) (olds : List String)
    (all : List LogEntry) : List (Step B) :=
  let tmp := tmpPath newPath
  if f.openTmp then [.remove tmp]
  else
    match failedAppend P f all with
    | some k => mergeWrite P tmp (all.take k) ++ [.remove tmp]
    | none =>
      mergeWrite P tmp all ++ (newPath :: olds).map .indexRemove ++
      if f.rename then mergeUndo P s.disk tmp (newPath :: olds)
      else .rename tmp newPath ::
        mergeCommit s.manager.bloomEnabled (!f.writeBloom) newPath olds all

def mergeRun (s : Store B) (f : MergeFaults) : List String → List (Step B)
  | [] => []
  | newPath :: olds =>
    if f.read then []
    else
      match readSegments P s.disk (newPath :: olds) with
      | .error _ => []
      | .ok all => mergeAll P s f newPath olds all

/-- The closure `flush` of `runMergePass`. -/
def flush (s : Store B) (faults : String → MergeFaults) (run : List String) : List (Step B) :=
  if run.length ≥ 2 then mergeRun P s (faults (run.headD "")) run else []

/-- The size test of `runMergePass`; a failed `Stat` ends the run like a large segment. -/
def isSmall (d : Disk) (threshold : Int) (f : MergeFaults) (path : String) : Bool :=
  !f.stat && match d.files.get path with
    | none => false
    | some bs => (bs.length : Int) < threshold

/-- The loop of `runMergePass` over the closed segments still to look at. -/
def mergeLoop (threshold : Int) (faults : String → MergeFaults) :
    Store B → List String → List String → List (Step B)
  | s, run, [] => flush P s faults run
  | s, run, path :: rest =>
    if isSmall s.disk threshold (faults path) path then
      mergeLoop threshold faults s (run ++ [path]) rest
    else
      let steps := flush P s faults run
      steps ++ mergeLoop threshold faults (s.run steps) [] rest

def runMergePass (s : Store B) (threshold : Int) (faults : String → MergeFaults) : List (Step B) :=
  if threshold ≤ 0 then []
  else
    let closed := s.manager.listClosedSegments
    if closed.length < 2 then [] else mergeLoop P threshold faults s [] closed

/-- `time.Now().Add(-time.Duration(days) * 24 * time.Hour).UnixNano()`, wrapping. -/
def retentionCutoff (now : Int64) (days : Int) : Int64 :=
  now + -(Int64.ofInt days) * 24 * 3600000000000

def maxTimestamp (entries : List LogEntry) : Int64 :=
  entries.foldl (fun m e => if e.timestamp > m then e.timestamp else m) 0

/-- The test and the deletion of `runRetentionPass` for one segment. -/
def retainOne (s : Store B) (cutoff : Int64) (path : String) : List (Step B) :=
  match readSegments P s.disk [path] with
  | .error _ => []
  | .ok entries =>
    if maxTimestamp entries > 0 ∧ maxTimestamp entries < cutoff then
      [.deleteSegment path, .indexRemove path, .remove path, .remove (bloomPath path)]
    else []

def retentionLoop (cutoff : Int64) : Store B → List String → List (Step B)
  | _, [] => []
  | s, path :: rest =>
    let steps := retainOne P s cutoff path
    steps ++ retentionLoop cutoff (s.run steps) rest

/-- `runRetentionPass` at a time and for a configured number of days. -/
def runRetentionPass (s : Store B) (now : Int64) (days : Int) : List (Step B) :=
  if days ≤ 0 then []
  else retentionLoop P (retentionCutoff now days) s s.manager.listClosedSegments

end LogEngine.Storage
