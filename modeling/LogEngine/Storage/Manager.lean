import LogEngine.Storage.Bloom
import LogEngine.Index.Index

namespace LogEngine.Storage
open Lib

/-- `Segment`: an open segment file, named by its path, and the size it counts. -/
structure Segment where
  path : String
  size : Int
  deriving DecidableEq

/-- `Manager`. Paths are base names in the one data directory. -/
structure Manager (B : BloomPackage) where
  maxSegmentBytes : Int
  active : Option Segment
  nextSeq : UInt64
  paths : List String
  bloomEnabled : Bool
  blooms : GoMap String B.Filter

/-- A node's local store: the data directory, the manager over it and the index. -/
structure Store (B : BloomPackage) where
  disk : Disk
  manager : Manager B
  index : Index

/-- The steps that storage operations consist of. The first six act on the directory, and
the process may stop between any two of them; the others act on memory. -/
inductive Step (B : BloomPackage) where
  | create (path : String)
  | truncate (path : String)
  | append (path : String) (bs : Bytes)
  | rename (old new : String)
  | remove (path : String)
  | mark (text : String)
  | openActive (path : String)
  | grow (n : Nat)
  | setBloom (path : String) (bf : B.Filter)
  | finishMerge (newPath : String) (olds : List String)
  | deleteSegment (path : String)
  | loadSegment (path : String)
  | indexAdd (e : LogEntry) (path : String)
  | indexRemove (path : String)

variable {B : BloomPackage}

namespace Disk

/-- `os.OpenFile` with `O_CREATE` and without `O_TRUNC`. -/
def create (d : Disk) (path : String) : Disk :=
  { d with files := d.files.set path ((d.files.get path).getD []) }

/-- A write at the end of an open file. -/
def append (d : Disk) (path : String) (bs : Bytes) : Disk :=
  { d with files := d.files.set path ((d.files.get path).getD [] ++ bs) }

def write (d : Disk) (path : String) (bs : Bytes) : Disk :=
  { d with files := d.files.set path bs }

/-- `os.Rename`; nothing happens when the old name is missing. -/
def rename (d : Disk) (old new : String) : Disk :=
  match d.files.get old with
  | none => d
  | some bs => { d with files := (d.files.delete old).set new bs }

def remove (d : Disk) (path : String) : Disk :=
  { d with files := d.files.delete path }

end Disk

def Manager.listClosedSegments (m : Manager B) : List String := m.paths.dropLast

/-- `Manager.ActiveSegmentName`, and the last element of `m.paths` where the code takes it without
a test (`rotate`, `AppendWithPath`, `LoadSegment`). There the code panics on an empty list, which
comes about only when the active segment was listed twice and a compaction deleted its path. -/
def Manager.activeSegmentName (m : Manager B) : String := m.paths.getLast?.getD ""

/-- The bookkeeping of `openNewSegment` once the file is open. -/
def Store.openActive (s : Store B) (path : String) : Store B :=
  { s with manager := { s.manager with
      active := some ⟨path, ((s.disk.files.get path).getD []).length⟩
      paths := s.manager.paths ++ [path]
      nextSeq := s.manager.nextSeq + 1 } }

/-- Put the filter of a path's sidecar into the bloom map, if it can be read. -/
def Manager.loadBloom (m : Manager B) (d : Disk) (path : String) : Manager B :=
  match readBloom B d path with
  | some bf => { m with blooms := m.blooms.set path bf }
  | none => m

/-- The section of `mergeRun` under the manager's lock. -/
def Store.finishMerge (s : Store B) (newPath : String) (olds : List String) : Store B :=
  let m := { s.manager with paths := s.manager.paths.filter (fun p => p ∉ olds) }
  if m.bloomEnabled then
    let m := { m with blooms := (olds.foldl GoMap.delete m.blooms).delete newPath }
    { s with manager := m.loadBloom s.disk newPath }
  else { s with manager := m }

def Manager.deleteSegment (m : Manager B) (path : String) : Manager B :=
  { m with paths := m.paths.filter (fun p => p ≠ path), blooms := m.blooms.delete path }

def Manager.loadSegment (m : Manager B) (d : Disk) (path : String) : Manager B :=
  let m := { m with paths := m.paths.dropLast ++ [path] ++ m.paths.getLast?.toList }
  if m.bloomEnabled then m.loadBloom d path else m

def Step.apply (s : Store B) : Step B → Store B
  | .create path => { s with disk := s.disk.create path }
  | .truncate path => { s with disk := s.disk.write path [] }
  | .append path bs => { s with disk := s.disk.append path bs }
  | .rename old new => { s with disk := s.disk.rename old new }
  | .remove path => { s with disk := s.disk.remove path }
  | .mark text => { s with disk := { s.disk with marker := some text } }
  | .openActive path => s.openActive path
  | .grow n => { s with manager := { s.manager with
      active := s.manager.active.map (fun a => { a with size := a.size + n }) } }
  | .setBloom path bf => { s with manager := { s.manager with
      blooms := s.manager.blooms.set path bf } }
  | .finishMerge newPath olds => s.finishMerge newPath olds
  | .deleteSegment path => { s with manager := s.manager.deleteSegment path }
  | .loadSegment path => { s with manager := s.manager.loadSegment s.disk path }
  | .indexAdd e path => { s with index := s.index.add e path }
  | .indexRemove path => { s with index := s.index.removeSegment path }

def Store.run (s : Store B) (steps : List (Step B)) : Store B := steps.foldl Step.apply s

/-- `openNewSegment`. The marker file is truncated and then written. -/
def openNewSegment (m : Manager B) : List (Step B) :=
  let name := segmentName m.nextSeq
  [.create name, .openActive name, .mark "", .mark name]

/-- `WriteBloom` to a segment's sidecar, up to its success or failure. -/
def writeBloom (path : String) (bf : B.Filter) (ok : Bool) : List (Step B) :=
  let tmp := tmpPath (bloomPath path)
  if ok then [.truncate tmp, .append tmp (B.writeTo bf), .rename tmp (bloomPath path)]
  else [.truncate tmp, .remove tmp]

variable (P : ProtoPackage)

/-- The bloom part of `rotate`, for the segment being closed. -/
def rotateBloom (s : Store B) (closingPath : String) (bloomOk : Bool) : List (Step B) :=
  if s.manager.bloomEnabled then
    match readSegment P s.disk closingPath with
    | .error _ => []
    | .ok entries =>
      let bf := bloomOf B entries
      writeBloom closingPath bf bloomOk ++ if bloomOk then [.setBloom closingPath bf] else []
  else []

/-- Where `m.paths` is empty the code panics; see `Manager.activeSegmentName`. -/
def rotate (s : Store B) (bloomOk : Bool) : List (Step B) :=
  rotateBloom P s s.manager.activeSegmentName bloomOk ++ openNewSegment s.manager

inductive AppendError where
  | closedManager
  | payloadOverflow (length : Nat)
  deriving DecidableEq

/-- The size test of `appendLocked`. -/
def mustRotate (s : Store B) (seg : Segment) (e : LogEntry) : Bool :=
  seg.size + (4 + (marshalLogEntry P e).length : Nat) > s.manager.maxSegmentBytes

/-- The file that `appendLocked` writes an entry to. -/
def appendTarget (s : Store B) (seg : Segment) (e : LogEntry) : String :=
  if mustRotate P s seg e then segmentName s.manager.nextSeq else seg.path

def rotateIfFull (s : Store B) (seg : Segment) (e : LogEntry) (bloomOk : Bool) : List (Step B) :=
  if mustRotate P s seg e then rotate P s bloomOk else []

/-- `appendLocked` where no file operation fails: its steps, and the error it returns.
The record's length and payload are two writes. -/
def appendLocked (s : Store B) (e : LogEntry) (bloomOk : Bool) :
    List (Step B) × Option AppendError :=
  match s.manager.active with
  | none => ([], some .closedManager)
  | some seg =>
    let data := marshalLogEntry P e
    match writeRecord data with
    | none => (rotateIfFull P s seg e bloomOk, some (.payloadOverflow data.length))
    | some _ =>
      let path := appendTarget P s seg e
      (rotateIfFull P s seg e bloomOk ++
        [.append path (be32 data.length), .append path data, .grow (4 + data.length)], none)

/-- `Manager.AppendWithPath`: the store afterwards, and the path unless it failed. -/
def Store.appendWithPath (s : Store B) (e : LogEntry) : Store B × Option String :=
  let (steps, err) := appendLocked P s e true
  let s' := s.run steps
  match err with
  | some _ => (s', none)
  | none => (s', some s'.manager.activeSegmentName)

/-- What every ingest path does with an entry: `AppendWithPath`, then `Index.Add`. -/
def Store.ingest (s : Store B) (e : LogEntry) : Store B :=
  match s.appendWithPath P e with
  | (s', some path) => { s' with index := s'.index.add e path }
  | (s', none) => s'

/-- The segment files of the directory in name order, as `NewManager` finds them. -/
def matchedSegments (d : Disk) : List String :=
  (d.files.keys.filter (fun n => IsSeg n)).insertionSort (· ≤ ·)

/-- The file the ACTIVE marker names, when it exists. Joining an empty text to the
directory names the directory itself, which exists. -/
def markedSegment (d : Disk) : Option String :=
  match d.marker with
  | none => none
  | some text =>
    let name := trimSpace text
    if name = "" ∨ (d.files.get name).isSome = true then some name else none

/-- Move the active segment to the end of the list. -/
def activeLast (names : List String) (active : String) : List String :=
  if names ≠ [] ∧ names.getLast? ≠ some active then names.filter (fun p => p ≠ active) ++ [active]
  else names

/-- The manager `NewManager` builds before it opens the active segment. -/
def initialManager (B : BloomPackage) (d : Disk) (maxSegmentBytes : Int) (bloomEnabled : Bool) :
    Manager B :=
  let names := matchedSegments d
  let paths := match (markedSegment d).or names.getLast? with
    | none => names
    | some active => activeLast names active
  { maxSegmentBytes, active := none, nextSeq := nextSeqFromMatches paths, paths, bloomEnabled,
    blooms := .empty }

def Manager.bloomFor (m : Manager B) (path : String) : Option B.Filter := m.blooms.get path

/-- Load the sidecars of all closed segments. -/
def Manager.loadBlooms (m : Manager B) (d : Disk) : Manager B :=
  if m.bloomEnabled then m.listClosedSegments.foldl (fun m p => m.loadBloom d p) m else m

/-- The steps `NewManager` takes on the directory: it creates the first segment when
there is none. -/
def newManagerSteps (B : BloomPackage) (d : Disk) (maxSegmentBytes : Int) (bloomEnabled : Bool) :
    List (Step B) :=
  match (markedSegment d).or (matchedSegments d).getLast? with
  | none => openNewSegment (initialManager B d maxSegmentBytes bloomEnabled)
  | some _ => []

/-- `NewManager`, or `none` when the active segment cannot be opened because its path is
the directory. -/
def newManager (B : BloomPackage) (d : Disk) (maxSegmentBytes : Int) (bloomEnabled : Bool) :
    Option (Store B) :=
  let m := initialManager B d maxSegmentBytes bloomEnabled
  let s : Store B := ⟨d, m, .new⟩
  match (markedSegment d).or (matchedSegments d).getLast? with
  | none =>
    let s := s.run (newManagerSteps B d maxSegmentBytes bloomEnabled)
    some { s with manager := s.manager.loadBlooms s.disk }
  | some path =>
    if path = "" then none
    else
      let seg : Segment := ⟨path, ((d.files.get path).getD []).length⟩
      let m := { m with active := some seg }
      some { s with manager := m.loadBlooms d }

/-- The start of a node: `NewManager`, then `RebuildFromSegments` over its paths. -/
def start (B : BloomPackage) (d : Disk) (maxSegmentBytes : Int) (bloomEnabled : Bool) :
    Option (Store B) := do
  let s ← newManager B d maxSegmentBytes bloomEnabled
  match Index.new.rebuildFromSegments (readSegment P s.disk) s.manager.paths with
  | .error _ => none
  | .ok index => some { s with index }

end LogEngine.Storage
