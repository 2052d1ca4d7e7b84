import LogEngine.Ingest.Server

namespace LogEngine.Ingest
open Lib Storage

/-- `metadata.ShardRecord` without the key it is stored under. -/
structure ShardRecord where
  primaryNode : String
  replicaNode : String
  deriving DecidableEq

/-- `metadata.ClusterState`, with the addresses of the nodes. -/
structure ClusterState where
  nodes : GoMap String String
  shards : GoMap Int ShardRecord

/-- The RPCs that catch-up makes for one shard. -/
inductive Call where
  | list
  | transfer (name : String)
  | fetch
  deriving DecidableEq

/-- The calls and file operations of catch-up that fail for a shard. A stream may break
after any number of its chunks. -/
structure ShardFaults where
  dial : Bool
  call : Call → Bool
  createTmp : String → Bool
  stream : String → Option Nat
  rename : String → Bool

/-- The primaries as catch-up meets them: the node that answers each call for a shard, which
of them fail, and how the fetched entries are ordered. -/
structure Network (B : BloomPackage) where
  peer : Int → Call → Node B
  faults : Int → ShardFaults
  sort : List LogEntryPB → List LogEntryPB
  sort_perm : ∀ l, (sort l).Perm l

variable {B : BloomPackage} (P : ProtoPackage)

/-- The names whose local closed segment already has entries of a shard. -/
def covered (s : Store B) (totalShards shard : Int) : List String :=
  s.manager.listClosedSegments.filter (segmentHolds P s.disk totalShards shard)

/-- The temp file of a transfer with the chunks received so far. -/
def received (tmp : String) (chunks : List Bytes) : List (Step B) :=
  .truncate tmp :: chunks.map (fun c => .append tmp c)

/-- What catch-up indexes of a transferred file: nothing when it cannot be read. -/
def indexable (chunks : List Bytes) : List LogEntry :=
  match decodeSegment P chunks.flatten with
  | .error _ => []
  | .ok entries => entries

/-- A segment received in full: rename, `LoadSegment`, and the index entries of its file. -/
def install (name : String) (chunks : List Bytes) : List (Step B) :=
  received (tmpPath name) chunks ++
    [.rename (tmpPath name) name, .loadSegment name] ++
    (indexable P chunks).map (fun e => .indexAdd e name)

/-- One turn of the loop of `transferMissingSegments` past its two tests, and what it adds
to the count. -/
def transferOne (net : Network B) (shard : Int) (name : String) : List (Step B) × Nat :=
  let faults := net.faults shard
  let tmp := tmpPath name
  if faults.call (.transfer name) || faults.createTmp name then ([], 0)
  else
    match (net.peer shard (.transfer name)).transferSegment P name (Int32.ofInt shard) with
    | .error _ => (received tmp [] ++ [.remove tmp], 0)
    | .ok chunks =>
      match faults.stream name with
      | some k => (received tmp (chunks.take k) ++ [.remove tmp], 0)
      | none =>
        if faults.rename name then (received tmp chunks ++ [.remove tmp], 0)
        else (install P name chunks, (indexable P chunks).length)

/-- The names `transferMissingSegments` goes on to transfer. -/
def missingNames (net : Network B) (totalShards shard : Int) (s : Store B) : List String :=
  if (net.faults shard).call .list then []
  else
    ((net.peer shard .list).listSegments P (Int32.ofInt shard)).filter (fun name =>
      name ∉ covered P s totalShards shard ∧ name ≠ s.manager.activeSegmentName)

/-- `transferMissingSegments`: its steps and the count it returns. The covered names and the
active name are taken once, before the loop. -/
def transferMissingSegments (net : Network B) (totalShards shard : Int) (s : Store B) :
    List (Step B) × Nat :=
  let turns := (missingNames P net totalShards shard s).map (transferOne P net shard)
  (turns.flatMap Prod.fst, (turns.map Prod.snd).sum)

/-- The entries of a shard that `ReadSegments(SegmentPaths())` returns; both helpers treat
a failed read as no entries. -/
def localEntries (s : Store B) (totalShards shard : Int) : List LogEntry :=
  match readSegments P s.disk s.manager.paths with
  | .error _ => []
  | .ok all => all.filter (inShard totalShards shard)

def latestReceivedAtForShard (s : Store B) (totalShards shard : Int) : Int64 :=
  (localEntries P s totalShards shard).foldl
    (fun latest e => if e.receivedAt > latest then e.receivedAt else latest) 0

def localIDsAtOrAfterNs (s : Store B) (totalShards shard : Int) (since : Int64) : List String :=
  ((localEntries P s totalShards shard).filter (fun e => e.receivedAt ≥ since)).map LogEntry.id

/-- The answer to `FetchShardEntries` that catch-up works with, nothing when it failed. -/
def fetchedEntries (net : Network B) (totalShards shard : Int) (s : Store B) : List LogEntryPB :=
  if (net.faults shard).call .fetch then []
  else
    match (net.peer shard .fetch).fetchShardEntries P net.sort (Int32.ofInt shard)
        (latestReceivedAtForShard P s totalShards shard) with
    | .error _ => []
    | .ok entries => entries

/-- The fetched entries that catch-up appends. The known IDs are taken once, before the
loop. -/
def tailEntries (net : Network B) (totalShards shard : Int) (s : Store B) : List LogEntryPB :=
  let known := localIDsAtOrAfterNs P s totalShards shard
    (latestReceivedAtForShard P s totalShards shard)
  (fetchedEntries P net totalShards shard s).filter (fun pb => pb.id ∉ known)

/-- The append loop of `CatchUp` on one entry, with the count of entries appended. -/
def appendOne (acc : Store B × Nat) (pb : LogEntryPB) : Store B × Nat :=
  (acc.1.ingest P (protoToEntry pb),
    if (appendLocked P acc.1 (protoToEntry pb) true).2 = none then acc.2 + 1 else acc.2)

/-- The second phase of `CatchUp` for a shard. -/
def appendTail (net : Network B) (totalShards shard : Int) (acc : Store B × Nat) :
    Store B × Nat :=
  (tailEntries P net totalShards shard acc.1).foldl (appendOne P) acc

/-- The body of `CatchUp` for a shard whose primary can be dialled. -/
def catchUpShard (net : Network B) (totalShards shard : Int) (acc : Store B × Nat) :
    Store B × Nat :=
  let (steps, n) := transferMissingSegments P net totalShards shard acc.1
  appendTail P net totalShards shard (acc.1.run steps, acc.2 + n)

/-- The tests of `CatchUp` before it dials: this node replicates the shard and the address
of its primary is known. -/
def replicates (state : ClusterState) (nodeID : String) (shard : Int) : Bool :=
  match state.shards.get shard with
  | none => false
  | some sr => sr.replicaNode = nodeID && (state.nodes.get sr.primaryNode).getD "" ≠ ""

def catchUpStep (net : Network B) (state : ClusterState) (nodeID : String) (totalShards : Int)
    (acc : Store B × Nat) (shard : Int) : Store B × Nat :=
  if (replicates state nodeID shard && !(net.faults shard).dial) = true then
    catchUpShard P net totalShards shard acc
  else acc

/-- `CatchUp`, for one order in which Go may iterate over the shards: the store afterwards
and the count it returns. -/
def catchUp (net : Network B) (state : ClusterState) (nodeID : String) (totalShards : Int)
    (order : List Int) (s : Store B) : Store B × Nat :=
  order.foldl (catchUpStep P net state nodeID totalShards) (s, 0)

end LogEngine.Ingest
