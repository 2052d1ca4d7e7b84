import LogEngine.Ingest.Convert
import LogEngine.Storage.Manager

namespace LogEngine.Ingest
open Lib Storage

/-- `cluster.ClusterStateReader`: the owners of a shard (primary, replica) and the address
of a node, empty where unknown. -/
structure StateReader where
  shardOwners : Int → String × String
  nodeAddress : String → String

/-- A node's `Server` with the local store behind it. -/
structure Node (B : BloomPackage) where
  nodeID : String
  totalShards : Int
  stateReader : Option StateReader
  store : Store B

/-- The errors of the handlers, with the values their messages print. -/
inductive RpcError where
  | entryRequired
  | serviceRequired
  | messageRequired
  | noPrimary (shardID : Int)
  | shardMismatch (computed : Int) (service : String) (claimed : Int32)
  | notReplica (nodeID : String) (shardID : Int32) (replica : String)
  | appendFailed (err : AppendError)
  | invalidSegmentName (name : String)
  | activeSegment (name : String)
  | segmentNotFound (name : String)
  | writeRecord (length : Nat)
  | noEntries (name : String) (shardID : Int32)
  | readSegments (err : ReadError)
  deriving DecidableEq

structure ReplicateEntryRequest where
  entry : Option LogEntryPB
  shardId : Int32

variable {B : BloomPackage} (P : ProtoPackage)

/-- The ownership tests of `ReplicateEntry`. -/
def replicateCheck (n : Node B) (pb : LogEntryPB) (shardId : Int32) : Option RpcError :=
  if n.totalShards > 0 then
    let computed := shardID pb.namespace pb.service n.totalShards
    if computed ≠ shardId.toInt then some (.shardMismatch computed pb.service shardId)
    else
      match n.stateReader with
      | none => none
      | some reader =>
        let replica := (reader.shardOwners shardId.toInt).2
        if replica ≠ "" ∧ replica ≠ n.nodeID then some (.notReplica n.nodeID shardId replica)
        else none
  else none

/-- `AppendWithPath` and `Index.Add` of a handler, which reports a failed append. -/
def Node.write (n : Node B) (e : LogEntry) : Node B × Except RpcError Unit :=
  ({ n with store := n.store.ingest P e },
    match (appendLocked P n.store e true).2 with
    | some err => .error (.appendFailed err)
    | none => .ok ())

def Node.replicateEntry (n : Node B) (req : ReplicateEntryRequest) :
    Node B × Except RpcError Unit :=
  match req.entry with
  | none => (n, .error .entryRequired)
  | some pb =>
    match replicateCheck n pb req.shardId with
    | some err => (n, .error err)
    | none => n.write P (protoToEntry pb)

/-- The test of `ListSegments` and of the covered set in catch-up. -/
def holdsShard (totalShards shard : Int) (entries : List LogEntry) : Bool :=
  entries.any (fun e => totalShards = 0 || shardOf totalShards e = shard)

/-- The test of `TransferSegment`, `FetchShardEntries` and the watermark. -/
def inShard (totalShards shard : Int) (e : LogEntry) : Bool :=
  !(totalShards > 0 && shardOf totalShards e ≠ shard)

/-- Whether a segment can be read and holds entries of a shard. -/
def segmentHolds (d : Disk) (totalShards shard : Int) (path : String) : Bool :=
  match readSegments P d [path] with
  | .error _ => false
  | .ok entries => holdsShard totalShards shard entries

def Node.listSegments (n : Node B) (shardId : Int32) : List String :=
  n.store.manager.listClosedSegments.filter
    (segmentHolds P n.store.disk n.totalShards shardId.toInt)

/-- The names `TransferSegment` refuses outright. -/
def invalidName (name : String) : Bool :=
  containsRune name '/' || containsRune name '\\' || containsText name ".." ||
    !hasSuffix name ".seg"

/-- The filtered segment that `TransferSegment` builds in memory. -/
def transferBuffer (totalShards shard : Int) : List LogEntry → Except RpcError Bytes
  | [] => .ok []
  | e :: es =>
    if inShard totalShards shard e then
      let data := P.marshal (entryToProto e)
      match writeRecord data with
      | none => .error (.writeRecord data.length)
      | some bs => (transferBuffer totalShards shard es).map (bs ++ ·)
    else transferBuffer totalShards shard es

def transferChunkSize : Nat := 64 * 1024

/-- The send loop of `TransferSegment`, with fuel for the bytes still to send. -/
def chunksOf : Nat → Bytes → List Bytes
  | 0, _ => []
  | _ + 1, [] => []
  | fuel + 1, payload =>
    payload.take transferChunkSize :: chunksOf fuel (payload.drop transferChunkSize)

/-- `TransferSegment`: the chunks it sends. -/
def Node.transferSegment (n : Node B) (name : String) (shardId : Int32) :
    Except RpcError (List Bytes) :=
  if invalidName name then .error (.invalidSegmentName name)
  else if name = n.store.manager.activeSegmentName then .error (.activeSegment name)
  else
    match readSegments P n.store.disk [name] with
    | .error _ => .error (.segmentNotFound name)
    | .ok entries =>
      match transferBuffer P n.totalShards shardId.toInt entries with
      | .error err => .error err
      | .ok [] => .error (.noEntries name shardId)
      | .ok payload => .ok (chunksOf payload.length payload)

/-- `FetchShardEntries` before its sort. -/
def fetched (totalShards shard : Int) (since : Int64) (all : List LogEntry) : List LogEntryPB :=
  (all.filter (fun e => inShard totalShards shard e && !(e.receivedAt < since))).map entryToProto

/-- `FetchShardEntries`. The sort is by receive time only and not stable: `sort` is what
`sort.Slice` makes of a list. -/
def Node.fetchShardEntries (n : Node B) (sort : List LogEntryPB → List LogEntryPB)
    (shardId : Int32) (since : Int64) : Except RpcError (List LogEntryPB) :=
  match readSegments P n.store.disk n.store.manager.paths with
  | .error err => .error (.readSegments err)
  | .ok all => .ok (sort (fetched n.totalShards shardId.toInt since all))

end LogEngine.Ingest
