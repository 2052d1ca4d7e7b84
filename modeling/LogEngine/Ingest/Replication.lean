import LogEngine.Ingest.Server

namespace LogEngine.Ingest
open Lib Storage

/-- `replicaJob` with the address of the channel it is put into. -/
structure ReplicaJob where
  entry : LogEntry
  shardID : Int
  addr : String
  deriving DecidableEq

/-- What `writeLocal` stores for a message: `now` is the clock, `freshID` what `GenerateID`
would return. -/
def stamped (pb : LogEntryPB) (now : Int64) (freshID : String) : LogEntry :=
  { protoToEntry pb with
    receivedAt := now
    id := if pb.id = "" then freshID else pb.id }

/-- The job that `writeLocal` hands to `Enqueue`, for a node with a replicator. -/
def replicaJob {B : BloomPackage} (n : Node B) (e : LogEntry) (replicaNodeID : String) :
    Option ReplicaJob :=
  match n.stateReader with
  | none => none
  | some reader =>
    let addr := reader.nodeAddress replicaNodeID
    if replicaNodeID ≠ "" ∧ addr ≠ "" then
      some ⟨e, if n.totalShards > 0 then shardOf n.totalShards e else 0, addr⟩
    else none

variable {B : BloomPackage} (P : ProtoPackage)

/-- `writeLocal`: the node afterwards, the job it enqueues, and the ID it answers with. -/
def Node.writeLocal (n : Node B) (pb : LogEntryPB) (replicaNodeID : String) (now : Int64)
    (freshID : String) : Node B × Option ReplicaJob × Except RpcError String :=
  let e := stamped pb now freshID
  match n.write P e with
  | (n', .error err) => (n', none, .error err)
  | (n', .ok ()) => (n', replicaJob n e replicaNodeID, .ok e.id)

/-- What `HandleIngest` does with a request: answer it, or forward it to the primary. It
panics on a node that has shards and no state reader, which no constructor builds. -/
inductive Handled (B : BloomPackage) where
  | refused (err : RpcError)
  | wrote (result : Node B × Option ReplicaJob × Except RpcError String)
  | forwarded (primaryID : String)
  | panicked

def Node.handleIngest (n : Node B) (entry : Option LogEntryPB) (now : Int64)
    (freshID : String) : Handled B :=
  match entry with
  | none => .refused .entryRequired
  | some pb =>
    if pb.service = "" then .refused .serviceRequired
    else if pb.message = "" then .refused .messageRequired
    else if n.totalShards = 0 then .wrote (n.writeLocal P pb "" now freshID)
    else
      match n.stateReader with
      | none => .panicked
      | some reader =>
        let shard := shardID pb.namespace pb.service n.totalShards
        let (primaryID, replicaID) := reader.shardOwners shard
        if primaryID = "" then .refused (.noPrimary shard)
        else if primaryID = n.nodeID then .wrote (n.writeLocal P pb replicaID now freshID)
        else .forwarded primaryID

end LogEngine.Ingest

namespace LogEngine.Replication
open Lib Storage Ingest

def entryToProto (e : LogEntry) : LogEntryPB where
  id := e.id
  timestamp := e.timestamp
  receivedAt := e.receivedAt
  «namespace» := ""
  service := e.service
  level := e.level
  message := e.message
  fields := e.fields

/-- The request that `send` makes of a job; the shard is cut to 32 bits. -/
def request (job : ReplicaJob) : ReplicateEntryRequest :=
  ⟨some (entryToProto job.entry), Int32.ofInt job.shardID⟩

/-- `send` to the node that answers at the job's address. -/
def send {B : BloomPackage} (P : ProtoPackage) (job : ReplicaJob) (replica : Node B) :
    Node B × Except RpcError Unit :=
  replica.replicateEntry P (request job)

end LogEngine.Replication
