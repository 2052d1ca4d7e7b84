import Mathlib.Data.String.Basic
import LogEngine.Lib.Strings
import LogEngine.Metadata.State

namespace LogEngine.Metadata
open Lib

/-- `CommandType`: its three constants, and any other text. -/
inductive CommandType where
  | registerNode
  | updateHeartbeat
  | markUnhealthy
  | other (name : String)
  deriving DecidableEq

/-- `Command`, the envelope written to the log. -/
structure Command where
  type : CommandType
  payload : Bytes
  deriving DecidableEq

structure RegisterNodePayload where
  nodeID : String
  address : String
  nowUnixNs : Int64
  deriving DecidableEq

structure UpdateHeartbeatPayload where
  nodeID : String
  nowUnixNs : Int64
  deriving DecidableEq

structure MarkUnhealthyPayload where
  nodeID : String
  deriving DecidableEq

inductive ApplyError where
  | unmarshalCommand (err : String)
  | unmarshalPayload (err : String)
  | nodeNotFound (nodeID : String)
  | unknownCommand (type : String)
  deriving DecidableEq

/-- The orders of the `range` statements that one call of `Apply` runs through. -/
structure Orders where
  releasedReplicas : Order Int
  primaryCandidates : Order String
  allShards : Order Int
  clearedShards : Order Int
  clearedNodes : Order String
  sortedNodes : Order String
  replicaCandidates : Order String
  replicaShards : Order Int

def Orders.listed : Orders :=
  ⟨.listed, .listed, .listed, .listed, .listed, .listed, .listed, .listed⟩

def Orders.reversed : Orders :=
  ⟨.reversed, .reversed, .reversed, .reversed, .reversed, .reversed, .reversed, .reversed⟩

def newFSM (totalShards : Int) : ClusterState where
  nodes := .empty
  shards := ((List.range totalShards.toNat).map Int.ofNat).foldl
    (fun m i => m.set i ⟨i, "", ""⟩) .empty

def isHealthy (nodes : GoMap String NodeRecord) (id : String) : Bool :=
  match nodes.get id with
  | some n => n.status = .healthy
  | none => false

/-- The loop that collects the healthy IDs, and the sort after it. -/
def collectHealthy (o : Order String) (nodes : GoMap String NodeRecord) : List String :=
  sorted ((o.arrange nodes.keys).filter (isHealthy nodes))

/-- One turn of the assignment loop of `rebalancePrimary`. -/
def assignPrimary (s : ClusterState) (shardID : Int) (nodeID : String) : ClusterState where
  nodes := s.nodes.modify nodeID (fun n => { n with shards := n.shards ++ [shardID] })
  shards := s.shards.modify shardID (fun sr => { sr with primaryNode := nodeID })

def rebalancePrimary (o : Orders) (s : ClusterState) : ClusterState :=
  let healthyIDs := collectHealthy o.primaryCandidates s.nodes
  if healthyIDs = [] then s
  else
    let allShards := sorted (o.allShards.arrange s.shards.keys)
    let cleared : ClusterState :=
      { nodes := s.nodes.rewrite o.clearedNodes (fun _ n => { n with shards := [] })
        shards := s.shards.rewrite o.clearedShards (fun _ sr => { sr with primaryNode := "" }) }
    let assigned := allShards.zipIdx.foldl (fun s p =>
      assignPrimary s p.1 (healthyIDs.getD (p.2 % healthyIDs.length) "")) cleared
    { assigned with
      nodes := assigned.nodes.rewrite o.sortedNodes
        (fun _ n => { n with shards := sorted n.shards }) }

def assignReplicas (o : Orders) (s : ClusterState) : ClusterState :=
  let healthyIDs := collectHealthy o.replicaCandidates s.nodes
  { s with
    shards := s.shards.rewrite o.replicaShards (fun _ sr =>
      { sr with replicaNode := (healthyIDs.find? (· ≠ sr.primaryNode)).getD "" }) }

def applyRegisterNode (o : Orders) (s : ClusterState) (p : RegisterNodePayload) : ClusterState :=
  let join : ClusterState :=
    { s with nodes := s.nodes.set p.nodeID ⟨p.nodeID, p.address, [], .healthy, p.nowUnixNs⟩ }
  match s.nodes.get p.nodeID with
  | some existing =>
    if existing.status = .healthy then
      let refreshed := { existing with address := p.address, lastSeen := p.nowUnixNs }
      { s with nodes := s.nodes.set p.nodeID refreshed }
    else assignReplicas o (rebalancePrimary o join)
  | none => assignReplicas o (rebalancePrimary o join)

def applyUpdateHeartbeat (s : ClusterState) (p : UpdateHeartbeatPayload) :
    ClusterState × Option ApplyError :=
  match s.nodes.get p.nodeID with
  | none => (s, some (.nodeNotFound p.nodeID))
  | some node =>
    ({ s with nodes := s.nodes.set p.nodeID { node with lastSeen := p.nowUnixNs } }, none)

/-- The first two loops of `applyMarkUnhealthy`. -/
def releaseShards (o : Orders) (s : ClusterState) (node : NodeRecord) (nodeID : String) :
    GoMap Int ShardRecord :=
  let released := node.shards.foldl
    (fun m shardID => m.modify shardID (fun sr => { sr with primaryNode := "" })) s.shards
  released.rewrite o.releasedReplicas (fun _ sr =>
    if sr.replicaNode = nodeID then { sr with replicaNode := "" } else sr)

def applyMarkUnhealthy (o : Orders) (s : ClusterState) (p : MarkUnhealthyPayload) :
    ClusterState × Option ApplyError :=
  match s.nodes.get p.nodeID with
  | none => (s, some (.nodeNotFound p.nodeID))
  | some node =>
    let left : ClusterState :=
      { nodes := s.nodes.set p.nodeID { node with status := .unhealthy, shards := [] }
        shards := releaseShards o s node p.nodeID }
    (assignReplicas o (rebalancePrimary o left), none)

/-- A command with its payload read. -/
inductive Op where
  | registerNode (p : RegisterNodePayload)
  | updateHeartbeat (p : UpdateHeartbeatPayload)
  | markUnhealthy (p : MarkUnhealthyPayload)
  deriving DecidableEq

/-- The handlers that `Apply` dispatches to. -/
def applyOp (o : Orders) (s : ClusterState) : Op → ClusterState × Option ApplyError
  | .registerNode p => (applyRegisterNode o s p, none)
  | .updateHeartbeat p => applyUpdateHeartbeat s p
  | .markUnhealthy p => applyMarkUnhealthy o s p

/-- Commands applied one after another, each with its own orders. -/
def applyOps (s : ClusterState) : List (Orders × Op) → ClusterState
  | [] => s
  | (o, op) :: ops => applyOps (applyOp o s op).1 ops

/-- `encoding/json`, which is not part of the repository, at the types it is used for. -/
structure JsonPackage where
  marshalCommand : Command → Bytes
  unmarshalCommand : Bytes → Except String Command
  marshalRegisterNode : RegisterNodePayload → Bytes
  unmarshalRegisterNode : Bytes → Except String RegisterNodePayload
  marshalUpdateHeartbeat : UpdateHeartbeatPayload → Bytes
  unmarshalUpdateHeartbeat : Bytes → Except String UpdateHeartbeatPayload
  marshalMarkUnhealthy : MarkUnhealthyPayload → Bytes
  unmarshalMarkUnhealthy : Bytes → Except String MarkUnhealthyPayload
  marshalState : ClusterState → Bytes
  decodeState : Bytes → Except String ClusterState

variable (J : JsonPackage)

/-- The two decoding steps of `Apply`. -/
def decodeOp (data : Bytes) : Except ApplyError Op :=
  match J.unmarshalCommand data with
  | .error err => .error (.unmarshalCommand err)
  | .ok cmd =>
    match cmd.type with
    | .registerNode =>
      match J.unmarshalRegisterNode cmd.payload with
      | .error err => .error (.unmarshalPayload err)
      | .ok p => .ok (.registerNode p)
    | .updateHeartbeat =>
      match J.unmarshalUpdateHeartbeat cmd.payload with
      | .error err => .error (.unmarshalPayload err)
      | .ok p => .ok (.updateHeartbeat p)
    | .markUnhealthy =>
      match J.unmarshalMarkUnhealthy cmd.payload with
      | .error err => .error (.unmarshalPayload err)
      | .ok p => .ok (.markUnhealthy p)
    | .other name => .error (.unknownCommand name)

/-- `FSM.Apply`: the state afterwards and the error returned, if any. -/
def apply (o : Orders) (s : ClusterState) (data : Bytes) : ClusterState × Option ApplyError :=
  match decodeOp J data with
  | .error err => (s, some err)
  | .ok op => applyOp o s op

/-- `Snapshot` and `Persist`. -/
def persist (nodes : Order String) (shards : Order Int) (s : ClusterState) : Bytes :=
  J.marshalState (s.clone nodes shards)

/-- `Restore`: the state afterwards and the error returned, if any. -/
def restore (s : ClusterState) (data : Bytes) : ClusterState × Option String :=
  match J.decodeState data with
  | .error err => (s, some err)
  | .ok state => (state, none)

/-- A command as the servers build it. -/
def commandOf : Op → Command
  | .registerNode p => ⟨.registerNode, J.marshalRegisterNode p⟩
  | .updateHeartbeat p => ⟨.updateHeartbeat, J.marshalUpdateHeartbeat p⟩
  | .markUnhealthy p => ⟨.markUnhealthy, J.marshalMarkUnhealthy p⟩

/-- The bytes that the servers write to the log for it. -/
def encodeOp (op : Op) : Bytes := J.marshalCommand (commandOf J op)

end LogEngine.Metadata
