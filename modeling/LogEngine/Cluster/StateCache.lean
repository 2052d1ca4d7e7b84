import LogEngine.Ingest.Server
import LogEngine.Metadata.Registry

namespace LogEngine.Cluster
open Lib Metadata
open Ingest (StateReader)

/-- `logengine.NodeInfo`. Statuses are sent as their text, which reads back as the same status. -/
structure NodeInfo where
  id : String
  address : String
  shards : List Int32
  status : NodeStatus
  lastSeenUnixNs : Int64

structure ShardInfo where
  shardId : Int32
  primaryNode : String
  replicaNode : String

structure GetClusterStateResponse where
  nodes : List NodeInfo
  shards : List ShardInfo

/-- The orders of the loops that one answer of `GetClusterState` runs through. -/
structure ReadOrders where
  clonedNodes : Order String
  clonedShards : Order Int
  nodes : Order String
  shards : Order Int

def ReadOrders.listed : ReadOrders := ⟨.listed, .listed, .listed, .listed⟩

/-- A node on the wire, its shards cut to 32 bits. -/
def nodeInfo (n : NodeRecord) : NodeInfo :=
  ⟨n.id, n.address, n.shards.map Int32.ofInt, n.status, n.lastSeen⟩

def shardInfo (sr : ShardRecord) : ShardInfo :=
  ⟨Int32.ofInt sr.shardID, sr.primaryNode, sr.replicaNode⟩

def getClusterState (o : ReadOrders) (s : ClusterState) : GetClusterStateResponse :=
  let state := s.clone o.clonedNodes o.clonedShards
  { nodes := (o.nodes.arrange state.nodes.keys).map
      (fun id => nodeInfo ((state.nodes.get id).getD default))
    shards := (o.shards.arrange state.shards.keys).map
      (fun i => shardInfo ((state.shards.get i).getD default)) }

/-- A node as read from the wire. When it was last seen is left out. -/
def nodeRecord (n : NodeInfo) : NodeRecord :=
  ⟨n.id, n.address, n.shards.map Int32.toInt, n.status, 0⟩

def shardRecord (s : ShardInfo) : ShardRecord := ⟨s.shardId.toInt, s.primaryNode, s.replicaNode⟩

def protoToClusterState (resp : GetClusterStateResponse) : ClusterState where
  nodes := resp.nodes.foldl (fun m n => m.set n.id (nodeRecord n)) .empty
  shards := resp.shards.foldl (fun m s => m.set s.shardId.toInt (shardRecord s)) .empty

/-- `StateCache.ShardOwners` and `StateCache.NodeAddress` on the state that is cached. -/
def stateCache (cached : ClusterState) : StateReader where
  shardOwners := fun shardID =>
    match cached.shards.get shardID with
    | none => ("", "")
    | some sr => (sr.primaryNode, sr.replicaNode)
  nodeAddress := fun nodeID =>
    match cached.nodes.get nodeID with
    | none => ""
    | some n => n.address

/-- What a refresh stores. -/
def delivered (o : ReadOrders) (s : ClusterState) : ClusterState :=
  protoToClusterState (getClusterState o s)

section Delivered

variable {T : Int} {s : ClusterState}

theorem delivered_node (hs : Canonical T s) (o : ReadOrders) (id : String) :
    (delivered o s).nodes.get id = (s.nodes.get id).map (fun n => nodeRecord (nodeInfo n)) := by
  have hclone := ClusterState.clone_same s o.clonedNodes o.clonedShards
  rw [delivered, protoToClusterState, getClusterState]
  dsimp only
  rw [GoMap.get_collect _ _ NodeInfo.id, hclone.nodes]
  intro k n hn
  rw [hclone.nodes] at hn
  exact (hs.nodes k n hn).1

/-- The shard map comes through the conversion to 32 bits unchanged. -/
theorem delivered_shard (hs : Canonical T s) (hT : T < 2 ^ 31) (o : ReadOrders) (i : Int) :
    (delivered o s).shards.get i = s.shards.get i := by
  have hclone := ClusterState.clone_same s o.clonedNodes o.clonedShards
  have hnumber : ∀ k sr, s.shards.get k = some sr →
      sr.shardID = k ∧ (Int32.ofInt sr.shardID).toInt = sr.shardID := by
    intro k sr hk
    rw [hs.shards] at hk
    split at hk
    · rename_i hrange
      rw [← Option.some.inj hk]
      have hlow : -2 ^ 31 ≤ k := by omega
      exact ⟨rfl, Int32.toInt_ofInt_of_le hlow (hrange.2.trans hT)⟩
    · cases hk
  rw [delivered, protoToClusterState, getClusterState]
  dsimp only
  rw [GoMap.get_collect _ _ (fun s : ShardInfo => s.shardId.toInt), hclone.shards]
  · cases hi : s.shards.get i with
    | none => rfl
    | some sr =>
      simp only [Option.map_some, shardInfo, shardRecord, (hnumber i sr hi).2]
  · intro k sr hk
    rw [hclone.shards] at hk
    obtain ⟨hid, hwire⟩ := hnumber k sr hk
    exact hwire.trans hid

end Delivered

end LogEngine.Cluster
