import LogEngine.Lib.Range

namespace LogEngine.Metadata
open Lib

/-- `NodeStatus`. The zero value of the string is neither of its two constants. -/
inductive NodeStatus where
  | unset
  | healthy
  | unhealthy
  deriving DecidableEq, Inhabited

/-- `NodeRecord`. A nil shard list and an empty one are not told apart. -/
structure NodeRecord where
  id : String
  address : String
  shards : List Int
  status : NodeStatus
  lastSeen : Int64
  deriving DecidableEq, Inhabited

structure ShardRecord where
  shardID : Int
  primaryNode : String
  replicaNode : String
  deriving DecidableEq, Inhabited

structure ClusterState where
  nodes : GoMap String NodeRecord
  shards : GoMap Int ShardRecord

namespace ClusterState

def clone (cs : ClusterState) (nodes : Order String) (shards : Order Int) : ClusterState :=
  ⟨cs.nodes.copy nodes id, cs.shards.copy shards id⟩

/-- Two states with the same contents: the maps answer every key alike. -/
structure Same (s t : ClusterState) : Prop where
  nodes : ∀ id, s.nodes.get id = t.nodes.get id
  shards : ∀ i, s.shards.get i = t.shards.get i

theorem Same.trans {s t u : ClusterState} (h : s.Same t) (h' : t.Same u) : s.Same u :=
  ⟨fun id => (h.nodes id).trans (h'.nodes id), fun i => (h.shards i).trans (h'.shards i)⟩

theorem clone_same (cs : ClusterState) (nodes : Order String) (shards : Order Int) :
    (cs.clone nodes shards).Same cs := by
  constructor
  · intro id
    simp [clone]
  · intro i
    simp [clone]

end ClusterState
end LogEngine.Metadata
