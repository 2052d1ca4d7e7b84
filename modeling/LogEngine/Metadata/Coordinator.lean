import LogEngine.Metadata.Replicas
import LogEngine.Metadata.Server

namespace LogEngine.Metadata
open Lib

/-- What changes the state of a coordinator: the RPCs that write, the commands of the liveness
checker, and a snapshot that is restored. -/
inductive CoordinatorEvent where
  | registerNode (o : Orders) (raft : RaftOutcome) (nodeID grpcAddress : String) (now : Int64)
  | heartbeat (o : Orders) (raft : RaftOutcome) (nodeID : String) (now : Int64)
  | markUnhealthy (o : Orders) (raft : RaftOutcome) (nodeID : String)
  | restored (nodes : Order String) (shards : Order Int)

def coordinatorStep (J : JsonPackage) (s : ClusterState) : CoordinatorEvent → ClusterState
  | .registerNode o raft nodeID grpcAddress now =>
    (Metadata.registerNode J o s raft nodeID grpcAddress now).1
  | .heartbeat o raft nodeID now => (Metadata.heartbeat J o s raft nodeID now).1
  | .markUnhealthy o raft nodeID => (applyCommand J o s raft (.markUnhealthy ⟨nodeID⟩)).1
  | .restored nodes shards => (restore J s (persist J nodes shards s)).1

/-- The state of a coordinator after a history. -/
def coordinatorRun (J : JsonPackage) (T : Int) (events : List CoordinatorEvent) : ClusterState :=
  events.foldl (coordinatorStep J) (newFSM T)

/-- Every member has a name and an address. -/
def Registry.Addressed (r : Registry) : Prop :=
  ∀ id m, r id = some m → id ≠ "" ∧ m.address ≠ ""

/-- A command that the server lets through. -/
def Op.Accepted : Op → Prop
  | .registerNode p => p.nodeID ≠ "" ∧ p.address ≠ ""
  | _ => True

theorem Registry.Addressed.put {r : Registry} (h : r.Addressed) {id : String} {m : Member}
    (hid : id ≠ "") (hm : m.address ≠ "") : (r.put id m).Addressed := by
  intro j k hj
  simp only [Registry.put] at hj
  split at hj
  · rename_i heq
    rw [heq, ← Option.some.inj hj]
    exact ⟨hid, hm⟩
  · exact h j k hj

theorem Registry.Addressed.step {r : Registry} (h : r.Addressed) {op : Op} (hop : op.Accepted) :
    (r.step op).1.Addressed := by
  cases op with
  | registerNode p => exact h.put hop.1 hop.2
  | updateHeartbeat p =>
    simp only [Registry.step]
    cases hm : r p.nodeID with
    | none => exact h
    | some m => exact h.put (h _ m hm).1 (h _ m hm).2
  | markUnhealthy p =>
    simp only [Registry.step]
    cases hm : r p.nodeID with
    | none => exact h
    | some m => exact h.put (h _ m hm).1 (h _ m hm).2

/-- The state stands for a membership in which everyone can be reached. -/
def InOrder (T : Int) (s : ClusterState) : Prop := ∃ r, Represents T s r ∧ r.Addressed

section Runs

variable {J : JsonPackage} {T : Int} {s : ClusterState}

theorem InOrder.applyCommand (hJ : J.RoundTrips) (h : InOrder T s) (o : Orders)
    (raft : RaftOutcome) {op : Op} (hop : op.Accepted) :
    InOrder T (applyCommand J o s raft op).1 := by
  obtain ⟨r, hr, haddr⟩ := h
  cases raft with
  | committed =>
    rw [Metadata.applyCommand, apply_encodeOp hJ]
    exact ⟨_, (hr.applyOp o op).1, haddr.step hop⟩
  | notLeader => exact ⟨r, hr, haddr⟩
  | lostLeadership => exact ⟨r, hr, haddr⟩
  | failed err => exact ⟨r, hr, haddr⟩

theorem registerNode_state (o : Orders) (raft : RaftOutcome) (nodeID grpcAddress : String)
    (now : Int64) : (registerNode J o s raft nodeID grpcAddress now).1 =
      if nodeID = "" ∨ grpcAddress = "" then s
      else (applyCommand J o s raft (.registerNode ⟨nodeID, grpcAddress, now⟩)).1 := by
  unfold registerNode
  split
  · rfl
  · split
    · rename_i happlied
      rw [happlied]
    · rename_i happlied
      rw [happlied]
      dsimp only
      split <;> rfl

theorem heartbeat_state (o : Orders) (raft : RaftOutcome) (nodeID : String) (now : Int64) :
    (heartbeat J o s raft nodeID now).1 = if nodeID = "" then s
      else (applyCommand J o s raft (.updateHeartbeat ⟨nodeID, now⟩)).1 := by
  unfold heartbeat
  split
  · rfl
  · split
    · rename_i happlied
      rw [happlied]
    · rename_i happlied
      rw [happlied]

theorem InOrder.step (hJ : J.RoundTrips) (h : InOrder T s) (e : CoordinatorEvent) :
    InOrder T (coordinatorStep J s e) := by
  cases e with
  | registerNode o raft nodeID grpcAddress now =>
    rw [coordinatorStep, registerNode_state]
    split
    · exact h
    · rename_i hgiven
      exact h.applyCommand hJ o raft (not_or.mp hgiven)
  | heartbeat o raft nodeID now =>
    rw [coordinatorStep, heartbeat_state]
    split
    · exact h
    · exact h.applyCommand hJ o raft trivial
  | markUnhealthy o raft nodeID => exact h.applyCommand hJ o raft trivial
  | restored nodes shards =>
    obtain ⟨r, hr, haddr⟩ := h
    exact ⟨r, (restore_represents hJ.state hr nodes shards s).1, haddr⟩

/-- Along every history of a coordinator its state is in order. -/
theorem InOrder.run (hJ : J.RoundTrips) (T : Int) (events : List CoordinatorEvent) :
    InOrder T (coordinatorRun J T events) := by
  suffices hrun : ∀ s, InOrder T s → InOrder T (events.foldl (coordinatorStep J) s) from
    hrun _ ⟨_, newFSM_represents T, fun id m hm => by cases hm⟩
  induction events with
  | nil => exact fun s hs => hs
  | cons e events ih => exact fun s hs => ih _ (hs.step hJ e)

/-- A healthy node has a name and an address. -/
theorem InOrder.healthy (h : InOrder T s) {id : String} (hid : id ∈ healthyIDs s) :
    ∃ n, s.nodes.get id = some n ∧ n.status = .healthy ∧ id ≠ "" ∧ n.address ≠ "" := by
  obtain ⟨r, hr, haddr⟩ := h
  rw [mem_healthyIDs, isHealthy] at hid
  split at hid
  · rename_i n hn
    have hmember : r id = some n.member := by rw [← hr.registry, members, hn, Option.map_some]
    obtain ⟨hname, haddress⟩ := haddr id _ hmember
    exact ⟨n, hn, by simpa using hid, hname, haddress⟩
  · cases hid

end Runs

end LogEngine.Metadata
