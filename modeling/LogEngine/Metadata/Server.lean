import LogEngine.Metadata.Registry
import LogEngine.Metadata.Json

namespace LogEngine.Metadata
open Lib

/-- What becomes of a command given to `applyCommand`. `raft.Apply` is not part of the
repository. -/
inductive RaftOutcome where
  | notLeader
  | lostLeadership
  | failed (err : String)
  | committed
  deriving DecidableEq

inductive ServerError where
  | notLeader
  | lostLeadership
  | raftApply (err : String)
  | fsmApply (err : ApplyError)
  | nodeIDRequired
  | nodeIDAndAddressRequired
  | notFoundAfterRegistration
  deriving DecidableEq

variable (J : JsonPackage)

def applyCommand (o : Orders) (s : ClusterState) (raft : RaftOutcome) (op : Op) :
    ClusterState × Option ServerError :=
  match raft with
  | .notLeader => (s, some .notLeader)
  | .lostLeadership => (s, some .lostLeadership)
  | .failed err => (s, some (.raftApply err))
  | .committed =>
    let applied := apply J o s (encodeOp J op)
    (applied.1, applied.2.map .fsmApply)

/-- `Server.RegisterNode`: the shards it answers with, cut to 32 bits. -/
def registerNode (o : Orders) (s : ClusterState) (raft : RaftOutcome) (nodeID grpcAddress : String)
    (now : Int64) : ClusterState × Except ServerError (List Int32) :=
  if nodeID = "" ∨ grpcAddress = "" then (s, .error .nodeIDAndAddressRequired)
  else
    match applyCommand J o s raft (.registerNode ⟨nodeID, grpcAddress, now⟩) with
    | (s', some err) => (s', .error err)
    | (s', none) =>
      match s'.nodes.get nodeID with
      | none => (s', .error .notFoundAfterRegistration)
      | some node => (s', .ok (node.shards.map Int32.ofInt))

def heartbeat (o : Orders) (s : ClusterState) (raft : RaftOutcome) (nodeID : String)
    (now : Int64) : ClusterState × Except ServerError Unit :=
  if nodeID = "" then (s, .error .nodeIDRequired)
  else
    match applyCommand J o s raft (.updateHeartbeat ⟨nodeID, now⟩) with
    | (s', some err) => (s', .error err)
    | (s', none) => (s', .ok ())

variable {J}

/-- An acknowledged heartbeat is a committed command that found the node. -/
theorem heartbeat_ok (hJ : J.RoundTrips) {o : Orders} {s : ClusterState} {raft : RaftOutcome}
    {nodeID : String} {now : Int64} (hok : (heartbeat J o s raft nodeID now).2 = .ok ()) :
    ∃ n, s.nodes.get nodeID = some n ∧
      (heartbeat J o s raft nodeID now).1 = (applyOp o s (.updateHeartbeat ⟨nodeID, now⟩)).1 := by
  unfold heartbeat at hok ⊢
  split at hok
  · cases hok
  · rename_i hnamed
    rw [if_neg hnamed]
    cases raft with
    | notLeader => cases hok
    | lostLeadership => cases hok
    | failed err => cases hok
    | committed =>
      simp only [applyCommand, apply_encodeOp hJ, applyOp, applyUpdateHeartbeat] at hok ⊢
      cases hn : s.nodes.get nodeID with
      | none => simp [hn] at hok
      | some n => simp

/-- Only the command that marks a node takes a healthy one out of service. -/
theorem Registry.step_healthy {r : Registry} {id : String}
    (h : (r id).map Member.status = some .healthy) {op : Op} (hop : op ≠ .markUnhealthy ⟨id⟩) :
    ((r.step op).1 id).map Member.status = some .healthy := by
  cases op with
  | registerNode p =>
    simp only [Registry.step, Registry.put]
    split
    · rfl
    · exact h
  | updateHeartbeat p =>
    simp only [Registry.step]
    cases hm : r p.nodeID with
    | none => exact h
    | some m =>
      simp only [Registry.put]
      split
      · rename_i hid
        subst hid
        simpa [hm] using h
      · exact h
  | markUnhealthy p =>
    simp only [Registry.step]
    cases hm : r p.nodeID with
    | none => exact h
    | some m =>
      simp only [Registry.put]
      split
      · rename_i hid
        subst hid
        exact absurd rfl hop
      · exact h

theorem Registry.after_healthy {r : Registry} {id : String}
    (h : (r id).map Member.status = some .healthy) {ops : List Op}
    (hops : ∀ op ∈ ops, op ≠ .markUnhealthy ⟨id⟩) :
    ((r.after ops) id).map Member.status = some .healthy := by
  induction ops generalizing r with
  | nil => exact h
  | cons op ops ih =>
    obtain ⟨hop, hops⟩ := List.forall_mem_cons.mp hops
    exact ih (step_healthy h hop) hops

/-- An acknowledged heartbeat means that the node stays in service until it is marked, exactly when
the node was in service before it. -/
theorem heartbeat_in_service_iff (hJ : J.RoundTrips) (T : Int) (ops : List (Orders × Op))
    (o : Orders) (raft : RaftOutcome) (id : String) (now : Int64)
    (hok : (heartbeat J o (applyOps (newFSM T) ops) raft id now).2 = .ok ()) :
    (∀ later : List (Orders × Op), (∀ x ∈ later, x.2 ≠ .markUnhealthy ⟨id⟩) →
      id ∈ healthyIDs
        (applyOps (heartbeat J o (applyOps (newFSM T) ops) raft id now).1 later)) ↔
    id ∈ healthyIDs (applyOps (newFSM T) ops) := by
  obtain ⟨n, hn, hstate⟩ := heartbeat_ok hJ hok
  have hrep := (newFSM_represents T).applyOps ops
  have hbeat := (hrep.applyOp o (.updateHeartbeat ⟨id, now⟩)).1
  have hstatus : id ∈ healthyIDs (applyOp o (applyOps (newFSM T) ops)
      (.updateHeartbeat ⟨id, now⟩)).1 ↔ id ∈ healthyIDs (applyOps (newFSM T) ops) := by
    rw [mem_healthyIDs, mem_healthyIDs]
    simp only [applyOp, applyUpdateHeartbeat, hn, isHealthy, GoMap.get_set_self]
  rw [hstate]
  constructor
  · intro hall
    exact hstatus.mp (hall [] (by simp))
  · intro hhealthy later hlater
    have hbefore := mem_healthyIDs.mp (hstatus.mpr hhealthy)
    rw [isHealthy_eq, hbeat.registry, decide_eq_true_eq] at hbefore
    rw [mem_healthyIDs, isHealthy_eq, (hbeat.applyOps later).registry, decide_eq_true_eq]
    refine Registry.after_healthy hbefore ?_
    intro op hop
    obtain ⟨x, hx, rfl⟩ := List.mem_map.mp hop
    exact hlater x hx

theorem heartbeat_in_service_sample :
    "a" ∈ healthyIDs (applyOps (heartbeat wireCodec .listed
      (applyOps (newFSM 2) [(.listed, .registerNode ⟨"a", "host-a", 1⟩)]) .committed "a" 2).1
      [(.listed, .registerNode ⟨"b", "host-b", 3⟩), (.listed, .markUnhealthy ⟨"b"⟩)]) := by
  refine (heartbeat_in_service_iff wireCodec_roundTrips 2
    [(.listed, .registerNode ⟨"a", "host-a", 1⟩)] .listed .committed "a" 2 ?_).mpr ?_ _ ?_
  · rfl
  · decide +kernel
  · decide

/-- A node that was marked goes on having its heartbeats acknowledged and stays out of service. -/
theorem heartbeat_out_of_service :
    (heartbeat wireCodec .listed (applyOps (newFSM 2)
      [(.listed, .registerNode ⟨"a", "host-a", 1⟩), (.listed, .markUnhealthy ⟨"a"⟩)])
      .committed "a" 2).2 = .ok () ∧
    "a" ∉ healthyIDs (heartbeat wireCodec .listed (applyOps (newFSM 2)
      [(.listed, .registerNode ⟨"a", "host-a", 1⟩), (.listed, .markUnhealthy ⟨"a"⟩)])
      .committed "a" 2).1 := by
  refine ⟨rfl, ?_⟩
  decide +kernel

end LogEngine.Metadata
