import Mathlib.Logic.Function.Basic
import LogEngine.Cluster.Client
import LogEngine.Cluster.StateCache

namespace LogEngine.Cluster
open Lib Metadata

/-- The status with which the cluster service answers. -/
def statusCode : ServerError → Code
  | .notLeader | .lostLeadership => .failedPrecondition
  | .raftApply _ | .fsmApply _ | .notFoundAfterRegistration => .internal
  | .nodeIDRequired | .nodeIDAndAddressRequired => .invalidArgument

/-- A coordinator: how many entries of the log its FSM has applied, and the last snapshot it
stored with the number of entries it covers. -/
structure Coordinator where
  up : Bool
  state : ClusterState
  applied : Nat
  snapshot : Option (Bytes × Nat)

/-- A storage node whose `Register` has not returned yet. -/
structure Starting where
  client : ClusterClient
  grpcAddr : String

/-- A storage node that has registered, with the shards it was told. -/
structure Participant where
  client : ClusterClient
  shards : List Int
  cached : ClusterState

/-- The coordinators by their addresses and the storage nodes by their IDs. Of Raft there is the
log it has committed, and what becomes of a command that is given to each coordinator. -/
structure Deployment where
  log : List Bytes
  raft : String → RaftOutcome
  coordinators : String → Coordinator
  starting : String → Option Starting
  nodes : String → Option Participant

/-- What an RPC does not choose itself: the orders of the loops of each coordinator at each entry
of the log, and its clock. -/
structure Chance where
  orders : String → Nat → Orders
  now : String → Int64

/-- The state of a `StateCache` that was never refreshed. -/
def emptyState : ClusterState := ⟨.empty, .empty⟩

namespace Deployment

variable {ρ : Type} (J : JsonPackage)

def initial (T : Int) : Deployment where
  log := []
  raft := fun _ => .notLeader
  coordinators := fun _ => ⟨true, newFSM T, 0, none⟩
  starting := fun _ => none
  nodes := fun _ => none

def setCoordinator (w : Deployment) (addr : String) (c : Coordinator) : Deployment :=
  { w with coordinators := Function.update w.coordinators addr c }

def setStarting (w : Deployment) (nodeID : String) (s : Option Starting) : Deployment :=
  { w with starting := Function.update w.starting nodeID s }

def setNode (w : Deployment) (nodeID : String) (p : Participant) : Deployment :=
  { w with nodes := Function.update w.nodes nodeID (some p) }

/-- The state of a coordinator that has applied everything committed. -/
def caughtUp (o : Nat → Orders) (w : Deployment) (c : Coordinator) : ClusterState :=
  (applyLog J o c.state (w.log.drop c.applied)).1

/-- An RPC that gives a command to a coordinator. A leader applies the log up to the command
before it answers. -/
def submit (o : Nat → Orders) (op : Op) (accepts : Bool)
    (handler : ClusterState → RaftOutcome → ClusterState × Except ServerError ρ) (w : Deployment)
    (addr : String) : Deployment × Except Code ρ :=
  let c := w.coordinators addr
  if c.up then
    match w.raft addr with
    | .committed =>
      let answer := handler (w.caughtUp J o c) .committed
      (if accepts then
        { w with log := w.log ++ [encodeOp J op] }.setCoordinator addr
          { c with state := answer.1, applied := w.log.length + 1 }
       else w, answer.2.mapError statusCode)
    | raft => (w, (handler c.state raft).2.mapError statusCode)
  else (w, .error .unavailable)

def registerNode (ch : Chance) (nodeID grpcAddr : String) (w : Deployment) (addr : String) :
    Deployment × Except Code (List Int32) :=
  w.submit J (ch.orders addr) (.registerNode ⟨nodeID, grpcAddr, ch.now addr⟩)
    (nodeID ≠ "" ∧ grpcAddr ≠ "") (fun s raft => Metadata.registerNode J
      (ch.orders addr w.log.length) s raft nodeID grpcAddr (ch.now addr)) addr

def heartbeat (ch : Chance) (nodeID : String) (w : Deployment) (addr : String) :
    Deployment × Except Code Unit :=
  w.submit J (ch.orders addr) (.updateHeartbeat ⟨nodeID, ch.now addr⟩) (nodeID ≠ "")
    (fun s raft => Metadata.heartbeat J (ch.orders addr w.log.length) s raft nodeID
      (ch.now addr)) addr

def getClusterState (o : ReadOrders) (w : Deployment) (addr : String) :
    Deployment × Except Code GetClusterStateResponse :=
  let c := w.coordinators addr
  (w, if c.up then .ok (Cluster.getClusterState o c.state) else .error .unavailable)

/-- `StateCache.refresh`: on an error the last known state is retained. -/
def refreshed (o : ReadOrders) (w : Deployment) (p : Participant) : Participant :=
  match (p.client.call (getClusterState o) w).2 with
  | .ok resp => { p with cached := protoToClusterState resp }
  | .error _ => p

/-- A storage node starts, perhaps anew: `NewClusterClient`. Without a client it is a local server
only. -/
def launch (dials : String → Bool) (nodeID grpcAddr : String) (addrs : List String)
    (w : Deployment) : Deployment :=
  { w with
    starting := Function.update w.starting nodeID
      ((ClusterClient.new dials addrs nodeID).toOption.map (fun client => ⟨client, grpcAddr⟩))
    nodes := Function.update w.nodes nodeID none }

/-- What the result of `Register` makes of a node. If it has its shards it gets a `StateCache`,
after an error it starts as a local server only. -/
def settle (nodeID grpcAddr : String) (client : ClusterClient) (w : Deployment) :
    Option (Except ClientError (List Int)) → Deployment
  | none => w.setStarting nodeID (some ⟨client, grpcAddr⟩)
  | some (.ok shards) => (w.setStarting nodeID none).setNode nodeID ⟨client, shards, emptyState⟩
  | some (.error _) => w.setStarting nodeID none

def tryRegister (dials : String → Bool) (ch : Chance) (nodeID : String) (s : Starting)
    (w : Deployment) : Deployment :=
  let tried := s.client.attempt dials (registerNode J ch nodeID s.grpcAddr) w
  tried.1.settle nodeID s.grpcAddr tried.2.1 (tried.2.2.map (Except.map (List.map Int32.toInt)))

def tryBeat (dials : String → Bool) (ch : Chance) (nodeID : String) (p : Participant)
    (w : Deployment) : Deployment :=
  let tried := p.client.attempt dials (heartbeat J ch nodeID) w
  tried.1.setNode nodeID { p with client := tried.2.1 }

/-- A turn of `HeartbeatSender.Run` during which nothing else happens. -/
def beat (dials : String → Bool) (ch : Chance) (nodeID : String) (p : Participant)
    (w : Deployment) : Deployment × Except ClientError Unit :=
  let sent := p.client.sendHeartbeat dials (heartbeat J ch nodeID) w
  (sent.1.setNode nodeID { p with client := sent.2.1 }, sent.2.2)

/-- A coordinator that starts again from its last snapshot. -/
def restarted (T : Int) (c : Coordinator) : Coordinator :=
  match c.snapshot with
  | none => { c with up := true, state := newFSM T, applied := 0 }
  | some (data, k) => { c with up := true, state := (restore J (newFSM T) data).1, applied := k }

end Deployment

/-- What happens in a deployment. A command may be committed without an answer, as those of the
liveness checker are, or those of a leader that is deposed before it answers. The attempts of
`Register` and of `SendHeartbeat` are events of their own; `giveUp` is the end of the context of
`Register`. -/
inductive Event where
  | elect (raft : String → RaftOutcome)
  | stop (addr : String)
  | start (addr : String)
  | apply (addr : String) (o : Orders)
  | snapshot (addr : String) (nodes : Order String) (shards : Order Int)
  | install (addr source : String)
  | commit (data : Bytes)
  | launch (nodeID grpcAddr : String) (addrs : List String)
  | register (ch : Chance) (nodeID : String)
  | giveUp (nodeID : String)
  | beat (ch : Chance) (nodeID : String)
  | refresh (o : ReadOrders) (nodeID : String)

namespace Deployment

variable (J : JsonPackage) (T : Int) (dials : String → Bool)

def step (w : Deployment) : Event → Deployment
  | .elect raft => { w with raft }
  | .stop addr => w.setCoordinator addr { w.coordinators addr with up := false }
  | .start addr => w.setCoordinator addr (restarted J T (w.coordinators addr))
  | .apply addr o =>
    let c := w.coordinators addr
    match w.log[c.applied]? with
    | none => w
    | some data => w.setCoordinator addr
        { c with state := (apply J o c.state data).1, applied := c.applied + 1 }
  | .snapshot addr nodes shards =>
    let c := w.coordinators addr
    w.setCoordinator addr { c with snapshot := some (persist J nodes shards c.state, c.applied) }
  | .install addr source =>
    let c := w.coordinators addr
    match (w.coordinators source).snapshot with
    | none => w
    | some (data, k) => w.setCoordinator addr
        { c with state := (restore J c.state data).1, applied := k, snapshot := some (data, k) }
  | .commit data => { w with log := w.log ++ [data] }
  | .launch nodeID grpcAddr addrs => launch dials nodeID grpcAddr addrs w
  | .register ch nodeID =>
    match w.starting nodeID with
    | none => w
    | some s => tryRegister J dials ch nodeID s w
  | .giveUp nodeID => w.setStarting nodeID none
  | .beat ch nodeID =>
    match w.nodes nodeID with
    | none => w
    | some p => tryBeat J dials ch nodeID p w
  | .refresh o nodeID =>
    match w.nodes nodeID with
    | none => w
    | some p => w.setNode nodeID (refreshed o w p)

def run (w : Deployment) (events : List Event) : Deployment := events.foldl (step J T dials) w

end Deployment

end LogEngine.Cluster
