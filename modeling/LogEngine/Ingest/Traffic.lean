import Mathlib.Logic.Function.Basic
import LogEngine.Ingest.Forwarding
import LogEngine.Ingest.Replicator
import LogEngine.Storage.Compaction
import LogEngine.Storage.Layout

namespace LogEngine.Replication
open Lib Storage Ingest

def Replicator.enqueue (r : Replicator) (job : ReplicaJob) : Replicator :=
  { r with channels := r.channels.set job.addr ((r.channel job.addr).offer job) }

/-- The job that reaches the network in a step of `drain`. -/
def Channel.outgoing (cancelled : Bool) (c : Channel) : DrainStep → Option ReplicaJob
  | .send =>
    match c.phase with
    | .sending job => if cancelled then none else some job
    | _ => none
  | .flushSend now =>
    match c.phase with
    | .flushSending deadline job => if now < deadline then some job else none
    | _ => none
  | _ => none

/-- The jobs in the channel and in the hands of its goroutine. -/
def Channel.waiting (c : Channel) : List ReplicaJob := c.phase.held ++ c.queue

/-- What the replica makes of an entry that it is sent. -/
def replicated (e : LogEntry) : LogEntry := protoToEntry (entryToProto e)

end LogEngine.Replication

namespace LogEngine.Ingest
open Lib Storage Replication

/-- The replica that `HandleIngest` names to `writeLocal`. -/
def Node.replicaFor {B : BloomPackage} (n : Node B) (pb : LogEntryPB) : String :=
  if n.totalShards = 0 then ""
  else n.stateReader.elim ""
    (fun reader => (reader.shardOwners (shardID pb.namespace pb.service n.totalShards)).2)

/-- An entry that its primary has stored, with the message it came in and the replica of its
shard. -/
structure Write (ι : Type) where
  node : ι
  pb : LogEntryPB
  entry : LogEntry
  replicaNode : String

/-- A job that a node has sent, with the node that stored its entry. -/
structure Copy (ι : Type) where
  source : ι
  job : ReplicaJob
  target : Option ι

/-- Nodes that ingest at the same time: each has its replicator, calls wait at the node that
handles them next, and handlers that have stored their entry wait for their `Enqueue`. Besides,
what has been stored, acknowledged, enqueued and copied so far, and the cutoffs of the retention
passes. -/
structure Traffic (ι : Type) (B : BloomPackage) where
  fleet : Fleet ι B
  replicator : ι → Replicator
  inFlight : List (ι × Option LogEntryPB)
  pending : List (Write ι)
  wrote : List (Write ι)
  acked : List (Write ι)
  enqueued : List (ι × ReplicaJob)
  copied : List (Copy ι)
  passes : List (ι × Int64)

/-- What happens to the nodes. A call may be given up at any hop, other things may happen between
the append of a handler and its `Enqueue`, and a job that is sent may not arrive. -/
inductive Event (ι : Type) where
  | call (i : ι) (entry : Option LogEntryPB)
  | handle (k : Nat) (now : Int64) (freshID : String)
  | finish (k : Nat)
  | abandon (k : Nat)
  | drain (i : ι) (addr : String) (step : DrainStep) (arrives : Bool)
  | cancel (i : ι)
  | refresh (i : ι) (reader : StateReader)
  | listen (listens : String → Option ι)
  | merge (i : ι) (threshold : Int) (faults : String → MergeFaults)
  | retain (i : ι) (now : Int64) (days : Int)
  | restart (i : ι) (maxSegmentBytes : Int) (bloomEnabled : Bool)

/-- The messages that clients call `Ingest` with. -/
def Event.calls {ι : Type} : Event ι → List (Option LogEntryPB)
  | .call _ entry => [entry]
  | _ => []

namespace Traffic

variable {ι : Type} [DecidableEq ι] {B : BloomPackage} (P : ProtoPackage)

def initial (fleet : Fleet ι B) : Traffic ι B where
  fleet := fleet
  replicator := fun _ => .new
  inFlight := []
  pending := []
  wrote := []
  acked := []
  enqueued := []
  copied := []
  passes := []

def setNode (w : Traffic ι B) (i : ι) (n : Node B) : Traffic ι B :=
  { w with fleet := w.fleet.set i n }

def setStore (w : Traffic ι B) (i : ι) (s : Store B) : Traffic ι B :=
  w.setNode i { w.fleet.node i with store := s }

def setReplicator (w : Traffic ι B) (i : ι) (r : Replicator) : Traffic ι B :=
  { w with replicator := Function.update w.replicator i r }

/-- `writeLocal` as far as its append and `Index.Add`. -/
def write (w : Traffic ι B) (i : ι) (n : Node B) (x : Write ι) : Traffic ι B :=
  { w.setNode i n with pending := w.pending ++ [x], wrote := w.wrote ++ [x] }

/-- The rest of `writeLocal`, which looks up the address of the replica only now. -/
def finish (w : Traffic ι B) (x : Write ι) : Traffic ι B :=
  let job := replicaJob (w.fleet.node x.node) x.entry x.replicaNode
  let r := w.replicator x.node
  { w.setReplicator x.node (job.elim r r.enqueue) with
    acked := w.acked ++ [x]
    enqueued := w.enqueued ++ (job.map (Prod.mk x.node)).toList }

/-- `Server.Ingest` at the node that a call has reached. -/
def handle (w : Traffic ι B) (i : ι) (entry : Option LogEntryPB) (now : Int64)
    (freshID : String) : Traffic ι B :=
  match (w.fleet.node i).handleIngest P entry now freshID with
  | .refused _ | .panicked => w
  | .wrote (n, _, .ok _) =>
    entry.elim w (fun pb =>
      w.write i n ⟨i, pb, stamped pb now freshID, (w.fleet.node i).replicaFor pb⟩)
  | .wrote (n, _, .error _) => w.setNode i n
  | .forwarded primaryID =>
    match w.fleet.forward i primaryID with
    | .error _ => w
    | .ok j => { w with inFlight := w.inFlight ++ [(j, entry)] }

/-- `ReplicateEntry` at the node that listens at the job's address, if the job arrives. -/
def deliver (w : Traffic ι B) (i : ι) (job : ReplicaJob) (listener : Option ι) : Traffic ι B :=
  match listener with
  | none => { w with copied := w.copied ++ [⟨i, job, none⟩] }
  | some j =>
    let answer := send P job (w.fleet.node j)
    { w.setNode j answer.1 with
      copied := w.copied ++ [⟨i, job, if answer.2.isOk then some j else none⟩] }

/-- A step of the goroutine for an address. -/
def drain (w : Traffic ι B) (i : ι) (addr : String) (step : DrainStep) (arrives : Bool) :
    Traffic ι B :=
  let r := w.replicator i
  match r.channels.get addr with
  | none => w
  | some c =>
    match c.drain r.cancelled step with
    | none => w
    | some c' =>
      let w' := w.setReplicator i { r with channels := r.channels.set addr c' }
      match c.outgoing r.cancelled step with
      | none => w'
      | some job => w'.deliver P i job (if arrives then w.fleet.listens addr else none)

def step (w : Traffic ι B) : Event ι → Traffic ι B
  | .call i entry =>
    { w with inFlight := w.inFlight ++ [(i, entry)] }
  | .handle k now freshID =>
    match w.inFlight[k]? with
    | none => w
    | some (i, entry) =>
      { w with inFlight := w.inFlight.eraseIdx k }.handle P i entry now freshID
  | .finish k =>
    match w.pending[k]? with
    | none => w
    | some x => { w with pending := w.pending.eraseIdx k }.finish x
  | .abandon k => { w with inFlight := w.inFlight.eraseIdx k }
  | .drain i addr step arrives => w.drain P i addr step arrives
  | .cancel i => w.setReplicator i { w.replicator i with cancelled := true }
  | .refresh i reader =>
    let n := w.fleet.node i
    w.setNode i { n with stateReader := n.stateReader.map (fun _ => reader) }
  | .listen listens => { w with fleet := { w.fleet with listens } }
  | .merge i threshold faults =>
    let s := (w.fleet.node i).store
    w.setStore i (s.run (runMergePass P s threshold faults))
  | .retain i now days =>
    let s := (w.fleet.node i).store
    { w.setStore i (s.run (runRetentionPass P s now days)) with
      passes := w.passes ++ if days ≤ 0 then [] else [(i, retentionCutoff now days)] }
  | .restart i maxSegmentBytes bloomEnabled =>
    match start P B (w.fleet.node i).store.disk maxSegmentBytes bloomEnabled with
    | none => w
    | some s =>
      { (w.setStore i s).setReplicator i .new with
        pending := w.pending.filter (fun x => x.node ≠ i) }

def run (w : Traffic ι B) (events : List (Event ι)) : Traffic ι B := events.foldl (step P) w

end Traffic

/-- The records of the entry and of its copy can be read back, and a rotation finds a number
left. -/
def Storable {B : BloomPackage} (P : ProtoPackage) (s : Store B) (e : LogEntry) : Prop :=
  Fits P e ∧ Fits P (replicated e) ∧ SeqLeft P s e

instance {B : BloomPackage} (P : ProtoPackage) (s : Store B) (e : LogEntry) :
    Decidable (Storable P s e) := inferInstanceAs (Decidable (_ ∧ _ ∧ _))

/-- What is asked of an event: entries fit, segment numbers do not run out, and filters are either
on, and then their sidecars can be written, or off. -/
def Event.Allowed {ι : Type} {B : BloomPackage} (P : ProtoPackage) (bloom : Bool)
    (w : Traffic ι B) : Event ι → Prop
  | .handle k now freshID => ∀ x ∈ w.inFlight[k]?, ∀ pb ∈ x.2,
      Storable P (w.fleet.node x.1).store (stamped pb now freshID)
  | .drain i addr step _ => ∀ c ∈ (w.replicator i).channels.get addr,
      ∀ job ∈ c.outgoing (w.replicator i).cancelled step, ∀ j ∈ w.fleet.listens addr,
        SeqLeft P (w.fleet.node j).store (replicated job.entry)
  | .merge _ _ faults => bloom = true → ∀ p, (faults p).writeBloom = false
  | .restart _ _ bloomEnabled => bloomEnabled = bloom
  | _ => True

/-- Every event of a run is allowed where it happens. -/
def AllowedRun {ι : Type} [DecidableEq ι] {B : BloomPackage} (P : ProtoPackage) (bloom : Bool) :
    Traffic ι B → List (Event ι) → Prop
  | _, [] => True
  | w, ev :: events => ev.Allowed P bloom w ∧ AllowedRun P bloom (w.step P ev) events

end LogEngine.Ingest
