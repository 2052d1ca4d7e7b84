import LogEngine.Cluster.StateCache
import LogEngine.Ingest.Replication
import LogEngine.Lib.Walk
import LogEngine.Packages
import LogEngine.Storage.Sound

namespace LogEngine.Ingest
open Lib Storage Metadata Cluster

/-- Nodes that forward to each other: the node that answers a call to an address, none where the
call fails. -/
structure Fleet (ι : Type) (B : BloomPackage) where
  node : ι → Node B
  listens : String → Option ι

/-- An `IngestRequest`, with the clock and the next generated ID of each node. -/
structure IngestCall (ι : Type) where
  entry : Option LogEntryPB
  now : ι → Int64
  freshID : ι → String

inductive IngestError where
  | handler (err : RpcError)
  | addressUnknown (primaryID : String)
  | unreachable (addr : String)
  | panicked
  deriving DecidableEq

/-- What became of a call: the nodes afterwards, those that handled it and those that appended, in
order, and the answer, none while it is still being forwarded. -/
structure Delivery (ι : Type) (B : BloomPackage) where
  fleet : Fleet ι B
  visited : List ι
  appends : List ι
  answer : Option (Except IngestError String)

/-- When `HandleIngest` forwards, and where. -/
theorem Node.handleIngest_forwarded {P : ProtoPackage} {B : BloomPackage} {n : Node B}
    {entry : Option LogEntryPB} {now : Int64} {freshID primaryID : String} :
    n.handleIngest P entry now freshID = .forwarded primaryID ↔
      ∃ pb reader, entry = some pb ∧ pb.service ≠ "" ∧ pb.message ≠ "" ∧ n.totalShards ≠ 0 ∧
        n.stateReader = some reader ∧
        (reader.shardOwners (shardID pb.namespace pb.service n.totalShards)).1 = primaryID ∧
        primaryID ≠ "" ∧ primaryID ≠ n.nodeID := by
  constructor
  · intro h
    unfold Node.handleIngest at h
    split at h
    · cases h
    · rename_i pb
      split_ifs at h with hservice hmessage hlocal
      split at h
      · cases h
      · rename_i reader hreader
        dsimp only at h
        split_ifs at h with hnone hself
        injection h with h
        rw [h] at hnone hself
        exact ⟨pb, reader, rfl, hservice, hmessage, hlocal, hreader, h, hnone, hself⟩
  · intro hgiven
    obtain ⟨pb, reader, hentry, hservice, hmessage, hlocal, hreader, hprimary, hsome, hother⟩ :=
      hgiven
    subst hentry
    simp only [Node.handleIngest, if_neg hservice, if_neg hmessage, if_neg hlocal, hreader,
      hprimary, if_neg hsome, if_neg hother]

namespace Fleet

variable {ι : Type} {B : BloomPackage}

def set [DecidableEq ι] (c : Fleet ι B) (i : ι) (n : Node B) : Fleet ι B :=
  { c with node := fun j => if j = i then n else c.node j }

/-- `forward`: the node that receives the request. -/
def forward (c : Fleet ι B) (i : ι) (primaryID : String) : Except IngestError ι :=
  match (c.node i).stateReader with
  | none => .error .panicked
  | some reader =>
    let addr := reader.nodeAddress primaryID
    if addr = "" then .error (.addressUnknown primaryID)
    else
      match c.listens addr with
      | none => .error (.unreachable addr)
      | some j => .ok j

variable (P : ProtoPackage)

/-- `Server.Ingest` at a node, which hands the request to `HandleIngest`, with fuel for the number
of nodes that handle it. -/
def ingest [DecidableEq ι] (c : Fleet ι B) (call : IngestCall ι) : Nat → ι → Delivery ι B
  | 0, _ => ⟨c, [], [], none⟩
  | fuel + 1, i =>
    match (c.node i).handleIngest P call.entry (call.now i) (call.freshID i) with
    | .refused err => ⟨c, [i], [], some (.error (.handler err))⟩
    | .panicked => ⟨c, [i], [], some (.error .panicked)⟩
    | .wrote (n, _, result) => ⟨c.set i n, [i], [i], some (result.mapError .handler)⟩
    | .forwarded primaryID =>
      match c.forward i primaryID with
      | .error err => ⟨c, [i], [], some (.error err)⟩
      | .ok j =>
        let rest := c.ingest call fuel j
        { rest with visited := i :: rest.visited }

/-- The node that a node forwards a call to. -/
def next (c : Fleet ι B) (call : IngestCall ι) (i : ι) : Option ι :=
  match (c.node i).handleIngest P call.entry (call.now i) (call.freshID i) with
  | .forwarded primaryID =>
    match c.forward i primaryID with
    | .error _ => none
    | .ok j => some j
  | _ => none

/-- The view that a node has cached names another node as the primary of the entry's shard and
gives the address of `j` for it. -/
def PointsTo (c : Fleet ι B) (entry : Option LogEntryPB) (i j : ι) : Prop :=
  ∃ pb reader, entry = some pb ∧ pb.service ≠ "" ∧ pb.message ≠ "" ∧
    (c.node i).totalShards ≠ 0 ∧ (c.node i).stateReader = some reader ∧
    ∃ primaryID,
      (reader.shardOwners (shardID pb.namespace pb.service (c.node i).totalShards)).1 = primaryID ∧
      primaryID ≠ "" ∧ primaryID ≠ (c.node i).nodeID ∧ reader.nodeAddress primaryID ≠ "" ∧
      c.listens (reader.nodeAddress primaryID) = some j

variable {P} {c : Fleet ι B} {call : IngestCall ι}

theorem forward_ok {i j : ι} {primaryID : String} {reader : StateReader}
    (hreader : (c.node i).stateReader = some reader) : c.forward i primaryID = .ok j ↔
      reader.nodeAddress primaryID ≠ "" ∧ c.listens (reader.nodeAddress primaryID) = some j := by
  simp only [forward, hreader]
  split
  · rename_i hnone
    simp [hnone]
  · rename_i hsome
    cases hj : c.listens (reader.nodeAddress primaryID) <;> simp [hsome]

/-- A node forwards where its cached view points. -/
theorem next_eq_some {i j : ι} : c.next P call i = some j ↔ c.PointsTo call.entry i j := by
  constructor
  · intro h
    unfold next at h
    split at h
    · rename_i primaryID hforwarded
      obtain ⟨pb, reader, hentry, hservice, hmessage, hlocal, hreader, hprimary, hsome, hother⟩ :=
        Node.handleIngest_forwarded.mp hforwarded
      split at h
      · cases h
      · rename_i hforward
        rw [Option.some.inj h] at hforward
        obtain ⟨haddr, hj⟩ := (forward_ok hreader).mp hforward
        exact ⟨pb, reader, hentry, hservice, hmessage, hlocal, hreader, primaryID, hprimary, hsome,
          hother, haddr, hj⟩
    · cases h
  · intro h
    obtain ⟨pb, reader, hentry, hservice, hmessage, hlocal, hreader, primaryID, hprimary, hsome,
      hother, haddr, hj⟩ := h
    have hforwarded : (c.node i).handleIngest P call.entry (call.now i) (call.freshID i) =
        .forwarded primaryID := Node.handleIngest_forwarded.mpr
      ⟨pb, reader, hentry, hservice, hmessage, hlocal, hreader, hprimary, hsome, hother⟩
    rw [next, hforwarded]
    dsimp only
    rw [(forward_ok hreader).mpr ⟨haddr, hj⟩]

theorem ingest_visited [DecidableEq ι] (fuel : Nat) (i : ι) :
    (c.ingest P call fuel i).visited = walk (c.next P call) fuel i := by
  induction fuel generalizing i with
  | zero => rfl
  | succ fuel ih =>
    rw [ingest, walk, next]
    cases hhandled : (c.node i).handleIngest P call.entry (call.now i) (call.freshID i) with
    | refused err => rfl
    | panicked => rfl
    | wrote result => rfl
    | forwarded primaryID =>
      dsimp only
      cases hforward : c.forward i primaryID with
      | error err => rfl
      | ok j => exact congrArg (i :: ·) (ih j)

theorem ingest_answer [DecidableEq ι] (fuel : Nat) (i : ι) :
    (c.ingest P call fuel i).answer.isSome = walkEnds (c.next P call) fuel i := by
  induction fuel generalizing i with
  | zero => rfl
  | succ fuel ih =>
    rw [ingest, walkEnds, next]
    cases hhandled : (c.node i).handleIngest P call.entry (call.now i) (call.freshID i) with
    | refused err => rfl
    | panicked => rfl
    | wrote result => rfl
    | forwarded primaryID =>
      dsimp only
      cases hforward : c.forward i primaryID with
      | error err => rfl
      | ok j => exact ih j

theorem ingest_wrote [DecidableEq ι] {i : ι} {n : Node B} {job : Option ReplicaJob} {id : String}
    (h : (c.node i).handleIngest P call.entry (call.now i) (call.freshID i) =
      .wrote (n, job, .ok id)) (fuel : Nat) :
    c.ingest P call (fuel + 1) i = ⟨c.set i n, [i], [i], some (.ok id)⟩ := by
  rw [ingest, h]
  rfl

theorem ingest_forwarded [DecidableEq ι] {i j : ι} {primaryID : String}
    (h : (c.node i).handleIngest P call.entry (call.now i) (call.freshID i) =
      .forwarded primaryID) (hj : c.forward i primaryID = .ok j) (fuel : Nat) :
    c.ingest P call (fuel + 1) i = { c.ingest P call fuel j with
      visited := i :: (c.ingest P call fuel j).visited } := by
  rw [ingest, h]
  simp only [hj]

end Fleet

/-- Forwarding ends from every node, without visiting one twice, exactly when the nodes can be
ranked such that every cached view points to a node of lower rank. -/
theorem forwarding_ends_iff (P : ProtoPackage) {ι : Type} [DecidableEq ι] {B : BloomPackage}
    (c : Fleet ι B) (call : IngestCall ι) :
    (∀ i, (∀ fuel, (c.ingest P call fuel i).visited.Nodup) ∧
      ∃ fuel, (c.ingest P call fuel i).answer.isSome = true) ↔
    ∃ rank : ι → Nat, ∀ i j, c.PointsTo call.entry i j → rank j < rank i := by
  simp only [Fleet.ingest_visited, Fleet.ingest_answer, walks_end_iff, Descends,
    Fleet.next_eq_some]

/-- A node that has cached a state of its cluster. -/
def cachingNode (nodeID : String) (totalShards : Int) (s : Metadata.ClusterState) :
    Node exactFilter where
  nodeID := nodeID
  totalShards := totalShards
  stateReader := some (stateCache (delivered .listed s))
  store := fresh exactFilter 1000 false

/-- Nodes `a` and `b` join a cluster with one shard, and `a` falls silent. -/
def failover (commands : Nat) : Metadata.ClusterState :=
  applyOps (newFSM 1) (List.take commands [(.listed, .registerNode ⟨"a", "host-a", 0⟩),
    (.listed, .registerNode ⟨"b", "host-b", 1⟩), (.listed, .markUnhealthy ⟨"a"⟩)])

/-- Node `a` knows about the failover, and `b` has last refreshed after `commands`. -/
def failoverFleet (commands : Nat) : Fleet Bool exactFilter where
  node := fun i => bif i then cachingNode "b" 1 (failover commands)
    else cachingNode "a" 1 (failover 3)
  listens := fun addr => if addr = "host-a" then some false
    else if addr = "host-b" then some true else none

def failoverCall : IngestCall Bool :=
  ⟨some (entryToProto (line "1" "t" "api" "up" 0)), fun _ => 5, fun _ => "id"⟩

theorem forwarding_ends_fresh :
    ∃ fuel, ((failoverFleet 3).ingest protobuf failoverCall fuel false).answer.isSome = true := by
  refine ((forwarding_ends_iff protobuf (failoverFleet 3) failoverCall).mpr
    ⟨fun i => bif i then 0 else 1, ?_⟩ false).2
  intro i j hpoints
  have hnext : (failoverFleet 3).next protobuf failoverCall i = some j :=
    Fleet.next_eq_some.mpr hpoints
  revert hnext
  cases i <;> cases j <;> decide +kernel

/-- With `b` one refresh behind, each node takes the other for the primary, and the call goes back
and forth for ever. -/
theorem forwarding_loops :
    (∀ fuel, ((failoverFleet 2).ingest protobuf failoverCall fuel false).answer = none) ∧
    ((failoverFleet 2).ingest protobuf failoverCall 3 false).visited = [false, true, false] := by
  have hnext : ∀ i, (failoverFleet 2).next protobuf failoverCall i = some !i := by
    decide +kernel
  have hforwards : ∀ i, ((failoverFleet 2).next protobuf failoverCall i).isSome = true := by
    intro i
    rw [hnext, Option.isSome_some]
  refine ⟨?_, by decide +kernel⟩
  intro fuel
  have hnever := walkEnds_never hforwards fuel false
  rw [← Fleet.ingest_answer] at hnever
  simpa using hnever

end LogEngine.Ingest
