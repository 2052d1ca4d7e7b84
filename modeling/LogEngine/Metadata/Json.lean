import LogEngine.Metadata.ShardMap
import LogEngine.Packages

namespace LogEngine.Metadata
open Lib Wire

/-- The states that an FSM takes snapshots of are read back. Maps come back with the same
contents. -/
def JsonPackage.KeepsStates (J : JsonPackage) : Prop :=
  ∀ T s, Canonical T s → ∃ t, J.decodeState (J.marshalState s) = .ok t ∧ t.Same s

/-- What the servers and the FSM encode is read back. Of the commands only those that the servers
build are asked for: a `json.RawMessage` has to be JSON itself. -/
structure JsonPackage.RoundTrips (J : JsonPackage) : Prop where
  command : ∀ op, J.unmarshalCommand (encodeOp J op) = .ok (commandOf J op)
  registerNode : ∀ p, J.unmarshalRegisterNode (J.marshalRegisterNode p) = .ok p
  updateHeartbeat : ∀ p, J.unmarshalUpdateHeartbeat (J.marshalUpdateHeartbeat p) = .ok p
  markUnhealthy : ∀ p, J.unmarshalMarkUnhealthy (J.marshalMarkUnhealthy p) = .ok p
  state : J.KeepsStates

theorem decodeOp_encodeOp {J : JsonPackage} (hJ : J.RoundTrips) (op : Op) :
    decodeOp J (encodeOp J op) = .ok op := by
  rw [decodeOp, hJ.command]
  cases op with
  | registerNode p => simp [commandOf, hJ.registerNode]
  | updateHeartbeat p => simp [commandOf, hJ.updateHeartbeat]
  | markUnhealthy p => simp [commandOf, hJ.markUnhealthy]

theorem apply_encodeOp {J : JsonPackage} (hJ : J.RoundTrips) (o : Orders) (s : ClusterState)
    (op : Op) : apply J o s (encodeOp J op) = applyOp o s op := by
  rw [apply, decodeOp_encodeOp hJ]

/-- A signed number as an unsigned one. -/
def zig : Int → Nat
  | .ofNat n => 2 * n
  | .negSucc n => 2 * n + 1

def zag (n : Nat) : Int := if n % 2 = 0 then .ofNat (n / 2) else .negSucc (n / 2)

theorem zag_zig (i : Int) : zag (zig i) = i := by
  cases i with
  | ofNat n =>
    have hmod : 2 * n % 2 = 0 := by omega
    have hdiv : 2 * n / 2 = n := by omega
    simp [zig, zag, hmod, hdiv]
  | negSucc n =>
    have hmod : (2 * n + 1) % 2 = 1 := by omega
    have hdiv : (2 * n + 1) / 2 = n := by omega
    simp [zig, zag, hmod, hdiv]

def textValue (s : String) : Value := .bytes (utf8 s)

def timeValue (t : Int64) : Value := .num t.toUInt64.toNat

def readTime (n : Nat) : Int64 := (UInt64.ofNat n).toInt64

@[simp] theorem readTime_timeValue (t : Int64) : readTime t.toUInt64.toNat = t := by
  simp [readTime]

def encodeCommand (c : Command) : Bytes :=
  match c.type with
  | .registerNode => encode [(1, .bytes c.payload)]
  | .updateHeartbeat => encode [(2, .bytes c.payload)]
  | .markUnhealthy => encode [(3, .bytes c.payload)]
  | .other name => encode [(4, textValue name), (5, .bytes c.payload)]

def decodeCommand (bs : Bytes) : Option Command :=
  match decode bs with
  | some [(1, .bytes payload)] => some ⟨.registerNode, payload⟩
  | some [(2, .bytes payload)] => some ⟨.updateHeartbeat, payload⟩
  | some [(3, .bytes payload)] => some ⟨.markUnhealthy, payload⟩
  | some [(4, .bytes name), (5, .bytes payload)] =>
    (ofUtf8? name).map (fun name => ⟨.other name, payload⟩)
  | _ => none

theorem decodeCommand_encodeCommand (c : Command) : decodeCommand (encodeCommand c) = some c := by
  obtain ⟨type, payload⟩ := c
  cases type <;> simp [decodeCommand, encodeCommand, decode_encode, textValue, ofUtf8?_utf8]

def encodeRegisterNode (p : RegisterNodePayload) : Bytes :=
  encode [(1, textValue p.nodeID), (2, textValue p.address), (3, timeValue p.nowUnixNs)]

def decodeRegisterNode (bs : Bytes) : Option RegisterNodePayload :=
  match decode bs with
  | some [(1, .bytes nodeID), (2, .bytes address), (3, .num now)] => do
    some ⟨← ofUtf8? nodeID, ← ofUtf8? address, readTime now⟩
  | _ => none

def encodeUpdateHeartbeat (p : UpdateHeartbeatPayload) : Bytes :=
  encode [(1, textValue p.nodeID), (2, timeValue p.nowUnixNs)]

def decodeUpdateHeartbeat (bs : Bytes) : Option UpdateHeartbeatPayload :=
  match decode bs with
  | some [(1, .bytes nodeID), (2, .num now)] => do some ⟨← ofUtf8? nodeID, readTime now⟩
  | _ => none

def encodeMarkUnhealthy (p : MarkUnhealthyPayload) : Bytes := encode [(1, textValue p.nodeID)]

def decodeMarkUnhealthy (bs : Bytes) : Option MarkUnhealthyPayload :=
  match decode bs with
  | some [(1, .bytes nodeID)] => do some ⟨← ofUtf8? nodeID⟩
  | _ => none

def statusNumber : NodeStatus → Nat
  | .unset => 0
  | .healthy => 1
  | .unhealthy => 2

def readStatus : Nat → NodeStatus
  | 1 => .healthy
  | 2 => .unhealthy
  | _ => .unset

@[simp] theorem readStatus_statusNumber (s : NodeStatus) : readStatus (statusNumber s) = s := by
  cases s <;> rfl

def encodeNode (key : String) (n : NodeRecord) : Bytes :=
  encode [(1, textValue key), (2, textValue n.id), (3, textValue n.address),
    (4, .num (statusNumber n.status)), (5, timeValue n.lastSeen),
    (6, .bytes (encode (n.shards.map (fun i => (1, .num (zig i))))))]

def decodeShards (bs : Bytes) : Option (List Int) := do
  (← decode bs).mapM (fun f =>
    match f with
    | (_, .num n) => some (zag n)
    | (_, .bytes _) => none)

theorem decodeShards_encode (shards : List Int) :
    decodeShards (encode (shards.map (fun i => (1, .num (zig i))))) = some shards := by
  simp only [decodeShards, decode_encode, Option.bind_eq_bind, Option.bind_some]
  induction shards with
  | nil => rfl
  | cons i shards ih => simp [ih, zag_zig]

def decodeNode (bs : Bytes) : Option (String × NodeRecord) :=
  match decode bs with
  | some [(1, .bytes key), (2, .bytes id), (3, .bytes address), (4, .num status), (5, .num seen),
      (6, .bytes shards)] => do
    some (← ofUtf8? key, ⟨← ofUtf8? id, ← ofUtf8? address, ← decodeShards shards,
      readStatus status, readTime seen⟩)
  | _ => none

theorem decodeNode_encodeNode (key : String) (n : NodeRecord) :
    decodeNode (encodeNode key n) = some (key, n) := by
  simp [decodeNode, encodeNode, decode_encode, textValue, timeValue, ofUtf8?_utf8,
    decodeShards_encode]

def encodeShard (key : Int) (sr : ShardRecord) : Bytes :=
  encode [(1, .num (zig key)), (2, .num (zig sr.shardID)), (3, textValue sr.primaryNode),
    (4, textValue sr.replicaNode)]

def decodeShard (bs : Bytes) : Option (Int × ShardRecord) :=
  match decode bs with
  | some [(1, .num key), (2, .num shardID), (3, .bytes primary), (4, .bytes replica)] => do
    some (zag key, ⟨zag shardID, ← ofUtf8? primary, ← ofUtf8? replica⟩)
  | _ => none

theorem decodeShard_encodeShard (key : Int) (sr : ShardRecord) :
    decodeShard (encodeShard key sr) = some (key, sr) := by
  simp [decodeShard, encodeShard, decode_encode, textValue, ofUtf8?_utf8, zag_zig]

def nodeField (s : ClusterState) (id : String) : Field :=
  (1, .bytes (encodeNode id ((s.nodes.get id).getD default)))

def shardField (s : ClusterState) (i : Int) : Field :=
  (2, .bytes (encodeShard i ((s.shards.get i).getD default)))

def setRecord (s : ClusterState) : Field → Option ClusterState
  | (1, .bytes bs) => (decodeNode bs).map (fun r => { s with nodes := s.nodes.set r.1 r.2 })
  | (2, .bytes bs) => (decodeShard bs).map (fun r => { s with shards := s.shards.set r.1 r.2 })
  | _ => none

theorem foldlM_nodeFields (s t : ClusterState) (ids : List String) :
    (ids.map (nodeField s)).foldlM setRecord t = some { t with
      nodes := ids.foldl (fun m id => m.set id ((s.nodes.get id).getD default)) t.nodes } := by
  induction ids generalizing t with
  | nil => rfl
  | cons id ids ih =>
    have hset : setRecord t (nodeField s id) =
        some { t with nodes := t.nodes.set id ((s.nodes.get id).getD default) } := by
      simp [nodeField, setRecord, decodeNode_encodeNode]
    rw [List.map_cons, List.foldlM_cons, hset]
    exact ih _

theorem foldlM_shardFields (s t : ClusterState) (is : List Int) :
    (is.map (shardField s)).foldlM setRecord t = some { t with
      shards := is.foldl (fun m i => m.set i ((s.shards.get i).getD default)) t.shards } := by
  induction is generalizing t with
  | nil => rfl
  | cons i is ih =>
    have hset : setRecord t (shardField s i) =
        some { t with shards := t.shards.set i ((s.shards.get i).getD default) } := by
      simp [shardField, setRecord, decodeShard_encodeShard]
    rw [List.map_cons, List.foldlM_cons, hset]
    exact ih _

def encodeState (s : ClusterState) : Bytes :=
  encode (s.nodes.keys.map (nodeField s) ++ s.shards.keys.map (shardField s))

def decodeState (bs : Bytes) : Option ClusterState :=
  (decode bs).bind (fun fs => fs.foldlM setRecord ⟨.empty, .empty⟩)

theorem decodeState_encodeState (s : ClusterState) :
    ∃ t, decodeState (encodeState s) = some t ∧ t.Same s := by
  have hdecode : decodeState (encodeState s) = some
      ⟨s.nodes.keys.foldl (fun m id => m.set id ((s.nodes.get id).getD default)) .empty,
        s.shards.keys.foldl (fun m i => m.set i ((s.shards.get i).getD default)) .empty⟩ := by
    simp only [decodeState, encodeState, decode_encode, Option.bind_some, List.foldlM_append,
      foldlM_nodeFields, foldlM_shardFields, Option.bind_eq_bind]
  refine ⟨_, hdecode, ?_, ?_⟩
  · intro id
    rw [GoMap.foldl_set_get (fun id => (s.nodes.get id).getD default)]
    simp only [s.nodes.mem_keys]
    cases s.nodes.get id <;> simp
  · intro i
    rw [GoMap.foldl_set_get (fun i => (s.shards.get i).getD default)]
    simp only [s.shards.mem_keys]
    cases s.shards.get i <;> simp

def orError {α : Type} : Option α → Except String α
  | some a => .ok a
  | none => .error "malformed"

/-- An encoding of the same values in the place of `encoding/json`. -/
def wireCodec : JsonPackage where
  marshalCommand := encodeCommand
  unmarshalCommand bs := orError (decodeCommand bs)
  marshalRegisterNode := encodeRegisterNode
  unmarshalRegisterNode bs := orError (decodeRegisterNode bs)
  marshalUpdateHeartbeat := encodeUpdateHeartbeat
  unmarshalUpdateHeartbeat bs := orError (decodeUpdateHeartbeat bs)
  marshalMarkUnhealthy := encodeMarkUnhealthy
  unmarshalMarkUnhealthy bs := orError (decodeMarkUnhealthy bs)
  marshalState := encodeState
  decodeState bs := orError (decodeState bs)

theorem wireCodec_keepsStates : wireCodec.KeepsStates := by
  intro T s _
  obtain ⟨t, ht, hsame⟩ := decodeState_encodeState s
  exact ⟨t, by simp [wireCodec, ht, orError], hsame⟩

theorem wireCodec_roundTrips : wireCodec.RoundTrips where
  command op := by simp [wireCodec, encodeOp, decodeCommand_encodeCommand, orError]
  registerNode p := by
    simp [wireCodec, encodeRegisterNode, decodeRegisterNode, decode_encode, textValue, timeValue,
      ofUtf8?_utf8, orError]
  updateHeartbeat p := by
    simp [wireCodec, encodeUpdateHeartbeat, decodeUpdateHeartbeat, decode_encode, textValue,
      timeValue, ofUtf8?_utf8, orError]
  markUnhealthy p := by
    simp [wireCodec, encodeMarkUnhealthy, decodeMarkUnhealthy, decode_encode, textValue,
      ofUtf8?_utf8, orError]
  state := wireCodec_keepsStates

end LogEngine.Metadata
