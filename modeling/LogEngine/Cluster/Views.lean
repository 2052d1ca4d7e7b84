import LogEngine.Cluster.System
import LogEngine.Metadata.Replicas

namespace LogEngine.Cluster
open Lib Metadata
open Ingest (StateReader)

variable {J : JsonPackage} {T : Int} {dials : String → Bool}

section Log

variable {log : List Bytes} {k : Nat}

/-- The membership after the first entries of the log. -/
def registryAt (J : JsonPackage) (log : List Bytes) (k : Nat) : Registry :=
  (Registry.none.applyLog J (log.take k)).1

/-- How entries are routed by the state of one coordinator that has applied the first entries of
the log. -/
def viewAt (J : JsonPackage) (T : Int) (log : List Bytes) (k : Nat) : StateReader :=
  stateCache (applyLog J (fun _ => .listed) (newFSM T) (log.take k)).1

theorem registryAt_append (h : k ≤ log.length) (more : List Bytes) :
    registryAt J (log ++ more) k = registryAt J log k := by
  rw [registryAt, List.take_append_of_le_length h, registryAt]

theorem viewAt_append (h : k ≤ log.length) (more : List Bytes) :
    viewAt J T (log ++ more) k = viewAt J T log k := by
  rw [viewAt, List.take_append_of_le_length h, viewAt]

theorem applyLog_append (r : Registry) (xs ys : List Bytes) :
    (r.applyLog J (xs ++ ys)).1 = ((r.applyLog J xs).1.applyLog J ys).1 := by
  induction xs generalizing r with
  | nil => rfl
  | cons data xs ih => exact ih _

theorem registryAt_succ {data : Bytes} (h : log[k]? = some data) :
    registryAt J log (k + 1) = ((registryAt J log k).apply J data).1 := by
  rw [registryAt, List.take_add_one, h, applyLog_append]
  rfl

theorem registryAt_concat (log : List Bytes) (data : Bytes) :
    registryAt J (log ++ [data]) (log.length + 1) =
      ((registryAt J log log.length).apply J data).1 := by
  have hlast : (log ++ [data])[log.length]? = some data := by simp
  rw [registryAt_succ hlast, registryAt_append (le_refl _)]

theorem registryAt_rest (log : List Bytes) (k : Nat) :
    ((registryAt J log k).applyLog J (log.drop k)).1 = registryAt J log log.length := by
  rw [registryAt, Registry.applyLog_drop, registryAt, List.take_length]

/-- Nobody leaves the registry. -/
theorem step_registered {r : Registry} {id : String} (h : (r id).isSome = true) (op : Op) :
    ((r.step op).1 id).isSome = true := by
  have hput : ∀ j m, ((r.put j m) id).isSome = true := by
    intro j m
    unfold Registry.put
    split
    · rfl
    · exact h
  cases op with
  | registerNode p => exact hput _ _
  | updateHeartbeat p | markUnhealthy p =>
    simp only [Registry.step]
    split
    · exact h
    · exact hput _ _

theorem registered_append {id : String}
    (h : (registryAt J log log.length id).isSome = true) (data : Bytes) :
    (registryAt J (log ++ [data]) (log ++ [data]).length id).isSome = true := by
  rw [List.length_append, List.length_singleton, registryAt_concat, Registry.apply]
  split
  · exact h
  · exact step_registered h _

/-- A state with the membership of a prefix routes as that prefix says. -/
theorem stateCache_of_represents {s : ClusterState} (hs : Represents T s (registryAt J log k)) :
    stateCache s = viewAt J T log k := by
  have href := ((newFSM_represents T).applyLog (J := J) (fun _ => .listed) (log.take k)).1
  have hsame := hs.same href
  simp only [stateCache, viewAt, hsame.nodes, hsame.shards]

/-- So does what a refresh makes of it. -/
theorem stateCache_delivered {s : ClusterState} (hs : Represents T s (registryAt J log k))
    (hT : T < 2 ^ 31) (o : ReadOrders) :
    stateCache (delivered o s) = viewAt J T log k := by
  rw [← stateCache_of_represents hs]
  have hnodes := delivered_node hs.canonical o
  have hshards := delivered_shard hs.canonical hT o
  simp only [stateCache, hshards, hnodes, StateReader.mk.injEq, true_and]
  funext id
  cases s.nodes.get id <;> rfl

theorem viewAt_represents (J : JsonPackage) (T : Int) (log : List Bytes) (k : Nat) :
    ∃ s, Represents T s (registryAt J log k) ∧ stateCache s = viewAt J T log k :=
  ⟨_, ((newFSM_represents T).applyLog (J := J) (fun _ => .listed) (log.take k)).1, rfl⟩

theorem stateCache_empty : stateCache emptyState = viewAt J T log 0 := by
  have href : stateCache (newFSM T) = viewAt J T log 0 := rfl
  rw [← href]
  simp only [stateCache, newFSM_shards, StateReader.mk.injEq]
  refine ⟨?_, rfl⟩
  funext i
  by_cases hi : 0 ≤ i ∧ i < T <;> simp [hi, emptyState]

end Log

/-- A coordinator whose state, and whose snapshot, come from prefixes of the log. -/
structure Follows (J : JsonPackage) (T : Int) (log : List Bytes) (c : Coordinator) : Prop where
  applied : c.applied ≤ log.length
  state : Represents T c.state (registryAt J log c.applied)
  snapshot : ∀ data k, c.snapshot = some (data, k) → k ≤ log.length ∧
    ∀ old, Represents T (restore J old data).1 (registryAt J log k)

/-- Every coordinator follows the log, and every node that takes part is registered in it and
routes by some prefix of it. -/
structure Consistent (J : JsonPackage) (T : Int) (w : Deployment) : Prop where
  coordinators : ∀ a, Follows J T w.log (w.coordinators a)
  nodes : ∀ n p, w.nodes n = some p → ∃ k ≤ w.log.length,
    stateCache p.cached = viewAt J T w.log k
  registered : ∀ n p, w.nodes n = some p → n ≠ "" ∧
    (registryAt J w.log w.log.length n).isSome = true

section Steps

variable {w : Deployment}

theorem Follows.append {log : List Bytes} {c : Coordinator} (h : Follows J T log c)
    (more : List Bytes) : Follows J T (log ++ more) c := by
  refine ⟨h.applied.trans (by simp), ?_, fun data k hsnap => ?_⟩
  · rw [registryAt_append h.applied]
    exact h.state
  · obtain ⟨hk, hrest⟩ := h.snapshot data k hsnap
    rw [registryAt_append hk]
    exact ⟨hk.trans (by simp), hrest⟩

theorem Consistent.commit (h : Consistent J T w) (data : Bytes) :
    Consistent J T { w with log := w.log ++ [data] } := by
  refine ⟨fun a => (h.coordinators a).append [data], fun n p hp => ?_, fun n p hp => ?_⟩
  · obtain ⟨k, hk, hview⟩ := h.nodes n p hp
    refine ⟨k, hk.trans (by simp), ?_⟩
    rw [hview, viewAt_append hk]
  · obtain ⟨hid, hknown⟩ := h.registered n p hp
    exact ⟨hid, registered_append hknown data⟩

theorem Consistent.setCoordinator (h : Consistent J T w) {c : Coordinator}
    (hc : Follows J T w.log c) (addr : String) : Consistent J T (w.setCoordinator addr c) := by
  refine ⟨fun a => ?_, h.nodes, h.registered⟩
  simp only [Deployment.setCoordinator, Function.update_apply]
  split
  · exact hc
  · exact h.coordinators a

theorem Consistent.setNode (h : Consistent J T w) {p : Participant} {k : Nat}
    (hk : k ≤ w.log.length) (hview : stateCache p.cached = viewAt J T w.log k) {nodeID : String}
    (hid : nodeID ≠ "") (hknown : (registryAt J w.log w.log.length nodeID).isSome = true) :
    Consistent J T (w.setNode nodeID p) := by
  have hcases : ∀ n q, (w.setNode nodeID p).nodes n = some q →
      n = nodeID ∧ q = p ∨ w.nodes n = some q := by
    intro n q hq
    simp only [Deployment.setNode, Function.update_apply] at hq
    split at hq
    · exact .inl ⟨‹_›, (Option.some.inj hq).symm⟩
    · exact .inr hq
  refine ⟨h.coordinators, fun n q hq => ?_, fun n q hq => ?_⟩
  · rcases hcases n q hq with ⟨-, rfl⟩ | hq
    · exact ⟨k, hk, hview⟩
    · exact h.nodes n q hq
  · rcases hcases n q hq with ⟨rfl, -⟩ | hq
    · exact ⟨hid, hknown⟩
    · exact h.registered n q hq

theorem Consistent.setStarting (h : Consistent J T w) (nodeID : String) (s : Option Starting) :
    Consistent J T (w.setStarting nodeID s) := ⟨h.coordinators, h.nodes, h.registered⟩

/-- What a leader has applied when it comes to a new command. -/
theorem Consistent.caughtUp (h : Consistent J T w) (o : Nat → Orders) (addr : String) :
    Represents T (w.caughtUp J o (w.coordinators addr)) (registryAt J w.log w.log.length) := by
  have hrep := ((h.coordinators addr).state.applyLog (J := J) o
    (w.log.drop (w.coordinators addr).applied)).1
  rwa [registryAt_rest] at hrep

/-- A command that is committed and applied by the leader. -/
theorem Consistent.led (h : Consistent J T w) {s : ClusterState} (addr : String) (data : Bytes)
    (hs : Represents T s ((registryAt J w.log w.log.length).apply J data).1) :
    Consistent J T (({ w with log := w.log ++ [data] } : Deployment).setCoordinator addr
      { w.coordinators addr with state := s, applied := w.log.length + 1 }) := by
  refine (h.commit data).setCoordinator ⟨by simp, ?_, ?_⟩ addr
  · show Represents T s (registryAt J (w.log ++ [data]) (w.log.length + 1))
    rwa [registryAt_concat]
  · exact ((h.coordinators addr).append [data]).snapshot

variable {ρ : Type}

/-- A call that gives a command to a coordinator changes nothing, or the command is committed and
the leader has applied it. -/
theorem submit_cases (w : Deployment) (o : Nat → Orders) (op : Op) (accepts : Bool)
    (handler : ClusterState → RaftOutcome → ClusterState × Except ServerError ρ) (addr : String) :
    (w.submit J o op accepts handler addr).1 = w ∨
      accepts = true ∧ (w.submit J o op accepts handler addr).1 =
        ({ w with log := w.log ++ [encodeOp J op] } : Deployment).setCoordinator addr
          { w.coordinators addr with
            state := (handler (w.caughtUp J o (w.coordinators addr)) .committed).1
            applied := w.log.length + 1 } := by
  unfold Deployment.submit
  dsimp only
  split
  · split
    · dsimp only
      split
      · exact .inr ⟨‹_›, rfl⟩
      · exact .inl rfl
    · exact .inl rfl
  · exact .inl rfl

theorem Consistent.submit (h : Consistent J T w) {o : Nat → Orders} {op : Op} {accepts : Bool}
    {handler : ClusterState → RaftOutcome → ClusterState × Except ServerError ρ}
    (hhandler : accepts = true → ∀ s, ∃ o', (handler s .committed).1 =
      (apply J o' s (encodeOp J op)).1) (addr : String) :
    Consistent J T (w.submit J o op accepts handler addr).1 := by
  rcases submit_cases w o op accepts handler addr with hw | ⟨haccepts, hw⟩ <;> rw [hw]
  · exact h
  · obtain ⟨o', hstate⟩ := hhandler haccepts (w.caughtUp J o (w.coordinators addr))
    refine h.led addr _ ?_
    rw [hstate]
    exact ((h.caughtUp o addr).apply o' _).1

/-- A coordinator that answered a command it had to commit: the command is the last of the log, and
the coordinator has applied all of it. -/
structure Led (J : JsonPackage) (op : Op) (w w' : Deployment) (addr : String) : Prop where
  log : w'.log = w.log ++ [encodeOp J op]
  up : (w'.coordinators addr).up = true
  applied : (w'.coordinators addr).applied = w'.log.length

/-- With a handler that succeeds for commands alone that are committed. -/
theorem submit_led {w' : Deployment} {o : Nat → Orders} {op : Op} {accepts : Bool}
    {handler : ClusterState → RaftOutcome → ClusterState × Except ServerError ρ} {addr : String}
    {r : ρ} (hhandler : ∀ s raft r, (handler s raft).2 = .ok r → accepts = true ∧ raft = .committed)
    (h : w.submit J o op accepts handler addr = (w', .ok r)) :
    accepts = true ∧ Led J op w w' addr ∧
      ∃ s, handler s .committed = ((w'.coordinators addr).state, .ok r) := by
  have hmap : ∀ {x : Except ServerError ρ}, x.mapError statusCode = .ok r → x = .ok r := by
    intro x hx
    cases x with
    | error err => cases hx
    | ok r' => exact congrArg _ (Except.ok.inj hx)
  unfold Deployment.submit at h
  dsimp only at h
  split at h
  · rename_i hup
    split at h
    · rw [Prod.mk.injEq] at h
      have hanswer := hmap h.2
      obtain ⟨haccepts, -⟩ := hhandler _ _ r hanswer
      rw [if_pos haccepts] at h
      obtain ⟨rfl, -⟩ := h
      refine ⟨haccepts, ⟨rfl, ?_, ?_⟩, w.caughtUp J o (w.coordinators addr), ?_⟩
      · simp [Deployment.setCoordinator, hup]
      · simp [Deployment.setCoordinator]
      · rw [← hanswer]
        simp [Deployment.setCoordinator]
    · rename_i hraft
      rw [Prod.mk.injEq] at h
      exact absurd (hhandler _ _ r (hmap h.2)).2 hraft
  · cases h

theorem registerNode_answers {o : Orders} {s : ClusterState} {raft : RaftOutcome}
    {nodeID grpcAddr : String} {now : Int64} {r : List Int32}
    (h : (Metadata.registerNode J o s raft nodeID grpcAddr now).2 = .ok r) :
    (nodeID ≠ "" ∧ grpcAddr ≠ "") ∧ raft = .committed := by
  unfold Metadata.registerNode at h
  split at h
  · cases h
  · rename_i hgiven
    refine ⟨not_or.mp hgiven, ?_⟩
    cases raft with
    | committed => rfl
    | notLeader | lostLeadership | failed => cases h

/-- An acknowledged registration. -/
theorem registerNode_led {w' : Deployment} {ch : Chance} {nodeID grpcAddr addr : String}
    {r : List Int32} (h : w.registerNode J ch nodeID grpcAddr addr = (w', .ok r)) :
    nodeID ≠ "" ∧ Led J (.registerNode ⟨nodeID, grpcAddr, ch.now addr⟩) w w' addr ∧
      ∃ n, (w'.coordinators addr).state.nodes.get nodeID = some n ∧
        r = n.shards.map Int32.ofInt := by
  obtain ⟨haccepts, hled, s, hs⟩ := submit_led (fun s raft r hr => by
    simpa using registerNode_answers hr) h
  refine ⟨(by simpa using haccepts : nodeID ≠ "" ∧ grpcAddr ≠ "").1, hled, ?_⟩
  unfold Metadata.registerNode at hs
  split at hs
  · cases hs
  split at hs
  · cases hs
  split at hs
  · cases hs
  · rename_i n hn
    rw [Prod.mk.injEq] at hs
    exact ⟨n, hs.1 ▸ hn, (Except.ok.inj hs.2).symm⟩

theorem registry_of_led (hJ : J.RoundTrips) {op : Op} {w' : Deployment} {addr : String}
    (h : Led J op w w' addr) : registryAt J w'.log w'.log.length =
      ((registryAt J w.log w.log.length).step op).1 := by
  rw [h.log, List.length_append, List.length_singleton, registryAt_concat, Registry.apply,
    decodeOp_encodeOp hJ]

/-- A call to a coordinator leaves the storage nodes alone. -/
theorem submit_nodes (w : Deployment) (o : Nat → Orders) (op : Op) (accepts : Bool)
    (handler : ClusterState → RaftOutcome → ClusterState × Except ServerError ρ) (addr : String) :
    (w.submit J o op accepts handler addr).1.starting = w.starting ∧
      (w.submit J o op accepts handler addr).1.nodes = w.nodes := by
  rcases submit_cases w o op accepts handler addr with hw | ⟨-, hw⟩ <;> rw [hw] <;>
    exact ⟨rfl, rfl⟩

theorem registerNode_nodes (w : Deployment) (ch : Chance) (nodeID grpcAddr addr : String) :
    (w.registerNode J ch nodeID grpcAddr addr).1.starting = w.starting ∧
      (w.registerNode J ch nodeID grpcAddr addr).1.nodes = w.nodes := submit_nodes w _ _ _ _ addr

theorem heartbeat_nodes (w : Deployment) (ch : Chance) (nodeID addr : String) :
    (w.heartbeat J ch nodeID addr).1.starting = w.starting ∧
      (w.heartbeat J ch nodeID addr).1.nodes = w.nodes := submit_nodes w _ _ _ _ addr

theorem Consistent.registerNode (h : Consistent J T w) (ch : Chance) (nodeID grpcAddr : String)
    (addr : String) : Consistent J T (w.registerNode J ch nodeID grpcAddr addr).1 := by
  refine h.submit (fun haccepts s => ⟨ch.orders addr w.log.length, ?_⟩) addr
  rw [registerNode_state, if_neg (by simpa using haccepts), applyCommand]

theorem Consistent.heartbeat (h : Consistent J T w) (ch : Chance) (nodeID addr : String) :
    Consistent J T (w.heartbeat J ch nodeID addr).1 := by
  refine h.submit (fun haccepts s => ⟨ch.orders addr w.log.length, ?_⟩) addr
  rw [heartbeat_state, if_neg (by simpa using haccepts), applyCommand]

end Steps

section Runs

variable {w : Deployment}

theorem Consistent.refreshed (h : Consistent J T w) (hT : T < 2 ^ 31) (o : ReadOrders)
    {p : Participant} {k : Nat} (hk : k ≤ w.log.length)
    (hview : stateCache p.cached = viewAt J T w.log k) :
    ∃ k ≤ w.log.length,
      stateCache (Deployment.refreshed o w p).cached = viewAt J T w.log k := by
  unfold Deployment.refreshed
  split
  · rename_i resp hresp
    unfold ClusterClient.call at hresp
    split at hresp
    · rename_i addr haddr
      simp only [Deployment.getClusterState] at hresp
      split at hresp
      · cases hresp
        have hfollows := h.coordinators addr
        exact ⟨_, hfollows.applied, stateCache_delivered hfollows.state hT o⟩
      · cases hresp
    · cases hresp
  · exact ⟨k, hk, hview⟩

theorem Consistent.launch (h : Consistent J T w) (nodeID grpcAddr : String)
    (addrs : List String) : Consistent J T (w.launch dials nodeID grpcAddr addrs) := by
  have hold : ∀ n p, (w.launch dials nodeID grpcAddr addrs).nodes n = some p →
      w.nodes n = some p := by
    intro n p hp
    simp only [Deployment.launch, Function.update_apply] at hp
    split at hp
    · cases hp
    · exact hp
  exact ⟨h.coordinators, fun n p hp => h.nodes n p (hold n p hp),
    fun n p hp => h.registered n p (hold n p hp)⟩

theorem Consistent.settle (h : Consistent J T w) {nodeID : String} (grpcAddr : String)
    (client : ClusterClient) {result : Option (Except ClientError (List Int))}
    (hok : ∀ shards, result = some (.ok shards) → nodeID ≠ "" ∧
      (registryAt J w.log w.log.length nodeID).isSome = true) :
    Consistent J T (w.settle nodeID grpcAddr client result) := by
  cases result with
  | none => exact h.setStarting _ _
  | some result =>
    cases result with
    | error err => exact h.setStarting _ _
    | ok shards =>
      obtain ⟨hid, hknown⟩ := hok shards rfl
      exact (h.setStarting nodeID none).setNode (p := ⟨client, shards, emptyState⟩)
        (Nat.zero_le _) stateCache_empty hid hknown

theorem Consistent.tryRegister (hJ : J.RoundTrips) (h : Consistent J T w) (ch : Chance)
    (nodeID : String) (s : Starting) : Consistent J T (w.tryRegister J dials ch nodeID s) := by
  have htried := ClusterClient.attempt_keeps dials (I := Consistent J T)
    (fun v addr hv => hv.registerNode ch nodeID s.grpcAddr addr) h s.client
  refine htried.settle _ _ (fun shards hshards => ?_)
  obtain ⟨result, hresult, hmap⟩ := Option.map_eq_some_iff.mp hshards
  cases result with
  | error err => cases hmap
  | ok r =>
    obtain ⟨addr, -, hr, hattempt⟩ := ClusterClient.attempt_answered hresult
    obtain ⟨hid, hled, -⟩ := registerNode_led (Prod.ext rfl hr)
    refine ⟨hid, ?_⟩
    rw [hattempt, registry_of_led hJ hled]
    simp [Registry.step, Registry.put]

theorem Consistent.tryBeat (h : Consistent J T w) (ch : Chance) {nodeID : String} {p : Participant}
    (hp : w.nodes nodeID = some p) : Consistent J T (w.tryBeat J dials ch nodeID p) := by
  obtain ⟨htried, hnode⟩ := ClusterClient.attempt_keeps dials
    (I := fun v => Consistent J T v ∧ v.nodes nodeID = some p)
    (fun v addr hv => ⟨hv.1.heartbeat ch nodeID addr, by
      rw [(heartbeat_nodes v ch nodeID addr).2]
      exact hv.2⟩)
    ⟨h, hp⟩ p.client
  obtain ⟨k, hk, hview⟩ := htried.nodes nodeID p hnode
  obtain ⟨hid, hknown⟩ := htried.registered nodeID p hnode
  let tried := p.client.attempt dials (Deployment.heartbeat J ch nodeID) w
  exact htried.setNode (p := { p with client := tried.2.1 }) hk hview hid hknown

theorem Consistent.step (hJ : J.RoundTrips) (hT : T < 2 ^ 31) (h : Consistent J T w) (ev : Event) :
    Consistent J T (w.step J T dials ev) := by
  cases ev with
  | elect raft => exact ⟨h.coordinators, h.nodes, h.registered⟩
  | stop addr =>
    have hc := h.coordinators addr
    refine h.setCoordinator (c := { w.coordinators addr with up := false }) ?_ addr
    exact ⟨hc.applied, hc.state, hc.snapshot⟩
  | start addr =>
    have hc := h.coordinators addr
    refine h.setCoordinator ?_ addr
    unfold Deployment.restarted
    split
    · exact ⟨Nat.zero_le _, newFSM_represents T, hc.snapshot⟩
    · rename_i data k hsnap
      obtain ⟨hk, hrest⟩ := hc.snapshot data k hsnap
      exact ⟨hk, hrest _, hc.snapshot⟩
  | apply addr o =>
    have hc := h.coordinators addr
    simp only [Deployment.step]
    split
    · exact h
    · rename_i data hdata
      have hstate := (hc.state.apply (J := J) o data).1
      rw [← registryAt_succ hdata] at hstate
      refine h.setCoordinator (c := { w.coordinators addr with
        state := (apply J o (w.coordinators addr).state data).1
        applied := (w.coordinators addr).applied + 1 }) ?_ addr
      exact ⟨(List.getElem?_eq_some_iff.mp hdata).1, hstate, hc.snapshot⟩
  | snapshot addr nodes shards =>
    have hc := h.coordinators addr
    refine h.setCoordinator (c := { w.coordinators addr with
      snapshot := some (persist J nodes shards _, _) }) ?_ addr
    refine ⟨hc.applied, hc.state, fun data k hsnap => ?_⟩
    cases hsnap
    exact ⟨hc.applied, fun old => (restore_represents hJ.state hc.state nodes shards old).1⟩
  | install addr source =>
    simp only [Deployment.step]
    split
    · exact h
    · rename_i data k hsnap
      obtain ⟨hk, hrest⟩ := (h.coordinators source).snapshot data k hsnap
      refine h.setCoordinator ⟨hk, hrest _, fun data' k' hsnap' => ?_⟩ addr
      cases hsnap'
      exact ⟨hk, hrest⟩
  | commit data => exact h.commit data
  | launch nodeID grpcAddr addrs => exact h.launch nodeID grpcAddr addrs
  | register ch nodeID =>
    simp only [Deployment.step]
    split
    · exact h
    · exact h.tryRegister hJ ch nodeID _
  | giveUp nodeID => exact h.setStarting nodeID none
  | beat ch nodeID =>
    simp only [Deployment.step]
    split
    · exact h
    · rename_i p hp
      exact h.tryBeat ch hp
  | refresh o nodeID =>
    simp only [Deployment.step]
    split
    · exact h
    · rename_i p hp
      obtain ⟨k, hk, hview⟩ := h.nodes nodeID p hp
      obtain ⟨k', hk', hview'⟩ := h.refreshed hT o hk hview
      obtain ⟨hid, hknown⟩ := h.registered nodeID p hp
      exact h.setNode hk' hview' hid hknown

theorem initial_consistent (J : JsonPackage) (T : Int) : Consistent J T (.initial T) := by
  refine ⟨fun a => ⟨Nat.zero_le _, newFSM_represents T, fun data k hsnap => ?_⟩,
    fun n p hp => ?_, fun n p hp => ?_⟩
  · cases hsnap
  · cases hp
  · cases hp

theorem Consistent.run (hJ : J.RoundTrips) (hT : T < 2 ^ 31) (h : Consistent J T w)
    (events : List Event) : Consistent J T (w.run J T dials events) := by
  induction events generalizing w with
  | nil => exact h
  | cons ev events ih => exact ih (h.step hJ hT ev)

end Runs

/-- All routing in a deployment follows one log. Whatever leaders are elected, coordinators fail
and return, and refreshes get lost, each coordinator and each storage node routes by a prefix of
the log, as one coordinator alone would that has applied it. -/
theorem views_follow_log (hJ : J.RoundTrips) (hT : T < 2 ^ 31) (dials : String → Bool)
    (events : List Event) :
    let w := (Deployment.initial T).run J T dials events
    (∀ a, (w.coordinators a).applied ≤ w.log.length ∧
      stateCache (w.coordinators a).state = viewAt J T w.log (w.coordinators a).applied) ∧
    ∀ n p, w.nodes n = some p → ∃ k ≤ w.log.length,
      stateCache p.cached = viewAt J T w.log k := by
  intro w
  have h : Consistent J T w := (initial_consistent J T).run hJ hT events
  exact ⟨fun a => ⟨(h.coordinators a).applied, stateCache_of_represents (h.coordinators a).state⟩,
    h.nodes⟩

/-- One coordinator leads and the rest do not. -/
def ledBy (leader addr : String) : RaftOutcome := if addr = leader then .committed else .notLeader

def steadyChance : Chance := ⟨fun _ _ => .listed, fun _ => 1⟩

/-- Two nodes join under one leader, the first after it has asked the wrong one; the other
coordinator takes over and marks the first node. -/
def takeover : List Event :=
  [.elect (ledBy "c1"), .launch "n1" "host-1" ["c2", "c1"], .register steadyChance "n1",
    .register steadyChance "n1", .refresh .listed "n1", .launch "n2" "host-2" ["c1", "c2"],
    .register steadyChance "n2", .refresh .listed "n2", .snapshot "c1" .listed .reversed,
    .stop "c1", .install "c2" "c1", .elect (ledBy "c2"),
    .commit (encodeOp wireCodec (.markUnhealthy ⟨"n1"⟩)), .apply "c2" .listed,
    .beat steadyChance "n2", .beat steadyChance "n2", .refresh .listed "n2"]

theorem views_follow_takeover :
    let w := (Deployment.initial 4).run wireCodec 4 (fun _ => true) takeover
    (w.nodes "n1").isSome = true ∧ (∀ a, (w.coordinators a).applied ≤ w.log.length ∧
      stateCache (w.coordinators a).state = viewAt wireCodec 4 w.log (w.coordinators a).applied) ∧
    ∀ n p, w.nodes n = some p → ∃ k ≤ w.log.length,
      stateCache p.cached = viewAt wireCodec 4 w.log k :=
  ⟨by decide +kernel, views_follow_log wireCodec_roundTrips (by decide) (fun _ => true) takeover⟩

end LogEngine.Cluster
