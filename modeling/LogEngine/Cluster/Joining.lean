import LogEngine.Cluster.Views

namespace LogEngine.Cluster
open Lib Metadata
open Ingest (StateReader)

variable {J : JsonPackage} {T : Int} {dials : String → Bool} {w : Deployment}

section Log

variable {log : List Bytes} {r k : Nat}

/-- An entry of the log that registers the node. -/
def Registers (J : JsonPackage) (nodeID : String) (data : Bytes) : Prop :=
  ∃ p, decodeOp J data = .ok (.registerNode p) ∧ p.nodeID = nodeID

/-- An entry of the log by which nothing is routed differently: a heartbeat, or no command. -/
def Idle (J : JsonPackage) (data : Bytes) : Prop :=
  ∀ op, decodeOp J data = .ok op → ∃ p, op = .updateHeartbeat p

/-- What the routing takes from an entry of the membership. -/
def routing (m : Member) : String × NodeStatus := (m.address, m.status)

theorem registryAt_since (h : r ≤ k) : registryAt J log k =
    ((registryAt J log r).applyLog J ((log.take k).drop r)).1 := by
  have hsplit : log.take k = log.take r ++ (log.take k).drop r := by
    conv_lhs => rw [← List.take_append_drop r (log.take k), List.take_take, min_eq_left h]
  rw [registryAt, hsplit, applyLog_append, registryAt, ← hsplit]

/-- A node's entry that is replaced by one with the same `f`. -/
theorem put_kept {β : Type} {f : Member → β} {r : Registry} {j : String} {m m' : Member}
    (hm : r j = some m) (hf : f m' = f m) (id : String) :
    ((r.put j m') id).map f = (r id).map f := by
  by_cases hid : id = j
  · subst hid
    simp [Registry.put, hm, hf]
  · simp [Registry.put, hid]

theorem apply_address {nodeID : String} {data : Bytes} (h : ¬ Registers J nodeID data)
    (m : Registry) :
    ((m.apply J data).1 nodeID).map Member.address = (m nodeID).map Member.address := by
  unfold Registry.apply
  split
  · rfl
  · rename_i op hop
    cases op with
    | registerNode p =>
      have hid : nodeID ≠ p.nodeID := fun hid => h ⟨p, hop, hid.symm⟩
      simp [Registry.step, Registry.put, hid]
    | updateHeartbeat p | markUnhealthy p =>
      simp only [Registry.step]
      split
      · rfl
      · rename_i n hn
        exact put_kept hn (by rfl) nodeID

theorem apply_routing {data : Bytes} (h : Idle J data) (m : Registry) (id : String) :
    ((m.apply J data).1 id).map routing = (m id).map routing := by
  unfold Registry.apply
  split
  · rfl
  · rename_i op hop
    obtain ⟨p, rfl⟩ := h op hop
    simp only [Registry.step]
    split
    · rfl
    · rename_i n hn
      exact put_kept hn (by rfl) id

/-- What every entry of a part of the log keeps of a node, the part keeps. -/
theorem applyLog_kept {β : Type} {f : Member → β} {id : String} (m : Registry)
    (h : ∀ data ∈ log, ∀ m : Registry, ((m.apply J data).1 id).map f = (m id).map f) :
    ((m.applyLog J log).1 id).map f = (m id).map f := by
  induction log generalizing m with
  | nil => rfl
  | cons data log ih =>
    obtain ⟨hdata, hrest⟩ := List.forall_mem_cons.mp h
    exact (ih _ hrest).trans (hdata m)

theorem nodeAddress_of_represents {s : ClusterState} {r : Registry} (hs : Represents T s r)
    (id : String) : (stateCache s).nodeAddress id = ((r id).map Member.address).getD "" := by
  rw [← hs.registry]
  cases hn : s.nodes.get id <;> simp [stateCache, members, NodeRecord.member, hn]

/-- The shards of a node are those it is primary of. -/
theorem shards_of_represents {s : ClusterState} {r : Registry} (hs : Represents T s r)
    {id : String} (hid : id ≠ "") {n : NodeRecord} (hn : s.nodes.get id = some n) (i : Int) :
    i ∈ n.shards ↔ ((stateCache s).shardOwners i).1 = id := by
  rw [(hs.canonical.nodes id n hn).2, mem_shardsOf]
  simp only [stateCache, hs.canonical.shards i]
  by_cases hi : 0 ≤ i ∧ i < T
  · rw [if_pos hi]
    simp only [hi, and_self, true_and, primaryOf]
    cases (healthyIDs s)[i.toNat % (healthyIDs s).length]? with
    | none => simp [Ne.symm hid]
    | some j => simp
  · rw [if_neg hi]
    simp only [hi, false_and, false_iff]
    exact Ne.symm hid

theorem toInt_ofInt_shards {s : ClusterState} (hs : Canonical T s) (hT : T < 2 ^ 31) {id : String}
    {n : NodeRecord} (hn : s.nodes.get id = some n) :
    (n.shards.map Int32.ofInt).map Int32.toInt = n.shards := by
  rw [List.map_map]
  refine (List.map_congr_left (fun i hi => ?_)).trans (List.map_id _)
  rw [(hs.nodes id n hn).2, mem_shardsOf] at hi
  have hlow : -2 ^ 31 ≤ i := by omega
  exact Int32.toInt_ofInt_of_le hlow (hi.1.2.trans hT)

theorem viewAt_nodeAddress (log : List Bytes) (k : Nat) (id : String) :
    (viewAt J T log k).nodeAddress id =
      ((registryAt J log k id).map Member.address).getD "" := by
  obtain ⟨s, hs, hview⟩ := viewAt_represents J T log k
  rw [← hview, nodeAddress_of_represents hs]

/-- Routing needs the addresses and the statuses alone. -/
theorem viewAt_congr {log' : List Bytes} {k' : Nat}
    (h : ∀ id, (registryAt J log k id).map routing =
      (registryAt J log' k' id).map routing) : viewAt J T log k = viewAt J T log' k' := by
  obtain ⟨s, hs, hview⟩ := viewAt_represents J T log k
  obtain ⟨t, ht, hview'⟩ := viewAt_represents J T log' k'
  have hmap : ∀ {β : Type} (f : String × NodeStatus → β) (id : String),
      (registryAt J log k id).map (fun m => f (routing m)) =
        (registryAt J log' k' id).map (fun m => f (routing m)) := by
    intro β f id
    have hf := congrArg (Option.map f) (h id)
    rwa [Option.map_map, Option.map_map] at hf
  have hhealthy : healthyIDs s = healthyIDs t := by
    refine healthyIDs_congr (fun id => ?_)
    rw [isHealthy_eq, isHealthy_eq, hs.registry, ht.registry]
    exact congrArg (fun x => decide (x = some NodeStatus.healthy)) (hmap Prod.snd id)
  have howners : (stateCache s).shardOwners = (stateCache t).shardOwners := by
    funext i
    simp only [stateCache, hs.canonical.shards, ht.canonical.shards, hhealthy]
  have haddress : (stateCache s).nodeAddress = (stateCache t).nodeAddress := by
    funext id
    rw [nodeAddress_of_represents hs, nodeAddress_of_represents ht]
    exact congrArg (fun x => Option.getD x "") (hmap Prod.fst id)
  rw [← hview, ← hview']
  exact congrArg₂ StateReader.mk howners haddress

theorem viewAt_idle (h : r ≤ k) (hidle : ∀ data ∈ (log.take k).drop r, Idle J data) :
    viewAt J T log k = viewAt J T log r := by
  refine viewAt_congr (fun id => ?_)
  rw [registryAt_since h]
  exact applyLog_kept _ (fun data hdata m => apply_routing (hidle data hdata) m id)

theorem nodeAddress_kept {nodeID : String} (h : r ≤ k)
    (hkept : ∀ data ∈ (log.take k).drop r, ¬ Registers J nodeID data) :
    (viewAt J T log k).nodeAddress nodeID = (viewAt J T log r).nodeAddress nodeID := by
  rw [viewAt_nodeAddress, viewAt_nodeAddress, registryAt_since h]
  exact congrArg (fun x => Option.getD x "")
    (applyLog_kept _ (fun data hdata m => apply_address (hkept data hdata) m))

end Log

section Growth

theorem submit_log {ρ : Type} (w : Deployment) (o : Nat → Orders) (op : Op) (accepts : Bool)
    (handler : ClusterState → RaftOutcome → ClusterState × Except ServerError ρ) (addr : String) :
    w.log <+: (w.submit J o op accepts handler addr).1.log := by
  rcases submit_cases w o op accepts handler addr with hw | ⟨-, hw⟩
  · exact ⟨[], (List.append_nil _).trans (congrArg Deployment.log hw).symm⟩
  · exact ⟨[encodeOp J op], (congrArg Deployment.log hw).symm⟩

theorem settle_log (nodeID grpcAddr : String) (client : ClusterClient)
    (result : Option (Except ClientError (List Int))) :
    (w.settle nodeID grpcAddr client result).log = w.log := by
  unfold Deployment.settle
  split <;> rfl

/-- Nothing is taken out of the log. -/
theorem step_log (dials : String → Bool) (w : Deployment) (ev : Event) :
    w.log <+: (w.step J T dials ev).log := by
  cases ev with
  | elect | stop | start | snapshot | launch | giveUp => exact List.prefix_refl _
  | apply addr o | install addr source | refresh o nodeID =>
    simp only [Deployment.step]
    split <;> exact List.prefix_refl _
  | commit data => exact List.prefix_append _ _
  | register ch nodeID =>
    simp only [Deployment.step]
    split
    · exact List.prefix_refl _
    · rw [Deployment.tryRegister, settle_log]
      exact ClusterClient.attempt_keeps dials (I := fun v => w.log <+: v.log)
        (fun v addr hv => hv.trans (submit_log v _ _ _ _ addr)) (List.prefix_refl _) _
  | beat ch nodeID =>
    simp only [Deployment.step]
    split
    · exact List.prefix_refl _
    · exact ClusterClient.attempt_keeps dials (I := fun v => w.log <+: v.log)
        (fun v addr hv => hv.trans (submit_log v _ _ _ _ addr)) (List.prefix_refl _) _

theorem run_log (dials : String → Bool) (w : Deployment) (events : List Event) :
    w.log <+: (w.run J T dials events).log := by
  induction events generalizing w with
  | nil => exact List.prefix_refl _
  | cons ev events ih => exact (step_log dials w ev).trans (ih _)

end Growth

section Loops

variable {ρ : Type} (ch : Chance) {nodeID : String}

/-- A call neither reads nor changes what the storage nodes are about. -/
theorem submit_frame (f : (String → Option Starting) → String → Option Starting)
    (g : (String → Option Participant) → String → Option Participant) (w : Deployment)
    (o : Nat → Orders) (op : Op) (accepts : Bool)
    (handler : ClusterState → RaftOutcome → ClusterState × Except ServerError ρ) (addr : String) :
    ({ w with starting := f w.starting, nodes := g w.nodes } : Deployment).submit J o op accepts
        handler addr =
      let answer := w.submit J o op accepts handler addr
      ({ answer.1 with starting := f answer.1.starting, nodes := g answer.1.nodes }, answer.2) := by
  unfold Deployment.submit
  dsimp only
  split
  · split
    · dsimp only
      split <;> rfl
    · rfl
  · rfl

theorem heartbeat_setNode (w : Deployment) (p : Participant) (addr : String) :
    (w.setNode nodeID p).heartbeat J ch nodeID addr =
      ((w.heartbeat J ch nodeID addr).1.setNode nodeID p, (w.heartbeat J ch nodeID addr).2) :=
  submit_frame id (fun nodes => Function.update nodes nodeID (some p)) w _ _ _ _ addr

theorem registerNode_setStarting (w : Deployment) (s : Option Starting) (grpcAddr addr : String) :
    (w.setStarting nodeID s).registerNode J ch nodeID grpcAddr addr =
      ((w.registerNode J ch nodeID grpcAddr addr).1.setStarting nodeID s,
        (w.registerNode J ch nodeID grpcAddr addr).2) :=
  submit_frame (fun starting => Function.update starting nodeID s) id w _ _ _ _ addr

theorem beat_attempts (m : Nat) {p : Participant} (hp : w.nodes nodeID = some p) :
    ∃ n ≤ m, w.run J T dials (List.replicate n (.beat ch nodeID)) =
      (p.client.attempts dials (Deployment.heartbeat J ch nodeID) m w).1.setNode nodeID
        { p with
          client := (p.client.attempts dials (Deployment.heartbeat J ch nodeID) m w).2.1 } := by
  induction m generalizing w p with
  | zero =>
    refine ⟨0, le_refl _, ?_⟩
    show w = w.setNode nodeID p
    rw [Deployment.setNode, ← hp, Function.update_eq_self]
  | succ m ih =>
    have hstep : w.step J T dials (.beat ch nodeID) = w.tryBeat J dials ch nodeID p := by
      simp only [Deployment.step, hp]
    rw [ClusterClient.attempts]
    cases htried : (p.client.attempt dials (Deployment.heartbeat J ch nodeID) w).2.2 with
    | some result => exact ⟨1, by omega, hstep⟩
    | none =>
      obtain ⟨n, hn, hrun⟩ := ih (w := w.tryBeat J dials ch nodeID p) (Function.update_self _ _ _)
      refine ⟨n + 1, by omega, ?_⟩
      -- The calls do not see the node that makes them.
      rw [List.replicate_succ, Deployment.run, List.foldl_cons, hstep]
      refine hrun.trans ?_
      rw [Deployment.tryBeat, ClusterClient.attempts_frame dials
        (fun v addr => heartbeat_setNode ch v _ addr)]
      simp only [Deployment.setNode, Function.update_idem]

/-- A heartbeat is a run of its attempts. -/
theorem beat_run {p : Participant} (hp : w.nodes nodeID = some p) :
    ∃ n ≤ p.client.addrs.length * 2,
      w.run J T dials (List.replicate n (.beat ch nodeID)) = (w.beat J dials ch nodeID p).1 :=
  beat_attempts ch _ hp

theorem settle_setStarting (nodeID grpcAddr : String) (client : ClusterClient)
    (s : Option Starting) (result : Option (Except ClientError (List Int))) :
    (w.setStarting nodeID s).settle nodeID grpcAddr client result =
      w.settle nodeID grpcAddr client result := by
  unfold Deployment.settle
  split <;> simp only [Deployment.setStarting, Function.update_idem]

theorem register_attempts (dials : String → Bool) (m : Nat) {s : Starting}
    (hs : w.starting nodeID = some s) :
    ∃ n ≤ m, w.run J T dials (List.replicate n (.register ch nodeID)) =
      let sent := s.client.attempts dials (Deployment.registerNode J ch nodeID s.grpcAddr) m w
      sent.1.settle nodeID s.grpcAddr sent.2.1
        (sent.2.2.map (Except.map (List.map Int32.toInt))) := by
  induction m generalizing w s with
  | zero =>
    refine ⟨0, le_refl _, ?_⟩
    show w = w.setStarting nodeID (some s)
    rw [Deployment.setStarting, ← hs, Function.update_eq_self]
  | succ m ih =>
    have hstep : w.step J T dials (.register ch nodeID) = w.tryRegister J dials ch nodeID s := by
      simp only [Deployment.step, hs]
    rw [ClusterClient.attempts]
    cases htried : (s.client.attempt dials
        (Deployment.registerNode J ch nodeID s.grpcAddr) w).2.2 with
    | some result =>
      refine ⟨1, by omega, hstep.trans ?_⟩
      simp only [Deployment.tryRegister, htried]
    | none =>
      have hnext : w.tryRegister J dials ch nodeID s =
          (s.client.attempt dials (Deployment.registerNode J ch nodeID s.grpcAddr) w).1.setStarting
            nodeID (some ⟨(s.client.attempt dials
              (Deployment.registerNode J ch nodeID s.grpcAddr) w).2.1, s.grpcAddr⟩) := by
        simp only [Deployment.tryRegister, htried, Option.map_none, Deployment.settle]
      obtain ⟨n, hn, hrun⟩ := ih (w := w.tryRegister J dials ch nodeID s)
        (by rw [hnext]; exact Function.update_self _ _ _)
      refine ⟨n + 1, by omega, ?_⟩
      rw [List.replicate_succ, Deployment.run, List.foldl_cons, hstep]
      refine hrun.trans ?_
      rw [hnext, ClusterClient.attempts_frame dials
        (fun v addr => registerNode_setStarting ch v _ _ addr)]
      simp only [settle_setStarting]

/-- So is `Register`, with the end of its context if it comes to that. -/
theorem register_run (waits : Nat) {s : Starting} (hs : w.starting nodeID = some s) :
    ∃ n ≤ waits + 1,
      w.run J T dials (List.replicate n (.register ch nodeID) ++ [.giveUp nodeID]) =
        let done := s.client.register dials (Deployment.registerNode J ch nodeID s.grpcAddr) waits w
        done.1.settle nodeID s.grpcAddr done.2.1 (some done.2.2) := by
  obtain ⟨n, hn, hrun⟩ := register_attempts (J := J) (T := T) ch dials (waits + 1) hs
  refine ⟨n, hn, ?_⟩
  rw [Deployment.run, List.foldl_append]
  show (w.run J T dials (List.replicate n (.register ch nodeID))).setStarting nodeID none = _
  rw [hrun, ClusterClient.register]
  generalize s.client.attempts dials (Deployment.registerNode J ch nodeID s.grpcAddr) (waits + 1)
    w = sent
  obtain ⟨v, c, result⟩ := sent
  cases result with
  | none => simp [Deployment.settle, Deployment.setStarting, Except.map]
  | some result =>
    cases result with
    | error err => simp [Deployment.settle, Deployment.setStarting, Except.map]
    | ok told => simp [Deployment.settle, Deployment.setStarting, Deployment.setNode, Except.map]

end Loops

section Joined

/-- What a refresh at a coordinator that is up stores. -/
theorem refreshed_up {o : ReadOrders} {p : Participant} {addr : String}
    (hconn : p.client.conn = some addr) (hup : (w.coordinators addr).up = true) :
    Deployment.refreshed o w p = { p with cached := delivered o (w.coordinators addr).state } := by
  simp only [Deployment.refreshed, ClusterClient.call, hconn, Deployment.getClusterState, hup,
    if_true]
  rfl

/-- What a coordinator tells a node that it has registered. -/
theorem Consistent.told (hJ : J.RoundTrips) (hT : T < 2 ^ 31) (h : Consistent J T w)
    {ch : Chance} {nodeID grpcAddr addr : String} {r : List Int32} {v : Deployment}
    (hanswer : w.registerNode J ch nodeID grpcAddr addr = (v, .ok r)) :
    (viewAt J T v.log v.log.length).nodeAddress nodeID = grpcAddr ∧
      ∀ i, i ∈ r.map Int32.toInt ↔
        ((viewAt J T v.log v.log.length).shardOwners i).1 = nodeID := by
  have hafter := h.registerNode ch nodeID grpcAddr addr
  rw [hanswer] at hafter
  obtain ⟨hid, hled, n, hn, rfl⟩ := registerNode_led hanswer
  have hstate := (hafter.coordinators addr).state
  rw [hled.applied] at hstate
  rw [← stateCache_of_represents hstate]
  refine ⟨?_, fun i => ?_⟩
  · rw [nodeAddress_of_represents hstate, registry_of_led hJ hled]
    simp [Registry.step, Registry.put]
  · rw [toInt_ofInt_shards hstate.canonical hT hn, shards_of_represents hstate hid hn]

/-- A refresh at a coordinator that is up. -/
theorem Consistent.refresh_up (hT : T < 2 ^ 31) (h : Consistent J T w) (dials : String → Bool)
    (o : ReadOrders) {nodeID addr : String} {p : Participant} (hp : w.nodes nodeID = some p)
    (hconn : p.client.conn = some addr) (hup : (w.coordinators addr).up = true) :
    ∃ q, (w.step J T dials (.refresh o nodeID)).nodes nodeID = some q ∧
      stateCache q.cached = viewAt J T w.log (w.coordinators addr).applied := by
  refine ⟨Deployment.refreshed o w p, ?_, ?_⟩
  · simp only [Deployment.step, hp]
    exact Function.update_self _ _ _
  · rw [refreshed_up hconn hup]
    exact stateCache_delivered (h.coordinators addr).state hT o

end Joined

/-- A node that has registered sees itself, whichever coordinators it had to try and whatever
happens before it refreshes. The shards that it is told are those that it is primary of when the
log ends with its registration, and the coordinator that told it has applied all of the log. A
refresh at a coordinator that has applied the registration shows the node its own address, unless
it was registered anew, and the shards it was told, unless the membership has changed. -/
theorem joined_node_sees_itself (hJ : J.RoundTrips) (hT : T < 2 ^ 31) (dials : String → Bool)
    (events : List Event) (ch : Chance) {nodeID : String} {s : Starting} {told : List Int32}
    (hs : ((Deployment.initial T).run J T dials events).starting nodeID = some s)
    (hok : (s.client.attempt dials (Deployment.registerNode J ch nodeID s.grpcAddr)
      ((Deployment.initial T).run J T dials events)).2.2 = some (.ok told))
    (between : List Event) (o : ReadOrders) :
    let w := ((Deployment.initial T).run J T dials events).step J T dials (.register ch nodeID)
    let v := w.run J T dials between
    let view := viewAt J T w.log w.log.length
    ∃ p home, w.nodes nodeID = some p ∧ p.client.conn = some home ∧
      (w.coordinators home).up = true ∧ (w.coordinators home).applied = w.log.length ∧
      (∀ i, i ∈ p.shards ↔ (view.shardOwners i).1 = nodeID) ∧
      view.nodeAddress nodeID = s.grpcAddr ∧
      ∀ q addr, v.nodes nodeID = some q → q.client.conn = some addr →
        (v.coordinators addr).up = true → w.log.length ≤ (v.coordinators addr).applied →
        let since := (v.log.take (v.coordinators addr).applied).drop w.log.length
        ∃ q', (v.step J T dials (.refresh o nodeID)).nodes nodeID = some q' ∧
          stateCache q'.cached = viewAt J T v.log (v.coordinators addr).applied ∧
          ((∀ data ∈ since, ¬ Registers J nodeID data) →
            (stateCache q'.cached).nodeAddress nodeID = s.grpcAddr) ∧
          ((∀ data ∈ since, Idle J data) →
            ∀ i, i ∈ p.shards ↔ ((stateCache q'.cached).shardOwners i).1 = nodeID) := by
  intro w v view
  have hbefore : Consistent J T ((Deployment.initial T).run J T dials events) :=
    (initial_consistent J T).run hJ hT events
  have hw : Consistent J T w := hbefore.step hJ hT _
  have hv : Consistent J T v := hw.run hJ hT between
  obtain ⟨home, hhome, hanswer, hattempt⟩ := ClusterClient.attempt_answered hok
  obtain ⟨-, hled, -⟩ := registerNode_led (Prod.ext rfl hanswer)
  obtain ⟨haddress, hshards⟩ := hbefore.told hJ hT (Prod.ext rfl hanswer)
  have hstep : w = ((((Deployment.initial T).run J T dials events).registerNode J ch nodeID
      s.grpcAddr home).1.setStarting nodeID none).setNode nodeID
        ⟨s.client, told.map Int32.toInt, emptyState⟩ := by
    simp only [w, Deployment.step, hs, Deployment.tryRegister, hattempt]
    rfl
  have hlog : w.log = _ := congrArg Deployment.log hstep
  have hcoordinators : w.coordinators = _ := congrArg Deployment.coordinators hstep
  have hprimary : ∀ i, i ∈ told.map Int32.toInt ↔ (view.shardOwners i).1 = nodeID := by
    simp only [view, hlog]
    exact hshards
  have hown : view.nodeAddress nodeID = s.grpcAddr := by
    simp only [view, hlog]
    exact haddress
  have hsame : viewAt J T v.log w.log.length = view := by
    obtain ⟨more, hmore⟩ := run_log (J := J) (T := T) dials w between
    rw [show v.log = w.log ++ more from hmore.symm, viewAt_append (le_refl _)]
  refine ⟨⟨s.client, told.map Int32.toInt, emptyState⟩, home, ?_, hhome, ?_, ?_, hprimary, hown,
    ?_⟩
  · rw [hstep]
    exact Function.update_self _ _ _
  · rw [hcoordinators]
    exact hled.up
  · rw [hcoordinators, hlog]
    exact hled.applied
  · intro q addr hq hconn hup happlied since
    obtain ⟨q', hq', hcached⟩ := hv.refresh_up hT dials o hq hconn hup
    refine ⟨q', hq', hcached, fun hkept => ?_, fun hidle => ?_⟩
    · rw [hcached, nodeAddress_kept happlied hkept, hsame]
      exact hown
    · rw [hcached, viewAt_idle happlied hidle, hsame]
      exact hprimary

/-- A third node asks a coordinator that is down, and then the new leader. -/
def thirdNode : List Event :=
  takeover ++ [.launch "n3" "host-3" ["c1", "c2"], .register steadyChance "n3"]

theorem idle_heartbeat (hJ : J.RoundTrips) (p : UpdateHeartbeatPayload) :
    Idle J (encodeOp J (.updateHeartbeat p)) := by
  intro op hop
  rw [decodeOp_encodeOp hJ] at hop
  exact ⟨p, (Except.ok.inj hop).symm⟩

theorem Idle.not_registers {data : Bytes} (h : Idle J data) (nodeID : String) :
    ¬ Registers J nodeID data := by
  intro hregisters
  obtain ⟨p, hp, -⟩ := hregisters
  obtain ⟨q, hq⟩ := h _ hp
  cases hq

theorem joined_after_takeover :
    let w := ((Deployment.initial 4).run wireCodec 4 (fun _ => true) thirdNode).step wireCodec 4
      (fun _ => true) (.register steadyChance "n3")
    let v := w.run wireCodec 4 (fun _ => true) [.beat steadyChance "n2", .refresh .listed "n2"]
    ∃ q, (v.step wireCodec 4 (fun _ => true) (.refresh .listed "n3")).nodes "n3" = some q ∧
      (stateCache q.cached).nodeAddress "n3" = "host-3" ∧
      ∀ i, i ∈ [1, 3] ↔ ((stateCache q.cached).shardOwners i).1 = "n3" := by
  intro w v
  have hstarting : (((Deployment.initial 4).run wireCodec 4 (fun _ => true) thirdNode).starting
      "n3").bind (fun s => (s.client.attempt (fun _ => true) (Deployment.registerNode wireCodec
        steadyChance "n3" s.grpcAddr) ((Deployment.initial 4).run wireCodec 4 (fun _ => true)
          thirdNode)).2.2.bind (fun r => r.toOption.map (fun told => (told, s.grpcAddr)))) =
      some ([1, 3], "host-3") := by decide +kernel
  obtain ⟨s, hs, hattempt⟩ := Option.bind_eq_some_iff.mp hstarting
  obtain ⟨result, hresult, htold⟩ := Option.bind_eq_some_iff.mp hattempt
  obtain ⟨told, hok, haddress⟩ := Option.map_eq_some_iff.mp htold
  have hshards : (w.nodes "n3").map Participant.shards = some [1, 3] := by decide +kernel
  have hnode : (v.nodes "n3").map (fun q => q.client.conn) = some (some "c2") := by
    decide +kernel
  have hsince : (v.log.take (v.coordinators "c2").applied).drop w.log.length =
      [encodeOp wireCodec (.updateHeartbeat ⟨"n2", 1⟩)] := by decide +kernel
  have hup : (v.coordinators "c2").up = true := by decide +kernel
  have happlied : w.log.length ≤ (v.coordinators "c2").applied := by decide +kernel
  obtain ⟨q, hq, hconn⟩ := Option.map_eq_some_iff.mp hnode
  have hidle : ∀ data ∈ (v.log.take (v.coordinators "c2").applied).drop w.log.length,
      Idle wireCodec data := by
    rw [hsince, List.forall_mem_singleton]
    exact idle_heartbeat wireCodec_roundTrips _
  have hw : w = ((Deployment.initial 4).run wireCodec 4 (fun _ => true) thirdNode).step wireCodec 4
    (fun _ => true) (.register steadyChance "n3") := rfl
  have hv : v = w.run wireCodec 4 (fun _ => true)
    [.beat steadyChance "n2", .refresh .listed "n2"] := rfl
  -- From here on the two deployments are not to be computed any more.
  clear_value v w
  cases result with
  | error err => cases hok
  | ok told' =>
    obtain ⟨p, home, hp, -, -, -, -, -, hrefresh⟩ := joined_node_sees_itself wireCodec_roundTrips
      (by decide) (fun _ => true) thirdNode steadyChance hs hresult
      [.beat steadyChance "n2", .refresh .listed "n2"] .listed
    rw [← hw] at hp hrefresh
    rw [← hv] at hrefresh
    obtain ⟨q', hq', -, hown, hfound⟩ := hrefresh q "c2" hq hconn hup happlied
    refine ⟨q', hq', ?_, ?_⟩
    · rw [hown (fun data hdata => (hidle data hdata).not_registers "n3")]
      exact (Prod.mk.inj haddress).2
    · rw [hp] at hshards
      rw [← Option.some.inj hshards]
      exact hfound hidle

end LogEngine.Cluster
