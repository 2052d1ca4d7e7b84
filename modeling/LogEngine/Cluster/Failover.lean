import LogEngine.Cluster.Views

namespace LogEngine.Cluster
open Lib Metadata

variable {J : JsonPackage} {T : Int} {dials : String → Bool} {w : Deployment}

/-- A coordinator that a client goes past: it is down, or it does not lead. -/
def Deployment.Passes (w : Deployment) (addr : String) : Prop :=
  (w.coordinators addr).up = false ∨ w.raft addr = .notLeader ∨ w.raft addr = .lostLeadership

/-- Of the coordinators at these addresses the one at `l` leads. -/
structure Deployment.Leads (w : Deployment) (addrs : List String) (l : String) : Prop where
  listed : l ∈ addrs
  up : (w.coordinators l).up = true
  commits : w.raft l = .committed
  others : ∀ a ∈ addrs, a ≠ l → w.Passes a

/-- Every storage node is connected to the coordinator whose turn it is. -/
structure Deployment.Linked (w : Deployment) : Prop where
  starting : ∀ n s, w.starting n = some s → s.client.Connected
  nodes : ∀ n p, w.nodes n = some p → p.client.Connected

section Linked

theorem new_connected {addrs : List String} {nodeID : String} {c : ClusterClient}
    (h : ClusterClient.new dials addrs nodeID = .ok c) : c.Connected := by
  unfold ClusterClient.new at h
  split at h
  · dsimp only at h
    split at h
    · cases h
      rfl
    · cases h
  · cases h

theorem Deployment.Linked.setNode (h : w.Linked) {p : Participant} (hp : p.client.Connected)
    (nodeID : String) : (w.setNode nodeID p).Linked := by
  refine ⟨h.starting, fun n q hq => ?_⟩
  simp only [Deployment.setNode, Function.update_apply] at hq
  split at hq
  · exact Option.some.inj hq ▸ hp
  · exact h.nodes n q hq

theorem Deployment.Linked.setStarting (h : w.Linked) {s : Option Starting}
    (hs : ∀ x ∈ s, x.client.Connected) (nodeID : String) : (w.setStarting nodeID s).Linked := by
  refine ⟨fun n x hx => ?_, h.nodes⟩
  simp only [Deployment.setStarting, Function.update_apply] at hx
  split at hx
  · exact hs x hx
  · exact h.starting n x hx

theorem Deployment.Linked.congr {w' : Deployment} (h : w.Linked)
    (hsame : w'.starting = w.starting ∧ w'.nodes = w.nodes) : w'.Linked := by
  obtain ⟨hstarting, hnodes⟩ := hsame
  exact ⟨fun n s hs => h.starting n s (hstarting ▸ hs), fun n p hp => h.nodes n p (hnodes ▸ hp)⟩

theorem Deployment.Linked.launch (h : w.Linked) (nodeID grpcAddr : String)
    (addrs : List String) : (w.launch dials nodeID grpcAddr addrs).Linked := by
  constructor
  · intro n s hs
    simp only [Deployment.launch, Function.update_apply] at hs
    split at hs
    · obtain ⟨client, hclient, rfl⟩ := Option.map_eq_some_iff.mp hs
      cases hnew : ClusterClient.new dials addrs nodeID with
      | error err => simp [hnew, Except.toOption] at hclient
      | ok c =>
        obtain rfl : c = client := by simpa [hnew, Except.toOption] using hclient
        exact new_connected hnew
    · exact h.starting n s hs
  · intro n p hp
    simp only [Deployment.launch, Function.update_apply] at hp
    split at hp
    · cases hp
    · exact h.nodes n p hp

theorem Deployment.Linked.settle (h : w.Linked) {client : ClusterClient}
    (hclient : client.Connected) (nodeID grpcAddr : String)
    (result : Option (Except ClientError (List Int))) :
    (w.settle nodeID grpcAddr client result).Linked := by
  have hgone : (w.setStarting nodeID none).Linked :=
    h.setStarting (fun x hx => by cases hx) nodeID
  unfold Deployment.settle
  split
  · exact h.setStarting (fun x hx => by cases hx; exact hclient) nodeID
  · exact hgone.setNode hclient nodeID
  · exact hgone

theorem refreshed_client (o : ReadOrders) (w : Deployment) (p : Participant) :
    (Deployment.refreshed o w p).client = p.client := by
  unfold Deployment.refreshed
  split <;> rfl

theorem Deployment.Linked.attempt {ρ : Type} (h : w.Linked)
    {call : Deployment → String → Deployment × Except Code ρ}
    (hcall : ∀ v addr, (call v addr).1.starting = v.starting ∧ (call v addr).1.nodes = v.nodes)
    (dials : String → Bool) (c : ClusterClient) : (c.attempt dials call w).1.Linked := by
  refine ClusterClient.attempt_keeps dials (fun v addr hv => ?_) h c
  exact hv.congr (hcall v addr)

theorem Deployment.Linked.step (hdials : ∀ a, dials a = true) (h : w.Linked) (ev : Event) :
    (w.step J T dials ev).Linked := by
  have hset : ∀ addr c, (w.setCoordinator addr c).Linked := fun addr c => h.congr ⟨rfl, rfl⟩
  cases ev with
  | elect raft => exact h.congr ⟨rfl, rfl⟩
  | stop addr => exact hset _ _
  | start addr => exact hset _ _
  | apply addr o =>
    simp only [Deployment.step]
    split
    · exact h
    · exact hset _ _
  | snapshot addr nodes shards => exact hset _ _
  | install addr source =>
    simp only [Deployment.step]
    split
    · exact h
    · exact hset _ _
  | commit data => exact h.congr ⟨rfl, rfl⟩
  | launch nodeID grpcAddr addrs => exact h.launch nodeID grpcAddr addrs
  | register ch nodeID =>
    simp only [Deployment.step]
    split
    · exact h
    · rename_i s hs
      have htried := h.attempt (fun v addr => registerNode_nodes (J := J) v ch nodeID s.grpcAddr
        addr) dials s.client
      exact htried.settle (ClusterClient.attempt_connected _ _ (fun a _ => hdials a)
        (h.starting nodeID s hs)) _ _ _
  | giveUp nodeID => exact h.setStarting (fun x hx => by cases hx) nodeID
  | beat ch nodeID =>
    simp only [Deployment.step]
    split
    · exact h
    · rename_i p hp
      have htried := h.attempt (fun v addr => heartbeat_nodes (J := J) v ch nodeID addr) dials
        p.client
      exact htried.setNode (ClusterClient.attempt_connected _ _ (fun a _ => hdials a)
        (h.nodes nodeID p hp)) nodeID
  | refresh o nodeID =>
    simp only [Deployment.step]
    split
    · exact h
    · rename_i p hp
      refine h.setNode ?_ nodeID
      rw [refreshed_client]
      exact h.nodes nodeID p hp

theorem Deployment.Linked.run (hdials : ∀ a, dials a = true) (h : w.Linked) (events : List Event) :
    (w.run J T dials events).Linked := by
  induction events generalizing w with
  | nil => exact h
  | cons ev events ih => exact ih (h.step hdials ev)

theorem initial_linked (T : Int) : (Deployment.initial T).Linked := by
  constructor
  · intro n s hs
    cases hs
  · intro n p hp
    cases hp

end Linked

section Beat

variable (ch : Chance) {nodeID : String}

/-- A coordinator that is gone past is left as it was. -/
theorem heartbeat_passes (hid : nodeID ≠ "") {addr : String} (h : w.Passes addr) :
    ClusterClient.verdict (Deployment.heartbeat J ch nodeID) w addr = (w, none) := by
  have hanswer : ∃ code, w.heartbeat J ch nodeID addr = (w, .error code) ∧
      ClusterClient.rotates code = true := by
    unfold Deployment.heartbeat Deployment.submit
    dsimp only
    split
    · rename_i hup
      have hraft := h.resolve_left (by rw [hup]; exact Bool.true_eq_false_eq_False)
      rcases hraft with hraft | hraft <;> rw [hraft] <;>
        simp only [Metadata.heartbeat, if_neg hid, applyCommand] <;>
        exact ⟨.failedPrecondition, rfl, rfl⟩
    · exact ⟨.unavailable, rfl, rfl⟩
  obtain ⟨code, hcode, hrotates⟩ := hanswer
  rw [ClusterClient.verdict_error (by rw [hcode]), hcode, if_pos hrotates]

theorem heartbeat_answers {o : Orders} {s : ClusterState} {raft : RaftOutcome} {now : Int64}
    (h : (Metadata.heartbeat J o s raft nodeID now).2 = .ok ()) :
    nodeID ≠ "" ∧ raft = .committed := by
  unfold Metadata.heartbeat at h
  split at h
  · cases h
  · rename_i hid
    refine ⟨hid, ?_⟩
    cases raft with
    | committed => rfl
    | notLeader | lostLeadership | failed => cases h

theorem heartbeat_known (hJ : J.RoundTrips) {s : ClusterState} {r : Registry}
    (hs : Represents T s r) (hid : nodeID ≠ "") (hknown : (r nodeID).isSome = true) (o : Orders)
    (now : Int64) : (Metadata.heartbeat J o s .committed nodeID now).2 = .ok () := by
  obtain ⟨n, hn⟩ : ∃ n, s.nodes.get nodeID = some n := by
    rw [← hs.registry, members, Option.isSome_map] at hknown
    exact Option.isSome_iff_exists.mp hknown
  simp only [Metadata.heartbeat, if_neg hid, applyCommand, apply_encodeOp hJ, applyOp,
    applyUpdateHeartbeat, hn, Option.map_none]

/-- The coordinator that leads commits the heartbeat of a registered node. -/
theorem Consistent.heartbeat_leads (hJ : J.RoundTrips) (h : Consistent J T w) (hid : nodeID ≠ "")
    (hknown : (registryAt J w.log w.log.length nodeID).isSome = true) {addr : String}
    (hup : (w.coordinators addr).up = true) (hcommits : w.raft addr = .committed) :
    ∃ v, w.heartbeat J ch nodeID addr = (v, .ok ()) ∧
      Led J (.updateHeartbeat ⟨nodeID, ch.now addr⟩) w v addr := by
  have hanswer : (w.heartbeat J ch nodeID addr).2 = .ok () := by
    have hok := heartbeat_known hJ (h.caughtUp (ch.orders addr) addr) hid hknown
      (ch.orders addr w.log.length) (ch.now addr)
    simp only [Deployment.heartbeat, Deployment.submit, hup, hcommits, if_true, hok]
    rfl
  obtain ⟨-, hled, -⟩ := submit_led (fun s raft r hr => by
    simpa using heartbeat_answers hr) (Prod.ext rfl hanswer)
  exact ⟨_, Prod.ext rfl hanswer, hled⟩

/-- Where a heartbeat ends when one coordinator of the list leads. -/
theorem Consistent.beat_led (hJ : J.RoundTrips) (h : Consistent J T w) (hlinked : w.Linked)
    (hdials : ∀ a, dials a = true) {p : Participant} (hp : w.nodes nodeID = some p) {l : String}
    (hl : w.Leads p.client.addrs l) :
    ∃ v, Led J (.updateHeartbeat ⟨nodeID, ch.now l⟩) w v l ∧ v.nodes = w.nodes ∧
      ∃ k < p.client.addrs.length, (p.client.moved k).conn = some l ∧
        w.beat J dials ch nodeID p =
          (v.setNode nodeID { p with client := p.client.moved k }, .ok ()) := by
  obtain ⟨hid, hknown⟩ := h.registered nodeID p hp
  obtain ⟨v, hv, hled⟩ := h.heartbeat_leads ch hJ hid hknown hl.up hl.commits
  have hnodes : v.nodes = w.nodes := by
    have hkept := (heartbeat_nodes (J := J) w ch nodeID l).2
    rwa [hv] at hkept
  have hverdict : ClusterClient.verdict (Deployment.heartbeat J ch nodeID) w l =
      (v, some (.ok ())) := by
    rw [ClusterClient.verdict_ok (by rw [hv]), hv]
  obtain ⟨more, hmore⟩ := p.client.turns_add p.client.addrs.length p.client.addrs.length
  have hfirst := ClusterClient.mem_turns hl.listed
  have hturn : l ∈ p.client.turns (p.client.addrs.length * 2) := by
    rw [Nat.mul_two, hmore]
    exact List.mem_append_left _ hfirst
  -- Nobody who is asked before the leader changes the deployment.
  obtain ⟨w', rfl, hturns⟩ := inTurn_found
    (ClusterClient.verdict (Deployment.heartbeat J ch nodeID)) (I := fun v => v = w) rfl hturn
    (fun u a hu ha hne => by
      subst hu
      rw [heartbeat_passes ch hid (hl.others a (ClusterClient.turns_subset a ha) hne)]
      exact ⟨rfl, rfl⟩)
    (fun u hu => by
      subst hu
      rw [hverdict]
      exact Option.some_ne_none _)
  refine ⟨v, hled, hnodes, _, ?_, ClusterClient.moved_idxOf hturn, ?_⟩
  · rw [Nat.mul_two, hmore, List.idxOf_append_of_mem hfirst]
    exact (List.idxOf_lt_length_of_mem hfirst).trans_eq (p.client.length_turns _)
  · rw [Deployment.beat, ClusterClient.sendHeartbeat, ClusterClient.attempts_eq _ _ _
      (fun a _ => hdials a) (hlinked.nodes nodeID p hp), hturns, hverdict]
    rfl

/-- Without a leader a heartbeat ends where it began. -/
theorem Consistent.beat_leaderless (h : Consistent J T w) (hlinked : w.Linked)
    (hdials : ∀ a, dials a = true) {p : Participant} (hp : w.nodes nodeID = some p)
    (hnone : ∀ a ∈ p.client.addrs, w.Passes a) :
    w.beat J dials ch nodeID p = (w, .error .noReachableLeader) := by
  obtain ⟨hid, -⟩ := h.registered nodeID p hp
  have hconn := hlinked.nodes nodeID p hp
  have hturns := inTurn_nobody (fun a (ha : a ∈ p.client.turns (p.client.addrs.length * 2)) =>
    heartbeat_passes (J := J) ch hid (hnone a (ClusterClient.turns_subset a ha)))
  rw [Deployment.beat, ClusterClient.sendHeartbeat, ClusterClient.attempts_eq _ _ _
    (fun a _ => hdials a) hconn, hturns]
  simp only [ClusterClient.length_turns, ClusterClient.moved_rounds hconn, Option.map_none,
    Option.getD_none]
  rw [Deployment.setNode, ← hp, Function.update_eq_self]

end Beat

/-- Heartbeats find the leader. If one coordinator on the list of a node leads, and the others are
down or know that they do not lead, then the node's next heartbeat is committed by the leader
within one round of the list: it is the one entry that the log gains, it is the time at which the
node was last seen, and the client stays with the leader. If nobody leads, the heartbeat fails and
changes nothing. -/
theorem heartbeat_failover (hJ : J.RoundTrips) (hT : T < 2 ^ 31) (hdials : ∀ a, dials a = true)
    (events : List Event) (ch : Chance) {nodeID : String} {p : Participant}
    (hp : ((Deployment.initial T).run J T dials events).nodes nodeID = some p) :
    let w := (Deployment.initial T).run J T dials events
    let after := w.beat J dials ch nodeID p
    (∀ l, w.Leads p.client.addrs l →
      after.2 = .ok () ∧
      after.1.log = w.log ++ [encodeOp J (.updateHeartbeat ⟨nodeID, ch.now l⟩)] ∧
      (∃ m, registryAt J w.log w.log.length nodeID = some m ∧
        registryAt J after.1.log after.1.log.length nodeID =
          some { m with lastSeen := ch.now l }) ∧
      ∃ k < p.client.addrs.length, (p.client.moved k).conn = some l ∧
        after.1.nodes nodeID = some { p with client := p.client.moved k }) ∧
    ((∀ a ∈ p.client.addrs, w.Passes a) → after = (w, .error .noReachableLeader)) := by
  intro w after
  have h : Consistent J T w := (initial_consistent J T).run hJ hT events
  have hlinked : w.Linked := (initial_linked T).run hdials events
  refine ⟨fun l hl => ?_, h.beat_leaderless ch hlinked hdials hp⟩
  obtain ⟨v, hled, hnodes, k, hk, hconn, hafter⟩ :=
    h.beat_led ch hJ hlinked hdials hp hl
  obtain ⟨m, hm⟩ := Option.isSome_iff_exists.mp (h.registered nodeID p hp).2
  have hlog : after.1.log = v.log := by rw [show after = _ from hafter]; rfl
  refine ⟨by rw [show after = _ from hafter], hlog.trans hled.log, ⟨m, hm, ?_⟩, k, hk, hconn, ?_⟩
  · rw [hlog, registry_of_led hJ hled]
    simp [Registry.step, Registry.put, hm]
  · rw [show after = _ from hafter]
    exact Function.update_self _ _ _

/-- The first coordinator returns and leads again. -/
def handBack : List Event := takeover ++ [.start "c1", .elect (ledBy "c1")]

theorem heartbeat_after_handBack :
    let w := (Deployment.initial 4).run wireCodec 4 (fun _ => true) handBack
    ∃ p, w.nodes "n2" = some p ∧ p.client.conn = some "c2" ∧
      let after := w.beat wireCodec (fun _ => true) steadyChance "n2" p
      after.2 = .ok () ∧ ∃ k < p.client.addrs.length, (p.client.moved k).conn = some "c1" ∧
        after.1.nodes "n2" = some { p with client := p.client.moved k } := by
  intro w
  have hnode : (w.nodes "n2").map (fun p => (p.client.addrs, p.client.conn)) =
      some (["c1", "c2"], some "c2") := by decide +kernel
  obtain ⟨p, hp, haddrs⟩ := Option.map_eq_some_iff.mp hnode
  rw [Prod.mk.injEq] at haddrs
  have hleads : w.Leads p.client.addrs "c1" := by
    refine ⟨by simp [haddrs.1], by decide +kernel, rfl, fun a ha hne => ?_⟩
    rw [haddrs.1] at ha
    exact .inr (.inl (if_neg hne))
  have hfound := (heartbeat_failover wireCodec_roundTrips (by decide) (fun _ => rfl) handBack
    steadyChance hp).1 "c1" hleads
  exact ⟨p, hp, haddrs.2, hfound.1, hfound.2.2.2⟩

end LogEngine.Cluster
