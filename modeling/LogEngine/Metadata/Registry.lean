import LogEngine.Metadata.ShardMap

namespace LogEngine.Metadata
open Lib

/-- What the coordinator is told about a node. -/
structure Member where
  address : String
  status : NodeStatus
  lastSeen : Int64
  deriving DecidableEq

/-- The membership that the commands speak about. The shard map is no part of it. -/
def Registry := String → Option Member

namespace Registry

def none : Registry := fun _ => .none

def put (r : Registry) (id : String) (m : Member) : Registry :=
  fun j => if j = id then some m else r j

/-- The effect of a command on the membership and the error it answers with. -/
def step (r : Registry) : Op → Registry × Option ApplyError
  | .registerNode p => (r.put p.nodeID ⟨p.address, .healthy, p.nowUnixNs⟩, .none)
  | .updateHeartbeat p =>
    match r p.nodeID with
    | .none => (r, some (.nodeNotFound p.nodeID))
    | some m => (r.put p.nodeID { m with lastSeen := p.nowUnixNs }, .none)
  | .markUnhealthy p =>
    match r p.nodeID with
    | .none => (r, some (.nodeNotFound p.nodeID))
    | some m => (r.put p.nodeID { m with status := .unhealthy }, .none)

end Registry

def NodeRecord.member (n : NodeRecord) : Member := ⟨n.address, n.status, n.lastSeen⟩

def members (s : ClusterState) : Registry := fun id => (s.nodes.get id).map NodeRecord.member

/-- A state of the FSM with the membership it stands for: the rest of it is a function of the
healthy set. -/
structure Represents (T : Int) (s : ClusterState) (r : Registry) : Prop where
  canonical : Canonical T s
  registry : members s = r

theorem isHealthy_eq (s : ClusterState) (id : String) :
    isHealthy s.nodes id = decide ((members s id).map Member.status = some .healthy) := by
  cases hn : s.nodes.get id <;> simp [isHealthy, members, NodeRecord.member, hn]

/-- Canonical states with one membership have the same contents. -/
theorem Represents.same {T : Int} {s t : ClusterState} {r : Registry} (hs : Represents T s r)
    (ht : Represents T t r) : s.Same t := by
  have hhealthy : healthyIDs s = healthyIDs t :=
    healthyIDs_congr (fun id => by rw [isHealthy_eq, isHealthy_eq, hs.registry, ht.registry])
  constructor
  · intro id
    have hmembers : (s.nodes.get id).map NodeRecord.member = (t.nodes.get id).map _ :=
      congrFun (hs.registry.trans ht.registry.symm) id
    cases hn : s.nodes.get id with
    | none =>
      rw [hn] at hmembers
      exact (Option.map_eq_none_iff.mp hmembers.symm).symm
    | some n =>
      cases hm : t.nodes.get id with
      | none => simp [hn, hm] at hmembers
      | some m =>
        obtain ⟨hnid, hnshards⟩ := hs.canonical.nodes id n hn
        obtain ⟨hmid, hmshards⟩ := ht.canonical.nodes id m hm
        have hmember : n.member = m.member := by simpa [hn, hm] using hmembers
        obtain ⟨id₁, address₁, shards₁, status₁, seen₁⟩ := n
        obtain ⟨id₂, address₂, shards₂, status₂, seen₂⟩ := m
        simp_all [NodeRecord.member]
  · intro i
    rw [hs.canonical.shards, ht.canonical.shards, hhealthy]

theorem Represents.congr {T : Int} {s t : ClusterState} {r : Registry} (hs : Represents T s r)
    (h : t.Same s) : Represents T t r := by
  have hmembers : members t = members s := funext (fun id => by rw [members, members, h.nodes])
  have hhealthy : healthyIDs t = healthyIDs s :=
    healthyIDs_congr (fun id => by rw [isHealthy_eq, isHealthy_eq, hmembers])
  refine ⟨⟨?_, ?_⟩, hmembers.trans hs.registry⟩
  · intro i
    rw [h.shards, hhealthy, hs.canonical.shards]
  · intro id n hn
    rw [h.nodes] at hn
    rw [hhealthy]
    exact hs.canonical.nodes id n hn

theorem newFSM_shards (T i : Int) : (newFSM T).shards.get i =
    if 0 ≤ i ∧ i < T then some ⟨i, "", ""⟩ else none := by
  have hmem : i ∈ (List.range T.toNat).map Int.ofNat ↔ 0 ≤ i ∧ i < T := by
    rw [List.mem_map]
    constructor
    · intro h
      obtain ⟨k, hk, hi⟩ := h
      have hk := List.mem_range.mp hk
      simp only [Int.ofNat_eq_natCast] at hi
      omega
    · intro h
      obtain ⟨hpos, hlt⟩ := h
      exact ⟨i.toNat, List.mem_range.mpr (by omega), by simp [hpos]⟩
  rw [newFSM, GoMap.foldl_set_get (fun i => (⟨i, "", ""⟩ : ShardRecord))]
  simp only [hmem, GoMap.get_empty]

theorem newFSM_represents (T : Int) : Represents T (newFSM T) .none := by
  have hnone : healthyIDs (newFSM T) = [] := rfl
  refine ⟨⟨?_, ?_⟩, rfl⟩
  · intro i
    rw [newFSM_shards, hnone]
    simp [primaryOf, replicaOf]
  · intro id n hn
    cases hn

section Step

variable {T : Int} {s : ClusterState} {r : Registry}

/-- A record replaced by one with the same ID, status and shards. -/
theorem Canonical.touch (h : Canonical T s) {id : String} {n n' : NodeRecord}
    (hn : s.nodes.get id = some n) (hid : n'.id = n.id) (hstatus : n'.status = n.status)
    (hshards : n'.shards = n.shards) :
    Canonical T { s with nodes := s.nodes.set id n' } := by
  have hhealthy : healthyIDs { s with nodes := s.nodes.set id n' } = healthyIDs s := by
    refine healthyIDs_congr (fun j => ?_)
    simp only [isHealthy, GoMap.get_set]
    by_cases hj : j = id
    · subst hj
      simp [hn, hstatus]
    · simp [hj]
  refine ⟨fun i => by rw [hhealthy]; exact h.shards i, ?_⟩
  intro j m hm
  rw [hhealthy]
  simp only [GoMap.get_set] at hm
  split at hm
  · rename_i hj
    subst hj
    rw [← Option.some.inj hm, hid, hshards]
    exact h.nodes j n hn
  · exact h.nodes j m hm

theorem members_set (s : ClusterState) (m : GoMap Int ShardRecord) (id : String) (n : NodeRecord) :
    members ⟨s.nodes.set id n, m⟩ = (members s).put id n.member := by
  funext j
  simp only [members, Registry.put, GoMap.get_set]
  split <;> rfl

theorem members_shards {s t : ClusterState} {f : String → NodeRecord → List Int}
    (h : ∀ id, t.nodes.get id = (s.nodes.get id).map (fun n => { n with shards := f id n })) :
    members t = members s := by
  funext id
  simp only [members, h, Option.map_map]
  rfl

theorem heartbeat_represents (h : Represents T s r) (p : UpdateHeartbeatPayload) :
    Represents T (applyUpdateHeartbeat s p).1 (r.step (.updateHeartbeat p)).1 ∧
      (applyUpdateHeartbeat s p).2 = (r.step (.updateHeartbeat p)).2 := by
  obtain ⟨hcan, rfl⟩ := h
  cases hn : s.nodes.get p.nodeID with
  | none =>
    simp only [applyUpdateHeartbeat, Registry.step, members, hn, Option.map_none]
    exact ⟨⟨hcan, rfl⟩, trivial⟩
  | some n =>
    simp only [applyUpdateHeartbeat, Registry.step, members, hn, Option.map_some]
    exact ⟨⟨hcan.touch hn rfl rfl rfl, members_set s s.shards p.nodeID _⟩, trivial⟩

/-- A node that joins, new or back from being unhealthy. -/
theorem join_represents (h : Represents T s r) (p : RegisterNodePayload) (o : Orders)
    {join : ClusterState}
    (hjoin : join =
      ⟨s.nodes.set p.nodeID ⟨p.nodeID, p.address, [], .healthy, p.nowUnixNs⟩, s.shards⟩) :
    Represents T (assignReplicas o (rebalancePrimary o join)) (r.step (.registerNode p)).1 := by
  have hframed : Framed T join.shards := by
    rw [hjoin]
    exact h.canonical.framed
  have hids : ∀ id n, join.nodes.get id = some n → n.id = id := by
    intro id n hn
    rw [hjoin] at hn
    simp only [GoMap.get_set] at hn
    split at hn
    · rename_i hid
      rw [← Option.some.inj hn, hid]
    · exact (h.canonical.nodes id n hn).1
  have hne : healthyIDs join ≠ [] := by
    refine List.ne_nil_of_mem (a := p.nodeID) (mem_healthyIDs.mpr ?_)
    simp [hjoin, isHealthy]
  obtain ⟨hcan, hnodes⟩ := rebuild_canonical hframed hids hne o
  refine ⟨hcan, ?_⟩
  rw [members_shards hnodes, hjoin, members_set, h.registry]
  rfl

theorem register_represents (h : Represents T s r) (p : RegisterNodePayload) (o : Orders) :
    Represents T (applyRegisterNode o s p) (r.step (.registerNode p)).1 := by
  unfold applyRegisterNode
  split
  · rename_i existing hn
    split
    · rename_i hstatus
      refine ⟨h.canonical.touch hn rfl rfl rfl, ?_⟩
      rw [members_set, h.registry]
      simp [Registry.step, NodeRecord.member, hstatus]
    · exact join_represents h p o rfl
  · exact join_represents h p o rfl

/-- The shards that a leaving node held lose their primary; nothing else about them changes but
their replica. -/
theorem release_spec (h : Canonical T s) {id : String} {n : NodeRecord}
    (hn : s.nodes.get id = some n) (o : Orders) (i : Int) :
    ∃ g : ShardRecord → ShardRecord, (releaseShards o s n id).get i = (s.shards.get i).map g ∧
      ∀ sr, (g sr).shardID = sr.shardID ∧
        (g sr).primaryNode = if i ∈ n.shards then "" else sr.primaryNode := by
  have howned := (h.nodes id n hn).2
  have hnodup : n.shards.Nodup := by
    rw [howned]
    exact (shardsOf_pairwise T _ id).imp ne_of_lt
  have hreleased := GoMap.foldl_modify_get
    (fun _ (sr : ShardRecord) => { sr with primaryNode := "" }) hnodup s.shards i
  have hpresent : i ∈ n.shards → (s.shards.get i).isSome = true := by
    intro hi
    rw [howned, mem_shardsOf] at hi
    exact (h.framed.numbered i).mpr hi.1
  simp only [releaseShards, GoMap.get_rewrite, hreleased]
  by_cases hi : i ∈ n.shards
  · obtain ⟨sr, hsr⟩ := Option.isSome_iff_exists.mp (hpresent hi)
    refine ⟨fun sr => if sr.replicaNode = id then ⟨sr.shardID, "", ""⟩ else
      { sr with primaryNode := "" }, ?_, ?_⟩
    · simp only [if_pos hi, hsr, Option.getD_some, Option.map_some]
    · intro sr
      by_cases hr : sr.replicaNode = id <;> simp [hi, hr]
  · refine ⟨fun sr => if sr.replicaNode = id then { sr with replicaNode := "" } else sr, ?_, ?_⟩
    · simp only [if_neg hi]
    · intro sr
      by_cases hr : sr.replicaNode = id <;> simp [hi, hr]

/-- The state in which `applyMarkUnhealthy` calls the two passes. -/
def leaving (o : Orders) (s : ClusterState) (id : String) (n : NodeRecord) : ClusterState :=
  ⟨s.nodes.set id { n with status := .unhealthy, shards := [] }, releaseShards o s n id⟩

theorem mem_leaving {id : String} {n : NodeRecord} {o : Orders} {j : String} :
    j ∈ healthyIDs (leaving o s id n) ↔ j ≠ id ∧ j ∈ healthyIDs s := by
  rw [mem_healthyIDs, mem_healthyIDs]
  simp only [isHealthy, leaving, GoMap.get_set]
  by_cases hj : j = id <;> simp [hj]

theorem leaving_framed (h : Canonical T s) {id : String} {n : NodeRecord}
    (hn : s.nodes.get id = some n) (o : Orders) : Framed T (leaving o s id n).shards := by
  constructor
  · intro i
    obtain ⟨g, hg, -⟩ := release_spec h hn o i
    rw [leaving, hg, Option.isSome_map]
    exact h.framed.numbered i
  · intro i sr hi
    obtain ⟨g, hg, hkeep⟩ := release_spec h hn o i
    rw [leaving, hg] at hi
    obtain ⟨old, hold, hsr⟩ := Option.map_eq_some_iff.mp hi
    rw [← hsr, (hkeep old).1]
    exact h.framed.named i old hold

theorem leaving_ids (h : Canonical T s) {id : String} {n : NodeRecord}
    (hn : s.nodes.get id = some n) (o : Orders) :
    ∀ j m, (leaving o s id n).nodes.get j = some m → m.id = j := by
  intro j m hm
  simp only [leaving, GoMap.get_set] at hm
  split at hm
  · rename_i hj
    rw [← Option.some.inj hm, hj]
    exact (h.nodes id n hn).1
  · exact (h.nodes j m hm).1

/-- When the last healthy node leaves, no pass runs: its shards have been released one by one, and
no other node held any. -/
theorem last_leaves (h : Canonical T s) {id : String} {n : NodeRecord}
    (hn : s.nodes.get id = some n) (o : Orders) (hnone : healthyIDs (leaving o s id n) = []) :
    Canonical T (assignReplicas o (leaving o s id n)) := by
  have honly : ∀ j ∈ healthyIDs s, j = id := by
    intro j hj
    by_contra hne
    have hmem := mem_leaving (o := o) (n := n).mpr ⟨hne, hj⟩
    simp [hnone] at hmem
  have hturns : ∀ k j, (healthyIDs s)[k % (healthyIDs s).length]? = some j → j = id :=
    fun k j hj => honly j (List.mem_of_getElem? hj)
  obtain ⟨hreplicas, hkeep⟩ := replicas_spec (leaving o s id n) o
  have hstill : healthyIDs (assignReplicas o (leaving o s id n)) = [] := by
    rw [← hnone]
    exact healthyIDs_congr (fun j => by rw [hkeep])
  refine ⟨?_, ?_⟩
  · intro i
    obtain ⟨g, hg, hspec⟩ := release_spec h hn o i
    rw [hreplicas, hnone, hstill, leaving, hg, h.shards]
    split
    · rename_i hi
      simp only [Option.map_some, Option.some.injEq, ShardRecord.mk.injEq, hspec, replicaOf,
        primaryOf, List.find?_nil, List.getElem?_nil, Option.getD_none, and_true, true_and]
      split
      · rfl
      · rename_i hout
        cases hturn : (healthyIDs s)[i.toNat % (healthyIDs s).length]? with
        | none => rfl
        | some j =>
          rw [hturns _ _ hturn] at hturn
          rw [(h.nodes id n hn).2, mem_shardsOf] at hout
          exact absurd ⟨hi, hturn⟩ hout
    · rfl
  · intro j m hm
    rw [hkeep] at hm
    have hidle : shardsOf T [] j = [] := by simp [shardsOf]
    rw [hstill, hidle]
    refine ⟨leaving_ids h hn o j m hm, ?_⟩
    simp only [leaving, GoMap.get_set] at hm
    split at hm
    · rw [← Option.some.inj hm]
    · rename_i hj
      rw [(h.nodes j m hm).2, List.eq_nil_iff_forall_not_mem]
      intro i hi
      exact hj (hturns _ _ (mem_shardsOf.mp hi).2)

theorem mark_represents (h : Represents T s r) (p : MarkUnhealthyPayload) (o : Orders) :
    Represents T (applyMarkUnhealthy o s p).1 (r.step (.markUnhealthy p)).1 ∧
      (applyMarkUnhealthy o s p).2 = (r.step (.markUnhealthy p)).2 := by
  obtain ⟨hcan, rfl⟩ := h
  cases hn : s.nodes.get p.nodeID with
  | none =>
    simp only [applyMarkUnhealthy, Registry.step, members, hn, Option.map_none]
    exact ⟨⟨hcan, rfl⟩, trivial⟩
  | some n =>
    have hmember : members s p.nodeID = some n.member := by simp [members, hn]
    simp only [applyMarkUnhealthy, Registry.step, hn, hmember]
    rw [← leaving]
    refine ⟨?_, trivial⟩
    have hset : members (leaving o s p.nodeID n) =
        (members s).put p.nodeID { n.member with status := .unhealthy } := members_set s _ _ _
    by_cases hne : healthyIDs (leaving o s p.nodeID n) = []
    · have hskip : rebalancePrimary o (leaving o s p.nodeID n) = leaving o s p.nodeID n := by
        simp only [rebalancePrimary, collectHealthy_eq, if_pos hne]
      rw [hskip]
      refine ⟨last_leaves hcan hn o hne, ?_⟩
      rw [← hset]
      rfl
    · obtain ⟨hcan', hnodes⟩ :=
        rebuild_canonical (leaving_framed hcan hn o) (leaving_ids hcan hn o) hne o
      exact ⟨hcan', (members_shards hnodes).trans hset⟩

/-- One command: the state follows the membership, whatever the orders of the loops. -/
theorem Represents.applyOp (h : Represents T s r) (o : Orders) (op : Op) :
    Represents T (applyOp o s op).1 (r.step op).1 ∧ (applyOp o s op).2 = (r.step op).2 := by
  cases op with
  | registerNode p => exact ⟨register_represents h p o, rfl⟩
  | updateHeartbeat p => exact heartbeat_represents h p
  | markUnhealthy p => exact mark_represents h p o

end Step

def Registry.after (r : Registry) (ops : List Op) : Registry :=
  ops.foldl (fun r op => (r.step op).1) r

theorem Represents.applyOps {T : Int} {s : ClusterState} {r : Registry} (h : Represents T s r)
    (ops : List (Orders × Op)) :
    Represents T (applyOps s ops) (r.after (ops.map Prod.snd)) := by
  induction ops generalizing s r with
  | nil => exact h
  | cons x ops ih =>
    obtain ⟨o, op⟩ := x
    exact ih (h.applyOp o op).1

end LogEngine.Metadata
