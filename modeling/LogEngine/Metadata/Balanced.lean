import LogEngine.Metadata.Registry

namespace LogEngine.Metadata
open Lib

/-- The shard map of `T` shards over the healthy nodes `h`, and the lists of the nodes that go
with it. -/
structure Balanced (T : Int) (s : ClusterState) (h : List String) : Prop where
  present : ∀ i, (s.shards.get i).isSome = true ↔ 0 ≤ i ∧ i < T
  primary : ∀ i sr, s.shards.get i = some sr → sr.shardID = i ∧
    (h = [] → sr.primaryNode = "") ∧ (h ≠ [] → h[i.toNat % h.length]? = some sr.primaryNode)
  replica : ∀ i sr, s.shards.get i = some sr → (h.length ≤ 1 → sr.replicaNode = "") ∧
    (1 < h.length → sr.replicaNode ∈ h ∧ sr.replicaNode ≠ sr.primaryNode ∧
      ∀ id ∈ h, id ≠ sr.primaryNode → sr.replicaNode ≤ id)
  owned : ∀ id n, s.nodes.get id = some n → n.shards.Pairwise (· < ·) ∧
    ∀ i, i ∈ n.shards ↔ ∃ sr, s.shards.get i = some sr ∧ sr.primaryNode = id
  idle : ∀ id n, s.nodes.get id = some n → n.status ≠ .healthy → n.shards = []

/-- The replica is the least of the healthy nodes without the primary. -/
theorem replicaOf_least {h : List String} (hsorted : h.Pairwise (· < ·)) {p : String}
    (hex : ∃ id ∈ h, id ≠ p) :
    replicaOf h p ∈ h ∧ replicaOf h p ≠ p ∧ ∀ id ∈ h, id ≠ p → replicaOf h p ≤ id := by
  obtain ⟨id, hid, hne⟩ := hex
  cases hfind : h.find? (· ≠ p) with
  | none =>
    have hall := List.find?_eq_none.mp hfind id hid
    exact absurd (by simpa using hall) hne
  | some q =>
    obtain ⟨hq, as, bs, hsplit, has⟩ := List.find?_eq_some_iff_append.mp hfind
    have hrep : replicaOf h p = q := by rw [replicaOf, hfind]; rfl
    rw [hrep]
    refine ⟨by simp [hsplit], by simpa using hq, ?_⟩
    intro x hx hxp
    rw [hsplit] at hx hsorted
    rcases List.mem_append.mp hx with hx | hx
    · exact absurd (by simpa using has x hx) hxp
    · rcases List.mem_cons.mp hx with hx | hx
      · rw [hx]
      · have hlt := (List.pairwise_cons.mp (List.pairwise_append.mp hsorted).2.1).1 x hx
        exact le_of_lt hlt

/-- With at most one healthy node there is no replica: that node is the primary. -/
theorem replicaOf_alone {h : List String} (hlen : h.length ≤ 1) (k : Nat) :
    replicaOf h (primaryOf h k) = "" := by
  match h, hlen with
  | [], _ => rfl
  | [a], _ => simp [replicaOf, primaryOf, Nat.mod_one]

/-- Of two healthy nodes one is not the primary. -/
theorem exists_other {h : List String} (hsorted : h.Pairwise (· < ·)) (hlen : 1 < h.length)
    (p : String) : ∃ id ∈ h, id ≠ p := by
  match h, hlen with
  | a :: b :: h, _ =>
    have hab : a < b := (List.pairwise_cons.mp hsorted).1 b List.mem_cons_self
    by_cases ha : a = p
    · exact ⟨b, by simp, fun hb => (ne_of_lt hab) (ha.trans hb.symm)⟩
    · exact ⟨a, by simp, ha⟩

theorem primaryOf_nonempty {h : List String} {k : Nat} (hne : primaryOf h k ≠ "") : h ≠ [] := by
  intro hnil
  subst hnil
  exact hne rfl

theorem Canonical.balanced {T : Int} {s : ClusterState} (hs : Canonical T s)
    (hnamed : s.nodes.get "" = none) : Balanced T s (healthyIDs s) := by
  have hsorted := healthyIDs_pairwise s
  have hshard : ∀ i sr, s.shards.get i = some sr → (0 ≤ i ∧ i < T) ∧
      sr = ⟨i, primaryOf (healthyIDs s) i.toNat,
        replicaOf (healthyIDs s) (primaryOf (healthyIDs s) i.toNat)⟩ := by
    intro i sr hi
    rw [hs.shards] at hi
    split at hi
    · rename_i hrange
      exact ⟨hrange, (Option.some.inj hi).symm⟩
    · cases hi
  refine ⟨hs.framed.numbered, ?_, ?_, ?_, ?_⟩
  · intro i sr hi
    obtain ⟨-, rfl⟩ := hshard i sr hi
    refine ⟨rfl, ?_, ?_⟩
    · intro hnil
      simp [primaryOf, hnil]
    · intro hne
      exact (primaryOf_eq_iff hne i.toNat _).mp rfl
  · intro i sr hi
    obtain ⟨-, rfl⟩ := hshard i sr hi
    exact ⟨fun hlen => replicaOf_alone hlen _,
      fun hlen => replicaOf_least hsorted (exists_other hsorted hlen _)⟩
  · intro id n hn
    have hid : id ≠ "" := by
      intro h
      rw [h, hnamed] at hn
      cases hn
    obtain ⟨-, hlist⟩ := hs.nodes id n hn
    rw [hlist]
    refine ⟨shardsOf_pairwise T _ id, ?_⟩
    intro i
    rw [mem_shardsOf]
    constructor
    · intro hgiven
      obtain ⟨hrange, hturn⟩ := hgiven
      exact ⟨_, by rw [hs.shards, if_pos hrange], by simp [primaryOf, hturn]⟩
    · intro hgiven
      obtain ⟨sr, hi, hprimary⟩ := hgiven
      obtain ⟨hrange, rfl⟩ := hshard i sr hi
      have hne := primaryOf_nonempty (fun h => hid (hprimary.symm.trans h))
      exact ⟨hrange, (primaryOf_eq_iff hne i.toNat id).mp hprimary⟩
  · intro id n hn hstatus
    rw [(hs.nodes id n hn).2, List.eq_nil_iff_forall_not_mem]
    intro i hi
    have hmem : id ∈ healthyIDs s := List.mem_of_getElem? (mem_shardsOf.mp hi).2
    rw [mem_healthyIDs, isHealthy, hn] at hmem
    exact hstatus (by simpa using hmem)

/-- A registration carries an ID, as `RegisterNode` requires. -/
def Op.Named : Op → Prop
  | .registerNode p => p.nodeID ≠ ""
  | .updateHeartbeat _ => True
  | .markUnhealthy _ => True

instance : (op : Op) → Decidable op.Named
  | .registerNode p => inferInstanceAs (Decidable (p.nodeID ≠ ""))
  | .updateHeartbeat _ => .isTrue trivial
  | .markUnhealthy _ => .isTrue trivial

theorem Registry.put_unnamed {r : Registry} (hr : r "" = .none) {id : String} (hid : id ≠ "")
    (m : Member) : r.put id m "" = .none := by
  rw [Registry.put, if_neg (Ne.symm hid), hr]

theorem Registry.step_unnamed {r : Registry} (hr : r "" = .none) {op : Op} (hop : op.Named) :
    (r.step op).1 "" = .none := by
  have hmember : ∀ {id m}, r id = some m → id ≠ "" := by
    intro id m hm hid
    rw [hid, hr] at hm
    cases hm
  cases op with
  | registerNode p => exact put_unnamed hr hop _
  | updateHeartbeat p =>
    simp only [Registry.step]
    split
    · exact hr
    · rename_i m hm
      exact put_unnamed hr (hmember hm) _
  | markUnhealthy p =>
    simp only [Registry.step]
    split
    · exact hr
    · rename_i m hm
      exact put_unnamed hr (hmember hm) _

theorem Registry.after_unnamed {r : Registry} (hr : r "" = .none) {ops : List Op}
    (hops : ∀ op ∈ ops, op.Named) : r.after ops "" = .none := by
  induction ops generalizing r with
  | nil => exact hr
  | cons op ops ih =>
    obtain ⟨hop, hops⟩ := List.forall_mem_cons.mp hops
    exact ih (step_unnamed hr hop) hops

/-- After any commands the shard map is that of the healthy nodes, so histories that leave the same
nodes healthy leave the same map. -/
theorem shard_map_canonical (T : Int) (ops : List (Orders × Op))
    (hnamed : ∀ x ∈ ops, x.2.Named) :
    (healthyIDs (applyOps (newFSM T) ops)).Pairwise (· < ·) ∧
    (∀ id, id ∈ healthyIDs (applyOps (newFSM T) ops) ↔
      ∃ n, (applyOps (newFSM T) ops).nodes.get id = some n ∧ n.status = .healthy) ∧
    Balanced T (applyOps (newFSM T) ops) (healthyIDs (applyOps (newFSM T) ops)) ∧
    ∀ ops', (∀ id, id ∈ healthyIDs (applyOps (newFSM T) ops') ↔
        id ∈ healthyIDs (applyOps (newFSM T) ops)) →
      ∀ i, (applyOps (newFSM T) ops').shards.get i = (applyOps (newFSM T) ops).shards.get i := by
  have hrep := (newFSM_represents T).applyOps ops
  refine ⟨healthyIDs_pairwise _, ?_, ?_, ?_⟩
  · intro id
    rw [mem_healthyIDs, isHealthy]
    cases (applyOps (newFSM T) ops).nodes.get id <;> simp
  · refine hrep.canonical.balanced ?_
    have hunnamed : members (applyOps (newFSM T) ops) "" = none := by
      rw [hrep.registry]
      refine Registry.after_unnamed rfl ?_
      intro op hop
      obtain ⟨x, hx, heq⟩ := List.mem_map.mp hop
      exact heq ▸ hnamed x hx
    exact Option.map_eq_none_iff.mp hunnamed
  · intro ops' hsame i
    have hrep' := (newFSM_represents T).applyOps ops'
    have hhealthy : healthyIDs (applyOps (newFSM T) ops') =
        healthyIDs (applyOps (newFSM T) ops) := by
      refine healthyIDs_congr (fun id => ?_)
      have hid := hsame id
      rw [mem_healthyIDs, mem_healthyIDs] at hid
      exact Bool.eq_iff_iff.mpr hid
    rw [hrep'.canonical.shards, hrep.canonical.shards, hhealthy]

/-- Two nodes join, the first fails and comes back. -/
def rejoin : List (Orders × Op) :=
  [(.listed, .registerNode ⟨"b", "host-b", 1⟩), (.reversed, .registerNode ⟨"a", "host-a", 2⟩),
    (.listed, .markUnhealthy ⟨"b"⟩), (.listed, .updateHeartbeat ⟨"a", 3⟩),
    (.reversed, .registerNode ⟨"b", "host-b", 4⟩)]

theorem shard_map_canonical_rejoin : Balanced 3 (applyOps (newFSM 3) rejoin) ["a", "b"] := by
  have hbalanced := (shard_map_canonical 3 rejoin (by decide)).2.2.1
  have hhealthy : healthyIDs (applyOps (newFSM 3) rejoin) = ["a", "b"] := by decide +kernel
  rwa [hhealthy] at hbalanced

end LogEngine.Metadata
