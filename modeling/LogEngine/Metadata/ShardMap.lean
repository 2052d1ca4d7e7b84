import LogEngine.Metadata.FSM

namespace LogEngine.Metadata
open Lib

def healthyIDs (s : ClusterState) : List String := sorted (s.nodes.keys.filter (isHealthy s.nodes))

/-- The node that has shard `i` when `h` are the healthy ones: they take turns. -/
def primaryOf (h : List String) (i : Nat) : String := h[i % h.length]?.getD ""

/-- The first healthy node that is not the primary. -/
def replicaOf (h : List String) (primary : String) : String := (h.find? (· ≠ primary)).getD ""

/-- The shards whose turn falls on a node, ascending. -/
def shardsOf (T : Int) (h : List String) (id : String) : List Int :=
  ((List.range T.toNat).filter (fun i => h[i % h.length]? = some id)).map Int.ofNat

/-- The shard map and the lists of the nodes are those of the healthy set. -/
structure Canonical (T : Int) (s : ClusterState) : Prop where
  shards : ∀ i, s.shards.get i = if 0 ≤ i ∧ i < T then
    some ⟨i, primaryOf (healthyIDs s) i.toNat,
      replicaOf (healthyIDs s) (primaryOf (healthyIDs s) i.toNat)⟩ else none
  nodes : ∀ id n, s.nodes.get id = some n → n.id = id ∧ n.shards = shardsOf T (healthyIDs s) id

theorem mem_healthyIDs {s : ClusterState} {id : String} :
    id ∈ healthyIDs s ↔ isHealthy s.nodes id = true := by
  rw [healthyIDs, mem_sorted, List.mem_filter, and_iff_right_iff_imp]
  intro h
  rw [s.nodes.mem_keys]
  revert h
  cases hg : s.nodes.get id <;> simp [isHealthy, hg]

theorem healthyIDs_pairwise (s : ClusterState) : (healthyIDs s).Pairwise (· < ·) :=
  sorted_pairwise (s.nodes.nodup.filter _)

/-- The order of the loop is lost in the sort. -/
theorem collectHealthy_eq (o : Order String) (s : ClusterState) :
    collectHealthy o s.nodes = healthyIDs s := by
  refine sorted_eq ((o.nodup s.nodes.nodup).filter _) (healthyIDs_pairwise s) ?_
  intro id
  rw [healthyIDs, mem_sorted, List.mem_filter, List.mem_filter, o.mem]

/-- The healthy set is read off the statuses. -/
theorem healthyIDs_congr {s t : ClusterState}
    (h : ∀ id, isHealthy s.nodes id = isHealthy t.nodes id) : healthyIDs s = healthyIDs t := by
  refine sorted_eq (s.nodes.nodup.filter _) (healthyIDs_pairwise t) ?_
  intro id
  have hs : id ∈ healthyIDs s ↔ _ := mem_healthyIDs
  rw [healthyIDs, mem_sorted] at hs
  rw [hs, mem_healthyIDs, h]

theorem isHealthy_map {m m' : GoMap String NodeRecord} {id : String} {f : NodeRecord → NodeRecord}
    (hget : m'.get id = (m.get id).map f) (hf : ∀ n, (f n).status = n.status) :
    isHealthy m' id = isHealthy m id := by
  simp only [isHealthy, hget]
  cases m.get id <;> simp [hf]

theorem mem_shardsOf {T : Int} {h : List String} {id : String} {i : Int} :
    i ∈ shardsOf T h id ↔ (0 ≤ i ∧ i < T) ∧ h[i.toNat % h.length]? = some id := by
  simp only [shardsOf, List.mem_map, List.mem_filter, List.mem_range, decide_eq_true_eq]
  constructor
  · intro hgiven
    obtain ⟨k, ⟨hk, hid⟩, hi⟩ := hgiven
    subst hi
    simp only [Int.ofNat_eq_natCast, Int.toNat_natCast]
    exact ⟨⟨by omega, by omega⟩, hid⟩
  · intro hgiven
    obtain ⟨⟨hpos, hlt⟩, hid⟩ := hgiven
    exact ⟨i.toNat, ⟨by omega, hid⟩, by simp [hpos]⟩

theorem range_pairwise (n : Nat) : ((List.range n).map Int.ofNat).Pairwise (· < ·) := by
  rw [List.pairwise_map]
  exact List.pairwise_lt_range.imp (fun h => by simpa using h)

theorem shardsOf_pairwise (T : Int) (h : List String) (id : String) :
    (shardsOf T h id).Pairwise (· < ·) := by
  have hsub := (List.filter_sublist (l := List.range T.toNat)
    (p := fun i => h[i % h.length]? = some id)).map Int.ofNat
  exact (range_pairwise T.toNat).sublist hsub

/-- The shards are those of `NewFSM`. -/
def Numbered (T : Int) (m : GoMap Int ShardRecord) : Prop :=
  ∀ i, (m.get i).isSome = true ↔ 0 ≤ i ∧ i < T

theorem Numbered.allShards {T : Int} {m : GoMap Int ShardRecord} (h : Numbered T m)
    (o : Order Int) : sorted (o.arrange m.keys) = (List.range T.toNat).map Int.ofNat := by
  refine sorted_eq (o.nodup m.nodup) (range_pairwise _) ?_
  intro i
  rw [o.mem, m.mem_keys, h, List.mem_map]
  constructor
  · intro hgiven
    obtain ⟨hpos, hlt⟩ := hgiven
    exact ⟨i.toNat, List.mem_range.mpr (by omega), by simp [hpos]⟩
  · intro hgiven
    obtain ⟨k, hk, hi⟩ := hgiven
    have hk := List.mem_range.mp hk
    simp only [Int.ofNat_eq_natCast] at hi
    omega

theorem zipIdx_range (n : Nat) :
    ((List.range n).map Int.ofNat).zipIdx = (List.range n).map (fun k => (Int.ofNat k, k)) := by
  refine List.ext_getElem (by simp) ?_
  intro i h h'
  simp

/-- Shards 0 to `n - 1` given out, shard `k` to node `f k`. -/
def dealt (f : Nat → String) (s : ClusterState) (n : Nat) : ClusterState :=
  (List.range n).foldl (fun s k => assignPrimary s (Int.ofNat k) (f k)) s

theorem dealt_succ (f : Nat → String) (s : ClusterState) (n : Nat) :
    dealt f s (n + 1) = assignPrimary (dealt f s n) (Int.ofNat n) (f n) := by
  simp [dealt, List.range_succ]

theorem dealt_shards (f : Nat → String) (s : ClusterState) (n : Nat) (i : Int) :
    (dealt f s n).shards.get i = if 0 ≤ i ∧ i < n then
      some { (s.shards.get i).getD default with primaryNode := f i.toNat }
    else s.shards.get i := by
  induction n with
  | zero =>
    rw [if_neg (by omega)]
    rfl
  | succ n ih =>
    rw [dealt_succ, assignPrimary, GoMap.get_modify]
    by_cases hi : i = n
    · subst hi
      rw [if_neg (by omega)] at ih
      rw [if_pos (by simp), if_pos (by omega)]
      simp only [Int.ofNat_eq_natCast, ih, Int.toNat_natCast]
    · have hiff : (0 ≤ i ∧ i < n) ↔ (0 ≤ i ∧ i < (n + 1 : Nat)) := by omega
      rw [if_neg (show ¬ i = Int.ofNat n from hi), ih]
      simp only [hiff]

theorem dealt_nodes {f : Nat → String} {s : ClusterState} {n : Nat}
    (hf : ∀ k < n, (s.nodes.get (f k)).isSome = true) (id : String) :
    (dealt f s n).nodes.get id = (s.nodes.get id).map (fun r => { r with
      shards := r.shards ++ ((List.range n).filter (fun k => f k = id)).map Int.ofNat }) := by
  induction n with
  | zero => simp [dealt]
  | succ n ih =>
    have ih := ih (fun k hk => hf k (by omega))
    rw [dealt_succ, assignPrimary, GoMap.get_modify, List.range_succ, List.filter_append]
    by_cases hid : id = f n
    · subst hid
      obtain ⟨r, hr⟩ := Option.isSome_iff_exists.mp (hf n (by omega))
      simp [ih, hr]
    · have hne : f n ≠ id := fun h => hid h.symm
      simp [hid, hne, ih]

/-- With a healthy node the turns never run out. -/
theorem turn_exists {h : List String} (hne : h ≠ []) (k : Nat) :
    ∃ id ∈ h, h[k % h.length]? = some id := by
  have hlt : k % h.length < h.length := Nat.mod_lt _ (List.length_pos_iff.mpr hne)
  exact ⟨h[k % h.length], List.getElem_mem hlt, List.getElem?_eq_getElem hlt⟩

theorem primaryOf_eq_iff {h : List String} (hne : h ≠ []) (k : Nat) (id : String) :
    primaryOf h k = id ↔ h[k % h.length]? = some id := by
  obtain ⟨x, -, hx⟩ := turn_exists hne k
  simp [primaryOf, hx]

section Rebalance

variable {T : Int} {s : ClusterState}

theorem healthy_isSome {id : String} (h : id ∈ healthyIDs s) :
    (s.nodes.get id).isSome = true := by
  rw [mem_healthyIDs, isHealthy] at h
  split at h
  · rename_i n hn
    simp [hn]
  · cases h

/-- What `rebalancePrimary` does when some node is healthy. -/
theorem rebalance_spec (hs : Numbered T s.shards) (hne : healthyIDs s ≠ []) (o : Orders) :
    (∀ i, (rebalancePrimary o s).shards.get i = (s.shards.get i).map (fun sr =>
      { sr with primaryNode := primaryOf (healthyIDs s) i.toNat })) ∧
    (∀ id, (rebalancePrimary o s).nodes.get id = (s.nodes.get id).map (fun n =>
      { n with shards := shardsOf T (healthyIDs s) id })) := by
  have hturn : ∀ k, (healthyIDs s).getD (k % (healthyIDs s).length) "" =
      primaryOf (healthyIDs s) k := fun k => List.getD_eq_getElem?_getD
  simp only [rebalancePrimary, collectHealthy_eq, if_neg hne, hs.allShards, zipIdx_range,
    List.foldl_map, hturn]
  rw [← dealt]
  constructor
  · intro i
    have hi := hs i
    rw [dealt_shards, GoMap.get_rewrite]
    cases hget : s.shards.get i with
    | none =>
      rw [if_neg]
      · rfl
      · intro hrange
        have := hi.mpr ⟨hrange.1, by omega⟩
        simp [hget] at this
    | some sr =>
      have hrange := hi.mp (by simp [hget])
      rw [if_pos ⟨hrange.1, by omega⟩]
      rfl
  · intro id
    have hpresent : ∀ k < T.toNat, ((s.nodes.rewrite o.clearedNodes
        (fun _ n => { n with shards := [] })).get (primaryOf (healthyIDs s) k)).isSome = true := by
      intro k _
      obtain ⟨x, hx, hturn⟩ := turn_exists hne k
      rw [(primaryOf_eq_iff hne k x).mpr hturn, GoMap.get_rewrite, Option.isSome_map]
      exact healthy_isSome hx
    have howned : (fun k => decide (primaryOf (healthyIDs s) k = id)) =
        fun k => decide ((healthyIDs s)[k % (healthyIDs s).length]? = some id) := by
      funext k
      simp only [primaryOf_eq_iff hne]
    rw [GoMap.get_rewrite, dealt_nodes hpresent, GoMap.get_rewrite, howned, Option.map_map,
      Option.map_map]
    cases s.nodes.get id with
    | none => rfl
    | some n =>
      simp only [Option.map_some, Function.comp_apply, List.nil_append]
      rw [← shardsOf, sorted_of_pairwise (shardsOf_pairwise T _ id)]

/-- What `assignReplicas` does. -/
theorem replicas_spec (s : ClusterState) (o : Orders) :
    (∀ i, (assignReplicas o s).shards.get i = (s.shards.get i).map (fun sr =>
      { sr with replicaNode := replicaOf (healthyIDs s) sr.primaryNode })) ∧
    (assignReplicas o s).nodes = s.nodes := by
  constructor
  · intro i
    simp only [assignReplicas, collectHealthy_eq, GoMap.get_rewrite, replicaOf]
  · rfl

/-- The shard map has the shards of `NewFSM`, each under its own number. -/
structure Framed (T : Int) (m : GoMap Int ShardRecord) : Prop where
  numbered : Numbered T m
  named : ∀ i sr, m.get i = some sr → sr.shardID = i

theorem Canonical.framed (h : Canonical T s) : Framed T s.shards := by
  constructor
  · intro i
    rw [h.shards]
    split <;> simp_all
  · intro i sr hi
    rw [h.shards] at hi
    split at hi
    · rw [← Option.some.inj hi]
    · cases hi

/-- Both passes together, when some node is healthy: whatever the primaries, the replicas and
the lists were before, they are those of the healthy set. -/
theorem rebuild_canonical (hs : Framed T s.shards)
    (hids : ∀ id n, s.nodes.get id = some n → n.id = id) (hne : healthyIDs s ≠ []) (o : Orders) :
    Canonical T (assignReplicas o (rebalancePrimary o s)) ∧
      ∀ id, (assignReplicas o (rebalancePrimary o s)).nodes.get id = (s.nodes.get id).map (fun n =>
        { n with shards := shardsOf T (healthyIDs s) id }) := by
  obtain ⟨hshards, hnodes⟩ := rebalance_spec hs.numbered hne o
  obtain ⟨hreplicas, hkeep⟩ := replicas_spec (rebalancePrimary o s) o
  have hstatus : healthyIDs (rebalancePrimary o s) = healthyIDs s :=
    healthyIDs_congr (fun id => isHealthy_map (hnodes id) (fun _ => rfl))
  have hsame : healthyIDs (assignReplicas o (rebalancePrimary o s)) = healthyIDs s := by
    rw [← hstatus]
    exact healthyIDs_congr (fun id => by rw [hkeep])
  refine ⟨⟨?_, ?_⟩, fun id => by rw [hkeep, hnodes]⟩
  · intro i
    have hi := hs.numbered i
    rw [hreplicas, hshards, hsame, hstatus]
    cases hget : s.shards.get i with
    | none => rw [if_neg (fun h => by simpa [hget] using hi.mpr h)]; rfl
    | some sr =>
      rw [if_pos (hi.mp (by simp [hget]))]
      simp [hs.named i sr hget]
  · intro id n hn
    rw [hkeep, hnodes] at hn
    obtain ⟨r, hr, hrn⟩ := Option.map_eq_some_iff.mp hn
    rw [hsame, ← hrn]
    exact ⟨hids id r hr, rfl⟩

end Rebalance

end LogEngine.Metadata
