import LogEngine.Ingest.Forwarding
import LogEngine.Metadata.Coordinator

namespace LogEngine.Ingest
open Lib Storage Metadata Cluster

variable {ι : Type} {B : BloomPackage} {P : ProtoPackage}

/-- Every node has refreshed its cache from the state, and a call to the address of a healthy node
reaches that node. -/
structure Fresh (c : Fleet ι B) (T : Int) (s : Metadata.ClusterState) : Prop where
  totalShards : ∀ i, (c.node i).totalShards = T
  cached : ∀ i, ∃ o, (c.node i).stateReader = some (stateCache (delivered o s))
  reached : ∀ id n, s.nodes.get id = some n → n.status = .healthy →
    ∃ k, c.listens n.address = some k ∧ (c.node k).nodeID = id

/-- The primary takes the write. -/
theorem Node.handleIngest_wrote {n : Node B} {pb : LogEntryPB} {now : Int64} {freshID : String}
    {reader : StateReader} (hservice : pb.service ≠ "") (hmessage : pb.message ≠ "")
    (hshards : n.totalShards ≠ 0) (hreader : n.stateReader = some reader)
    (hprimary : (reader.shardOwners (shardID pb.namespace pb.service n.totalShards)).1 = n.nodeID)
    (hnamed : n.nodeID ≠ "")
    (happend : (appendLocked P n.store (stamped pb now freshID) true).2 = none) :
    n.handleIngest P (some pb) now freshID =
      .wrote ({ n with store := n.store.ingest P (stamped pb now freshID) },
        replicaJob n (stamped pb now freshID)
          (reader.shardOwners (shardID pb.namespace pb.service n.totalShards)).2,
        .ok (stamped pb now freshID).id) := by
  simp only [Node.handleIngest, if_neg hservice, if_neg hmessage, if_neg hshards, hreader,
    hprimary, if_neg hnamed, if_true, Node.writeLocal, Node.write, happend]

/-- A healthy cluster has a healthy primary for the shard, and every fresh cache names it. -/
theorem Fresh.primary {c : Fleet ι B} {T : Int} {s : Metadata.ClusterState}
    (hfresh : Fresh c T s) (hs : InOrder T s) (hT : T < 2 ^ 31) (hhealthy : healthyIDs s ≠ [])
    {shard : Int} (hpos : 0 ≤ shard) (hlt : shard < T) :
    ∃ owner replica addr k, s.shards.get shard = some ⟨shard, owner, replica⟩ ∧
      owner ∈ healthyIDs s ∧ owner ≠ "" ∧ addr ≠ "" ∧ c.listens addr = some k ∧
      (c.node k).nodeID = owner ∧
      ∀ i, ∃ reader, (c.node i).stateReader = some reader ∧
        (reader.shardOwners shard).1 = owner ∧ reader.nodeAddress owner = addr := by
  obtain ⟨r, hr, -⟩ := id hs
  have hcan := hr.canonical
  obtain ⟨owner, howner, hturn⟩ := turn_exists hhealthy shard.toNat
  have hprimary : primaryOf (healthyIDs s) shard.toNat = owner :=
    (primaryOf_eq_iff hhealthy _ _).mpr hturn
  have hshard : s.shards.get shard = some ⟨shard, owner, replicaOf (healthyIDs s) owner⟩ := by
    rw [hcan.shards, if_pos ⟨hpos, hlt⟩, hprimary]
  obtain ⟨n, hn, hstatus, hname, haddr⟩ := hs.healthy howner
  obtain ⟨k, hlistens, hk⟩ := hfresh.reached owner n hn hstatus
  refine ⟨owner, _, n.address, k, hshard, howner, hname, haddr, hlistens, hk, ?_⟩
  intro i
  obtain ⟨o, ho⟩ := hfresh.cached i
  refine ⟨_, ho, ?_, ?_⟩
  · simp only [stateCache, delivered_shard hcan hT, hshard]
  · simp only [stateCache, delivered_node hcan, hn, Option.map_some, nodeRecord, nodeInfo]

/-- With fresh caches a write is appended once, at the healthy node that is primary of its shard,
after at most one forward. -/
theorem routed_to_owner {J : JsonPackage} (hJ : J.RoundTrips) {T : Int} (hT : 0 < T)
    (hT' : T < 2 ^ 31) (events : List CoordinatorEvent)
    (hhealthy : healthyIDs (coordinatorRun J T events) ≠ []) [DecidableEq ι] {c : Fleet ι B}
    (hfresh : Fresh c T (coordinatorRun J T events)) {call : IngestCall ι} {pb : LogEntryPB}
    (hentry : call.entry = some pb) (hservice : pb.service ≠ "") (hmessage : pb.message ≠ "")
    (happend : ∀ i, (appendLocked P (c.node i).store
      (stamped pb (call.now i) (call.freshID i)) true).2 = none) (i : ι) :
    ∃ owner replica k,
      (coordinatorRun J T events).shards.get (shardID pb.namespace pb.service T) =
        some ⟨shardID pb.namespace pb.service T, owner, replica⟩ ∧
      owner ∈ healthyIDs (coordinatorRun J T events) ∧ (c.node k).nodeID = owner ∧
      ∀ fuel, 2 ≤ fuel →
        (c.ingest P call fuel i).appends = [k] ∧
        (c.ingest P call fuel i).visited.length ≤ 2 ∧
        (c.ingest P call fuel i).answer =
          some (.ok (stamped pb (call.now k) (call.freshID k)).id) ∧
        (c.ingest P call fuel i).fleet = c.set k { c.node k with
          store := (c.node k).store.ingest P (stamped pb (call.now k) (call.freshID k)) } := by
  obtain ⟨owner, replica, addr, k, hshard, howner, hname, haddr, hlistens, hk, hcached⟩ :=
    hfresh.primary (InOrder.run hJ T events) hT' hhealthy (shardID_nonneg _ _ _)
      (shardID_lt pb.namespace pb.service hT)
  have hshards : ∀ j, (c.node j).totalShards ≠ 0 := by
    intro j
    rw [hfresh.totalShards]
    omega
  have hwrites : ∀ j, (c.node j).nodeID = owner → ∀ fuel, c.ingest P call (fuel + 1) j =
      ⟨c.set j { c.node j with
          store := (c.node j).store.ingest P (stamped pb (call.now j) (call.freshID j)) },
        [j], [j], some (.ok (stamped pb (call.now j) (call.freshID j)).id)⟩ := by
    intro j hj
    obtain ⟨reader, hreader, hprimary, -⟩ := hcached j
    refine Fleet.ingest_wrote (hentry ▸ Node.handleIngest_wrote hservice hmessage (hshards j)
      hreader ?_ (hj ▸ hname) (happend j))
    rw [hfresh.totalShards, hprimary, hj]
  by_cases hi : (c.node i).nodeID = owner
  · refine ⟨owner, replica, i, hshard, howner, hi, ?_⟩
    intro fuel hfuel
    obtain ⟨fuel, rfl⟩ : ∃ m, fuel = m + 1 := ⟨fuel - 1, by omega⟩
    rw [hwrites i hi]
    exact ⟨rfl, by simp, rfl, rfl⟩
  · refine ⟨owner, replica, k, hshard, howner, hk, ?_⟩
    intro fuel hfuel
    obtain ⟨fuel, rfl⟩ : ∃ m, fuel = m + 2 := ⟨fuel - 2, by omega⟩
    obtain ⟨reader, hreader, hprimary, haddress⟩ := hcached i
    have hforwarded : (c.node i).handleIngest P call.entry (call.now i) (call.freshID i) =
        .forwarded owner := by
      refine Node.handleIngest_forwarded.mpr ⟨pb, reader, hentry, hservice, hmessage, hshards i,
        hreader, ?_, hname, Ne.symm hi⟩
      rw [hfresh.totalShards, hprimary]
    have hforward : c.forward i owner = .ok k :=
      (Fleet.forward_ok hreader).mpr ⟨haddress ▸ haddr, haddress ▸ hlistens⟩
    rw [Fleet.ingest_forwarded hforwarded hforward, hwrites k hk]
    exact ⟨rfl, by simp, rfl, rfl⟩

def twoJoin : List CoordinatorEvent :=
  [.registerNode .listed .committed "a" "host-a" 0,
    .registerNode .reversed .committed "b" "host-b" 1]

def twoFresh : Fleet Bool exactFilter where
  node := fun i => cachingNode (bif i then "b" else "a") 4 (coordinatorRun wireCodec 4 twoJoin)
  listens := fun addr => if addr = "host-a" then some false
    else if addr = "host-b" then some true else none

theorem twoFresh_fresh : Fresh twoFresh 4 (coordinatorRun wireCodec 4 twoJoin) := by
  refine ⟨fun i => rfl, fun i => ⟨.listed, rfl⟩, ?_⟩
  have hreached : ∀ id ∈ (coordinatorRun wireCodec 4 twoJoin).nodes.keys,
      ∀ n ∈ (coordinatorRun wireCodec 4 twoJoin).nodes.get id,
        (twoFresh.listens n.address).map (fun k => (twoFresh.node k).nodeID) = some id := by
    decide +kernel
  intro id n hn _
  have hid := (GoMap.mem_keys_iff _).mpr ⟨n, hn⟩
  exact Option.map_eq_some_iff.mp (hreached id hid n hn)

theorem routed_to_owner_sample :
    ∃ k, (twoFresh.ingest protobuf failoverCall 2 false).appends = [k] ∧
      (twoFresh.ingest protobuf failoverCall 2 false).visited.length ≤ 2 ∧
      (twoFresh.ingest protobuf failoverCall 2 false).answer = some (.ok "1") := by
  obtain ⟨owner, replica, k, -, -, -, hrouted⟩ := routed_to_owner wireCodec_roundTrips
    (show 0 < (4 : Int) by decide) (by decide) twoJoin (by decide +kernel) twoFresh_fresh
    (show failoverCall.entry = some _ from rfl) (by decide) (by decide)
    (by decide +kernel) false (P := protobuf)
  obtain ⟨happends, hvisited, hanswer, -⟩ := hrouted 2 (Nat.le_refl 2)
  exact ⟨k, happends, hvisited, hanswer⟩

end LogEngine.Ingest
