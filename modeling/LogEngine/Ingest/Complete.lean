import LogEngine.Ingest.Keeps
import LogEngine.Lib.Steps

namespace LogEngine.Ingest
open Lib Storage

variable {B : BloomPackage} {P : ProtoPackage}

/-- The entry is in a segment that the node lists. -/
def Stored (P : ProtoPackage) (n : Node B) (e : LogEntry) : Prop :=
  ∃ p ∈ n.store.manager.paths, e ∈ entriesAt P n.store.disk p

/-- The entry arrives in a segment of the primary that the replica asks for. -/
def Offered (P : ProtoPackage) (primary : Node B) (totalShards shard : Int) (s : Store B)
    (e : LogEntry) : Prop :=
  ∃ name ∈ primary.listSegments P (Int32.ofInt shard),
    name ∉ covered P s totalShards shard ∧ name ≠ s.manager.activeSegmentName ∧
      e ∈ entriesAt P primary.store.disk name ∧ inShard totalShards shard e = true

/-- The entries of the shard that the replica has once the segments are transferred. -/
def AtHand (P : ProtoPackage) (primary : Node B) (totalShards shard : Int) (s : Store B)
    (e : LogEntry) : Prop :=
  inShard totalShards shard e = true ∧
    (Holds P s.disk e ∨ Offered P primary totalShards shard s e)

/-- No entry at hand was received later. -/
def Newest (P : ProtoPackage) (primary : Node B) (totalShards shard : Int) (s : Store B)
    (e : LogEntry) : Prop :=
  0 ≤ e.receivedAt.toInt ∧
    ∀ x, AtHand P primary totalShards shard s x → x.receivedAt.toInt ≤ e.receivedAt.toInt

/-- The entry is on the primary, not older than any at hand, and shares its ID with no
newest one of these. -/
def Fetched (P : ProtoPackage) (primary : Node B) (totalShards shard : Int) (s : Store B)
    (e : LogEntry) : Prop :=
  Stored P primary e ∧ inShard totalShards shard e = true ∧
    Newest P primary totalShards shard s e ∧
    ¬ ∃ x, AtHand P primary totalShards shard s x ∧ Newest P primary totalShards shard s x ∧
      x.id = e.id

/-- Every call and file operation of catch-up succeeds, and the primary of each shard
answers from one and the same state. -/
structure Undisturbed (P : ProtoPackage) (net : Network B) (primary : Int → Node B) : Prop where
  peer : ∀ shard call, net.peer shard call = primary shard
  dial : ∀ shard, (net.faults shard).dial = false
  call : ∀ shard call, (net.faults shard).call call = false
  files : ∀ shard name, (net.faults shard).createTmp name = false ∧
    (net.faults shard).stream name = none ∧ (net.faults shard).rename name = false
  transfers : ∀ shard, ∀ name ∈ (primary shard).listSegments P (Int32.ofInt shard),
    ∃ chunks, (primary shard).transferSegment P name (Int32.ofInt shard) = .ok chunks

variable {net : Network B} {primary : Int → Node B} {totalShards shard : Int} {s : Store B}

theorem Undisturbed.mem_missing (h : Undisturbed P net primary) {name : String} :
    name ∈ missingNames P net totalShards shard s ↔
      name ∈ (primary shard).listSegments P (Int32.ofInt shard) ∧
        name ∉ covered P s totalShards shard ∧ name ≠ s.manager.activeSegmentName := by
  simp [missingNames, h.call, h.peer, List.mem_filter]

theorem Undisturbed.completed (h : Undisturbed P net primary) {name : String}
    (hname : name ∈ (primary shard).listSegments P (Int32.ofInt shard)) :
    ∃ chunks, completed P net shard name = some chunks := by
  obtain ⟨chunks, hchunks⟩ := h.transfers shard name hname
  obtain ⟨hcreate, hstream, hrename⟩ := h.files shard name
  exact ⟨chunks, by
    simp [Ingest.completed, h.call, h.peer, hcreate, hstream, hrename, hchunks]⟩

theorem Undisturbed.serving (h : Undisturbed P net primary)
    (hprimary : Serving P totalShards (primary shard)) (call : Call) :
    Serving P totalShards (net.peer shard call) :=
  h.peer shard call ▸ hprimary

theorem Undisturbed.replaced_iff (h : Undisturbed P net primary) {name : String} :
    Replaced P net totalShards shard s name ↔ name ∈ missingNames P net totalShards shard s := by
  refine ⟨And.left, fun hmem => ⟨hmem, ?_⟩⟩
  obtain ⟨chunks, hc⟩ := h.completed (h.mem_missing.mp hmem).1
  rw [hc]
  rfl

/-- The segments after the transfer phase: those it replaced are the primary's part of the
shard. -/
theorem Undisturbed.transfer_entries (hP : P.Inverts) (h : Undisturbed P net primary)
    (hprimary : Serving P totalShards (primary shard)) (hwire : OnWire shard) (hs : Sound P s)
    {q : String} (hq : IsSeg q) :
    entriesAt P (s.run (transferMissingSegments P net totalShards shard s).1).disk q =
      if q ∈ missingNames P net totalShards shard s then
        (entriesAt P (primary shard).store.disk q).filter (inShard totalShards shard)
      else entriesAt P s.disk q := by
  rw [(transferMissing_run hP (h.serving hprimary) hs).entries q hq, delivered]
  split
  · rename_i hmem
    obtain ⟨chunks, hc⟩ := h.completed (h.mem_missing.mp hmem).1
    rw [hc, Option.map_some, Option.getD_some, (completed_spec hP (h.serving hprimary) hc).2.2,
      hwire.toInt, h.peer]
  · rfl

theorem Undisturbed.missing_isSeg (hP : P.Inverts) (h : Undisturbed P net primary)
    (hprimary : Serving P totalShards (primary shard)) {name : String}
    (hname : name ∈ missingNames P net totalShards shard s) : IsSeg name := by
  obtain ⟨chunks, hc⟩ := h.completed (h.mem_missing.mp hname).1
  exact (completed_spec hP (h.serving hprimary) hc).1

/-- What the replica holds after the transfer phase. -/
theorem Undisturbed.transfer_iff (hP : P.Inverts) (h : Undisturbed P net primary)
    (hprimary : Serving P totalShards (primary shard)) (hwire : OnWire shard) (hs : Sound P s)
    (e : LogEntry) :
    Holds P (s.run (transferMissingSegments P net totalShards shard s).1).disk e ↔
      Spared P net totalShards shard s e ∨ Offered P (primary shard) totalShards shard s e := by
  constructor
  · intro hgiven
    obtain ⟨q, hq, he⟩ := hgiven
    rw [h.transfer_entries hP hprimary hwire hs hq] at he
    split at he
    · rename_i hmem
      obtain ⟨he, hin⟩ := List.mem_filter.mp he
      obtain ⟨hlist, hcov, hne⟩ := h.mem_missing.mp hmem
      exact .inr ⟨q, hlist, hcov, hne, he, hin⟩
    · rename_i hmem
      exact .inl ⟨q, hq, he, fun hrep => hmem (h.replaced_iff.mp hrep)⟩
  · intro hor
    rcases hor with hspared | ⟨name, hlist, hcov, hne, he, hin⟩
    · exact (transfer_holds hP (h.serving hprimary) hwire hs).2.1 e hspared
    · have hmem := h.mem_missing.mpr ⟨hlist, hcov, hne⟩
      have hseg := h.missing_isSeg hP hprimary hmem
      refine ⟨name, hseg, ?_⟩
      rw [h.transfer_entries hP hprimary hwire hs hseg, if_pos hmem]
      exact List.mem_filter.mpr ⟨he, hin⟩

/-- The entries of a shard are spared by the transfers of that shard. -/
theorem spared_of_inShard (hnet : ∀ call, Serving P totalShards (net.peer shard call))
    (hwire : OnWire shard) (hs : Sound P s) {e : LogEntry} (he : Holds P s.disk e)
    (hin : inShard totalShards shard e = true) : Spared P net totalShards shard s e := by
  obtain ⟨q, hq, hmem⟩ := he
  exact ⟨q, hq, hmem, fun hrep => hrep.not_inShard hnet hwire hs hq hmem hin⟩

theorem Spared.holds {e : LogEntry} (h : Spared P net totalShards shard s e) :
    Holds P s.disk e := by
  obtain ⟨q, hq, he, -⟩ := h
  exact ⟨q, hq, he⟩

theorem mem_localEntries (hs : Sound P s) (x : LogEntry) :
    x ∈ localEntries P s totalShards shard ↔
      Holds P s.disk x ∧ inShard totalShards shard x = true := by
  have hread : readSegments P s.disk s.manager.paths = .ok _ := hs.readAll_eq
  simp only [localEntries, hread, List.mem_filter]
  rw [hs.mem_readAll hs.readAll_eq]

/-- The local entries of the second phase are those at hand before the first. -/
theorem Undisturbed.mem_local (hP : P.Inverts) (h : Undisturbed P net primary)
    (hprimary : Serving P totalShards (primary shard)) (hwire : OnWire shard) (hs : Sound P s)
    (x : LogEntry) :
    x ∈ localEntries P (s.run (transferMissingSegments P net totalShards shard s).1)
        totalShards shard ↔ AtHand P (primary shard) totalShards shard s x := by
  have hnet := h.serving hprimary
  rw [mem_localEntries (transfer_holds hP hnet hwire hs).1,
    h.transfer_iff hP hprimary hwire hs, AtHand, and_comm]
  refine and_congr_right (fun hin => or_congr_left ⟨Spared.holds, fun hheld => ?_⟩)
  exact spared_of_inShard hnet hwire hs hheld hin

/-- An entry is at or above the watermark exactly when nothing at hand is newer. -/
theorem Undisturbed.watermark_le (hP : P.Inverts) (h : Undisturbed P net primary)
    (hprimary : Serving P totalShards (primary shard)) (hwire : OnWire shard) (hs : Sound P s)
    (e : LogEntry) :
    (latestReceivedAtForShard P (s.run (transferMissingSegments P net totalShards shard s).1)
        totalShards shard).toInt ≤ e.receivedAt.toInt ↔
      Newest P (primary shard) totalShards shard s e := by
  rw [latestReceivedAtForShard, foldl_latest_le, Int64.toInt_zero, Newest]
  simp only [h.mem_local hP hprimary hwire hs]

theorem Undisturbed.mem_known (hP : P.Inverts) (h : Undisturbed P net primary)
    (hprimary : Serving P totalShards (primary shard)) (hwire : OnWire shard) (hs : Sound P s)
    (id : String) :
    let t := s.run (transferMissingSegments P net totalShards shard s).1
    id ∈ localIDsAtOrAfterNs P t totalShards shard
        (latestReceivedAtForShard P t totalShards shard) ↔
      ∃ x, AtHand P (primary shard) totalShards shard s x ∧
        Newest P (primary shard) totalShards shard s x ∧ x.id = id := by
  simp only [localIDsAtOrAfterNs, List.mem_map, List.mem_filter, decide_eq_true_eq, ge_iff_le,
    Int64.le_iff_toInt_le, h.mem_local hP hprimary hwire hs,
    h.watermark_le hP hprimary hwire hs, and_assoc]

/-- The second phase appends the fetched entries, in some order, once for every time that the
primary lists their segment. -/
theorem Undisturbed.tail_perm (hP : P.Inverts) (h : Undisturbed P net primary)
    (hprimary : Serving P totalShards (primary shard)) (hwire : OnWire shard) (hs : Sound P s) :
    ∃ appends : LogEntry → Bool,
      (∀ e, Stored P (primary shard) e →
        (appends e = true ↔ Fetched P (primary shard) totalShards shard s e)) ∧
      ((tailEntries P net totalShards shard
          (s.run (transferMissingSegments P net totalShards shard s).1)).map protoToEntry).Perm
        ((primary shard).store.manager.paths.flatMap (fun p =>
          (entriesAt P (primary shard).store.disk p).filter appends)) := by
  have hread : readSegments P (primary shard).store.disk (primary shard).store.manager.paths =
      .ok _ := readSegments_eq hprimary.readable hprimary.segs
  have hmark := h.watermark_le hP hprimary hwire hs
  have hknown := h.mem_known hP hprimary hwire hs
  dsimp only at hknown
  generalize s.run (transferMissingSegments P net totalShards shard s).1 = t at *
  refine ⟨fun e => e.id ∉ localIDsAtOrAfterNs P t totalShards shard
      (latestReceivedAtForShard P t totalShards shard) &&
    (inShard totalShards shard e &&
      !(e.receivedAt < latestReceivedAtForShard P t totalShards shard)), ?_, ?_⟩
  · intro e hstored
    simp only [Bool.and_eq_true, Bool.not_eq_true', decide_eq_false_iff_not, decide_eq_true_eq,
      Int64.lt_iff_toInt_lt, Int.not_lt, hmark, hknown, Fetched, hstored, true_and]
    tauto
  · simp only [tailEntries, fetchedEntries, h.call, h.peer, Bool.false_eq_true, if_false,
      Node.fetchShardEntries, hread, hprimary.totalShards, hwire.toInt]
    refine (((net.sort_perm _).filter _).map protoToEntry).trans (.of_eq ?_)
    simp only [fetched, List.filter_map, List.map_map, List.filter_filter, List.filter_flatMap]
    exact List.map_id _

/-- The entries that the second phase appends. -/
theorem Undisturbed.mem_tail (hP : P.Inverts) (h : Undisturbed P net primary)
    (hprimary : Serving P totalShards (primary shard)) (hwire : OnWire shard) (hs : Sound P s)
    (e : LogEntry) :
    e ∈ (tailEntries P net totalShards shard
        (s.run (transferMissingSegments P net totalShards shard s).1)).map protoToEntry ↔
      Fetched P (primary shard) totalShards shard s e := by
  obtain ⟨appends, happends, hperm⟩ := h.tail_perm hP hprimary hwire hs
  simp only [hperm.mem_iff, List.mem_flatMap, List.mem_filter]
  constructor
  · intro hgiven
    obtain ⟨p, hp, he, hmust⟩ := hgiven
    exact (happends e ⟨p, hp, he⟩).mp hmust
  · intro hfetched
    obtain ⟨p, hp, he⟩ := hfetched.1
    exact ⟨p, hp, he, (happends e ⟨p, hp, he⟩).mpr hfetched⟩

/-- Catch-up of one shard: what it spares, what it transfers and what it fetches. -/
theorem Undisturbed.shard_iff (hP : P.Inverts) (h : Undisturbed P net primary)
    (hprimary : Serving P totalShards (primary shard)) (hwire : OnWire shard)
    {acc : Store B × Nat} (hs : Sound P acc.1) (e : LogEntry) :
    Holds P (catchUpShard P net totalShards shard acc).1.disk e ↔
      Spared P net totalShards shard acc.1 e ∨
        Offered P (primary shard) totalShards shard acc.1 e ∨
        Fetched P (primary shard) totalShards shard acc.1 e := by
  have hnet := h.serving hprimary
  have htrans := (transfer_holds hP hnet hwire hs).1
  unfold catchUpShard
  simp only [appendTail_fst]
  rw [(htrans.ingestAll hP (fun x hx => (Ingest.mem_tail hnet hwire hx).2)).2 e,
    h.transfer_iff hP hprimary hwire hs, h.mem_tail hP hprimary hwire hs, or_assoc]

/-- A turn of `CatchUp` at a store brings the entry. -/
def Brought (P : ProtoPackage) (primary : Int → Node B) (totalShards shard : Int) (s : Store B)
    (e : LogEntry) : Prop :=
  Offered P (primary shard) totalShards shard s e ∨ Fetched P (primary shard) totalShards shard s e

theorem Undisturbed.step_iff (hP : P.Inverts) (h : Undisturbed P net primary)
    (hprimary : ∀ shard, Serving P totalShards (primary shard)) (state : ClusterState)
    (nodeID : String) {order : List Int} (horder : ∀ shard ∈ order, OnWire shard)
    (hs : Sound P s) (e : LogEntry) (k : Nat) :
    let at' := fun k => (catchUp P net state nodeID totalShards (order.take k) s).1
    Holds P (at' (k + 1)).disk e ↔
      (Holds P (at' k).disk e ∧ ∀ shard, order[k]? = some shard → Turns net state nodeID shard →
        Spared P net totalShards shard (at' k) e) ∨
      ∃ shard, order[k]? = some shard ∧ Turns net state nodeID shard ∧
        Brought P primary totalShards shard (at' k) e := by
  have hsound := catchUp_sound hP (fun shard => h.serving (hprimary shard)) state nodeID horder hs k
  dsimp only
  by_cases hk : ∃ shard, order[k]? = some shard ∧ Turns net state nodeID shard
  · obtain ⟨shard, hk, hturn⟩ := hk
    rw [catchUp_turn totalShards hk hturn s,
      h.shard_iff hP (hprimary shard) (horder shard (List.mem_of_getElem? hk)) hsound]
    simp only [hk, Option.some.injEq, forall_eq', exists_eq_left', hturn, true_and, forall_const]
    constructor
    · intro hor
      rcases hor with hsp | hb
      · exact .inl ⟨hsp.holds, hsp⟩
      · exact .inr hb
    · intro hor
      rcases hor with ⟨-, hsp⟩ | hb
      · exact .inl hsp
      · exact .inr hb
  · have hidle : ∀ shard, order[k]? = some shard → ¬ Turns net state nodeID shard :=
      fun shard hshard ht => hk ⟨shard, hshard, ht⟩
    rw [catchUp_idle totalShards hidle s]
    constructor
    · exact fun hheld => .inl ⟨hheld, fun shard hshard ht => absurd ht (hidle shard hshard)⟩
    · intro hor
      rcases hor with ⟨hheld, -⟩ | ⟨shard, hshard, ht, -⟩
      · exact hheld
      · exact absurd ht (hidle shard hshard)

def IsReplica (state : ClusterState) (nodeID : String) (shard : Int) : Prop :=
  ∃ sr, state.shards.get shard = some sr ∧ sr.replicaNode = nodeID

/-- After an undisturbed `CatchUp` every entry that the primary of a replicated shard stores
is on the replica exactly when each was there before or is brought by some turn, and every
turn from then on spares it. -/
theorem catchUp_complete_iff (hP : P.Inverts) (h : Undisturbed P net primary)
    (hprimary : ∀ shard, Serving P totalShards (primary shard)) (state : ClusterState)
    (nodeID : String) {order : List Int} (horder : ∀ shard ∈ order, OnWire shard)
    (hs : Sound P s) :
    (∃ later, (catchUp P net state nodeID totalShards order s).1.readAll P = .ok later ∧
      ∀ shard ∈ order, IsReplica state nodeID shard → ∀ e, Stored P (primary shard) e →
        shardOf totalShards e = shard → e ∈ later) ↔
    ∀ shard ∈ order, IsReplica state nodeID shard → ∀ e, Stored P (primary shard) e →
      shardOf totalShards e = shard →
      ∃ j ≤ order.length,
        ((j = 0 ∧ Holds P s.disk e) ∨ ∃ i, j = i + 1 ∧ ∃ other, order[i]? = some other ∧
          Turns net state nodeID other ∧ Brought P primary totalShards other
            (catchUp P net state nodeID totalShards (order.take i) s).1 e) ∧
        ∀ k, j ≤ k → k < order.length → ∀ other, order[k]? = some other →
          Turns net state nodeID other → Spared P net totalShards other
            (catchUp P net state nodeID totalShards (order.take k) s).1 e := by
  have hsound := catchUp_sound hP (fun shard => h.serving (hprimary shard)) state nodeID horder hs
    order.length
  rw [List.take_length] at hsound
  have hend := fun e => present_iff
    (fun k => Holds P (catchUp P net state nodeID totalShards (order.take k) s).1.disk e)
    (fun k => ∀ shard, order[k]? = some shard → Turns net state nodeID shard →
      Spared P net totalShards shard (catchUp P net state nodeID totalShards (order.take k) s).1 e)
    (fun k => ∃ shard, order[k]? = some shard ∧ Turns net state nodeID shard ∧
      Brought P primary totalShards shard
        (catchUp P net state nodeID totalShards (order.take k) s).1 e)
    (h.step_iff hP hprimary state nodeID horder hs e) order.length
  simp only [List.take_length, List.take_zero] at hend
  constructor
  · intro hgiven shard hmem hrep e hstored hshard
    obtain ⟨later, hlater, hall⟩ := hgiven
    exact (hend e).mp ((hsound.mem_readAll hlater e).mp (hall shard hmem hrep e hstored hshard))
  · intro hall
    refine ⟨_, hsound.readAll_eq, fun shard hmem hrep e hstored hshard => ?_⟩
    exact (hsound.mem_readAll hsound.readAll_eq e).mpr
      ((hend e).mpr (hall shard hmem hrep e hstored hshard))

theorem record_ne_nil (e : LogEntry) : record P e ≠ [] := by
  simp [record, frame, be32]

/-- A node sends every segment it lists whose name is an ordinary one of a closed segment. -/
theorem Serving.transfers {n : Node B} (hn : Serving P totalShards n)
    (hnames : ∀ name ∈ n.store.manager.listClosedSegments,
      invalidName name = false ∧ name ≠ n.store.manager.activeSegmentName)
    (shardId : Int32) {name : String} (hname : name ∈ n.listSegments P shardId) :
    ∃ chunks, n.transferSegment P name shardId = .ok chunks := by
  obtain ⟨hclosed, hholds⟩ := List.mem_filter.mp hname
  obtain ⟨hvalid, hne⟩ := hnames name hclosed
  have hseg : IsSeg name := hn.segs name (List.dropLast_subset _ hclosed)
  rw [hn.totalShards, segmentHolds_iff hn.readable hseg] at hholds
  obtain ⟨e, he, hsh⟩ := hholds
  have hin : inShard totalShards shardId.toInt e = true :=
    inShard_iff.mpr (hsh.imp (fun h => by omega) id)
  have hpayload : ((entriesAt P n.store.disk name).filter
      (inShard totalShards shardId.toInt)).flatMap (record P) ≠ [] := by
    intro hnil
    exact record_ne_nil e (List.flatMap_eq_nil_iff.mp hnil e (List.mem_filter.mpr ⟨he, hin⟩))
  simp only [Node.transferSegment, hvalid, Bool.false_eq_true, if_false, if_neg hne,
    readSegments_single hn.readable hseg, transferBuffer_eq (hn.readable.fits name hseg),
    hn.totalShards]
  exact ⟨_, rfl⟩

/-- A primary that has stored three entries of shard 1, of which the replica got the second. -/
def fullPrimary : Store exactFilter :=
  sampleStore [sampleEntry "p1" "api" 1, sampleEntry "p2" "api" 2, sampleEntry "p3" "api" 3]

def partialReplica : Store exactFilter := sampleStore [sampleEntry "p2" "api" 2]

def fullNode : Node exactFilter := ⟨"a", 2, none, fullPrimary⟩

theorem fullNode_serving : Serving protobuf 2 fullNode :=
  serving_of_sound (sampleStore_sound (by decide +kernel)) "a" 2 none

theorem sampleNetwork_undisturbed :
    Undisturbed protobuf (sampleNetwork fullPrimary) (fun _ => fullNode) where
  peer _ _ := rfl
  dial _ := rfl
  call _ _ := rfl
  files _ _ := ⟨rfl, rfl, rfl⟩
  transfers shard _ hname :=
    fullNode_serving.transfers (by decide +kernel) (Int32.ofInt shard) hname

/-- The replica has the primary's first entry, in a segment of the same name. -/
def firstReplica : Store exactFilter := sampleStore [sampleEntry "p1" "api" 1]

theorem fullNode_stored {e : LogEntry} (h : Stored protobuf fullNode e) :
    e = sampleEntry "p1" "api" 1 ∨ e = sampleEntry "p2" "api" 2 ∨ e = sampleEntry "p3" "api" 3 := by
  have hall : fullPrimary.manager.paths.flatMap (entriesAt protobuf fullPrimary.disk) =
      [sampleEntry "p1" "api" 1, sampleEntry "p2" "api" 2, sampleEntry "p3" "api" 3] := by
    decide +kernel
  have hmem : e ∈ fullPrimary.manager.paths.flatMap (entriesAt protobuf fullPrimary.disk) :=
    List.mem_flatMap.mpr h
  rw [hall] at hmem
  simpa using hmem

theorem firstReplica_spared {k : Nat} (hk : k < 2) {other : Int}
    (hother : [(0 : Int), 1][k]? = some other)
    (hturns : Turns (sampleNetwork fullPrimary) sampleState "b" other) :
    Spared protobuf (sampleNetwork fullPrimary) 2 other
      (catchUp protobuf (sampleNetwork fullPrimary) sampleState "b" 2
        (List.take k [0, 1]) firstReplica).1 (sampleEntry "p1" "api" 1) := by
  have hcases : k = 0 ∧ other = 0 ∨ k = 1 ∧ other = 1 := by
    rcases k with _ | _ | k
    · simp_all
    · simp_all
    · omega
  rcases hcases with ⟨rfl, rfl⟩ | ⟨rfl, rfl⟩
  · exact absurd hturns (by decide +kernel)
  · refine ⟨segmentName 1, segmentName_isSeg 1, by decide +kernel, ?_⟩
    unfold Replaced
    decide +kernel

/-- What the replica has before the tail of shard 1 is fetched. -/
theorem firstReplica_atHand {x : LogEntry} (h : AtHand protobuf fullNode 2 1 firstReplica x) :
    x = sampleEntry "p1" "api" 1 ∨ x = sampleEntry "p2" "api" 2 := by
  rcases h.2 with hheld | ⟨name, hname, -, -, hx, -⟩
  · rw [firstReplica, sampleStore_holds (by decide +kernel)] at hheld
    exact .inl (List.mem_singleton.mp hheld)
  · have hlisted : ∀ name ∈ fullNode.listSegments protobuf (Int32.ofInt 1),
        ∀ x ∈ entriesAt protobuf fullNode.store.disk name,
          x = sampleEntry "p1" "api" 1 ∨ x = sampleEntry "p2" "api" 2 := by decide +kernel
    exact hlisted name hname x hx

theorem firstReplica_fetches :
    Fetched protobuf fullNode 2 1 firstReplica (sampleEntry "p3" "api" 3) := by
  refine ⟨⟨segmentName 3, by decide +kernel, by decide +kernel⟩, by decide +kernel,
    ⟨by decide, fun x hx => ?_⟩, ?_⟩
  · rcases firstReplica_atHand hx with rfl | rfl <;> decide
  · rintro ⟨x, hx, -, hid⟩
    rcases firstReplica_atHand hx with rfl | rfl <;> exact absurd hid (by decide)

theorem catchUp_complete_iff_sample :
    ∃ later, (catchUp protobuf (sampleNetwork fullPrimary) sampleState "b" 2 [0, 1]
        firstReplica).1.readAll protobuf = .ok later ∧
      ∀ shard ∈ [0, 1], IsReplica sampleState "b" shard → ∀ e, Stored protobuf fullNode e →
        shardOf 2 e = shard → e ∈ later := by
  refine (catchUp_complete_iff protobuf_inverts sampleNetwork_undisturbed
    (fun _ => fullNode_serving) sampleState "b" (by simp [OnWire])
    (sampleStore_sound (by decide +kernel))).mpr ?_
  intro shard _ _ e he _
  have hturns : Turns (sampleNetwork fullPrimary) sampleState "b" 1 := by decide +kernel
  rcases fullNode_stored he with rfl | rfl | rfl
  · refine ⟨0, Nat.zero_le _, .inl ⟨rfl, segmentName 1, segmentName_isSeg 1, by decide +kernel⟩, ?_⟩
    exact fun k _ hk other hother hother' => firstReplica_spared hk hother hother'
  · refine ⟨2, le_refl _, .inr ⟨1, rfl, 1, rfl, hturns, .inl ⟨segmentName 2, ?_⟩⟩, ?_⟩
    · decide +kernel
    · exact fun k hk hlt => absurd hlt (Nat.not_lt.mpr hk)
  · refine ⟨2, le_refl _, .inr ⟨1, rfl, 1, rfl, hturns, .inr firstReplica_fetches⟩, ?_⟩
    exact fun k hk hlt => absurd hlt (Nat.not_lt.mpr hk)

/-- The first entry is in the primary's first segment, whose name is that of the replica's
active segment, and it is older than the entry that the replica has. -/
theorem catchUp_misses_entry :
    (partialReplica.readAll protobuf).toOption = some [sampleEntry "p2" "api" 2] ∧
    (fullPrimary.readAll protobuf).toOption = some [sampleEntry "p1" "api" 1,
      sampleEntry "p2" "api" 2, sampleEntry "p3" "api" 3] ∧
    shardOf 2 (sampleEntry "p1" "api" 1) = 1 ∧
    sampleState.shards.get 1 = some ⟨"a", "b"⟩ ∧
    ((catchUp protobuf (sampleNetwork fullPrimary) sampleState "b" 2 [0, 1]
      partialReplica).1.readAll protobuf).toOption.map (fun later =>
        decide (sampleEntry "p1" "api" 1 ∈ later)) = some false := by
  decide +kernel

end LogEngine.Ingest
