import LogEngine.Ingest.Transfer
import LogEngine.Packages

namespace LogEngine.Ingest
open Lib Storage

variable {B : BloomPackage} {P : ProtoPackage}

/-- The range of the shard numbers that a cluster state can carry over the wire. -/
def OnWire (shard : Int) : Prop := -2 ^ 31 ≤ shard ∧ shard < 2 ^ 31

theorem OnWire.toInt {shard : Int} (h : OnWire shard) : (Int32.ofInt shard).toInt = shard :=
  Int32.toInt_ofInt_of_le h.1 h.2

/-- The transfer phase of a shard replaces the file of this name. -/
def Replaced (P : ProtoPackage) (net : Network B) (totalShards shard : Int) (s : Store B)
    (name : String) : Prop :=
  name ∈ missingNames P net totalShards shard s ∧ (completed P net shard name).isSome = true

/-- The entry is in a segment that the transfer phase of a shard leaves alone. -/
def Spared (P : ProtoPackage) (net : Network B) (totalShards shard : Int) (s : Store B)
    (e : LogEntry) : Prop :=
  ∃ q, IsSeg q ∧ e ∈ entriesAt P s.disk q ∧ ¬ Replaced P net totalShards shard s q

theorem delivered_none {net : Network B} {totalShards shard : Int} {s : Store B} {q : String} :
    delivered P net shard (missingNames P net totalShards shard s) q = none ↔
      ¬ Replaced P net totalShards shard s q := by
  unfold delivered Replaced
  by_cases hq : q ∈ missingNames P net totalShards shard s
  · cases hc : completed P net shard q <;> simp [hq]
  · simp [hq]

theorem mem_closed {s : Store B} {name : String} (h : name ∈ s.manager.paths)
    (hne : name ≠ s.manager.activeSegmentName) : name ∈ s.manager.listClosedSegments := by
  rcases List.eq_nil_or_concat' s.manager.paths with hnil | ⟨front, last, hcat⟩
  · simp [hnil] at h
  · simp only [Manager.activeSegmentName, hcat, List.getLast?_concat, Option.getD_some] at hne
    simp only [hcat, List.mem_append, List.mem_singleton] at h
    simp only [Manager.listClosedSegments, hcat, List.dropLast_concat]
    exact h.resolve_right hne

theorem segmentHolds_iff {d : Disk} (h : Readable P d) {p : String} (hp : IsSeg p)
    (totalShards shard : Int) : segmentHolds P d totalShards shard p = true ↔
      ∃ e ∈ entriesAt P d p, totalShards = 0 ∨ shardOf totalShards e = shard := by
  simp [segmentHolds, readSegments_single h hp, holdsShard]

theorem inShard_iff {totalShards shard : Int} {e : LogEntry} :
    inShard totalShards shard e = true ↔ totalShards ≤ 0 ∨ shardOf totalShards e = shard := by
  by_cases h : totalShards ≤ 0
  · have : ¬ totalShards > 0 := by omega
    simp [inShard, h, this]
  · have : totalShards > 0 := by omega
    simp [inShard, h, this]

theorem shardOf_nonpos {totalShards : Int} (h : totalShards ≤ 0) (e : LogEntry) :
    shardOf totalShards e = 0 := if_pos h

/-- The files that a transfer replaces hold nothing of the shard it is for. -/
theorem Replaced.not_inShard {net : Network B} {totalShards shard : Int}
    (hnet : ∀ call, Serving P totalShards (net.peer shard call)) (hwire : OnWire shard)
    {s : Store B} (hs : Sound P s) {name : String} {e : LogEntry} (hseg : IsSeg name)
    (h : Replaced P net totalShards shard s name) (he : e ∈ entriesAt P s.disk name) :
    ¬ inShard totalShards shard e = true := by
  have hmem := h.1
  unfold missingNames at hmem
  split at hmem
  · cases hmem
  · simp only [List.mem_filter, decide_eq_true_eq] at hmem
    obtain ⟨hlist, hcov, hne⟩ := hmem
    have hclosed := mem_closed (hs.listed name hseg (exists_of_mem_entriesAt he)) hne
    have hother : ¬ (totalShards = 0 ∨ shardOf totalShards e = shard) := by
      intro hsh
      exact hcov (List.mem_filter.mpr
        ⟨hclosed, (segmentHolds_iff hs.readable hseg _ _).mpr ⟨e, he, hsh⟩⟩)
    rw [inShard_iff]
    rintro (hneg | hsh)
    · obtain ⟨-, hpeer⟩ := List.mem_filter.mp hlist
      rw [(hnet .list).totalShards, hwire.toInt,
        segmentHolds_iff (hnet .list).readable hseg] at hpeer
      obtain ⟨x, -, hx⟩ := hpeer
      rw [shardOf_nonpos hneg] at hx hother
      exact hother hx
    · exact hother (.inr hsh)

/-- After the transfer phase an entry that was held is held in a segment that the phase left
alone, or belongs to the shard. -/
theorem transfer_holds (hP : P.Inverts) {net : Network B} {totalShards shard : Int}
    (hnet : ∀ call, Serving P totalShards (net.peer shard call)) (hwire : OnWire shard)
    {s : Store B} (hs : Sound P s) :
    let t := s.run (transferMissingSegments P net totalShards shard s).1
    Sound P t ∧ (∀ e, Spared P net totalShards shard s e → Holds P t.disk e) ∧
      ∀ e, Holds P t.disk e →
        Spared P net totalShards shard s e ∨ inShard totalShards shard e = true := by
  have hrun := transferMissing_run hP hnet hs
  refine ⟨hrun.sound, ?_, ?_⟩
  · rintro e ⟨q, hq, he, hrep⟩
    refine ⟨q, hq, ?_⟩
    rw [hrun.entries q hq, delivered_none.mpr hrep, Option.getD_none]
    exact he
  · rintro e ⟨q, hq, he⟩
    rw [hrun.entries q hq] at he
    cases hd : delivered P net shard (missingNames P net totalShards shard s) q with
    | none =>
      rw [hd] at he
      exact .inl ⟨q, hq, he, delivered_none.mp hd⟩
    | some es =>
      rw [hd, Option.getD_some] at he
      unfold delivered at hd
      split at hd
      · obtain ⟨chunks, hc, rfl⟩ := Option.map_eq_some_iff.mp hd
        rw [(completed_spec hP hnet hc).2.2, hwire.toInt] at he
        exact .inr (List.mem_filter.mp he).2
      · cases hd

theorem appendTail_fst (net : Network B) (totalShards shard : Int) (acc : Store B × Nat) :
    (appendTail P net totalShards shard acc).1 =
      acc.1.ingestAll P ((tailEntries P net totalShards shard acc.1).map protoToEntry) := by
  unfold appendTail Store.ingestAll
  generalize tailEntries P net totalShards shard acc.1 = pbs
  induction pbs generalizing acc with
  | nil => rfl
  | cons pb pbs ih => exact ih (appendOne P acc pb)

/-- Catch-up appends entries of the shard that its peer holds. -/
theorem mem_tail {net : Network B} {totalShards shard : Int}
    (hnet : ∀ call, Serving P totalShards (net.peer shard call)) (hwire : OnWire shard)
    {s : Store B} {e : LogEntry}
    (h : e ∈ (tailEntries P net totalShards shard s).map protoToEntry) :
    inShard totalShards shard e = true ∧ Fits P e := by
  obtain ⟨pb, hpb, rfl⟩ := List.mem_map.mp h
  have hpb := (List.mem_filter.mp hpb).1
  unfold fetchedEntries at hpb
  split at hpb
  · cases hpb
  · have hread : readSegments P (net.peer shard .fetch).store.disk
        (net.peer shard .fetch).store.manager.paths = .ok _ :=
      readSegments_eq (hnet .fetch).readable (hnet .fetch).segs
    simp only [Node.fetchShardEntries, hread, (hnet .fetch).totalShards, hwire.toInt] at hpb
    have hpb := (net.sort_perm _).mem_iff.mp hpb
    obtain ⟨x, hx, rfl⟩ := List.mem_map.mp hpb
    obtain ⟨hx, hcond⟩ := List.mem_filter.mp hx
    obtain ⟨p, hp, hx⟩ := List.mem_flatMap.mp hx
    exact ⟨(Bool.and_eq_true_iff.mp hcond).1,
      (hnet .fetch).readable.fits p ((hnet .fetch).segs p hp) x hx⟩

/-- Catch-up of one shard keeps an entry exactly when its transfers spare it. -/
theorem catchUpShard_keeps (hP : P.Inverts) {net : Network B} {totalShards shard : Int}
    (hnet : ∀ call, Serving P totalShards (net.peer shard call)) (hwire : OnWire shard)
    {acc : Store B × Nat} (hs : Sound P acc.1) :
    Sound P (catchUpShard P net totalShards shard acc).1 ∧
      ∀ e, Holds P acc.1.disk e →
        (Holds P (catchUpShard P net totalShards shard acc).1.disk e ↔
          Spared P net totalShards shard acc.1 e) := by
  obtain ⟨htrans, hspared, hheld⟩ := transfer_holds hP hnet hwire hs
  unfold catchUpShard
  simp only [appendTail_fst]
  obtain ⟨hsound, hholds⟩ := htrans.ingestAll hP
    (fun e he =>
      (mem_tail (s := acc.1.run (transferMissingSegments P net totalShards shard acc.1).1)
        hnet hwire he).2)
  refine ⟨hsound, fun e he => ?_⟩
  rw [hholds e]
  constructor
  · intro h
    by_contra hnot
    have hin : inShard totalShards shard e = true := by
      rcases h with h | h
      · exact (hheld e h).resolve_left hnot
      · exact (mem_tail hnet hwire h).1
    obtain ⟨q, hq, heq⟩ := he
    by_cases hrep : Replaced P net totalShards shard acc.1 q
    · exact hrep.not_inShard hnet hwire hs hq heq hin
    · exact hnot ⟨q, hq, heq, hrep⟩
  · exact fun h => .inl (hspared e h)

/-- The shards whose turn in `CatchUp` gets past the tests and the dial. -/
def Turns (net : Network B) (state : ClusterState) (nodeID : String) (shard : Int) : Prop :=
  (replicates state nodeID shard && !(net.faults shard).dial) = true

instance (net : Network B) (state : ClusterState) (nodeID : String) (shard : Int) :
    Decidable (Turns net state nodeID shard) :=
  inferInstanceAs (Decidable (_ = _))

theorem catchUp_succ (net : Network B) (state : ClusterState) (nodeID : String)
    (totalShards : Int) {order : List Int} {k : Nat} {shard : Int} (h : order[k]? = some shard)
    (s : Store B) : catchUp P net state nodeID totalShards (order.take (k + 1)) s =
      catchUpStep P net state nodeID totalShards
        (catchUp P net state nodeID totalShards (order.take k) s) shard := by
  simp [catchUp, List.take_add_one, h, List.foldl_append]

theorem catchUp_turn {net : Network B} {state : ClusterState} {nodeID : String}
    (totalShards : Int) {order : List Int} {k : Nat} {shard : Int} (h : order[k]? = some shard)
    (hturn : Turns net state nodeID shard) (s : Store B) :
    catchUp P net state nodeID totalShards (order.take (k + 1)) s =
      catchUpShard P net totalShards shard
        (catchUp P net state nodeID totalShards (order.take k) s) :=
  (catchUp_succ net state nodeID totalShards h s).trans (if_pos hturn)

theorem catchUp_idle {net : Network B} {state : ClusterState} {nodeID : String}
    (totalShards : Int) {order : List Int} {k : Nat}
    (h : ∀ shard, order[k]? = some shard → ¬ Turns net state nodeID shard) (s : Store B) :
    catchUp P net state nodeID totalShards (order.take (k + 1)) s =
      catchUp P net state nodeID totalShards (order.take k) s := by
  cases hk : order[k]? with
  | none =>
    have hlen := List.getElem?_eq_none_iff.mp hk
    rw [List.take_of_length_le hlen, List.take_of_length_le (Nat.le_succ_of_le hlen)]
  | some shard => exact (catchUp_succ net state nodeID totalShards hk s).trans (if_neg (h shard hk))

/-- What the turns of `CatchUp` keep holds after each of them. -/
theorem catchUp_run {net : Network B} {state : ClusterState} {nodeID : String}
    {totalShards : Int} {order : List Int} {I : Nat → Store B → Prop} {s : Store B} (h0 : I 0 s)
    (hturn : ∀ k shard, order[k]? = some shard → Turns net state nodeID shard →
      I k (catchUp P net state nodeID totalShards (order.take k) s).1 →
      I (k + 1) (catchUpShard P net totalShards shard
        (catchUp P net state nodeID totalShards (order.take k) s)).1)
    (hidle : ∀ k t, (∀ shard, order[k]? = some shard → ¬ Turns net state nodeID shard) →
      I k t → I (k + 1) t) (k : Nat) :
    I k (catchUp P net state nodeID totalShards (order.take k) s).1 := by
  induction k with
  | zero => exact h0
  | succ k ih =>
    by_cases hk : ∃ shard, order[k]? = some shard ∧ Turns net state nodeID shard
    · obtain ⟨shard, hk, ht⟩ := hk
      rw [catchUp_turn totalShards hk ht s]
      exact hturn k shard hk ht ih
    · have hnone : ∀ shard, order[k]? = some shard → ¬ Turns net state nodeID shard :=
        fun shard hshard ht => hk ⟨shard, hshard, ht⟩
      rw [catchUp_idle totalShards hnone s]
      exact hidle k _ hnone ih

theorem catchUp_sound (hP : P.Inverts) {net : Network B} {totalShards : Int}
    (hnet : ∀ shard call, Serving P totalShards (net.peer shard call)) (state : ClusterState)
    (nodeID : String) {order : List Int} (horder : ∀ shard ∈ order, OnWire shard) {s : Store B}
    (hs : Sound P s) (k : Nat) :
    Sound P (catchUp P net state nodeID totalShards (order.take k) s).1 :=
  catchUp_run (I := fun _ => Sound P) hs
    (fun _ shard hk _ ht =>
      (catchUpShard_keeps hP (hnet shard) (horder shard (List.mem_of_getElem? hk)) ht).1)
    (fun _ _ _ ht => ht) k

/-- `CatchUp` returns everything it returned before, after each of its turns, exactly when
every turn finds each of those entries in a segment that it does not replace. -/
theorem catchUp_keeps_iff (hP : P.Inverts) {s : Store B} (hs : Sound P s)
    {earlier : List LogEntry} (hearlier : s.readAll P = .ok earlier) {net : Network B}
    {totalShards : Int} (hnet : ∀ shard call, Serving P totalShards (net.peer shard call))
    (state : ClusterState) (nodeID : String) {order : List Int}
    (horder : ∀ shard ∈ order, OnWire shard) :
    (∀ k, ∃ later, (catchUp P net state nodeID totalShards (order.take k) s).1.readAll P =
        .ok later ∧ ∀ e ∈ earlier, e ∈ later) ↔
      ∀ k shard, order[k]? = some shard → Turns net state nodeID shard → ∀ e ∈ earlier,
        Spared P net totalShards shard
          (catchUp P net state nodeID totalShards (order.take k) s).1 e := by
  have hsound := catchUp_sound hP hnet state nodeID horder hs
  have hread : ∀ k,
      (∃ later, (catchUp P net state nodeID totalShards (order.take k) s).1.readAll P =
      .ok later ∧ ∀ e ∈ earlier, e ∈ later) ↔ ∀ e ∈ earlier,
        Holds P (catchUp P net state nodeID totalShards (order.take k) s).1.disk e := by
    intro k
    constructor
    · rintro ⟨later, hlater, h⟩ e he
      exact ((hsound k).mem_readAll hlater e).mp (h e he)
    · intro h
      exact ⟨_, (hsound k).readAll_eq,
        fun e he => ((hsound k).mem_readAll (hsound k).readAll_eq e).mpr (h e he)⟩
  simp only [hread]
  have hkeeps := fun k shard (hk : order[k]? = some shard) =>
    (catchUpShard_keeps hP (hnet shard) (horder shard (List.mem_of_getElem? hk)) (hsound k)).2
  constructor
  · intro h k shard hk hturn e he
    have hlater := h (k + 1) e he
    rw [catchUp_turn totalShards hk hturn s] at hlater
    exact (hkeeps k shard hk e (h k e he)).mp hlater
  · intro h k
    refine catchUp_run (I := fun _ t => ∀ e ∈ earlier, Holds P t.disk e)
      (fun e he => (hs.mem_readAll hearlier e).mp he) ?_ (fun _ _ _ ht => ht) k
    intro k shard hk hturn ht e he
    exact (hkeeps k shard hk e (ht e he)).mpr (h k shard hk hturn e he)

theorem serving_of_sound {s : Store B} (h : Sound P s) (nodeID : String) (totalShards : Int)
    (reader : Option StateReader) : Serving P totalShards ⟨nodeID, totalShards, reader, s⟩ :=
  ⟨h.readable, h.segs, rfl⟩

/-- An entry of the service, which with two shards is in shard 1 for `api` and in shard 0 for
`orders`. -/
def sampleEntry (id service : String) (time : Int64) : LogEntry :=
  ⟨id, time, time, "", service, "INFO", "hello", .empty⟩

/-- A store whose segments take one such entry each. -/
def sampleStore (es : List LogEntry) : Store exactFilter :=
  (fresh exactFilter 40 false).ingestAll protobuf es

/-- The one primary `a` of shard 1, which answers every call. -/
def sampleNetwork (primary : Store exactFilter) : Network exactFilter where
  peer _ _ := ⟨"a", 2, none, primary⟩
  faults _ := ⟨false, fun _ => false, fun _ => false, fun _ => none, fun _ => false⟩
  sort l := l
  sort_perm l := .refl l

/-- Node `b` is the primary of shard 0 and the replica of shard 1. -/
def sampleState : ClusterState where
  nodes := (GoMap.empty.set "a" "a:1").set "b" "b:1"
  shards := (GoMap.empty.set 0 ⟨"b", "a"⟩).set 1 ⟨"a", "b"⟩

theorem sampleStore_sound {es : List LogEntry} (h : ∀ e ∈ es, Fits protobuf e) :
    Sound protobuf (sampleStore es) :=
  ((fresh_sound protobuf exactFilter 40 false).ingestAll protobuf_inverts h).1

theorem sampleStore_holds {es : List LogEntry} (h : ∀ e ∈ es, Fits protobuf e) (x : LogEntry) :
    Holds protobuf (sampleStore es).disk x ↔ x ∈ es := by
  have hnone : ¬ Holds protobuf (fresh exactFilter 40 false).disk x := by
    rintro ⟨q, -, hq⟩
    rw [fresh_entriesAt] at hq
    cases hq
  rw [sampleStore, ((fresh_sound protobuf exactFilter 40 false).ingestAll protobuf_inverts h).2,
    or_iff_right hnone]

def sampleReplica : Store exactFilter :=
  sampleStore [sampleEntry "r1" "orders" 1, sampleEntry "r2" "orders" 2]

def samplePrimary : Store exactFilter :=
  sampleStore [sampleEntry "p1" "api" 1, sampleEntry "p2" "api" 2]

/-- One entry of shard 0, in the active segment. -/
def loneReplica : Store exactFilter := sampleStore [sampleEntry "r1" "orders" 1]

theorem loneReplica_entries :
    loneReplica.manager.paths.flatMap (entriesAt protobuf loneReplica.disk) =
      [sampleEntry "r1" "orders" 1] := by decide +kernel

theorem loneReplica_spared (k : Nat) (shard : Int) (hk : [0, 1][k]? = some shard)
    (hturns : Turns (sampleNetwork samplePrimary) sampleState "b" shard) :
    Spared protobuf (sampleNetwork samplePrimary) 2 shard
      (catchUp protobuf (sampleNetwork samplePrimary) sampleState "b" 2
        (List.take k [0, 1]) loneReplica).1 (sampleEntry "r1" "orders" 1) := by
  have hcases : k = 0 ∧ shard = 0 ∨ k = 1 ∧ shard = 1 := by
    rcases k with _ | _ | k <;> simp_all
  rcases hcases with ⟨rfl, rfl⟩ | ⟨rfl, rfl⟩
  · exact absurd hturns (by decide +kernel)
  · refine ⟨segmentName 1, segmentName_isSeg 1, by decide +kernel, ?_⟩
    unfold Replaced
    decide +kernel

theorem catchUp_keeps_iff_sample :
    loneReplica.readAll protobuf = .ok [sampleEntry "r1" "orders" 1] ∧
    ∀ k, ∃ later, (catchUp protobuf (sampleNetwork samplePrimary) sampleState "b" 2
        (List.take k [0, 1]) loneReplica).1.readAll protobuf = .ok later ∧
        ∀ e ∈ [sampleEntry "r1" "orders" 1], e ∈ later := by
  have hreplica : Sound protobuf loneReplica := sampleStore_sound (by decide +kernel)
  have hprimary : Sound protobuf samplePrimary := sampleStore_sound (by decide +kernel)
  have hread := hreplica.readAll_eq
  rw [loneReplica_entries] at hread
  refine ⟨hread, (catchUp_keeps_iff protobuf_inverts hreplica hread
    (fun _ _ => serving_of_sound hprimary "a" 2 none) sampleState "b" (by simp [OnWire])).mpr ?_⟩
  intro k shard hk hturns e he
  rw [List.mem_singleton.mp he]
  exact loneReplica_spared k shard hk hturns

/-- The replica's first closed segment holds an entry of shard 0, for which it is the
primary. Catching up on shard 1 replaces that file by the primary's of the same name. -/
theorem catchUp_loses_entry :
    (sampleReplica.readAll protobuf).toOption =
      some [sampleEntry "r1" "orders" 1, sampleEntry "r2" "orders" 2] ∧
    ((catchUp protobuf (sampleNetwork samplePrimary) sampleState "b" 2 [0, 1]
      sampleReplica).1.readAll protobuf).toOption.map (fun later =>
        decide (sampleEntry "r1" "orders" 1 ∈ later)) = some false := by
  decide +kernel

end LogEngine.Ingest
