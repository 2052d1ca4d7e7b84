import LogEngine.Ingest.Lossless
import LogEngine.Ingest.Routing
import LogEngine.Storage.Bag

namespace LogEngine.Ingest
open Lib Storage Metadata Cluster

/-- The code of a failed call. The status of the node that a call is forwarded to is passed on; a
node that panics is gone. -/
def IngestError.code : IngestError → Code
  | .handler err => err.code
  | .addressUnknown _ => .unavailable
  | .unreachable _ => .unavailable
  | .panicked => .unavailable

inductive BatchError where
  | requestRequired
  | storageFailure (err : IngestError)
  deriving DecidableEq

/-- What became of a batch: the nodes afterwards and the answer, with the numbers of accepted and
rejected entries, none while an entry is still being forwarded. -/
structure BatchDelivery (ι : Type) (B : BloomPackage) where
  fleet : Fleet ι B
  answer : Option (Except BatchError (Int32 × Int32))

variable {ι : Type} [DecidableEq ι] {B : BloomPackage} (P : ProtoPackage)

def Fleet.batchLoop (c : Fleet ι B) (fuel : Nat) (i : ι) :
    List (IngestCall ι) → Int32 → Int32 → BatchDelivery ι B
  | [], accepted, rejected => ⟨c, some (.ok (accepted, rejected))⟩
  | call :: calls, accepted, rejected =>
    let d := c.ingest P call fuel i
    match d.answer with
    | none => ⟨d.fleet, none⟩
    | some (.ok _) => d.fleet.batchLoop fuel i calls (accepted + 1) rejected
    | some (.error err) =>
      if err.code = .internal then ⟨d.fleet, some (.error (.storageFailure err))⟩
      else d.fleet.batchLoop fuel i calls accepted (rejected + 1)

/-- `IngestBatch` at a node, with the fuel of each entry's call. -/
def Fleet.ingestBatch (c : Fleet ι B) (fuel : Nat) (i : ι) (req : Option (List (IngestCall ι))) :
    BatchDelivery ι B :=
  match req with
  | none => ⟨c, some (.error .requestRequired)⟩
  | some calls => c.batchLoop P fuel i calls 0 0

/-- The entry passes the tests of `HandleIngest`. -/
def IngestCall.wellFormed (call : IngestCall ι) : Bool :=
  match call.entry with
  | none => false
  | some pb => pb.service ≠ "" && pb.message ≠ ""

/-- The record that a call leaves on a node. -/
def IngestCall.recordAt (owner : LogEntryPB → ι) (j : ι) (call : IngestCall ι) : Option LogEntry :=
  match call.entry with
  | none => none
  | some pb =>
    if call.wellFormed = true ∧ owner pb = j then some (stamped pb (call.now j) (call.freshID j))
    else none

def Node.Closed (n : Node B) : Prop := n.store.manager.active = none

/-- The entry is one for a node that has been closed. -/
def Fleet.Fails (c : Fleet ι B) (owner : LogEntryPB → ι) (call : IngestCall ι) : Prop :=
  call.wellFormed = true ∧ ∀ pb ∈ call.entry, (c.node (owner pb)).Closed

/-- At each turn of the loop every node could store the entry. -/
def Fleet.HasRoom (c : Fleet ι B) (fuel : Nat) (i : ι) : List (IngestCall ι) → Prop
  | [] => True
  | call :: calls =>
    (∀ pb ∈ call.entry, ∀ k, Fits P (stamped pb (call.now k) (call.freshID k)) ∧
      SeqLeft P (c.node k).store (stamped pb (call.now k) (call.freshID k))) ∧
    (c.ingest P call fuel i).fleet.HasRoom fuel i calls

namespace Fleet

variable {P} {c : Fleet ι B} {call : IngestCall ι} {i k : ι} {pb : LogEntryPB} {T : Int}
  {owner : LogEntryPB → ι}

/-- A call at `i` for a shard ends at `k`: that node takes itself for the primary, and is `i` or the
node that `i` forwards to. -/
structure Takes (c : Fleet ι B) (i : ι) (shard : Int) (k : ι) : Prop where
  named : (c.node k).nodeID ≠ ""
  primary : ∃ reader, (c.node k).stateReader = some reader ∧
    (reader.shardOwners shard).1 = (c.node k).nodeID
  route : k = i ∨ (c.node k).nodeID ≠ (c.node i).nodeID ∧ ∃ reader,
    (c.node i).stateReader = some reader ∧
    (reader.shardOwners shard).1 = (c.node k).nodeID ∧
    reader.nodeAddress (c.node k).nodeID ≠ "" ∧
    c.listens (reader.nodeAddress (c.node k).nodeID) = some k

/-- The nodes agree on the number of shards, and calls at `i` end at the owners. -/
structure Routed (c : Fleet ι B) (i : ι) (T : Int) (owner : LogEntryPB → ι) : Prop where
  totalShards : ∀ j, (c.node j).totalShards = T
  sharded : T ≠ 0
  takes : ∀ pb, c.Takes i (shardID pb.namespace pb.service T) (owner pb)

def restock (c : Fleet ι B) (k : ι) (s : Store B) : Fleet ι B :=
  c.set k { c.node k with store := s }

theorem restock_node (j : ι) (s : Store B) : (c.restock k s).node j =
    { c.node j with store := if j = k then s else (c.node j).store } := by
  by_cases hj : j = k
  · subst hj
    simp [restock, set]
  · simp [restock, set, hj]

theorem Routed.restock (h : c.Routed i T owner) (k : ι) (s : Store B) :
    (c.restock k s).Routed i T owner := by
  refine ⟨fun j => ?_, h.sharded, fun pb => ?_⟩
  · rw [restock_node]
    exact h.totalShards j
  · obtain ⟨hnamed, hprimary, hroute⟩ := h.takes pb
    refine ⟨?_, ?_, ?_⟩
    · rw [restock_node]
      exact hnamed
    · rw [restock_node]
      exact hprimary
    · rw [restock_node, restock_node]
      exact hroute

/-- What a call does whose entry is refused. -/
theorem ingest_malformed (h : call.wellFormed = false) {fuel : Nat} (hfuel : 2 ≤ fuel) :
    (c.ingest P call fuel i).fleet = c ∧ ∃ err, err.code ≠ .internal ∧
      (c.ingest P call fuel i).answer = some (.error err) := by
  obtain ⟨fuel, rfl⟩ : ∃ m, fuel = m + 1 := ⟨fuel - 1, by omega⟩
  have hrefused : ∃ err : RpcError, err.code = .invalidArgument ∧
      (c.node i).handleIngest P call.entry (call.now i) (call.freshID i) = .refused err := by
    unfold IngestCall.wellFormed at h
    cases hentry : call.entry with
    | none => exact ⟨.entryRequired, rfl, rfl⟩
    | some pb =>
      rw [hentry] at h
      simp only [Node.handleIngest]
      by_cases hservice : pb.service = ""
      · exact ⟨.serviceRequired, rfl, if_pos hservice⟩
      · have hmessage : pb.message = "" := by simpa [hservice] using h
        rw [if_neg hservice]
        exact ⟨.messageRequired, rfl, if_pos hmessage⟩
  obtain ⟨err, hcode, hhandled⟩ := hrefused
  rw [Fleet.ingest, hhandled]
  refine ⟨rfl, .handler err, ?_, rfl⟩
  rw [IngestError.code, hcode]
  decide

def appendAnswer (P : ProtoPackage) (s : Store B) (e : LogEntry) : Except IngestError String :=
  match (appendLocked P s e true).2 with
  | none => .ok e.id
  | some err => .error (.handler (.appendFailed err))

theorem ingest_primary (hentry : call.entry = some pb) (hservice : pb.service ≠ "")
    (hmessage : pb.message ≠ "") (hsharded : (c.node k).totalShards ≠ 0) {reader : StateReader}
    (hreader : (c.node k).stateReader = some reader)
    (hprimary : (reader.shardOwners (shardID pb.namespace pb.service (c.node k).totalShards)).1 =
      (c.node k).nodeID) (hnamed : (c.node k).nodeID ≠ "") (fuel : Nat) :
    (c.ingest P call (fuel + 1) k).fleet =
      c.restock k ((c.node k).store.ingest P (stamped pb (call.now k) (call.freshID k))) ∧
    (c.ingest P call (fuel + 1) k).answer =
      some (appendAnswer P (c.node k).store (stamped pb (call.now k) (call.freshID k))) := by
  have hhandled : (c.node k).handleIngest P call.entry (call.now k) (call.freshID k) =
      .wrote ((c.node k).writeLocal P pb
        (reader.shardOwners (shardID pb.namespace pb.service (c.node k).totalShards)).2
        (call.now k) (call.freshID k)) := by
    simp only [hentry, Node.handleIngest, if_neg hservice, if_neg hmessage, if_neg hsharded,
      hreader, hprimary, if_neg hnamed, if_true]
  rw [Fleet.ingest, hhandled]
  simp only [Node.writeLocal, Node.write, appendAnswer]
  cases (appendLocked P (c.node k).store (stamped pb (call.now k) (call.freshID k)) true).2 with
  | none => exact ⟨rfl, rfl⟩
  | some err => exact ⟨rfl, rfl⟩

/-- What a call does whose entry is accepted: it ends at the owner. -/
theorem Routed.ingest (h : c.Routed i T owner) (hentry : call.entry = some pb)
    (hform : call.wellFormed = true) {fuel : Nat} (hfuel : 2 ≤ fuel) :
    (c.ingest P call fuel i).fleet = c.restock (owner pb) ((c.node (owner pb)).store.ingest P
      (stamped pb (call.now (owner pb)) (call.freshID (owner pb)))) ∧
    (c.ingest P call fuel i).answer = some (appendAnswer P (c.node (owner pb)).store
      (stamped pb (call.now (owner pb)) (call.freshID (owner pb)))) := by
  obtain ⟨fuel, rfl⟩ : ∃ m, fuel = m + 2 := ⟨fuel - 2, by omega⟩
  have hfields : pb.service ≠ "" ∧ pb.message ≠ "" := by
    simpa [IngestCall.wellFormed, hentry] using hform
  obtain ⟨hnamed, ⟨reader, hreader, hprimary⟩, hroute⟩ := h.takes pb
  have hsharded : ∀ j, (c.node j).totalShards ≠ 0 := fun j => (h.totalShards j).symm ▸ h.sharded
  rw [← h.totalShards (owner pb)] at hprimary
  have howner := fun fuel => @ingest_primary _ _ _ P c call (owner pb) pb hentry hfields.1
    hfields.2 (hsharded _) reader hreader hprimary hnamed fuel
  rcases hroute with hself | ⟨hother, reader', hreader', hto, haddr, hlistens⟩
  · rw [← hself]
    exact howner (fuel + 1)
  · have hforwarded : (c.node i).handleIngest P call.entry (call.now i) (call.freshID i) =
        .forwarded (c.node (owner pb)).nodeID := by
      refine Node.handleIngest_forwarded.mpr ⟨pb, reader', hentry, hfields.1, hfields.2,
        hsharded i, hreader', ?_, hnamed, hother⟩
      rw [h.totalShards i]
      exact hto
    rw [Fleet.ingest_forwarded hforwarded ((forward_ok hreader').mpr ⟨haddr, hlistens⟩)]
    exact howner fuel

/-- Closing a node keeps appends out of its store. -/
theorem closed_append {s : Store B} (h : s.manager.active = none) (e : LogEntry) :
    s.ingest P e = s ∧
      appendAnswer P s e = .error (.handler (.appendFailed .closedManager)) := by
  simp [Store.ingest, Store.appendWithPath, appendAnswer, appendLocked, h, Store.run]

theorem holding_append {bloom : Bool} {s : Store B} {E : Multiset LogEntry}
    (h : Holding P bloom s E) {e : LogEntry} (he : Fits P e) :
    s.manager.active ≠ none ∧ appendAnswer P s e = .ok e.id := by
  obtain ⟨log, hsteady, -⟩ := h.stored
  obtain ⟨seg, hactive, -⟩ := hsteady.layout.active
  refine ⟨by simp [hactive], ?_⟩
  rw [appendAnswer, appendLocked_eq hactive he.writable]

end Fleet

theorem toInt_count {x : Int32} {n : Nat} (hx : x.toInt = n) (hn : n + 1 < 2 ^ 31) :
    (x + 1).toInt = (n + 1 : Nat) := by
  have hone : (1 : Int32).toInt = 1 := rfl
  rw [Int32.toInt_add, hx, hone]
  simp only [Int.bmod_def]
  omega

/-- What a batch comes to when it begins with the counts `a` and `r`: the calls `done` have been
made, up to the end or to the first for a node that is closed; the counts are those of `done`; and
the nodes that are open hold what they held and the entries of `done` that they own. -/
structure Batched (P : ProtoPackage) (bloom : Bool) (c : Fleet ι B) (owner : LogEntryPB → ι)
    (E : ι → Multiset LogEntry) (calls : List (IngestCall ι)) (a r : Nat)
    (d : BatchDelivery ι B) (done : List (IngestCall ι)) : Prop where
  made : ∀ call ∈ done, ¬ c.Fails owner call
  answer :
    (calls = done ∧ ∃ accepted rejected, d.answer = some (.ok (accepted, rejected)) ∧
      accepted.toInt = (a + done.countP IngestCall.wellFormed : Nat) ∧
      rejected.toInt = (r + done.countP (fun call => !call.wellFormed) : Nat)) ∨
    ∃ call later, calls = done ++ call :: later ∧ c.Fails owner call ∧
      d.answer = some (.error (.storageFailure (.handler (.appendFailed .closedManager))))
  closed : ∀ j, (c.node j).Closed → (d.fleet.node j).store = (c.node j).store
  stores : ∀ j, ¬ (c.node j).Closed →
    Holding P bloom (d.fleet.node j).store
      (E j + (done.filterMap (IngestCall.recordAt owner j) : List LogEntry))

section Loop

variable {P} {bloom : Bool} {c : Fleet ι B} {i : ι} {T : Int} {owner : LogEntryPB → ι}
  {E : ι → Multiset LogEntry} {calls done : List (IngestCall ι)} {call : IngestCall ι}
  {a r : Nat} {d : BatchDelivery ι B}

/-- A rejected call before a batch. -/
theorem Batched.reject (hform : call.wellFormed = false)
    (h : Batched P bloom c owner E calls a (r + 1) d done) :
    Batched P bloom c owner E (call :: calls) a r d (call :: done) := by
  have hnone : ∀ j, call.recordAt owner j = none := by
    intro j
    unfold IngestCall.recordAt
    cases call.entry <;> simp [hform]
  refine ⟨fun x hx => ?_, ?_, h.closed, fun j hj => ?_⟩
  · rcases List.mem_cons.mp hx with rfl | hx
    · exact fun hfails => Bool.false_ne_true (hform.symm.trans hfails.1)
    · exact h.made x hx
  · rcases h.answer with ⟨hall, x, y, hanswer, hx, hy⟩ | ⟨next, later, hsplit, hfails, hanswer⟩
    · refine .inl ⟨by rw [hall], x, y, hanswer, ?_, ?_⟩
      · rw [hx, List.countP_cons_of_neg (by simp [hform])]
      · rw [hy, List.countP_cons_of_pos (by simp [hform])]
        omega
    · exact .inr ⟨next, later, by rw [hsplit, List.cons_append], hfails, hanswer⟩
  · rw [List.filterMap_cons_none (hnone j)]
    exact h.stores j hj

/-- An accepted call before a batch. -/
theorem Batched.accept {pb : LogEntryPB} (hentry : call.entry = some pb)
    (hform : call.wellFormed = true) {s : Store B} {e : LogEntry}
    (he : call.recordAt owner (owner pb) = some e)
    (hopen : ¬ (c.node (owner pb)).Closed) (hs : s.manager.active ≠ none)
    (h : Batched P bloom (c.restock (owner pb) s) owner
      (fun j => if j = owner pb then e ::ₘ E (owner pb) else E j) calls (a + 1) r d done) :
    Batched P bloom c owner E (call :: calls) a r d (call :: done) := by
  have hclosed : ∀ j, ((c.restock (owner pb) s).node j).Closed ↔ (c.node j).Closed := by
    intro j
    rw [Fleet.restock_node]
    by_cases hj : j = owner pb
    · subst hj
      simp only [Node.Closed, if_true]
      exact iff_of_false hs hopen
    · simp [Node.Closed, hj]
  have hfails : ∀ x, (c.restock (owner pb) s).Fails owner x ↔ c.Fails owner x := by
    intro x
    simp only [Fleet.Fails, hclosed]
  refine ⟨fun x hx => ?_, ?_, fun j hj => ?_, fun j hj => ?_⟩
  · rcases List.mem_cons.mp hx with rfl | hx
    · exact fun hfail => hopen (hfail.2 pb hentry)
    · exact fun hfail => h.made x hx ((hfails x).mpr hfail)
  · rcases h.answer with ⟨hall, x, y, hanswer, hx, hy⟩ | ⟨next, later, hsplit, hfail, hanswer⟩
    · refine .inl ⟨by rw [hall], x, y, hanswer, ?_, ?_⟩
      · rw [hx, List.countP_cons_of_pos hform]
        omega
      · rw [hy, List.countP_cons_of_neg (by simp [hform])]
    · exact .inr ⟨next, later, by rw [hsplit, List.cons_append], (hfails next).mp hfail, hanswer⟩
  · have hother : j ≠ owner pb := by
      intro hj'
      exact hopen (hj' ▸ hj)
    rw [h.closed j ((hclosed j).mpr hj), Fleet.restock_node]
    simp [hother]
  · have hholding := h.stores j (fun hc => hj ((hclosed j).mp hc))
    by_cases hown : j = owner pb
    · subst hown
      rw [List.filterMap_cons_some he, ← Multiset.cons_coe, Multiset.add_cons, ← Multiset.cons_add]
      simpa only [if_true] using hholding
    · have hrecord : call.recordAt owner j = none := by
        simp [IngestCall.recordAt, hentry, Ne.symm hown]
      rw [List.filterMap_cons_none hrecord]
      simpa only [if_neg hown] using hholding

theorem stores_restock (h : ∀ j, (c.node j).Closed ∨ Holding P bloom (c.node j).store (E j))
    (k : ι) {s : Store B} {F : Multiset LogEntry} (hs : Holding P bloom s F) (j : ι) :
    ((c.restock k s).node j).Closed ∨
      Holding P bloom ((c.restock k s).node j).store (if j = k then F else E j) := by
  rw [Fleet.restock_node]
  by_cases hj : j = k
  · simpa [hj] using .inr hs
  · simpa [hj, Node.Closed] using h j

/-- The loop of `IngestBatch`, from any counts. -/
theorem batchLoop_batched (hP : P.Inverts) (hB : B.Sound) (hB' : B.RoundTrips) {fuel : Nat}
    (hfuel : 2 ≤ fuel) (hrouted : c.Routed i T owner)
    (hstores : ∀ j, (c.node j).Closed ∨ Holding P bloom (c.node j).store (E j))
    (hroom : c.HasRoom P fuel i calls) {accepted rejected : Int32} (ha : accepted.toInt = a)
    (hr : rejected.toInt = r) (hsum : a + r + calls.length < 2 ^ 31) :
    ∃ done, Batched P bloom c owner E calls a r (c.batchLoop P fuel i calls accepted rejected)
      done := by
  induction calls generalizing c E accepted rejected a r with
  | nil =>
    refine ⟨[], by simp, .inl ⟨rfl, accepted, rejected, rfl, by simpa using ha, by simpa using hr⟩,
      fun j _ => rfl, fun j hj => ?_⟩
    simpa [Fleet.batchLoop] using (hstores j).resolve_left hj
  | cons call calls ih =>
    rw [List.length_cons] at hsum
    cases hform : call.wellFormed with
    | false =>
      obtain ⟨hfleet, err, hcode, hanswer⟩ :=
        Fleet.ingest_malformed (P := P) (c := c) (i := i) hform hfuel
      have hnext := hroom.2
      rw [hfleet] at hnext
      obtain ⟨done, hdone⟩ := ih hrouted hstores hnext ha (toInt_count hr (by omega)) (by omega)
      refine ⟨call :: done, ?_⟩
      simp only [Fleet.batchLoop, hanswer, if_neg hcode, hfleet]
      exact hdone.reject hform
    | true =>
      obtain ⟨pb, hentry⟩ : ∃ pb, call.entry = some pb := by
        cases hentry : call.entry with
        | none => simp [IngestCall.wellFormed, hentry] at hform
        | some pb => exact ⟨pb, rfl⟩
      obtain ⟨hfleet, hanswer⟩ := hrouted.ingest (P := P) hentry hform hfuel
      rcases hstores (owner pb) with hclosed | hholding
      · obtain ⟨hsame, hfailed⟩ := Fleet.closed_append (P := P) hclosed
          (stamped pb (call.now (owner pb)) (call.freshID (owner pb)))
        rw [hsame] at hfleet
        rw [hfailed] at hanswer
        have hstore : ∀ j, ((c.restock (owner pb) (c.node (owner pb)).store).node j).store =
            (c.node j).store := by
          intro j
          rw [Fleet.restock_node]
          by_cases hj : j = owner pb
          · simp [hj]
          · simp [hj]
        refine ⟨[], ?_⟩
        simp only [Fleet.batchLoop, hanswer, hfleet, IngestError.code, RpcError.code, if_true]
        refine ⟨by simp, .inr ⟨call, calls, rfl, ⟨hform, ?_⟩, rfl⟩, fun j _ => hstore j, ?_⟩
        · intro pb' hpb'
          rw [hentry] at hpb'
          cases hpb'
          exact hclosed
        · intro j hj
          rw [hstore]
          simpa using (hstores j).resolve_left hj
      · obtain ⟨hfits, hleft⟩ := hroom.1 pb hentry (owner pb)
        obtain ⟨hactive, hok⟩ := Fleet.holding_append hholding hfits
        rw [hok] at hanswer
        have hnew := hholding.ingest hP hB hB' hfits hleft
        have hnext := hroom.2
        rw [hfleet] at hnext
        obtain ⟨done, hdone⟩ := ih (hrouted.restock _ _) (stores_restock hstores _ hnew) hnext
          (toInt_count ha (by omega)) hr (by omega)
        refine ⟨call :: done, ?_⟩
        simp only [Fleet.batchLoop, hanswer, hfleet]
        exact hdone.accept hentry hform (by simp [IngestCall.recordAt, hentry, hform]) hactive
          (Fleet.holding_append hnew hfits).1

omit [DecidableEq ι] in
/-- With fresh caches every shard has an owner, and calls at any node end there. -/
theorem Fresh.routed {s : Metadata.ClusterState} (h : Fresh c T s) (hs : InOrder T s) (hT : 0 < T)
    (hT' : T < 2 ^ 31) (hhealthy : healthyIDs s ≠ []) (i : ι) :
    ∃ owner, c.Routed i T owner ∧ ∀ pb, ∃ replica,
      s.shards.get (shardID pb.namespace pb.service T) =
        some ⟨shardID pb.namespace pb.service T, (c.node (owner pb)).nodeID, replica⟩ ∧
      (c.node (owner pb)).nodeID ∈ healthyIDs s := by
  have hone : ∀ pb : LogEntryPB, ∃ k, c.Takes i (shardID pb.namespace pb.service T) k ∧
      ∃ replica, s.shards.get (shardID pb.namespace pb.service T) =
        some ⟨shardID pb.namespace pb.service T, (c.node k).nodeID, replica⟩ ∧
      (c.node k).nodeID ∈ healthyIDs s := by
    intro pb
    obtain ⟨id, replica, addr, k, hshard, hid, hname, haddr, hlistens, hk, hcached⟩ :=
      h.primary hs hT' hhealthy (shardID_nonneg _ _ _) (shardID_lt pb.namespace pb.service hT)
    have hself : ∀ j, ∃ reader, (c.node j).stateReader = some reader ∧
        (reader.shardOwners (shardID pb.namespace pb.service T)).1 = id := by
      intro j
      obtain ⟨reader, hreader, hprimary, -⟩ := hcached j
      exact ⟨reader, hreader, hprimary⟩
    by_cases hi : (c.node i).nodeID = id
    · rw [← hi] at hname hself hshard hid
      exact ⟨i, ⟨hname, hself i, .inl rfl⟩, replica, hshard, hid⟩
    · obtain ⟨reader, hreader, hprimary, haddress⟩ := hcached i
      subst hk
      refine ⟨k, ⟨hname, hself k, .inr ⟨Ne.symm hi, reader, hreader, hprimary, ?_, ?_⟩⟩, replica,
        hshard, hid⟩
      · rw [haddress]
        exact haddr
      · rw [haddress]
        exact hlistens
  choose owner htakes hshard using hone
  exact ⟨owner, ⟨h.totalShards, hT.ne', htakes⟩, hshard⟩

end Loop

def oneClosed : Fleet Bool exactFilter :=
  twoFresh.restock true { fresh exactFilter 1000 false with
    manager := { (fresh exactFilter 1000 false).manager with active := none } }

/-- An entry for `a`, one without a message, one for `b`, and another for `a`. -/
def mixedBatch : List (IngestCall Bool) :=
  [⟨some (entryToProto (line "1" "" "mail" "up" 0)), fun _ => 5, fun _ => "x"⟩,
    ⟨some (entryToProto (line "2" "" "mail" "" 0)), fun _ => 6, fun _ => "y"⟩,
    ⟨some (entryToProto (line "3" "" "api" "up" 0)), fun _ => 7, fun _ => "z"⟩,
    ⟨some (entryToProto (line "4" "" "mail" "up" 0)), fun _ => 8, fun _ => "w"⟩]

theorem oneClosed_fresh : Fresh oneClosed 4 (coordinatorRun wireCodec 4 twoJoin) := by
  refine ⟨fun j => ?_, fun j => ?_, fun id n hn hhealthy => ?_⟩
  · rw [oneClosed, Fleet.restock_node]
    exact twoFresh_fresh.totalShards j
  · rw [oneClosed, Fleet.restock_node]
    exact twoFresh_fresh.cached j
  · obtain ⟨k, hlistens, hk⟩ := twoFresh_fresh.reached id n hn hhealthy
    refine ⟨k, hlistens, ?_⟩
    rw [oneClosed, Fleet.restock_node]
    exact hk

end LogEngine.Ingest
