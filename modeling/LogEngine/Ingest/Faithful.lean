import LogEngine.Ingest.Replication
import LogEngine.Ingest.Keeps

namespace LogEngine.Ingest
open Lib Storage

variable {B : BloomPackage} {P : ProtoPackage}

/-- One segment gained the entry at its end and no other one changed. -/
def Gained (P : ProtoPackage) (s s' : Store B) (e : LogEntry) : Prop :=
  ∃ path, IsSeg path ∧ ∀ q, IsSeg q → entriesAt P s'.disk q =
    if q = path then entriesAt P s.disk q ++ [e] else entriesAt P s.disk q

theorem Gained.unique {s s' : Store B} {e e' : LogEntry} (h : Gained P s s' e)
    (h' : Gained P s s' e') : e = e' := by
  obtain ⟨path, hpath, hentries⟩ := h
  obtain ⟨path', -, hentries'⟩ := h'
  have heq := (hentries path hpath).symm.trans (hentries' path hpath)
  rw [if_pos rfl] at heq
  split at heq
  · simpa using heq
  · simp at heq

theorem Gained.ingest (hP : P.Inverts) {s : Store B} (hs : Sound P s) {e : LogEntry}
    (he : Fits P e) : Gained P s (s.ingest P e) e := by
  obtain ⟨-, path, hseg, -, hentries⟩ := hs.ingest hP he
  exact ⟨path, hseg, hentries⟩

theorem write_eq {n : Node B} (hn : Sound P n.store) {e : LogEntry} (he : Fits P e) :
    n.write P e = ({ n with store := n.store.ingest P e }, .ok ()) := by
  obtain ⟨seg, hactive, -⟩ := hn.active
  simp only [Node.write, appendLocked_eq hactive he.writable]

theorem writeLocal_eq {n : Node B} (hn : Sound P n.store) {pb : LogEntryPB} {now : Int64}
    {freshID : String} (he : Fits P (stamped pb now freshID)) (replicaNodeID : String) :
    n.writeLocal P pb replicaNodeID now freshID =
      ({ n with store := n.store.ingest P (stamped pb now freshID) },
        replicaJob n (stamped pb now freshID) replicaNodeID, .ok (stamped pb now freshID).id) := by
  simp only [Node.writeLocal, write_eq hn he]

/-- What `writeLocal` stored and put into the queue. -/
theorem writeLocal_job {n n' : Node B} {pb : LogEntryPB} {replicaNodeID freshID id : String}
    {now : Int64} {job : ReplicaJob}
    (h : n.writeLocal P pb replicaNodeID now freshID = (n', some job, .ok id)) :
    job.entry = stamped pb now freshID ∧
      job.shardID = (if n.totalShards > 0 then shardOf n.totalShards job.entry else 0) ∧
      n'.store = n.store.ingest P job.entry := by
  simp only [Node.writeLocal] at h
  split at h
  · cases h
  · rename_i m hw
    simp only [Prod.mk.injEq] at h
    obtain ⟨hm, hjob, -⟩ := h
    have hstore : m.store = n.store.ingest P (stamped pb now freshID) := by
      rw [show m = (n.write P (stamped pb now freshID)).1 by rw [hw]]
      rfl
    unfold replicaJob at hjob
    split at hjob
    · cases hjob
    · simp only at hjob
      split at hjob
      · cases hjob
        subst hm
        exact ⟨rfl, rfl, hstore⟩
      · cases hjob

theorem stamped_namespace (pb : LogEntryPB) (now : Int64) (freshID : String) :
    (stamped pb now freshID).namespace = pb.namespace := rfl

theorem stamped_shard (pb : LogEntryPB) (now : Int64) (freshID : String) (totalShards : Int) :
    shardOf totalShards (stamped pb now freshID) =
      shardID pb.namespace pb.service totalShards := rfl

theorem sent_eq_iff (e : LogEntry) :
    protoToEntry (Replication.entryToProto e) = e ↔ e.namespace = "" := by
  constructor
  · intro h
    rw [← h]
    rfl
  · intro h
    cases e
    subst h
    rfl

theorem wrapped_iff {shard : Int} (h : 0 ≤ shard) :
    (Int32.ofInt shard).toInt = shard ↔ shard < 2 ^ 31 := by
  constructor
  · intro heq
    have hbound := Int32.toInt_lt (Int32.ofInt shard)
    omega
  · intro hb
    exact OnWire.toInt ⟨by omega, hb⟩

/-- The replica's tests on an entry without namespace: the shard must survive the cut to 32
bits. -/
theorem replicateCheck_iff {r : Node B} {reader : StateReader} {e : LogEntry}
    (hreader : r.stateReader = some reader)
    (howner : (reader.shardOwners (shardOf r.totalShards e)).2 = r.nodeID)
    (hns : e.namespace = "") :
    replicateCheck r (Replication.entryToProto e) (Int32.ofInt
        (if r.totalShards > 0 then shardOf r.totalShards e else 0)) = none ↔
      r.totalShards ≤ 0 ∨ shardOf r.totalShards e < 2 ^ 31 := by
  have hcomputed : shardID (Replication.entryToProto e).namespace
      (Replication.entryToProto e).service r.totalShards = shardOf r.totalShards e := by
    rw [shardOf, hns]
    rfl
  unfold replicateCheck
  by_cases hT : r.totalShards > 0
  · have hle : ¬ r.totalShards ≤ 0 := by omega
    have hnonneg : 0 ≤ shardOf r.totalShards e := shardID_nonneg _ _ _
    simp only [if_pos hT, hcomputed, hreader, hle, false_or, ← wrapped_iff hnonneg]
    by_cases hw : (Int32.ofInt (shardOf r.totalShards e)).toInt = shardOf r.totalShards e
    · simp [hw, howner]
    · rw [if_pos (Ne.symm hw)]
      exact iff_of_false (by simp) hw
  · have hle : r.totalShards ≤ 0 := by omega
    simp [hT, hle]

/-- The replica that both nodes' cluster state names accepts a replicated entry and stores
exactly what the primary stored if and only if the entry has no namespace and its shard is
below 2 ^ 31. -/
theorem replication_faithful_iff (hP : P.Inverts) {n n' r : Node B} (hn : Sound P n.store)
    (hr : Sound P r.store) (hshards : r.totalShards = n.totalShards) {reader : StateReader}
    (hreader : r.stateReader = some reader) {pb : LogEntryPB}
    (howner : (reader.shardOwners
      (shardID pb.namespace pb.service n.totalShards)).2 = r.nodeID)
    {now : Int64} {freshID id : String} {job : ReplicaJob}
    (hwrite : n.writeLocal P pb r.nodeID now freshID = (n', some job, .ok id))
    (hfits : Fits P job.entry)
    (hreached : Fits P (protoToEntry (Replication.entryToProto job.entry))) :
    ((Replication.send P job r).2 = .ok () ∧ ∃ e, Gained P n.store n'.store e ∧
        Gained P r.store (Replication.send P job r).1.store e) ↔
      pb.namespace = "" ∧
        (n.totalShards ≤ 0 ∨ shardID pb.namespace pb.service n.totalShards < 2 ^ 31) := by
  obtain ⟨hentry, hshard, hstore⟩ := writeLocal_job hwrite
  have hprimary : Gained P n.store n'.store job.entry := hstore ▸ .ingest hP hn hfits
  have hns : job.entry.namespace = pb.namespace := by rw [hentry, stamped_namespace]
  have hsh : shardOf n.totalShards job.entry = shardID pb.namespace pb.service n.totalShards := by
    rw [hentry, stamped_shard]
  have hcheck := fun hempty : job.entry.namespace = "" =>
    replicateCheck_iff (e := job.entry) hreader (by rw [hshards, hsh, howner]) hempty
  rw [← hsh, ← hns]
  rw [hshards, ← hshard] at hcheck
  have hsend : replicateCheck r (Replication.entryToProto job.entry) (Int32.ofInt job.shardID) =
      none → Replication.send P job r =
        r.write P (protoToEntry (Replication.entryToProto job.entry)) := by
    intro hc
    simp only [Replication.send, Replication.request, Node.replicateEntry, hc]
  constructor
  · intro h
    obtain ⟨hok, e, he, he'⟩ := h
    cases hc : replicateCheck r (Replication.entryToProto job.entry)
        (Int32.ofInt job.shardID) with
    | some err =>
      simp only [Replication.send, Replication.request, Node.replicateEntry, hc] at hok
      cases hok
    | none =>
      rw [hsend hc] at he'
      simp only [write_eq hr hreached] at he'
      have hsame : protoToEntry (Replication.entryToProto job.entry) = job.entry :=
        ((Gained.ingest hP hr hreached).unique he').trans (he.unique hprimary)
      have hempty := (sent_eq_iff _).mp hsame
      exact ⟨hempty, (hcheck hempty).mp hc⟩
  · intro h
    obtain ⟨hempty, hbound⟩ := h
    have hc := (hcheck hempty).mpr hbound
    have hsame := (sent_eq_iff _).mpr hempty
    rw [hsend hc]
    simp only [write_eq hr hreached]
    exact ⟨trivial, job.entry, hprimary, by rw [hsame]; exact .ingest hP hr hfits⟩

/-- A node of a cluster with four shards, all with primary `a` and replica `b`. -/
def sampleNode (nodeID : String) : Node exactFilter :=
  ⟨nodeID, 4, some ⟨fun _ => ("a", "b"), fun node => node⟩, fresh exactFilter 1000 false⟩

def samplePB («namespace» : String) : LogEntryPB :=
  ⟨"1", 5, 0, "api", "INFO", "hello", .empty, «namespace»⟩

def sampleJob («namespace» : String) : ReplicaJob :=
  ⟨stamped (samplePB «namespace») 7 "auto-1",
    shardOf 4 (stamped (samplePB «namespace») 7 "auto-1"), "b"⟩

/-- Node `a` after it stored the sample entry. -/
def sampleWritten : Node exactFilter :=
  { sampleNode "a" with
    store := (sampleNode "a").store.ingest protobuf (sampleJob "").entry }

theorem replication_faithful_iff_sample :
    (Replication.send protobuf (sampleJob "") (sampleNode "b")).2 = .ok () ∧
      ∃ e, Gained protobuf (sampleNode "a").store sampleWritten.store e ∧
        Gained protobuf (sampleNode "b").store
          (Replication.send protobuf (sampleJob "") (sampleNode "b")).1.store e := by
  have hsound : ∀ nodeID, Sound protobuf (sampleNode nodeID).store := fun _ => fresh_sound _ _ _ _
  have hfits : Fits protobuf (sampleJob "").entry := by decide +kernel
  have hjob : replicaJob (sampleNode "a") (sampleJob "").entry "b" = some (sampleJob "") := by
    decide +kernel
  have hwrite : (sampleNode "a").writeLocal protobuf (samplePB "") (sampleNode "b").nodeID 7
      "auto-1" = (sampleWritten, some (sampleJob ""), .ok "1") :=
    (writeLocal_eq (hsound "a") hfits "b").trans (by rw [← hjob]; rfl)
  refine (replication_faithful_iff protobuf_inverts (hsound "a") (hsound "b") rfl rfl rfl hwrite
    hfits (by decide +kernel)).mpr ⟨rfl, ?_⟩
  decide +kernel

/-- With a namespace the replica hashes the entry without it and refuses the shard that the
primary computed. -/
theorem replication_drops_namespace :
    ((sampleNode "a").writeLocal protobuf (samplePB "t") "b" 7 "auto-1").2.1 =
      some (sampleJob "t") ∧
    (Replication.send protobuf (sampleJob "t") (sampleNode "b")).2.toOption = none ∧
    (replicateCheck (sampleNode "b") (Replication.entryToProto (sampleJob "t").entry)
      (Int32.ofInt (sampleJob "t").shardID)) = some (.shardMismatch 3 "api" 1) := by
  decide +kernel

end LogEngine.Ingest
