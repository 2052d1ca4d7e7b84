import LogEngine.Ingest.Complete
import LogEngine.Storage.Oversize
import LogEngine.Storage.Torn

namespace LogEngine.Ingest
open Lib Storage

variable {B : BloomPackage} {P : ProtoPackage}

def RpcError.code : RpcError → Code
  | .entryRequired => .invalidArgument
  | .serviceRequired => .invalidArgument
  | .messageRequired => .invalidArgument
  | .noPrimary _ => .unavailable
  | .shardMismatch _ _ _ => .failedPrecondition
  | .notReplica _ _ _ => .failedPrecondition
  | .appendFailed _ => .internal
  | .invalidSegmentName _ => .invalidArgument
  | .activeSegment _ => .failedPrecondition
  | .segmentNotFound _ => .notFound
  | .writeRecord _ => .internal
  | .noEntries _ _ => .notFound
  | .readSegments _ => .internal

/-- The entries that belong to a shard: all of them where nothing is sharded. -/
def ownEntries (totalShards shard : Int) (es : List LogEntry) : List LogEntry :=
  es.filter (fun e => totalShards ≤ 0 ∨ shardOf totalShards e = shard)

/-- The transfer of a closed segment with entries `es` loses nothing of the shard. -/
structure Lossless (P : ProtoPackage) (n : Node B) (name : String) (shardId : Int32)
    (es : List LogEntry) : Prop where
  sent : ownEntries n.totalShards shardId.toInt es ≠ [] →
    ∃ chunks, n.transferSegment P name shardId = .ok chunks
  received : ∀ chunks, n.transferSegment P name shardId = .ok chunks →
    (∀ c ∈ chunks, c ≠ [] ∧ c.length ≤ 64 * 1024) ∧ ∀ (d : Disk) (path : String),
      readSegment P (d.write path chunks.flatten) path =
        .ok (ownEntries n.totalShards shardId.toInt es)
  notFound : (∃ err, n.transferSegment P name shardId = .error err ∧ err.code = .notFound) ↔
    ownEntries n.totalShards shardId.toInt es = []
  listed : name ∈ n.listSegments P shardId ↔
    ∃ chunks, n.transferSegment P name shardId = .ok chunks

/-- What a transfer without loss takes of the segment and the node. -/
structure Sendable (P : ProtoPackage) (n : Node B) (name : String) (shardId : Int32)
    (es : List LogEntry) : Prop where
  valid : invalidName name = false
  closed : name ≠ n.store.manager.activeSegmentName
  fits : (∀ e ∈ es, Fits P e) ∨ ownEntries n.totalShards shardId.toInt es = []
  shards : 0 ≤ n.totalShards ∨ shardId.toInt = 0 ∨ es = []

theorem filter_inShard (totalShards shard : Int) (es : List LogEntry) :
    es.filter (inShard totalShards shard) = ownEntries totalShards shard es := by
  refine List.filter_congr fun e _ => ?_
  rw [Bool.eq_iff_iff, inShard_iff, decide_eq_true_iff]

theorem chunksOf_size {fuel : Nat} {payload c : Bytes} (h : c ∈ chunksOf fuel payload) :
    c ≠ [] ∧ c.length ≤ transferChunkSize := by
  induction fuel generalizing payload with
  | zero => cases h
  | succ fuel ih =>
    cases payload with
    | nil => cases h
    | cons b bs =>
      rcases List.mem_cons.mp h with rfl | h
      · exact ⟨by simp [transferChunkSize], List.length_take_le _ _⟩
      · exact ih h

theorem readSegments_file {d : Disk} {name : String} {bs : Bytes}
    (h : d.files.get name = some bs) : readSegments P d [name] = decodeSegment P bs := by
  simp only [readSegments, readSegment, h]
  cases hdec : decodeSegment P bs with
  | ok es => simp [Except.map]
  | error err =>
    cases err with
    | notExist path =>
      exact absurd hdec (decodeRecords_ne_notExist (scan_ne_notExist _ _ path))
    | _ => rfl

section Segment

variable {n : Node B} {name : String} {es : List LogEntry}

theorem records_unreadable (hP : P.Inverts) (hes : ∀ e ∈ es, Writable P e)
    (hlarge : ¬ ∀ e ∈ es, Fits P e) :
    ∃ err, decodeSegment P (es.flatMap (record P)) = .error err := by
  cases hdec : decodeSegment P (es.flatMap (record P)) with
  | error err => exact ⟨err, rfl⟩
  | ok all =>
    rw [← List.append_nil (es.flatMap (record P))] at hdec
    exact absurd (records_readable hP hes hdec).1 hlarge

theorem transferSegment_refused (shardId : Int32)
    (h : invalidName name = true ∨ name = n.store.manager.activeSegmentName) :
    ∃ err, n.transferSegment P name shardId = .error err ∧ err.code ≠ .notFound := by
  unfold Node.transferSegment
  by_cases hinvalid : invalidName name = true
  · rw [if_pos hinvalid]
    exact ⟨_, rfl, by simp [RpcError.code]⟩
  · rw [if_neg hinvalid, if_pos (h.resolve_left hinvalid)]
    exact ⟨_, rfl, by simp [RpcError.code]⟩

theorem transferSegment_unreadable {err : ReadError} (hvalid : invalidName name = false)
    (hclosed : name ≠ n.store.manager.activeSegmentName)
    (hread : readSegments P n.store.disk [name] = .error err) (shardId : Int32) :
    n.transferSegment P name shardId = .error (.segmentNotFound name) := by
  simp only [Node.transferSegment, hvalid, Bool.false_eq_true, if_false, if_neg hclosed, hread]

theorem records_eq_nil : es.flatMap (record P) = [] ↔ es = [] := by
  rw [List.flatMap_eq_nil_iff]
  constructor
  · intro h
    refine List.eq_nil_iff_forall_not_mem.mpr fun e he => record_ne_nil e (h e he)
  · rintro rfl
    simp

/-- A readable segment is sent in chunks, unless there is nothing to send. -/
theorem transferSegment_readable (hvalid : invalidName name = false)
    (hclosed : name ≠ n.store.manager.activeSegmentName)
    (hread : readSegments P n.store.disk [name] = .ok es) (hfits : ∀ e ∈ es, Fits P e)
    (shardId : Int32) :
    let own := ownEntries n.totalShards shardId.toInt es
    n.transferSegment P name shardId =
      if own = [] then .error (.noEntries name shardId)
      else .ok (chunksOf (own.flatMap (record P)).length (own.flatMap (record P))) := by
  intro own
  simp only [Node.transferSegment, hvalid, Bool.false_eq_true, if_false, if_neg hclosed, hread,
    transferBuffer_eq hfits, filter_inShard]
  split
  · rename_i heq
    cases heq
  · rename_i heq
    rw [if_pos (records_eq_nil.mp (Except.ok.inj heq))]
  · rename_i payload hne heq
    have hpayload : own.flatMap (record P) = payload := Except.ok.inj heq
    rw [hpayload, if_neg]
    intro hown
    refine hne ?_
    rw [← hpayload, hown]
    rfl

theorem holdsShard_iff (totalShards shard : Int) :
    holdsShard totalShards shard es = true ↔
      ∃ e ∈ es, totalShards = 0 ∨ shardOf totalShards e = shard := by
  simp [holdsShard]

/-- The two filters of the server agree on a segment, except that a negative number of shards
is none for the one and a number for the other. -/
theorem holdsShard_own {totalShards shard : Int} :
    (holdsShard totalShards shard es = true ↔ ownEntries totalShards shard es ≠ []) ↔
      0 ≤ totalShards ∨ shard = 0 ∨ es = [] := by
  have hown : ownEntries totalShards shard es ≠ [] ↔
      ∃ e ∈ es, totalShards ≤ 0 ∨ shardOf totalShards e = shard := by
    rw [ne_eq, List.eq_nil_iff_forall_not_mem, not_forall_not]
    simp only [ownEntries, List.mem_filter, decide_eq_true_iff]
  rw [holdsShard_iff, hown]
  rcases Int.lt_or_le totalShards 0 with hneg | hpos
  · have hsome : (∃ e ∈ es, totalShards ≤ 0 ∨ shardOf totalShards e = shard) ↔ es ≠ [] := by
      rw [ne_eq, List.eq_nil_iff_forall_not_mem, not_forall_not]
      exact exists_congr fun e => and_iff_left (.inl (by omega))
    have hzero : (∃ e ∈ es, totalShards = 0 ∨ shardOf totalShards e = shard) ↔
        es ≠ [] ∧ shard = 0 := by
      rw [ne_eq, List.eq_nil_iff_forall_not_mem, not_forall_not]
      simp only [shardOf_nonpos (Int.le_of_lt hneg), Int.ne_of_lt hneg, false_or,
        exists_and_right, eq_comm]
    rw [hsome, hzero]
    by_cases hes : es = []
    · simp [hes]
    · have hlt : ¬ 0 ≤ totalShards := by omega
      simp [hes, hlt]
  · refine iff_of_true ?_ (.inl hpos)
    refine exists_congr fun e => and_congr_right fun _ => or_congr_left ?_
    omega

end Segment

theorem Lossless.of_readable (hP : P.Inverts) {n : Node B} {name : String} {es : List LogEntry}
    {shardId : Int32} (hname : name ∈ n.store.manager.listClosedSegments)
    (hread : readSegments P n.store.disk [name] = .ok es) (hfits : ∀ e ∈ es, Fits P e)
    (hvalid : invalidName name = false) (hclosed : name ≠ n.store.manager.activeSegmentName) :
    Lossless P n name shardId es ↔
      0 ≤ n.totalShards ∨ shardId.toInt = 0 ∨ es = [] := by
  have htransfer := transferSegment_readable hvalid hclosed hread hfits shardId
  have hlisted : name ∈ n.listSegments P shardId ↔
      holdsShard n.totalShards shardId.toInt es = true := by
    rw [Node.listSegments, List.mem_filter, and_iff_right hname, segmentHolds, hread]
  have hsent : (∃ chunks, n.transferSegment P name shardId = .ok chunks) ↔
      ownEntries n.totalShards shardId.toInt es ≠ [] := by
    rw [htransfer]
    split
    · simp [*]
    · simp [*]
  rw [← holdsShard_own, ← hlisted, ← hsent]
  refine ⟨Lossless.listed, fun h => ⟨hsent.mpr, ?_, ?_, h⟩⟩
  · intro chunks hok
    rw [htransfer] at hok
    split at hok
    · cases hok
    · cases hok
      refine ⟨fun c hc => chunksOf_size hc, fun d path => ?_⟩
      rw [chunksOf_flatten (Nat.le_refl _), readSegment, Disk.write, GoMap.get_set_self]
      exact decodeSegment_records hP fun e he => hfits e (List.mem_of_mem_filter he)
  · rw [htransfer]
    split
    · simp [*, RpcError.code]
    · simp [*]

theorem Lossless.of_unreadable {n : Node B} {name : String} {es : List LogEntry}
    {shardId : Int32} {err : ReadError}
    (hread : readSegments P n.store.disk [name] = .error err)
    (hvalid : invalidName name = false) (hclosed : name ≠ n.store.manager.activeSegmentName) :
    Lossless P n name shardId es ↔ ownEntries n.totalShards shardId.toInt es = [] := by
  have htransfer := transferSegment_unreadable hvalid hclosed hread shardId
  have hlisted : name ∉ n.listSegments P shardId := by
    simp [Node.listSegments, segmentHolds, hread]
  refine ⟨fun h => h.notFound.mp ⟨_, htransfer, rfl⟩, fun hown => ⟨?_, ?_, ?_, ?_⟩⟩
  · exact fun hne => absurd hown hne
  · simp [htransfer]
  · exact iff_of_true ⟨_, htransfer, rfl⟩ hown
  · simp [htransfer, hlisted]

/-- For every closed segment that was written record by record, every number of shards and
every shard. -/
theorem transfer_lossless_iff (hP : P.Inverts) {n : Node B} {name : String}
    (hname : name ∈ n.store.manager.listClosedSegments) {es : List LogEntry}
    (hes : ∀ e ∈ es, Writable P e)
    (hfile : n.store.disk.files.get name = some (es.flatMap (record P))) (shardId : Int32) :
    Lossless P n name shardId es ↔ Sendable P n name shardId es := by
  by_cases hrefused : invalidName name = true ∨ name = n.store.manager.activeSegmentName
  · obtain ⟨err, herr, hcode⟩ := transferSegment_refused (P := P) shardId hrefused
    refine iff_of_false (fun h => ?_) (fun h => ?_)
    · by_cases hown : ownEntries n.totalShards shardId.toInt es = []
      · obtain ⟨err', herr', hcode'⟩ := h.notFound.mpr hown
        rw [herr] at herr'
        cases herr'
        exact hcode hcode'
      · obtain ⟨chunks, hok⟩ := h.sent hown
        rw [herr] at hok
        cases hok
    · rcases hrefused with hinvalid | hactive
      · rw [h.valid] at hinvalid
        cases hinvalid
      · exact h.closed hactive
  · obtain ⟨hvalid, hclosed⟩ := not_or.mp hrefused
    rw [Bool.not_eq_true] at hvalid
    by_cases hfits : ∀ e ∈ es, Fits P e
    · have hread := (readSegments_file hfile).trans (decodeSegment_records hP hfits)
      rw [Lossless.of_readable hP hname hread hfits hvalid hclosed]
      exact ⟨fun h => ⟨hvalid, hclosed, .inl hfits, h⟩, Sendable.shards⟩
    · obtain ⟨err, herr⟩ := records_unreadable hP hes hfits
      rw [Lossless.of_unreadable ((readSegments_file hfile).trans herr) hvalid hclosed]
      constructor
      · intro hown
        refine ⟨hvalid, hclosed, .inr hown, ?_⟩
        rcases Int.lt_or_le n.totalShards 0 with hneg | hpos
        · have hall : ownEntries n.totalShards shardId.toInt es = es := by
            refine List.filter_eq_self.mpr fun e _ => ?_
            simp [Int.le_of_lt hneg]
          exact .inr (.inr (hall ▸ hown))
        · exact .inl hpos
      · exact fun h => h.fits.resolve_left hfits

theorem transfer_lossless_first :
    Lossless protobuf fullNode (segmentName 1) 1 [sampleEntry "p1" "api" 1] :=
  (transfer_lossless_iff protobuf_inverts (by decide +kernel) (by decide +kernel)
    (by decide +kernel) 1).mpr
    ⟨by decide +kernel, by decide +kernel, .inl (by decide +kernel), .inl (by decide +kernel)⟩

/-- An entry that makes the active segment rotate closes it as it is. -/
theorem ingest_closes {s : Store B} {path : String} {size : Int} {e : LogEntry}
    (hactive : s.manager.active = some ⟨path, size⟩) (he : Writable P e)
    (hfull : mustRotate P s ⟨path, size⟩ e = true) (hnew : path ≠ segmentName s.manager.nextSeq)
    (hseg : IsSeg path) :
    (s.ingest P e).manager.paths = s.manager.paths ++ [segmentName s.manager.nextSeq] ∧
      (s.ingest P e).disk.files.get path = s.disk.files.get path := by
  have happended := append_spec true hactive he
  rw [appendTarget, if_pos hfull] at happended
  rw [ingest_eq hactive he]
  refine ⟨?_, happended.others path hseg hnew⟩
  rcases happended.layout with ⟨hsame, -⟩ | ⟨-, hpaths, -⟩
  · rw [hactive] at hsame
    exact absurd (Option.some.inj hsame) hnew
  · exact hpaths

/-- Two entries of one size, of which a segment takes only one. -/
theorem ingest_twice {maxSegmentBytes : Int} {e : LogEntry} (he : Writable P e)
    (hone : (record P e).length ≤ maxSegmentBytes)
    (htwo : maxSegmentBytes < 2 * (record P e).length) :
    let t := (fresh B maxSegmentBytes false).ingestAll P [e, e]
    t.manager.paths = [segmentName 1, segmentName 2] ∧
      t.disk.files.get (segmentName 1) = some (record P e) := by
  generalize hfresh : fresh B maxSegmentBytes false = s
  have hmanager := fresh_manager B maxSegmentBytes false
  have hempty := fresh_get B maxSegmentBytes false (segmentName 1)
  rw [hfresh] at hmanager hempty
  have hactive : s.manager.active = some ⟨segmentName 1, 0⟩ := by rw [hmanager]
  have hmax : s.manager.maxSegmentBytes = maxSegmentBytes := by rw [hmanager]
  have hseq : s.manager.nextSeq = 2 := by rw [hmanager]
  have hpaths : s.manager.paths = [segmentName 1] := by rw [hmanager]
  have hroom : ¬ mustRotate P s ⟨segmentName 1, 0⟩ e = true := by
    rw [mustRotate, ← record_length, decide_eq_true_eq]
    dsimp only
    omega
  obtain ⟨hkept, hnext, hgrown⟩ := append_fitting hactive he hroom true
  have hfirst := append_spec true hactive he
  rw [appendTarget, if_neg hroom] at hfirst
  have hcontent := hfirst.content
  have hlimit := hfirst.maxSegmentBytes
  change ((s.ingest P e).ingest P e).manager.paths = _ ∧
    ((s.ingest P e).ingest P e).disk.files.get _ = _
  generalize hrun : s.run (appendLocked P s e true).1 = t at hkept hnext hgrown hcontent hlimit
  have hsame : (s.ingest P e).manager = t.manager := by rw [ingest_eq hactive he, hrun]
  have hdisk : (s.ingest P e).disk = t.disk := by rw [ingest_eq hactive he, hrun]
  rw [← hsame] at hkept hnext hgrown hlimit
  have hfull : mustRotate P (s.ingest P e) ⟨segmentName 1, 0 + ((record P e).length : Int)⟩ e =
      true := by
    rw [mustRotate, ← record_length, decide_eq_true_eq, hlimit, hmax]
    dsimp only
    omega
  have hnew : segmentName 1 ≠ segmentName (s.ingest P e).manager.nextSeq := by
    rw [hnext, hseq]
    decide +kernel
  obtain ⟨hclosed, hfile⟩ := ingest_closes hgrown he hfull hnew (segmentName_isSeg 1)
  rw [hclosed, hfile, hkept, hpaths, hnext, hseq, hdisk, hcontent, hempty, if_pos rfl]
  exact ⟨rfl, rfl⟩

/-- A line of more than 64 MiB in a closed segment makes the transfer fail as if there were no
entry, and with a negative number of shards a segment can be sent that is not listed. -/
theorem transfer_hides :
    (∃ n : Node exactFilter, n.store = (fresh exactFilter 100000000 false).ingestAll protobuf
        [longLine, longLine] ∧ n.totalShards = 0 ∧
      segmentName 1 ∈ n.store.manager.listClosedSegments ∧
      n.store.disk.files.get (segmentName 1) = some (record protobuf longLine) ∧
      n.transferSegment protobuf (segmentName 1) 0 = .error (.segmentNotFound (segmentName 1))) ∧
    (Node.listSegments protobuf ⟨"a", -1, none, fullPrimary⟩ 1 = [] ∧
      (Node.transferSegment protobuf ⟨"a", -1, none, fullPrimary⟩ (segmentName 1) 1).isOk =
        true) := by
  obtain ⟨hwritable, hlarge⟩ := longLine_size
  constructor
  · have hsize := record_length protobuf longLine
    have hbound := longLine_length
    have hboth := ingest_twice (B := exactFilter) hwritable
      (show ((record protobuf longLine).length : Int) ≤ 100000000 by omega) (by omega)
    generalize (fresh exactFilter 100000000 false).ingestAll protobuf
      [longLine, longLine] = t at hboth
    obtain ⟨hpaths, hfile⟩ := hboth
    have hclosed : segmentName 1 ∈ t.manager.listClosedSegments := by
      rw [Manager.listClosedSegments, hpaths]
      exact List.mem_singleton_self _
    have hactive : segmentName 1 ≠ t.manager.activeSegmentName := by
      rw [Manager.activeSegmentName, hpaths]
      decide +kernel
    have hread := decodeSegment_failed (P := protobuf) (readRecord_large hwritable hlarge [])
    rw [List.append_nil, ← record, ← readSegments_file hfile] at hread
    exact ⟨⟨"a", 0, none, t⟩, rfl, rfl, hclosed, hfile,
      transferSegment_unreadable (by decide +kernel) hactive hread 0⟩
  · decide +kernel

end LogEngine.Ingest
