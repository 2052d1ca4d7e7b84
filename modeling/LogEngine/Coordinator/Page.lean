import LogEngine.Coordinator.FanOut

namespace LogEngine.Coordinator
open Lib Storage Query Metadata
open Ingest (entryToProto protoToEntry proto_round_trip)

variable {B : BloomPackage} {P : ProtoPackage}

/-- The entries that a node's executor matches for a request, before it cuts out a page. -/
def nodeMatches (P : ProtoPackage) (s : Store B) (req : QueryRequest) : List LogEntry :=
  match parse req.queryString with
  | .error _ => []
  | .ok ast =>
    match readSegments P s.disk (readPaths s req ast) with
    | .error _ => []
    | .ok raw => matched req ast raw

theorem nodeMatches_ids (s : Store B) (req : QueryRequest) :
    ((nodeMatches P s req).map LogEntry.id).Nodup := by
  unfold nodeMatches
  split
  · exact .nil
  · split
    · exact .nil
    · exact matched_ids _ _ _

/-- A query that is answered has read its segments. -/
theorem runQuery_ok {s : Store B} {req : QueryRequest} {ast : Option Query.Node} {r : QueryResult}
    (h : runQuery P s .background req ast = .ok r) :
    ∃ raw, readSegments P s.disk (readPaths s req ast) = .ok raw ∧ r = finishQuery req ast raw := by
  simp only [runQuery, Ctx.background] at h
  rw [← readPaths] at h
  split at h
  · rename_i hnone
    refine ⟨[], ?_, (Except.ok.inj h).symm⟩
    rw [hnone]
    rfl
  · split at h
    · cases h
    · rename_i raw hraw
      exact ⟨raw, hraw, (Except.ok.inj h).symm⟩

/-- The query can be parsed, and the segments it looks into can be read. -/
def Executable (P : ProtoPackage) (s : Store B) (req : QueryRequest) : Prop :=
  ∃ ast raw, parse req.queryString = .ok ast ∧
    readSegments P s.disk (readPaths s req ast) = .ok raw

/-- A node answers an executable query with a page of what it matches. -/
theorem serve_executable {s : Store B} {req : QueryRequest} (hlimit : ¬ req.limit < 0)
    (hoffset : ¬ req.offset < 0) (h : Executable P s req) :
    serve P s .background req =
      .ok ⟨(page (clientLimit req) req.offset (nodeMatches P s req)).map entryToProto,
        Int32.ofNat (nodeMatches P s req).length, false⟩ := by
  obtain ⟨ast, raw, hparse, hraw⟩ := h
  have hrun : runQuery P s .background req ast = .ok (finishQuery req ast raw) := by
    simp only [runQuery, Ctx.background]
    rw [← readPaths]
    split
    · rename_i hnil
      rw [hnil] at hraw
      cases hraw
      rfl
    · simp only [hraw]
  simp only [serve, execute, if_neg hlimit, if_neg hoffset, Ctx.background] at hrun ⊢
  simp only [hparse, hrun, nodeMatches, hraw]
  rfl

/-- Any other query is refused. -/
theorem serve_refused {s : Store B} {req : QueryRequest} (h : ¬ Executable P s req) :
    ∃ status, serve P s .background req = .error status := by
  unfold serve
  split
  · exact ⟨_, rfl⟩
  rename_i hlimit
  split
  · exact ⟨_, rfl⟩
  rename_i hoffset
  split
  · exact ⟨_, rfl⟩
  rename_i r hr
  simp only [execute, if_neg hlimit, if_neg hoffset, Ctx.background] at hr
  split at hr
  · cases hr
  · rename_i ast hparse
    obtain ⟨raw, hraw, -⟩ := runQuery_ok hr
    exact absurd ⟨ast, raw, hparse, hraw⟩ h

/-- What a node answers is the front of what it matches. -/
theorem serve_window {s : Store B} {req : QueryRequest} {limit : Int32} {resp : QueryResponse}
    (h : serve P s .background { req with limit, offset := 0 } = .ok resp) :
    resp.entries.map protoToEntry =
      (nodeMatches P s req).take (if limit = 0 then defaultLimit else limit).toInt.toNat := by
  have hlimit : ¬ ({ req with limit, offset := 0 } : QueryRequest).limit < 0 := by
    intro hneg
    rw [serve, if_pos hneg] at h
    cases h
  have hoffset : ¬ ({ req with limit, offset := 0 } : QueryRequest).offset < 0 :=
    Int32.lt_irrefl
  by_cases hexec : Executable P s { req with limit, offset := 0 }
  · have hid : protoToEntry ∘ entryToProto = id := funext proto_round_trip
    have hserve := serve_executable hlimit hoffset hexec
    rw [h] at hserve
    rw [Except.ok.inj hserve, List.map_map, hid, List.map_id]
    rfl
  · obtain ⟨status, hserve⟩ := serve_refused hexec
    rw [h] at hserve
    cases hserve

theorem clientLimit_pos {req : QueryRequest} (h : 0 ≤ req.limit.toInt) :
    0 < (clientLimit req).toInt := by
  unfold clientLimit
  split
  · decide
  · rename_i hne
    have hne' : req.limit.toInt ≠ 0 := fun h0 => hne (Int32.toInt_inj.mp (by simpa using h0))
    omega

/-- The limit sent reaches the end of the page exactly when the sum does not wrap. -/
theorem nodeLimit_reaches_iff {fanOutLimit : Int32} {req : QueryRequest}
    (hlimit : 0 ≤ req.limit.toInt) (hoffset : 0 ≤ req.offset.toInt) :
    req.offset.toInt + (clientLimit req).toInt ≤ (nodeLimit fanOutLimit req).toInt ↔
      req.offset.toInt + (clientLimit req).toInt < 2 ^ 31 := by
  have hpos := clientLimit_pos hlimit
  have hmax := (nodeLimit fanOutLimit req).toInt_lt
  constructor
  · intro h
    omega
  · intro hfits
    have hsum : (req.offset + clientLimit req).toInt =
        req.offset.toInt + (clientLimit req).toInt := by
      rw [Int32.toInt_add]
      simp only [Int.bmod_def]
      omega
    unfold nodeLimit
    dsimp only
    split
    · rw [hsum]
    · rename_i hge
      rw [Int32.lt_iff_toInt_lt, hsum] at hge
      omega

/-- The entries that each target matches. -/
def found (P : ProtoPackage) (w : World B) (req : QueryRequest) : List (List LogEntry) :=
  (targets w).map (fun t => match w.reach t.2 with
    | none => []
    | some s => nodeMatches P s req)

/-- The number of distinct entry IDs that match on the targets. -/
def matchCount (P : ProtoPackage) (w : World B) (req : QueryRequest) : Nat :=
  keyCount LogEntry.id (found P w req)

/-- Every target answers, and the caller waits for it. -/
structure AllAnswer (P : ProtoPackage) (fanOutLimit : Int32) (w : World B) (req : QueryRequest) :
    Prop where
  waits : w.ctxErr = none
  answers : ∀ t ∈ targets w, ∃ s resp, w.reach t.2 = some s ∧
    serve P s .background (fanRequest fanOutLimit req) = .ok resp

section Page

variable {fanOutLimit : Int32} {w : World B} {req : QueryRequest}

theorem found_ids (w : World B) (req : QueryRequest) :
    ∀ l ∈ found P w req, (l.map LogEntry.id).Nodup := by
  intro l hl
  obtain ⟨t, -, rfl⟩ := List.mem_map.mp hl
  split
  · exact .nil
  · exact nodeMatches_ids _ _

/-- The parts that are merged. -/
def partsOf (P : ProtoPackage) (fanOutLimit : Int32) (w : World B) (req : QueryRequest) :
    List NodeResult :=
  w.arrival.arrange ((targets w).map (ask P w (fanRequest fanOutLimit req)))

theorem ask_answered (h : AllAnswer P fanOutLimit w req)
    (hlimit : 0 < (nodeLimit fanOutLimit req).toInt) {t : String × String} (ht : t ∈ targets w) :
    (ask P w (fanRequest fanOutLimit req) t).err = none ∧
    (ask P w (fanRequest fanOutLimit req) t).entries = (match w.reach t.2 with
      | none => []
      | some s => nodeMatches P s req).take (nodeLimit fanOutLimit req).toInt.toNat := by
  obtain ⟨s, resp, hreach, hserve⟩ := h.answers t ht
  have hne : nodeLimit fanOutLimit req ≠ 0 := by
    intro h0
    rw [h0] at hlimit
    exact absurd hlimit (by decide)
  have hwindow := serve_window hserve
  rw [if_neg hne] at hwindow
  simp only [ask, hreach, hserve]
  exact ⟨trivial, hwindow⟩

/-- The merge counts as many entries as the targets' windows have between them. -/
theorem combined_count (h : AllAnswer P fanOutLimit w req)
    (hlimit : 0 < (nodeLimit fanOutLimit req).toInt) :
    (combined (partsOf P fanOutLimit w req)).length = keyCount LogEntry.id
      ((found P w req).map (List.take (nodeLimit fanOutLimit req).toInt.toNat)) := by
  have hperm := w.arrival.perm ((targets w).map (ask P w (fanRequest fanOutLimit req)))
  have herr : ∀ p ∈ partsOf P fanOutLimit w req, p.err = none := by
    intro p hp
    obtain ⟨t, ht, rfl⟩ := List.mem_map.mp (hperm.mem_iff.mp hp)
    exact (ask_answered h hlimit ht).1
  have hentries : ((targets w).map (ask P w (fanRequest fanOutLimit req))).map NodeResult.entries =
      (found P w req).map (List.take (nodeLimit fanOutLimit req).toInt.toNat) := by
    rw [found, List.map_map, List.map_map]
    refine List.map_congr_left (fun t ht => ?_)
    rw [Function.comp_apply, (ask_answered h hlimit ht).2, Function.comp_apply]
  have hsent := ((hperm.map NodeResult.entries).trans (.of_eq hentries)).flatten.map LogEntry.id
  rw [combined_length, received_eq herr, keyCount]
  exact Nat.le_antisymm (dedup_length_le hsent.subset) (dedup_length_le hsent.symm.subset)

/-- A caller that waits gets the merge of the parts. -/
theorem fanOut_eq (h : w.ctxErr = none) : fanOut P fanOutLimit w req =
    .ok ⟨(mergeResults (partsOf P fanOutLimit w req) req.offset (clientLimit req)).entries,
      (mergeResults (partsOf P fanOutLimit w req) req.offset (clientLimit req)).total,
      (mergeResults (partsOf P fanOutLimit w req) req.offset (clientLimit req)).isPartial⟩ := by
  simp only [fanOut, h, partsOf]

/-- With an empty cache `Execute` is the fan-out. -/
theorem execute_new (sha256 : Bytes → String) (h : w.ctxErr = none) :
    ((FanOutExecutor.new fanOutLimit).execute P sha256 w req).2 =
      .ok ⟨(mergeResults (partsOf P fanOutLimit w req) req.offset (clientLimit req)).entries,
        (mergeResults (partsOf P fanOutLimit w req) req.offset (clientLimit req)).total,
        (mergeResults (partsOf P fanOutLimit w req) req.offset (clientLimit req)).isPartial⟩ := by
  simp only [FanOutExecutor.execute, FanOutExecutor.new, QueryCache.get, QueryCache.new,
    GoMap.get_empty, fanOut_eq h]
  split <;> rfl

/-- Where every target answers and the limit sent to them reaches the end of the page, it is as full
as the matches of their executors allow. -/
theorem AllAnswer.full_page (h : AllAnswer P fanOutLimit w req) (hlimit : 0 ≤ req.limit.toInt)
    (hoffset : 0 ≤ req.offset.toInt)
    (hnode : req.offset.toInt + (clientLimit req).toInt ≤ (nodeLimit fanOutLimit req).toInt)
    (sha256 : Bytes → String) :
    ∃ r, ((FanOutExecutor.new fanOutLimit).execute P sha256 w req).2 = .ok r ∧
      r.isPartial = false ∧ (r.entries.length : Int) =
        min (clientLimit req).toInt (max 0 (matchCount P w req - req.offset.toInt)) := by
  have hpos := clientLimit_pos hlimit
  have hnodePos : 0 < (nodeLimit fanOutLimit req).toInt := by omega
  refine ⟨_, execute_new sha256 h.waits, ?_, ?_⟩
  · rw [mergeResults, List.any_eq_false]
    intro p hp
    have hperm := w.arrival.perm ((targets w).map (ask P w (fanRequest fanOutLimit req)))
    obtain ⟨t, ht, rfl⟩ := List.mem_map.mp (hperm.mem_iff.mp hp)
    simp [(ask_answered h hnodePos ht).1]
  · have hcount := windows_count (found_ids (P := P) w req)
      (nodeLimit fanOutLimit req).toInt.toNat
    rw [← combined_count h hnodePos, ← matchCount] at hcount
    simp only [mergeResults, if_pos hpos, List.length_take, List.length_drop]
    omega

end Page

/-- A page is full for every set of nodes that all answer, and the limit sent to them reaches its
end, exactly when offset and limit together fit in 31 bits. -/
theorem page_full_iff (P : ProtoPackage) (B : BloomPackage) (sha256 : Bytes → String)
    (fanOutLimit : Int32) (req : QueryRequest) (hlimit : 0 ≤ req.limit.toInt)
    (hoffset : 0 ≤ req.offset.toInt) :
    ((∀ w : World B, AllAnswer P fanOutLimit w req →
      ∃ r, ((FanOutExecutor.new fanOutLimit).execute P sha256 w req).2 = .ok r ∧
        r.isPartial = false ∧ (r.entries.length : Int) =
          min (clientLimit req).toInt (max 0 (matchCount P w req - req.offset.toInt))) ∧
      req.offset.toInt + (clientLimit req).toInt ≤ (nodeLimit fanOutLimit req).toInt) ↔
    req.offset.toInt + (clientLimit req).toInt < 2 ^ 31 := by
  rw [← @nodeLimit_reaches_iff fanOutLimit req hlimit hoffset, and_iff_right_iff_imp]
  intro hnode w h
  exact h.full_page hlimit hoffset hnode sha256

def oneNode (s : Store exactFilter) (asked filled : Int) : World exactFilter where
  state := ⟨GoMap.empty.set "a" ⟨"a", "host-a", [], .healthy, 0⟩, .empty⟩
  targetOrder := .listed
  arrival := .listed
  reach := fun addr => if addr = "host-a" then some s else none
  ctxErr := none
  asked := asked
  filled := filled

def threeLines : Store exactFilter :=
  (fresh exactFilter 1000 false).ingestAll protobuf
    [line "1" "t" "api" "up" 1, line "2" "t" "api" "down" 2, line "3" "t" "api" "up" 3]

theorem threeLines_answer {fanOutLimit : Int32} {req : QueryRequest}
    (h : (serve protobuf threeLines .background (fanRequest fanOutLimit req)).isOk = true) :
    AllAnswer protobuf fanOutLimit (oneNode threeLines 0 0) req := by
  refine ⟨rfl, ?_⟩
  have htargets : targets (oneNode threeLines 0 0) = [("a", "host-a")] := by decide
  rw [htargets]
  intro t ht
  rw [List.mem_singleton.mp ht]
  cases hserve : serve protobuf threeLines .background (fanRequest fanOutLimit req) with
  | error status => simp [hserve, Except.isOk, Except.toBool] at h
  | ok resp => exact ⟨threeLines, resp, rfl, hserve⟩

theorem page_full_sample :
    ∃ r, ((FanOutExecutor.new 2).execute protobuf (fun _ => "") (oneNode threeLines 0 0)
        ⟨"", "t", "", 0, 0, 2, 1⟩).2 = .ok r ∧ r.isPartial = false ∧ r.entries.length = 2 := by
  have hfull := (page_full_iff protobuf exactFilter (fun _ => "") 2 ⟨"", "t", "", 0, 0, 2, 1⟩
    (by decide) (by decide)).mpr (by decide)
  obtain ⟨r, hr, hpartial, hlen⟩ := hfull.1 _ (threeLines_answer (by decide +kernel))
  have hcount : matchCount protobuf (oneNode threeLines 0 0) ⟨"", "t", "", 0, 0, 2, 1⟩ = 3 := by
    decide +kernel
  rw [hcount] at hlen
  have htwo : (r.entries.length : Int) = 2 := hlen.trans (by decide)
  exact ⟨r, hr, hpartial, by omega⟩

/-- Two of three matches are left after the offset, but the sum of offset and limit wraps and the
node is asked for two entries only. -/
theorem page_short :
    AllAnswer protobuf 2 (oneNode threeLines 0 0) ⟨"", "t", "", 0, 0, 2147483647, 1⟩ ∧
    matchCount protobuf (oneNode threeLines 0 0) ⟨"", "t", "", 0, 0, 2147483647, 1⟩ = 3 ∧
    nodeLimit 2 ⟨"", "t", "", 0, 0, 2147483647, 1⟩ = 2 ∧
    ((FanOutExecutor.new 2).execute protobuf (fun _ => "") (oneNode threeLines 0 0)
        ⟨"", "t", "", 0, 0, 2147483647, 1⟩).2.toOption =
      some ⟨[line "2" "t" "api" "down" 2], 2, false⟩ := by
  refine ⟨threeLines_answer ?_, ?_, ?_, ?_⟩
  · decide +kernel
  · decide +kernel
  · decide
  · decide +kernel

end LogEngine.Coordinator
