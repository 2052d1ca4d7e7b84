import LogEngine.Coordinator.Page

namespace LogEngine.Coordinator
open Lib Storage Query Metadata
open Ingest (entryToProto protoToEntry proto_round_trip)

variable {B : BloomPackage} {P : ProtoPackage} {fanOutLimit : Int32} {w : World B} {s : Store B}
  {req : QueryRequest}

/-- The cluster has one healthy node, which answers at its address with the store `s`, and the
caller waits for it. -/
structure SingleNode (w : World B) (s : Store B) (id : String) : Prop where
  healthy : ∃ n, w.state.nodes.get id = some n ∧ n.status = .healthy ∧ n.address ≠ "" ∧
    w.reach n.address = some s
  single : ∀ i n, w.state.nodes.get i = some n → n.status = .healthy → i = id
  waits : w.ctxErr = none

/-- It is the only target. -/
theorem SingleNode.targets {id : String} (h : SingleNode w s id) :
    ∃ addr, targets w = [(id, addr)] ∧ w.reach addr = some s := by
  obtain ⟨n, hn, hstatus, haddr, hreach⟩ := h.healthy
  have hperm := w.targetOrder.perm w.state.nodes.keys
  have hmem := hperm.mem_iff.mpr (w.state.nodes.mem_keys_iff.mpr ⟨n, hn⟩)
  refine ⟨n.address, filterMap_single (hperm.nodup_iff.mpr w.state.nodes.nodup) hmem ?_ ?_, hreach⟩
  · simp only [targetAddress, hn]
    rw [if_pos ⟨hstatus, haddr⟩]
  · intro i _ hne
    unfold targetAddress
    split
    · rename_i m hm
      rw [if_neg (fun hand => hne (h.single i m hm hand.1))]
    · rfl

/-- A single part without errors is merged to itself. -/
theorem combined_single {part : NodeResult} (herr : part.err = none)
    (hids : (part.entries.map LogEntry.id).Nodup) (hsorted : part.entries.Pairwise before) :
    combined [part] = part.entries := by
  have hreceived : received [part] = part.entries := by
    rw [received_eq (by simpa using herr)]
    simp
  refine eq_of_sorted before_ties (combined_ids _) hids (combined_sorted _) hsorted (fun x => ?_)
  rw [mem_combined, hreceived]
  refine ⟨IsFirst.mem, fun hx => isFirst_of_mem ?_ hx⟩
  exact fun b hb hkey => eq_of_key hids hb hx hkey

theorem nodeMatches_sorted (s : Store B) (req : QueryRequest) :
    (nodeMatches P s req).Pairwise before := by
  unfold nodeMatches
  split
  · exact .nil
  · split
    · exact .nil
    · exact matched_sorted _ _ _

/-- Coordinator and node both fail, or both answer with the same entries in the same order. -/
def Agrees : Except QueryStatus QueryResponse → Except QueryStatus QueryResponse → Prop
  | .ok r, .ok r' => r.entries = r'.entries
  | .error _, .error _ => True
  | _, _ => False

instance : (coordinator node : Except QueryStatus QueryResponse) →
    Decidable (Agrees coordinator node)
  | .ok r, .ok r' => inferInstanceAs (Decidable (r.entries = r'.entries))
  | .error _, .error _ => inferInstanceAs (Decidable True)
  | .ok _, .error _ => inferInstanceAs (Decidable False)
  | .error _, .ok _ => inferInstanceAs (Decidable False)

theorem query_new (sha256 : Bytes → String) (h : w.ctxErr = none) (hlimit : ¬ req.limit < 0)
    (hoffset : ¬ req.offset < 0) :
    ((FanOutExecutor.new fanOutLimit).query P sha256 w req).2 =
      .ok ⟨(mergeResults (partsOf P fanOutLimit w req) req.offset (clientLimit req)).entries.map
          entryToProto,
        (mergeResults (partsOf P fanOutLimit w req) req.offset (clientLimit req)).total,
        (mergeResults (partsOf P fanOutLimit w req) req.offset (clientLimit req)).isPartial⟩ := by
  have hnew : ((FanOutExecutor.new fanOutLimit).execute P sha256 w req).2 = _ :=
    execute_new sha256 h
  simp only [FanOutExecutor.query, if_neg hlimit, if_neg hoffset]
  generalize (FanOutExecutor.new fanOutLimit).execute P sha256 w req = r at hnew
  obtain ⟨e, result⟩ := r
  cases hnew
  rfl

theorem SingleNode.answers {id : String} (h : SingleNode w s id)
    (hlimit : 0 < (nodeLimit fanOutLimit req).toInt) (hexec : Executable P s req) :
    AllAnswer P fanOutLimit w req := by
  obtain ⟨addr, htargets, hreach⟩ := h.targets
  refine ⟨h.waits, fun t ht => ?_⟩
  rw [htargets, List.mem_singleton] at ht
  have hlimit' : ¬ (fanRequest fanOutLimit req).limit < 0 := by
    rw [Int32.lt_iff_toInt_lt]
    exact not_lt.mpr hlimit.le
  refine ⟨s, _, ht ▸ hreach, serve_executable hlimit' ?_ hexec⟩
  exact Int32.lt_irrefl

/-- The page that the coordinator cuts out of the node's window is the node's own. -/
theorem window_page {l : List LogEntry} {offset limit window : Int32} (hoffset : 0 ≤ offset.toInt)
    (hreach : offset.toInt + limit.toInt ≤ window.toInt) (hlimit : 0 < limit.toInt) :
    page limit offset (l.take window.toInt.toNat) = page limit offset l := by
  rw [page, page, List.drop_take, List.take_take]
  congr 1
  omega

/-- For an executable query the merge is the node's own page. -/
theorem SingleNode.merged {id : String} (h : SingleNode w s id) (hexec : Executable P s req)
    (hlimit : 0 ≤ req.limit.toInt) (hoffset : 0 ≤ req.offset.toInt)
    (hreach : req.offset.toInt + (clientLimit req).toInt ≤ (nodeLimit fanOutLimit req).toInt) :
    (mergeResults (partsOf P fanOutLimit w req) req.offset (clientLimit req)).entries =
      page (clientLimit req) req.offset (nodeMatches P s req) := by
  have hpos := clientLimit_pos hlimit
  have hnode : 0 < (nodeLimit fanOutLimit req).toInt := by omega
  obtain ⟨addr, htargets, haddr⟩ := h.targets
  have hparts : partsOf P fanOutLimit w req =
      [ask P w (fanRequest fanOutLimit req) (id, addr)] := by
    rw [partsOf, htargets]
    exact List.perm_singleton.mp (w.arrival.perm _)
  obtain ⟨herr, hentries⟩ := ask_answered (h.answers hnode hexec) hnode
    (by rw [htargets]; exact List.mem_singleton_self _)
  simp only [haddr] at hentries
  have hcombined : combined (partsOf P fanOutLimit w req) =
      (nodeMatches P s req).take (nodeLimit fanOutLimit req).toInt.toNat := by
    rw [hparts, combined_single herr, hentries]
    · rw [hentries]
      exact ((List.take_sublist _ _).map _).nodup (nodeMatches_ids s req)
    · rw [hentries]
      exact (nodeMatches_sorted s req).sublist (List.take_sublist _ _)
  simp only [mergeResults, hcombined, if_pos hpos]
  exact window_page hoffset hreach hpos

/-- Coordinator and node agree exactly on the requests that both refuse and on those that the node
can execute. -/
theorem query_agrees_iff (sha256 : Bytes → String) (fanOutLimit : Int32) {id : String}
    (h : SingleNode w s id) (hsum : req.offset.toInt + (clientLimit req).toInt < 2 ^ 31) :
    Agrees ((FanOutExecutor.new fanOutLimit).query P sha256 w req).2
        (serve P s .background req) ↔
      req.limit < 0 ∨ req.offset < 0 ∨ Executable P s req := by
  by_cases hlimit : req.limit < 0
  · simp [FanOutExecutor.query, serve, hlimit, Agrees]
  by_cases hoffset : req.offset < 0
  · simp [FanOutExecutor.query, serve, hlimit, hoffset, Agrees]
  rw [or_iff_right hlimit, or_iff_right hoffset, query_new sha256 h.waits hlimit hoffset]
  by_cases hexec : Executable P s req
  · rw [serve_executable hlimit hoffset hexec, iff_true_right hexec]
    rw [Int32.lt_iff_toInt_lt, Int32.toInt_zero, not_lt] at hlimit hoffset
    exact congrArg (List.map entryToProto)
      (h.merged hexec hlimit hoffset ((nodeLimit_reaches_iff hlimit hoffset).mpr hsum))
  · obtain ⟨status, hserve⟩ := serve_refused hexec
    rw [hserve]
    exact iff_of_false not_false hexec

theorem executable_of_isOk (h : (serve P s .background req).isOk = true) :
    Executable P s req := by
  by_contra hnot
  obtain ⟨status, hserve⟩ := serve_refused hnot
  rw [hserve] at h
  cases h

theorem oneNode_single (s : Store exactFilter) : SingleNode (oneNode s 0 0) s "a" := by
  refine ⟨⟨_, rfl, rfl, by decide, rfl⟩, ?_, rfl⟩
  intro i n hn _
  simp only [oneNode, GoMap.get_set] at hn
  split at hn
  · assumption
  · cases hn

theorem query_agrees_sample :
    Agrees ((FanOutExecutor.new 2).query protobuf (fun _ => "") (oneNode threeLines 0 0)
        ⟨"up", "t", "", 0, 0, 2, 1⟩).2
      (serve protobuf threeLines .background ⟨"up", "t", "", 0, 0, 2, 1⟩) := by
  refine (query_agrees_iff _ 2 (oneNode_single threeLines) (by decide)).mpr (.inr (.inr ?_))
  exact executable_of_isOk (by decide +kernel)

/-- A query that does not parse: the node reports it, the coordinator answers with no entries. -/
theorem query_hides_error :
    ((FanOutExecutor.new 2).query protobuf (fun _ => "") (oneNode threeLines 0 0)
        ⟨"(", "t", "", 0, 0, 2, 0⟩).2.toOption = some ⟨[], 0, true⟩ ∧
      ¬ Agrees ((FanOutExecutor.new 2).query protobuf (fun _ => "") (oneNode threeLines 0 0)
          ⟨"(", "t", "", 0, 0, 2, 0⟩).2
        (serve protobuf threeLines .background ⟨"(", "t", "", 0, 0, 2, 0⟩) := by
  constructor <;> decide +kernel

end LogEngine.Coordinator
