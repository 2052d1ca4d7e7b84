import LogEngine.Coordinator.Agreement
import LogEngine.Ingest.Conserved
import LogEngine.Query.Refines

namespace LogEngine.Ingest
open Lib Storage Replication

variable {ι : Type} {B : BloomPackage} {P : ProtoPackage} {bloom : Bool}

namespace Traffic

/-- What was stored, copied and passed stays on record. -/
structure Grows (w v : Traffic ι B) : Prop where
  wrote : w.wrote <+: v.wrote
  copied : w.copied <+: v.copied
  passes : w.passes <+: v.passes

variable {w v u : Traffic ι B} {j : ι}

theorem Grows.same (hwrote : v.wrote = w.wrote) (hcopied : v.copied = w.copied)
    (hpasses : v.passes = w.passes) : w.Grows v :=
  ⟨hwrote ▸ List.prefix_rfl, hcopied ▸ List.prefix_rfl, hpasses ▸ List.prefix_rfl⟩

theorem Grows.trans (h : w.Grows v) (h' : v.Grows u) : w.Grows u :=
  ⟨h.wrote.trans h'.wrote, h.copied.trans h'.copied, h.passes.trans h'.passes⟩

theorem Grows.expires (h : w.Grows v) {e : LogEntry} (he : w.Expires j e) : v.Expires j e := by
  obtain ⟨cutoff, hin, hlt⟩ := he
  exact ⟨cutoff, h.passes.subset hin, hlt⟩

variable [DecidableEq ι]

theorem Grows.handle (w : Traffic ι B) (i : ι) (entry : Option LogEntryPB) (now : Int64)
    (freshID : String) : w.Grows (w.handle P i entry now freshID) := by
  unfold Traffic.handle
  split
  · exact .same rfl rfl rfl
  · exact .same rfl rfl rfl
  · cases entry with
    | none => exact .same rfl rfl rfl
    | some pb => exact ⟨List.prefix_append _ _, List.prefix_rfl, List.prefix_rfl⟩
  · exact .same rfl rfl rfl
  · split <;> exact .same rfl rfl rfl

theorem Grows.deliver (w : Traffic ι B) (i : ι) (job : ReplicaJob) (listener : Option ι) :
    w.Grows (w.deliver P i job listener) := by
  cases listener <;> exact ⟨List.prefix_rfl, List.prefix_append _ _, List.prefix_rfl⟩

theorem Grows.step (w : Traffic ι B) (ev : Event ι) : w.Grows (w.step P ev) := by
  cases ev with
  | handle k now freshID =>
    simp only [Traffic.step]
    split
    · exact .same rfl rfl rfl
    · refine Grows.trans ?_ (Grows.handle _ _ _ _ _)
      exact .same rfl rfl rfl
  | drain i addr step arrives =>
    simp only [Traffic.step, drain]
    split
    · exact .same rfl rfl rfl
    · split
      · exact .same rfl rfl rfl
      · split
        · exact .same rfl rfl rfl
        · refine Grows.trans ?_ (Grows.deliver _ _ _ _)
          exact .same rfl rfl rfl
  | retain i now days => exact ⟨List.prefix_rfl, List.prefix_rfl, List.prefix_append _ _⟩
  | restart | finish =>
    simp only [Traffic.step]
    split <;> exact .same rfl rfl rfl
  | call | abandon | cancel | refresh | listen | merge => exact .same rfl rfl rfl

theorem Grows.run (w : Traffic ι B) (events : List (Event ι)) : w.Grows (w.run P events) := by
  induction events generalizing w with
  | nil => exact .same rfl rfl rfl
  | cons ev events ih => exact (Grows.step w ev).trans (ih _)

theorem Grows.arrived (h : w.Grows v) {e : LogEntry} (he : e ∈ w.arrived j) : e ∈ v.arrived j := by
  rw [Traffic.arrived, Multiset.mem_add, Multiset.mem_coe, Multiset.mem_coe] at he ⊢
  exact he.imp (fun hw => (h.wrote.sublist.filterMap _).subset hw)
    (fun hc => (h.copied.sublist.filterMap _).subset hc)

theorem run_append (w : Traffic ι B) (before after : List (Event ι)) :
    w.run P (before ++ after) = (w.run P before).run P after := List.foldl_append

/-- The store of the node that listens at an address. -/
def storeAt (w : Traffic ι B) (addr : String) : Option (Store B) :=
  (w.fleet.listens addr).map (fun j => (w.fleet.node j).store)

end Traffic

theorem AllowedRun.left [DecidableEq ι] {w : Traffic ι B} {before after : List (Event ι)}
    (h : AllowedRun P bloom w (before ++ after)) : AllowedRun P bloom w before := by
  induction before generalizing w with
  | nil => trivial
  | cons ev before ih => exact ⟨h.1, ih h.2⟩

end LogEngine.Ingest

namespace LogEngine.Coordinator
open Lib Storage Query Metadata
open Ingest (Traffic Event AllowedRun Fleet)
open Replication (replicated)

variable {B : BloomPackage} {P : ProtoPackage} {bloom : Bool}

section Degraded

variable {fanOutLimit : Int32} {w : World B} {req : QueryRequest}

/-- Those of the nodes that answer at all can execute the query. -/
def ReachedExecute (P : ProtoPackage) (w : World B) (req : QueryRequest) : Prop :=
  ∀ t ∈ targets w, ∀ s, w.reach t.2 = some s → Executable P s req

theorem ask_reached (h : ReachedExecute P w req) (hlimit : 0 < (nodeLimit fanOutLimit req).toInt)
    {t : String × String} (ht : t ∈ targets w) :
    ((ask P w (fanRequest fanOutLimit req) t).err.isSome = true ↔ w.reach t.2 = none) ∧
    (ask P w (fanRequest fanOutLimit req) t).entries = (match w.reach t.2 with
      | none => []
      | some s => nodeMatches P s req).take (nodeLimit fanOutLimit req).toInt.toNat := by
  cases hreach : w.reach t.2 with
  | none => simp [ask, hreach]
  | some s =>
    have hlimit' : ¬ (fanRequest fanOutLimit req).limit < 0 := by
      rw [Int32.lt_iff_toInt_lt]
      exact not_lt.mpr hlimit.le
    have hne : nodeLimit fanOutLimit req ≠ 0 := by
      intro h0
      rw [h0, Int32.toInt_zero] at hlimit
      exact lt_irrefl _ hlimit
    obtain ⟨resp, hserve⟩ : ∃ resp, serve P s .background (fanRequest fanOutLimit req) = .ok resp :=
      ⟨_, serve_executable hlimit' Int32.lt_irrefl (h t ht s hreach)⟩
    have hwindow := serve_window hserve
    rw [if_neg hne] at hwindow
    simp only [ask, hreach, hserve]
    exact ⟨by simp, hwindow⟩

theorem mem_received_parts (h : ReachedExecute P w req)
    (hlimit : 0 < (nodeLimit fanOutLimit req).toInt) {x : LogEntry} :
    x ∈ received (partsOf P fanOutLimit w req) ↔
      ∃ l ∈ found P w req, x ∈ l.take (nodeLimit fanOutLimit req).toInt.toNat := by
  have hperm := w.arrival.perm ((targets w).map (ask P w (fanRequest fanOutLimit req)))
  constructor
  · intro hx
    obtain ⟨p, hp, hxp⟩ := List.mem_flatMap.mp hx
    obtain ⟨t, ht, rfl⟩ := List.mem_map.mp (hperm.mem_iff.mp (List.mem_filter.mp hp).1)
    rw [(ask_reached h hlimit ht).2] at hxp
    exact ⟨_, List.mem_map.mpr ⟨t, ht, rfl⟩, hxp⟩
  · intro hx
    obtain ⟨l, hl, hxl⟩ := hx
    obtain ⟨t, ht, rfl⟩ := List.mem_map.mp hl
    obtain ⟨herr, hentries⟩ := ask_reached h hlimit ht
    refine List.mem_flatMap.mpr ⟨_, List.mem_filter.mpr
      ⟨hperm.mem_iff.mpr (List.mem_map.mpr ⟨t, ht, rfl⟩), ?_⟩, hentries ▸ hxl⟩
    rw [Option.isNone_iff_eq_none, ← Option.not_isSome_iff_eq_none, herr]
    intro hnone
    simp [hnone] at hxl

/-- Where an ID stands for one entry, the merge of what is reached starts as the merge of all that
the reached nodes match. -/
theorem combined_take (h : ReachedExecute P w req)
    (hlimit : 0 < (nodeLimit fanOutLimit req).toInt) (hids : OneEntryPerID (found P w req))
    {m : Nat} (hm : m ≤ (nodeLimit fanOutLimit req).toInt.toNat) :
    (combined (partsOf P fanOutLimit w req)).take m = (central (found P w req)).take m := by
  have hsorted : ∀ l ∈ found P w req, (l.map LogEntry.id).Nodup ∧ l.Pairwise before := by
    intro l hl
    refine ⟨found_ids w req l hl, ?_⟩
    obtain ⟨t, -, rfl⟩ := List.mem_map.mp hl
    split
    · exact .nil
    · exact nodeMatches_sorted _ _
  refine windows_take before_ties hm hsorted
    ⟨central_ids hids, List.pairwise_insertionSort _ _⟩
    ⟨combined_ids _, combined_sorted _⟩ (fun x => mem_central) (fun x => ?_)
  rw [mem_combined, ← mem_received_parts h hlimit]
  refine ⟨IsFirst.mem, fun hx => isFirst_of_mem (fun b hb hkey => ?_) hx⟩
  have hall : ∀ y ∈ received (partsOf P fanOutLimit w req), y ∈ (found P w req).flatten := by
    intro y hy
    obtain ⟨l, hl, hyl⟩ := (mem_received_parts h hlimit).mp hy
    exact List.mem_flatten.mpr ⟨l, hl, List.mem_of_mem_take hyl⟩
  exact hids b (hall b hb) x (hall x hx) hkey

/-- A fan-out shows the page of what the reached nodes match, and says whether all were reached. -/
theorem fanOut_reached (hwaits : w.ctxErr = none) (h : ReachedExecute P w req)
    (hids : OneEntryPerID (found P w req)) (hlimit : 0 ≤ req.limit.toInt)
    (hoffset : 0 ≤ req.offset.toInt)
    (hsum : req.offset.toInt + (clientLimit req).toInt < 2 ^ 31) :
    ∃ r, fanOut P fanOutLimit w req = .ok r ∧
      r.entries = page (clientLimit req) req.offset (central (found P w req)) ∧
      (r.isPartial = true ↔ ∃ t ∈ targets w, w.reach t.2 = none) := by
  have hpos := clientLimit_pos hlimit
  have hreach : _ ≤ (nodeLimit fanOutLimit req).toInt :=
    (nodeLimit_reaches_iff hlimit hoffset).mpr hsum
  have hnode : 0 < (nodeLimit fanOutLimit req).toInt := by omega
  refine ⟨_, fanOut_eq hwaits, ?_, ?_⟩
  · simp only [mergeResults, if_pos hpos, page]
    rw [List.take_drop, List.take_drop, combined_take h hnode hids (by omega)]
  · have hperm := w.arrival.perm ((targets w).map (ask P w (fanRequest fanOutLimit req)))
    simp only [mergeResults, List.any_eq_true]
    constructor
    · intro hp
      obtain ⟨p, hp, herr⟩ := hp
      obtain ⟨t, ht, rfl⟩ := List.mem_map.mp (hperm.mem_iff.mp hp)
      exact ⟨t, ht, (ask_reached h hnode ht).1.mp herr⟩
    · intro ht
      obtain ⟨t, ht, hnone⟩ := ht
      exact ⟨_, hperm.mem_iff.mpr (List.mem_map.mpr ⟨t, ht, rfl⟩),
        (ask_reached h hnode ht).1.mpr hnone⟩

end Degraded

/-- A node that holds entries, of which no two share an ID, matches those that satisfy the
request. -/
theorem holding_matches (hP : P.Inverts) {s : Store B} {E : Multiset LogEntry}
    (h : Holding P bloom s E) (hids : ∀ a ∈ E, ∀ b ∈ E, a.id = b.id → a = b) {req : QueryRequest}
    {ast : Option Query.Node} (hparse : parse req.queryString = .ok ast)
    (hast : bloom = true → TokenFields ast) :
    Executable P s req ∧ ∀ e, e ∈ nodeMatches P s req ↔ e ∈ E ∧ Satisfies req ast e := by
  obtain ⟨log, hsteady, rfl⟩ := h.stored
  obtain ⟨hreadable, hresolved, hmatched⟩ := @reads_screened _ _ _ _ hP _ h.screened hsteady.kept
    _ (fun x => hsteady.kept.mem_sequence.symm) h.fits hids req ast hast
  have hread : readSegments P s.disk (readPaths s req ast) = .ok (reads P s req ast) :=
    readSegments_eq hreadable (fun p hp => hresolved p (List.mem_filter.mp hp).1)
  refine ⟨⟨ast, _, hparse, hread⟩, fun e => ?_⟩
  simp only [nodeMatches, hparse, hread]
  rw [hmatched, mem_fullScan, Multiset.mem_coe]

/-- A request that is not in the cache is answered by a fan-out. -/
theorem execute_miss {sha256 : Bytes → String} {x : FanOutExecutor} {w : World B}
    {req : QueryRequest} (h : (x.cache.get w.asked (cacheKey sha256 req)).2 = none) :
    (x.execute P sha256 w req).2 = fanOut P x.fanOutLimit w req := by
  unfold FanOutExecutor.execute
  dsimp only
  split
  · rename_i hhit
    rw [hhit] at h
    cases h
  · split
    · rename_i herr
      exact herr.symm
    · rename_i hok
      rw [hok]
      split <;> rfl

section Traffic

variable {ι : Type} [DecidableEq ι]

/-- The stores that a fan-out reads while the nodes go on: an address may not answer, and otherwise
answers after a number of events. -/
def reached (P : ProtoPackage) (w : Traffic ι B) (during : List (Event ι))
    (answers : String → Option Nat) (addr : String) : Option (Store B) :=
  (answers addr).bind (fun k => (w.run P (during.take k)).storeAt addr)

theorem mem_reached {w : Traffic ι B} {during : List (Event ι)} {answers : String → Option Nat}
    {addr : String} {s : Store B} : reached P w during answers addr = some s ↔
      ∃ k j, answers addr = some k ∧ (w.run P (during.take k)).fleet.listens addr = some j ∧
        ((w.run P (during.take k)).fleet.node j).store = s := by
  simp only [reached, Traffic.storeAt, Option.bind_eq_some_iff, Option.map_eq_some_iff]
  tauto

/-- No two entries that primaries stored share an ID, and the copies that were stored lost
nothing. -/
structure Unambiguous (w : Traffic ι B) : Prop where
  ids : ∀ a ∈ w.wrote, ∀ b ∈ w.wrote, a.entry.id = b.entry.id → a.entry = b.entry
  copies : ∀ c ∈ w.copied, c.target ≠ none → replicated c.job.entry = c.job.entry

theorem Unambiguous.arrived {called : List (Option LogEntryPB)} {w : Traffic ι B}
    (h : Unambiguous w) (hw : w.Conserved P bloom called) {j : ι} {e : LogEntry}
    (he : e ∈ w.arrived j) : ∃ a ∈ w.wrote, e = a.entry := by
  obtain ⟨a, ha, he | ⟨he, c, hc, htarget, hentry⟩⟩ := hw.arrived_from he
  · exact ⟨a, ha, he⟩
  · have hsame := h.copies c hc (by simp [htarget])
    rw [hentry] at hsame
    exact ⟨a, ha, he.trans hsame⟩

/-- A store that a node had at a moment between two others. -/
def HadBetween (P : ProtoPackage) (bloom : Bool) (start finish : Traffic ι B) (j : ι)
    (s : Store B) : Prop :=
  ∃ seen : Traffic ι B, start.Grows seen ∧ seen.Grows finish ∧ seen.Stocked P bloom j ∧
    (seen.fleet.node j).store = s

section Between

variable {start finish : Traffic ι B} {called : List (Option LogEntryPB)} {req : QueryRequest}
  {ast : Option Query.Node}

/-- What a node matches that answers between the start and the end of a search. -/
theorem node_matches (hP : P.Inverts) (hconserved : finish.Conserved P bloom called)
    (hclear : Unambiguous finish) {j : ι} {s : Store B} (hs : HadBetween P bloom start finish j s)
    (hparse : parse req.queryString = .ok ast) (hast : bloom = true → TokenFields ast) :
    Executable P s req ∧
    (∀ e ∈ nodeMatches P s req, Satisfies req ast e ∧ ∃ a ∈ finish.wrote, e = a.entry) ∧
    ∀ e ∈ start.arrived j, Satisfies req ast e →
      e ∈ nodeMatches P s req ∨ finish.Expires j e := by
  obtain ⟨seen, hstart, hfinish, hj, rfl⟩ := hs
  obtain ⟨E, hE, hle, hlost⟩ := hj
  have hfrom : ∀ e ∈ E, ∃ a ∈ finish.wrote, e = a.entry :=
    fun e he => hclear.arrived hconserved (hfinish.arrived (Multiset.mem_of_le hle he))
  have hids : ∀ a ∈ E, ∀ b ∈ E, a.id = b.id → a = b := by
    intro a ha b hb hid
    obtain ⟨a', ha', rfl⟩ := hfrom a ha
    obtain ⟨b', hb', rfl⟩ := hfrom b hb
    exact hclear.ids a' ha' b' hb' hid
  obtain ⟨hexec, hmatches⟩ := holding_matches hP hE hids hparse hast
  refine ⟨hexec, fun e he => ?_, fun e he hsat => ?_⟩
  · obtain ⟨heE, hsat⟩ := (hmatches e).mp he
    exact ⟨hsat, hfrom e heE⟩
  · by_cases hin : e ∈ E
    · exact .inl ((hmatches e).mpr ⟨hin, hsat⟩)
    · exact .inr (hfinish.expires (hlost e (hstart.arrived he) hin))

/-- A fan-out to stores that nodes had between two moments. -/
theorem fanOut_between (hP : P.Inverts) (hconserved : finish.Conserved P bloom called)
    (hclear : Unambiguous finish) {v : World B} (hwaits : v.ctxErr = none)
    (hreach : ∀ addr s, v.reach addr = some s → ∃ j, HadBetween P bloom start finish j s)
    (hparse : parse req.queryString = .ok ast) (hast : bloom = true → TokenFields ast)
    (hlimit : 0 ≤ req.limit.toInt) (hoffset : 0 ≤ req.offset.toInt)
    (hsum : req.offset.toInt + (clientLimit req).toInt < 2 ^ 31) {fanOutLimit : Int32} :
    ∃ r all, fanOut P fanOutLimit v req = .ok r ∧
      r.entries = page (clientLimit req) req.offset all ∧
      all.Pairwise before ∧ (all.map LogEntry.id).Nodup ∧
      (r.isPartial = true ↔ ∃ t ∈ targets v, v.reach t.2 = none) ∧
      (∀ e ∈ all, Satisfies req ast e ∧ ∃ a ∈ finish.wrote, e = a.entry) ∧
      ∀ t ∈ targets v, ∀ s, v.reach t.2 = some s → ∀ j, HadBetween P bloom start finish j s →
        ∀ e ∈ start.arrived j, Satisfies req ast e → e ∈ all ∨ finish.Expires j e := by
  have hnode := fun {j s} (hs : HadBetween P bloom start finish j s) =>
    node_matches hP hconserved hclear hs hparse hast
  have hfound : ∀ e ∈ (found P v req).flatten, Satisfies req ast e ∧
      ∃ a ∈ finish.wrote, e = a.entry := by
    intro e he
    obtain ⟨l, hl, hel⟩ := List.mem_flatten.mp he
    obtain ⟨t, -, rfl⟩ := List.mem_map.mp hl
    split at hel
    · cases hel
    · rename_i s hs
      obtain ⟨j, hj⟩ := hreach _ s hs
      exact (hnode hj).2.1 e hel
  have hids : OneEntryPerID (found P v req) := by
    intro a ha b hb hid
    obtain ⟨-, a', ha', rfl⟩ := hfound a ha
    obtain ⟨-, b', hb', rfl⟩ := hfound b hb
    exact hclear.ids a' ha' b' hb' hid
  have hexecute : ReachedExecute P v req := by
    intro t _ s hs
    obtain ⟨j, hj⟩ := hreach _ s hs
    exact (hnode hj).1
  obtain ⟨r, hr, hpage, hpartial⟩ := fanOut_reached hwaits hexecute hids hlimit hoffset hsum
  refine ⟨r, central (found P v req), hr, hpage, List.pairwise_insertionSort _ _,
    central_ids hids, hpartial, fun e he => ?_, ?_⟩
  · exact hfound e (List.mem_flatten.mpr (mem_central.mp he))
  · intro t ht s hs j hj e he hsat
    refine ((hnode hj).2.2 e he hsat).imp_left (fun hin => mem_central.mpr ?_)
    refine ⟨_, List.mem_map.mpr ⟨t, ht, rfl⟩, ?_⟩
    simpa only [hs] using hin

end Between

end Traffic

/-- While the primary takes another entry, a search reaches the replica only. -/
def secondCall : List (Event Bool) :=
  [.call true (some (Ingest.entryToProto (line "2" "" "api" "up again" 1))), .handle 0 7 "y"]

def replicaOnly : World exactFilter where
  state := ⟨(GoMap.empty.set "a" ⟨"a", "host-a", [], .healthy, 0⟩).set "b"
    ⟨"b", "host-b", [], .healthy, 0⟩, .empty⟩
  targetOrder := .listed
  arrival := .listed
  reach := reached protobuf ((Traffic.initial Ingest.twoFresh).run protobuf Ingest.hopAndCopy)
    secondCall (fun addr => if addr = "host-a" then some 1 else none)
  ctxErr := none
  asked := 0
  filled := 0

end LogEngine.Coordinator
