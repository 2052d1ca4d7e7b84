import Mathlib.Data.List.Dedup
import LogEngine.Query.Result
import LogEngine.Storage.Log
import LogEngine.Storage.Oversize

namespace LogEngine.Query
open Lib Storage

variable {B : BloomPackage} {P : ProtoPackage}

/-- What a request asks of an entry. A time bound that is not positive is no bound. -/
def Satisfies (req : QueryRequest) (ast : Option Node) (e : LogEntry) : Prop :=
  (req.namespace = "" ∨ e.namespace = req.namespace) ∧
  (req.service = "" ∨ e.service = req.service) ∧ matchesNode e ast = true ∧
  (0 < req.startTime.toInt → req.startTime.toInt ≤ e.timestamp.toInt) ∧
  (0 < req.endTime.toInt → e.timestamp.toInt ≤ req.endTime.toInt)

instance (req : QueryRequest) (ast : Option Node) (e : LogEntry) :
    Decidable (Satisfies req ast e) := inferInstanceAs (Decidable (_ ∧ _))

/-- The answer without index and segments: the distinct entries that satisfy the request, newest
first and then by ID. -/
def fullScan (req : QueryRequest) (ast : Option Node) (es : List LogEntry) : List LogEntry :=
  (es.dedup.filter (fun e => Satisfies req ast e)).insertionSort before

/-- A result shows the page of the request and counts all of the full scan. -/
structure Answers (req : QueryRequest) (ast : Option Node) (es : List LogEntry)
    (r : QueryResult) : Prop where
  total : (fullScan req ast es).length < 2 ^ 31 → r.total.toInt = (fullScan req ast es).length
  entries : r.entries = ((fullScan req ast es).drop req.offset.toInt.toNat).take
    (if req.limit = 0 then 100 else req.limit.toInt.toNat)

theorem mem_fullScan {req : QueryRequest} {ast : Option Node} {es : List LogEntry}
    {x : LogEntry} : x ∈ fullScan req ast es ↔ x ∈ es ∧ Satisfies req ast x := by
  rw [fullScan, List.mem_insertionSort, List.mem_filter, List.mem_dedup, decide_eq_true_eq]

/-- The entries that `Execute` counts are those of the full scan, where records with one ID are
copies and what is read is stored and has every selected entry. -/
theorem matched_fullScan {req : QueryRequest} {ast : Option Node} {es raw : List LogEntry}
    (hids : ∀ a ∈ es, ∀ b ∈ es, a.id = b.id → a = b) (hsub : ∀ x ∈ raw, x ∈ es)
    (hraw : ∀ x ∈ es, selects req ast x = true → x ∈ raw) :
    matched req ast raw = fullScan req ast es := by
  refine matched_eq ?_ (List.pairwise_insertionSort _ _) ?_
  · have hperm := List.perm_insertionSort before
      (es.dedup.filter (fun e => Satisfies req ast e))
    refine (hperm.map LogEntry.id).nodup_iff.mpr ?_
    refine List.Nodup.map_on ?_ ((List.nodup_dedup es).filter _)
    intro a ha b hb heq
    exact hids a (List.mem_dedup.mp (List.mem_of_mem_filter ha)) b
      (List.mem_dedup.mp (List.mem_of_mem_filter hb)) heq
  · intro x
    rw [mem_fullScan, Satisfies, ← selects_iff]
    constructor
    · intro h
      obtain ⟨hx, hsel⟩ := h
      refine ⟨hsel, isFirst_of_mem ?_ (hraw x hx hsel)⟩
      exact fun b hb hk => hids b (hsub b hb) x hx hk
    · intro h
      obtain ⟨hsel, hfirst⟩ := h
      exact ⟨hsub x hfirst.mem, hsel⟩

section Log

variable {s : Store B} {log : String → List LogEntry}

/-- A store whose segments can be read, and whose index leads to every entry. It may also lead to
segments that are gone. -/
structure Searchable (P : ProtoPackage) (s : Store B) (log : String → List LogEntry) : Prop where
  readable : Readable P s.disk
  entries : ∀ p, IsSeg p → entriesAt P s.disk p = log p
  segs : ∀ p, ∀ e ∈ log p, IsSeg p
  indexed : ∃ live, Index.Rep s.index live ∧ (∀ p, ∀ e ∈ log p, (p, e) ∈ live) ∧
    ∀ p e, (p, e) ∈ live → IsSeg p
  bloomless : ∀ p, s.manager.blooms.get p = none

/-- On a searchable store a query is a full scan. -/
theorem Searchable.answers (h : Searchable P s log) {es : List LogEntry}
    (hmem : ∀ x, (∃ p, x ∈ log p) ↔ x ∈ es)
    (hids : ∀ a ∈ es, ∀ b ∈ es, a.id = b.id → a = b) {req : QueryRequest} {ast : Option Node}
    (hlimit : 0 ≤ req.limit) (hoffset : 0 ≤ req.offset)
    (hparse : parse req.queryString = .ok ast) :
    ∃ r, execute P s .background req = .ok r ∧ Answers req ast es r := by
  obtain ⟨live, hrep, hknown, hsegs⟩ := h.indexed
  have hresolved : ∀ p ∈ resolved s req ast, IsSeg p := by
    intro p hp
    rw [resolved, hrep.mem_resolve] at hp
    obtain ⟨⟨x, hx⟩, -⟩ := hp
    exact hsegs p x hx
  have hmatched : matched req ast (reads P s req ast) = fullScan req ast es := by
    refine matched_fullScan hids ?_ ?_
    · intro x hx
      obtain ⟨p, hp, -, hin⟩ := mem_reads.mp hx
      rw [h.entries p (hresolved p hp)] at hin
      exact (hmem x).mp ⟨p, hin⟩
    · intro x hx hsel
      obtain ⟨p, hp⟩ := (hmem x).mpr hx
      have hin : x ∈ entriesAt P s.disk p := by rwa [h.entries p (h.segs p x hp)]
      exact mem_reads.mpr ⟨p, resolved_of_live hrep (hknown p x hp) hsel,
        unpruned h.bloomless ast p, hin⟩
  have hexec := runQuery_reads h.readable hresolved
  refine ⟨finishQuery req ast (reads P s req ast), ?_, fun hlen => ?_, ?_⟩
  · simpa only [execute, if_neg (Int32.not_lt.mpr hlimit), if_neg (Int32.not_lt.mpr hoffset),
      Ctx.background, hparse] using hexec
  · rw [finishQuery, hmatched]
    exact Int32.toInt_ofNat_of_lt hlen
  · rw [finishQuery, hmatched, page]
    split <;> rfl

/-- On a store that is a readable log, with no filters, a query is a full scan. -/
theorem execute_answers (hP : P.Inverts) (h : Logged P s log) (hcat : Catalogued s.index log)
    (hempty : s.manager.blooms = .empty) {es : List LogEntry}
    (hmem : ∀ x, (∃ p, x ∈ log p) ↔ x ∈ es) (hfit : ∀ e ∈ es, Fits P e)
    (hids : ∀ a ∈ es, ∀ b ∈ es, a.id = b.id → a = b) {req : QueryRequest} {ast : Option Node}
    (hlimit : 0 ≤ req.limit) (hoffset : 0 ≤ req.offset)
    (hparse : parse req.queryString = .ok ast) :
    ∃ r, execute P s .background req = .ok r ∧ Answers req ast es r := by
  have hfits : ∀ p, ∀ e ∈ log p, Fits P e := fun p e he => hfit e ((hmem e).mp ⟨p, he⟩)
  have hsegs : ∀ p, ∀ e ∈ log p, IsSeg p := fun p e he => h.segs p (h.mem_paths he)
  obtain ⟨hreadable, hentries⟩ := h.readable hP hfits
  obtain ⟨live, hrep, hlive⟩ := hcat
  have hsearch : Searchable P s log := ⟨hreadable, hentries, hsegs,
    ⟨live, hrep, fun p e he => (hlive p e).mpr he, fun p e he => hsegs p e ((hlive p e).mp he)⟩,
    fun p => by rw [hempty]; rfl⟩
  exact hsearch.answers hmem hids hlimit hoffset hparse

/-- The request that every entry satisfies. -/
def everything : QueryRequest := ⟨"", "", "", 0, 0, 0, 0⟩

theorem everything_parse : parse everything.queryString = .ok none := rfl

/-- When that request is answered, every segment that the index knows was read. -/
theorem everything_reads {live : Index.Live} (hrep : Index.Rep s.index live)
    (hbloomless : ∀ p, s.manager.blooms.get p = none) {p : String} {e : LogEntry}
    (hp : (p, e) ∈ live) {r : QueryResult} (hr : execute P s .background everything = .ok r) :
    ∃ paths all, readSegments P s.disk paths = .ok all ∧ p ∈ paths := by
  have hresolved : p ∈ resolved s everything none := by
    rw [resolved, hrep.mem_resolve]
    refine ⟨⟨e, hp⟩, by simp [indexTokens], .inl rfl, .inl rfl, ?_, ?_⟩ <;>
      exact fun hpos => absurd hpos (by decide)
  have hpath : p ∈ readPaths s everything none :=
    List.mem_filter.mpr ⟨hresolved, by rw [unpruned hbloomless]; rfl⟩
  have hrun : runQuery P s .background everything none = .ok r := by
    have hlimit : ¬ everything.limit < 0 := by decide
    have hoffset : ¬ everything.offset < 0 := by decide
    simpa only [execute, everything_parse, if_neg hlimit, if_neg hoffset, Ctx.background] using hr
  simp only [runQuery, Ctx.background] at hrun
  rw [← readPaths, if_neg (List.ne_nil_of_mem hpath)] at hrun
  split at hrun
  · cases hrun
  · rename_i raw hraw
    exact ⟨_, raw, hraw, hpath⟩

/-- When that request is answered, no record is too large to be read. -/
theorem fits_of_everything (hP : P.Inverts) (h : Logged P s log)
    (hcat : Catalogued s.index log) (hempty : s.manager.blooms = .empty) {r : QueryResult}
    (hr : execute P s .background everything = .ok r) : ∀ p, ∀ e ∈ log p, Fits P e := by
  intro p e he
  obtain ⟨live, hrep, hlive⟩ := hcat
  have hbloomless : ∀ q, s.manager.blooms.get q = none := fun q => by rw [hempty]; rfl
  obtain ⟨paths, all, hall, hp⟩ := everything_reads hrep hbloomless ((hlive p e).mpr he) hr
  exact h.fits hP hall hp e he

end Log

/-- Execution through the index is a full scan for every request exactly when no ingested entry
is larger than what `ReadRecord` accepts. -/
theorem execute_full_scan_iff (hP : P.Inverts) (B : BloomPackage) (maxSegmentBytes : Int)
    {es : List LogEntry} (hes : ∀ e ∈ es, Writable P e)
    (hids : ∀ a ∈ es, ∀ b ∈ es, a.id = b.id → a = b) :
    (∀ req ast, 0 ≤ req.limit → 0 ≤ req.offset → parse req.queryString = .ok ast →
      ∃ r, execute P ((fresh B maxSegmentBytes false).ingestAll P es) .background req = .ok r ∧
        Answers req ast es r) ↔
    ∀ e ∈ es, Fits P e := by
  have hfresh := fresh_logged P B maxSegmentBytes false
  obtain ⟨log, hlog, hmem, hcat⟩ := hfresh.ingestAll hes
  have hcat := hcat (fresh_catalogued B maxSegmentBytes false)
  have hempty := hfresh.ingestAll_blooms rfl hes
  have hin : ∀ x, (∃ p, x ∈ log p) ↔ x ∈ es := fun x => by simp [hmem x]
  constructor
  · intro hall e he
    obtain ⟨r, hr, -⟩ := hall everything none (by decide) (by decide) everything_parse
    obtain ⟨p, hp⟩ := (hin e).mpr he
    exact fits_of_everything hP hlog hcat hempty hr p e hp
  · intro hfit req ast hlimit hoffset hparse
    exact execute_answers hP hlog hcat hempty hin hfit hids hlimit hoffset hparse

theorem execute_full_scan_sample :
    ∃ r, execute protobuf ((fresh exactFilter 100 false).ingestAll protobuf
        [line "1" "t" "orders" "disk full" 1, line "2" "u" "api" "disk ok" 2,
          line "1" "t" "orders" "disk full" 1]) .background ⟨"disk", "t", "", 0, 0, 0, 0⟩ = .ok r ∧
      Answers ⟨"disk", "t", "", 0, 0, 0, 0⟩ (some (.term "disk"))
        [line "1" "t" "orders" "disk full" 1, line "2" "u" "api" "disk ok" 2,
          line "1" "t" "orders" "disk full" 1] r := by
  refine (execute_full_scan_iff protobuf_inverts exactFilter 100 ?_ ?_).mpr ?_ _ _ ?_ ?_ ?_
  · decide +kernel
  · decide +kernel
  · decide +kernel
  · decide
  · decide
  · have hopt : (parse "disk").toOption = some (some (.term "disk")) := by decide +kernel
    cases h : parse "disk" with
    | error err => simp [h, Except.toOption] at hopt
    | ok ast => simpa [h, Except.toOption] using hopt

/-- The segment that holds a line above the limit of the readers cannot be read, and no query that
looks into it is answered. -/
theorem execute_fails_oversize :
    Writable protobuf longLine ∧ ∀ r, execute protobuf
      ((fresh exactFilter 1000 false).ingestAll protobuf [longLine]) .background everything ≠
        .ok r := by
  obtain ⟨hwritable, hlarge⟩ := longLine_size
  refine ⟨hwritable, fun r hr => hlarge ?_⟩
  have hes : ∀ e ∈ [longLine], Writable protobuf e := by simpa using hwritable
  have hfresh := fresh_logged protobuf exactFilter 1000 false
  obtain ⟨log, hlog, hmem, hcat⟩ := hfresh.ingestAll hes
  obtain ⟨p, hp⟩ := (hmem longLine).mpr (.inr (List.mem_singleton_self _))
  exact fits_of_everything protobuf_inverts hlog (hcat (fresh_catalogued exactFilter 1000 false))
    (hfresh.ingestAll_blooms rfl hes) hr p longLine hp

end LogEngine.Query
