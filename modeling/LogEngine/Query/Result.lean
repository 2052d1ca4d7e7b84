import LogEngine.Query.Executor
import LogEngine.Storage.Restart

namespace LogEngine.Query
open Lib Storage

instance : Std.Total before where
  total a b := by
    unfold before
    rcases lt_trichotomy a.timestamp.toInt b.timestamp.toInt with h | h | h
    · exact .inr (.inl h)
    · have heq : a.timestamp = b.timestamp := Int64.toInt_inj.mp h
      rcases le_total a.id b.id with hid | hid
      · exact .inl (.inr ⟨heq, hid⟩)
      · exact .inr (.inr ⟨heq.symm, hid⟩)
    · exact .inl (.inl h)

instance : IsTrans LogEntry before where
  trans a b c hab hbc := by
    unfold before at *
    rcases hab with hab | ⟨hab, hid⟩
    · rcases hbc with hbc | ⟨hbc, -⟩
      · exact .inl (lt_trans hbc hab)
      · exact .inl (hbc ▸ hab)
    · rcases hbc with hbc | ⟨hbc, hid'⟩
      · exact .inl (hab ▸ hbc)
      · exact .inr ⟨hab.trans hbc, le_trans hid hid'⟩

/-- Only records with one ID tie. -/
theorem before_ties (a b : LogEntry) (hab : before a b) (hba : before b a) : a.id = b.id := by
  unfold before at *
  rcases hab with hab | ⟨hab, hid⟩
  · rcases hba with hba | ⟨hba, -⟩
    · exact absurd hab (lt_asymm hba)
    · exact absurd hab (by rw [hba]; exact lt_irrefl _)
  · rcases hba with hba | ⟨-, hid'⟩
    · exact absurd hba (by rw [hab]; exact lt_irrefl _)
    · exact le_antisymm hid hid'

variable {req : QueryRequest} {ast : Option Node}

/-- The entries counted are those selected that come first with their ID. -/
theorem mem_matched {raw : List LogEntry} {x : LogEntry} :
    x ∈ matched req ast raw ↔ selects req ast x = true ∧ IsFirst LogEntry.id raw x := by
  rw [matched, List.mem_insertionSort, List.mem_filter, dedup, mem_firsts]
  simp [and_comm]

theorem matched_sorted (req : QueryRequest) (ast : Option Node) (raw : List LogEntry) :
    (matched req ast raw).Pairwise before := List.pairwise_insertionSort _ _

theorem matched_ids (req : QueryRequest) (ast : Option Node) (raw : List LogEntry) :
    ((matched req ast raw).map LogEntry.id).Nodup := by
  have hperm := List.perm_insertionSort before ((dedup raw).filter (selects req ast))
  refine (hperm.map LogEntry.id).nodup_iff.mpr ?_
  exact ((List.filter_sublist (l := dedup raw)).map _).nodup (firsts_keys_nodup raw [])

/-- The order in which the entries are counted is fixed by which they are. -/
theorem matched_eq {raw : List LogEntry} {l : List LogEntry} (hids : (l.map LogEntry.id).Nodup)
    (hsorted : l.Pairwise before)
    (hmem : ∀ x, x ∈ l ↔ selects req ast x = true ∧ IsFirst LogEntry.id raw x) :
    matched req ast raw = l :=
  eq_of_sorted before_ties (matched_ids req ast raw) hids (matched_sorted req ast raw) hsorted
    (fun x => mem_matched.trans (hmem x).symm)

theorem matched_congr {raw raw' : List LogEntry} :
    matched req ast raw = matched req ast raw' ↔ ∀ x, selects req ast x = true →
      (IsFirst LogEntry.id raw x ↔ IsFirst LogEntry.id raw' x) := by
  constructor
  · intro heq x hx
    have hmem : x ∈ matched req ast raw ↔ x ∈ matched req ast raw' := by rw [heq]
    simpa only [mem_matched, hx, true_and] using hmem
  · intro h
    refine matched_eq (matched_ids req ast raw') (matched_sorted req ast raw') ?_
    intro x
    rw [mem_matched]
    exact and_congr_right (fun hx => (h x hx).symm)

/-- What a request selects: all its tests but the query in one line each. -/
theorem selects_iff {x : LogEntry} : selects req ast x = true ↔
    (req.namespace = "" ∨ x.namespace = req.namespace) ∧
    (req.service = "" ∨ x.service = req.service) ∧ matchesNode x ast = true ∧
    (0 < req.startTime.toInt → req.startTime.toInt ≤ x.timestamp.toInt) ∧
    (0 < req.endTime.toInt → x.timestamp.toInt ≤ req.endTime.toInt) := by
  simp only [selects, Bool.and_eq_true, Bool.not_eq_true', Bool.and_eq_false_iff,
    decide_eq_false_iff_not, gt_iff_lt, Int64.lt_iff_toInt_lt, Int64.toInt_zero, not_lt,
    ne_eq, not_not]
  constructor
  · intro h
    obtain ⟨⟨⟨⟨hn, hs⟩, hm⟩, hst⟩, he⟩ := h
    exact ⟨hn, hs, hm, fun hpos => hst.resolve_left (by omega),
      fun hpos => he.resolve_left (by omega)⟩
  · intro h
    obtain ⟨hn, hs, hm, hst, he⟩ := h
    refine ⟨⟨⟨⟨hn, hs⟩, hm⟩, ?_⟩, ?_⟩
    · by_cases hpos : 0 < req.startTime.toInt
      · exact .inr (hst hpos)
      · exact .inl (by omega)
    · by_cases hpos : 0 < req.endTime.toInt
      · exact .inr (he hpos)
      · exact .inl (by omega)

/-- The two copies of the tokenizer agree. -/
theorem tokenize_eq (s : String) : Index.tokenize s = tokenize s := by
  rw [Index.tokenize, tokenize]

theorem matchesTree_term {x : LogEntry} {token : String} :
    matchesTree x (.term token) = true ↔ token ∈ tokenize x.message := by
  rw [matchesTree, List.contains_iff_mem]

/-- An entry that matches has all the words that the index is asked for. -/
theorem indexTokens_of_matches {x : LogEntry} (h : matchesNode x ast = true) :
    ∀ tok ∈ indexTokens ast, tok ∈ Index.tokenize x.message := by
  cases ast with
  | none => simp [indexTokens]
  | some node =>
    change matchesTree x node = true at h
    change ∀ tok ∈ collectTermTokens node, _
    induction node with
    | and l r ihl ihr =>
      simp only [matchesTree, Bool.and_eq_true] at h
      intro tok htok
      rcases List.mem_append.mp htok with htok | htok
      · exact ihl h.1 tok htok
      · exact ihr h.2 tok htok
    | or l r => simp [collectTermTokens]
    | term token =>
      intro tok htok
      rw [List.mem_singleton.mp htok, tokenize_eq]
      exact matchesTree_term.mp h
    | field f v => simp [collectTermTokens]

variable {B : BloomPackage} {P : ProtoPackage}

theorem resolved_sorted (s : Store B) (req : QueryRequest) (ast : Option Node) :
    (resolved s req ast).Pairwise (· ≤ ·) := List.pairwise_insertionSort _ _

def readPaths (s : Store B) (req : QueryRequest) (ast : Option Node) : List String :=
  (resolved s req ast).filter (fun p => !pruned s.manager.blooms ast p)

def reads (P : ProtoPackage) (s : Store B) (req : QueryRequest) (ast : Option Node) :
    List LogEntry :=
  (readPaths s req ast).flatMap (entriesAt P s.disk)

/-- The index leads to every segment under which it has a selected entry. -/
theorem resolved_of_live {s : Store B} {live : Index.Live} (hrep : Index.Rep s.index live)
    {p : String} {x : LogEntry} (hmem : (p, x) ∈ live) (hsel : selects req ast x = true) :
    p ∈ resolved s req ast := by
  obtain ⟨hn, hsvc, hmatch, hst, he⟩ := selects_iff.mp hsel
  rw [resolved, hrep.mem_resolve]
  exact ⟨⟨x, hmem⟩, fun tok htok => ⟨x, hmem, indexTokens_of_matches hmatch tok htok⟩,
    hn.imp_right (fun h => ⟨x, hmem, h⟩), hsvc.imp_right (fun h => ⟨x, hmem, h⟩),
    fun hpos => ⟨x, hmem, hst hpos⟩, fun hpos => ⟨x, hmem, he hpos⟩⟩

theorem resolved_seg {s : Store B} (hs : Indexed P s) {p : String}
    (hp : p ∈ resolved s req ast) : IsSeg p := by
  obtain ⟨live, hrep, hlive⟩ := hs
  rw [resolved, hrep.mem_resolve] at hp
  obtain ⟨⟨x, hx⟩, -⟩ := hp
  exact ((hlive p x).mp hx).1

theorem mem_reads {s : Store B} {x : LogEntry} : x ∈ reads P s req ast ↔
    ∃ p ∈ resolved s req ast, pruned s.manager.blooms ast p = false ∧
      x ∈ entriesAt P s.disk p := by
  simp only [reads, readPaths, List.mem_flatMap, List.mem_filter, Bool.not_eq_true', and_assoc]

theorem unpruned {s : Store B} (h : ∀ p, s.manager.blooms.get p = none) (ast : Option Node)
    (p : String) : pruned s.manager.blooms ast p = false := by
  simp [pruned, h]

/-- Where segments can be read, a query is the evaluation of what it reads. -/
theorem runQuery_reads {s : Store B} (hs : Readable P s.disk)
    (hseg : ∀ p ∈ resolved s req ast, IsSeg p) :
    runQuery P s .background req ast = .ok (finishQuery req ast (reads P s req ast)) := by
  have hpaths : ∀ p ∈ readPaths s req ast, IsSeg p :=
    fun p hp => hseg p (List.mem_filter.mp hp).1
  have hread := readSegments_eq hs hpaths
  simp only [runQuery, Ctx.background]
  rw [← readPaths]
  split
  · rename_i hnil
    rw [reads, hnil, List.flatMap_nil]
  · simp only [hread, reads]

theorem runQuery_eq {s : Store B} (hs : Sound P s) (hi : Indexed P s) (req : QueryRequest)
    (ast : Option Node) :
    runQuery P s .background req ast = .ok (finishQuery req ast (reads P s req ast)) :=
  runQuery_reads hs.readable (fun _ hp => resolved_seg hi hp)

/-- `Execute` on a readable store, for every page of one request. -/
theorem execute_eq {s : Store B} (hs : Sound P s) (hi : Indexed P s)
    (hparse : parse req.queryString = .ok ast) (limit offset : Int32) :
    execute P s .background { req with limit, offset } =
      if limit < 0 then .error .negativeLimit
      else if offset < 0 then .error .negativeOffset
      else .ok
        { entries := page (if limit = 0 then defaultLimit else limit) offset
            (matched req ast (reads P s req ast))
          total := Int32.ofNat (matched req ast (reads P s req ast)).length } := by
  simp only [execute, hparse, runQuery_eq hs hi]
  rfl

end LogEngine.Query
