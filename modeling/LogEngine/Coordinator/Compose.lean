import LogEngine.Coordinator.Search
import LogEngine.Query.Printer

namespace LogEngine.Query
open Lib

/-- Queries that a client joins, each part in parentheses. -/
inductive Combination where
  | query (text : String)
  | both (left right : Combination)
  | either (left right : Combination)

namespace Combination

def text : Combination → String
  | .query text => text
  | .both left right => "(" ++ left.text ++ ")" ++ " AND " ++ ("(" ++ right.text ++ ")")
  | .either left right => "(" ++ left.text ++ ")" ++ " OR " ++ ("(" ++ right.text ++ ")")

/-- The queries that are joined. -/
def parts : Combination → List String
  | .query text => [text]
  | .both left right => left.parts ++ right.parts
  | .either left right => left.parts ++ right.parts

/-- The joined answers to the parts: what is in both, or what is in either, in order. -/
def select (answer : String → List LogEntry) : Combination → List LogEntry
  | .query text => answer text
  | .both left right => (left.select answer).filter (fun e => e ∈ right.select answer)
  | .either left right =>
    let first := left.select answer
    (first ++ (right.select answer).filter (fun e => e ∉ first)).insertionSort before

end Combination

/-- The parts are queries that `Parse` accepts, and not blank. -/
def Combination.Accepted (c : Combination) (asts : String → Node) : Prop :=
  ∀ q ∈ c.parts, parse q = .ok (some (asts q))

def Combination.tree (asts : String → Node) : Combination → Node
  | .query text => asts text
  | .both left right => .and (left.tree asts) (right.tree asts)
  | .either left right => .or (left.tree asts) (right.tree asts)

section Parse

variable {q q' : String} {node node' : Node}

theorem parse_some_iff : parse q = .ok (some node) ↔ OrExpr Operand (lex q) node := by
  simp [parse_ok_iff]

theorem parens_atom (h : parse q = .ok (some node)) :
    Atom Operand (lex ("(" ++ q ++ ")")) node := by
  rw [lex_parens]
  exact .group (parse_some_iff.mp h)

theorem parse_both (h : parse q = .ok (some node)) (h' : parse q' = .ok (some node')) :
    parse ("(" ++ q ++ ")" ++ " AND " ++ ("(" ++ q' ++ ")")) = .ok (some (.and node node')) := by
  rw [parse_some_iff, lex_and]
  exact .one (.more (.one (parens_atom h)) (parens_atom h'))

theorem parse_either (h : parse q = .ok (some node)) (h' : parse q' = .ok (some node')) :
    parse ("(" ++ q ++ ")" ++ " OR " ++ ("(" ++ q' ++ ")")) = .ok (some (.or node node')) := by
  rw [parse_some_iff, lex_or]
  exact .more (.one (.one (parens_atom h))) (.one (parens_atom h'))

end Parse

section Tree

variable {c : Combination} {asts : String → Node}

theorem Combination.Accepted.parse (h : c.Accepted asts) :
    parse c.text = .ok (some (c.tree asts)) := by
  induction c with
  | query text => exact h text (List.mem_singleton.mpr rfl)
  | both left right ihl ihr =>
    exact parse_both (ihl fun q hq => h q (List.mem_append_left _ hq))
      (ihr fun q hq => h q (List.mem_append_right _ hq))
  | either left right ihl ihr =>
    exact parse_either (ihl fun q hq => h q (List.mem_append_left _ hq))
      (ihr fun q hq => h q (List.mem_append_right _ hq))

theorem Combination.tree_fields (h : ∀ q ∈ c.parts, TokenFields (some (asts q))) :
    TokenFields (some (c.tree asts)) := by
  intro node hnode
  cases hnode
  induction c with
  | query text => exact h text (List.mem_singleton.mpr rfl) _ rfl
  | both left right ihl ihr =>
    intro fv hfv
    rcases List.mem_append.mp hfv with hfv | hfv
    · exact ihl (fun q hq => h q (List.mem_append_left _ hq)) fv hfv
    · exact ihr (fun q hq => h q (List.mem_append_right _ hq)) fv hfv
  | either left right ihl ihr =>
    intro fv hfv
    cases hfv

end Tree

end LogEngine.Query

namespace LogEngine.Coordinator
open Lib Storage Query

variable {B : BloomPackage} {P : ProtoPackage} {bloom : Bool}

/-- The targets that answer hold entries, and an ID stands for one entry across all of them. -/
structure Shelved (P : ProtoPackage) (bloom : Bool) (w : World B)
    (held : String → Multiset LogEntry) : Prop where
  holding : ∀ t ∈ targets w, ∀ s, w.reach t.2 = some s → Holding P bloom s (held t.2)
  ids : ∀ t ∈ targets w, ∀ u ∈ targets w, ∀ a ∈ held t.2, ∀ b ∈ held u.2, a.id = b.id → a = b

/-- An entry that some target which answers holds. -/
def OnShelf (w : World B) (held : String → Multiset LogEntry) (e : LogEntry) : Prop :=
  ∃ t ∈ targets w, (w.reach t.2).isSome = true ∧ e ∈ held t.2

/-- All that the targets which answer have for a request, as one list. -/
def listing (P : ProtoPackage) (w : World B) (req : QueryRequest) : List LogEntry :=
  central (found P w req)

section Shelf

variable {w : World B} {held : String → Multiset LogEntry} {req : QueryRequest}
  {ast : Option Query.Node}

theorem OnShelf.ids (h : Shelved P bloom w held) {a b : LogEntry} (ha : OnShelf w held a)
    (hb : OnShelf w held b) (hid : a.id = b.id) : a = b := by
  obtain ⟨t, ht, -, ha⟩ := ha
  obtain ⟨u, hu, -, hb⟩ := hb
  exact h.ids t ht u hu a ha b hb hid

theorem Shelved.matches (hP : P.Inverts) (h : Shelved P bloom w held)
    (hparse : parse req.queryString = .ok ast) (hast : bloom = true → TokenFields ast)
    {t : String × String} (ht : t ∈ targets w) {s : Store B} (hs : w.reach t.2 = some s) :
    Executable P s req ∧ ∀ e, e ∈ nodeMatches P s req ↔ e ∈ held t.2 ∧ Satisfies req ast e :=
  holding_matches hP (h.holding t ht s hs) (h.ids t ht t ht) hparse hast

theorem Shelved.executes (hP : P.Inverts) (h : Shelved P bloom w held)
    (hparse : parse req.queryString = .ok ast) (hast : bloom = true → TokenFields ast) :
    ReachedExecute P w req := by
  intro t ht s hs
  exact (h.matches hP hparse hast ht hs).1

/-- The list is what is on the shelf and satisfies the request. -/
theorem Shelved.mem_listing (hP : P.Inverts) (h : Shelved P bloom w held)
    (hparse : parse req.queryString = .ok ast) (hast : bloom = true → TokenFields ast)
    {e : LogEntry} : e ∈ listing P w req ↔ OnShelf w held e ∧ Satisfies req ast e := by
  rw [listing, mem_central]
  constructor
  · intro hl
    obtain ⟨l, hl, he⟩ := hl
    obtain ⟨t, ht, rfl⟩ := List.mem_map.mp hl
    split at he
    · cases he
    · rename_i s hs
      obtain ⟨hheld, hsat⟩ := ((h.matches hP hparse hast ht hs).2 e).mp he
      exact ⟨⟨t, ht, by simp [hs], hheld⟩, hsat⟩
  · intro he
    obtain ⟨⟨t, ht, hsome, hheld⟩, hsat⟩ := he
    obtain ⟨s, hs⟩ := Option.isSome_iff_exists.mp hsome
    refine ⟨_, List.mem_map.mpr ⟨t, ht, rfl⟩, ?_⟩
    simp only [hs]
    exact ((h.matches hP hparse hast ht hs).2 e).mpr ⟨hheld, hsat⟩

theorem Shelved.found_ids (hP : P.Inverts) (h : Shelved P bloom w held)
    (hparse : parse req.queryString = .ok ast) (hast : bloom = true → TokenFields ast) :
    OneEntryPerID (found P w req) := by
  have hshelf : ∀ e ∈ (found P w req).flatten, OnShelf w held e := by
    intro e he
    exact ((h.mem_listing hP hparse hast).mp (mem_central.mpr (List.mem_flatten.mp he))).1
  intro a ha b hb hid
  exact (hshelf a ha).ids h (hshelf b hb) hid

/-- Targets that hold their entries count each entry that satisfies the request once. -/
theorem Shelved.matchCount_eq (hP : P.Inverts) (h : Shelved P bloom w held)
    (hparse : parse req.queryString = .ok ast) (hast : bloom = true → TokenFields ast)
    {E : Finset LogEntry} (hE : ∀ e, e ∈ E ↔ OnShelf w held e ∧ Satisfies req ast e) :
    matchCount P w req = E.card := by
  have hinj : ∀ a ∈ E, ∀ b ∈ E, a.id = b.id → a = b := fun a ha b hb hid =>
    ((hE a).mp ha).1.ids h ((hE b).mp hb).1 hid
  have hids : ((found P w req).flatten.map LogEntry.id).toFinset = E.image LogEntry.id := by
    ext id
    simp only [List.mem_toFinset, List.mem_map, Finset.mem_image, hE,
      ← h.mem_listing hP hparse hast, listing, mem_central, List.mem_flatten]
  rw [matchCount, keyCount, ← List.card_toFinset, hids, Finset.card_image_of_injOn hinj]

/-- So a page that ends within 31 bits has all of the entries on the shelf that satisfy the request
and belong on it. -/
theorem Shelved.full_page (hP : P.Inverts) (h : Shelved P bloom w held)
    (hparse : parse req.queryString = .ok ast) (hast : bloom = true → TokenFields ast)
    (hwaits : w.ctxErr = none) (hreach : ∀ t ∈ targets w, (w.reach t.2).isSome = true)
    (hlimit : 0 ≤ req.limit.toInt) (hoffset : 0 ≤ req.offset.toInt)
    (hsum : req.offset.toInt + (clientLimit req).toInt < 2 ^ 31) (fanOutLimit : Int32)
    (sha256 : Bytes → String) {E : Finset LogEntry}
    (hE : ∀ e, e ∈ E ↔ OnShelf w held e ∧ Satisfies req ast e) :
    ∃ r, ((FanOutExecutor.new fanOutLimit).execute P sha256 w req).2 = .ok r ∧
      r.isPartial = false ∧ (r.entries.length : Int) =
        min (clientLimit req).toInt (max 0 (E.card - req.offset.toInt)) := by
  have hnode : req.offset.toInt + (clientLimit req).toInt ≤ (nodeLimit fanOutLimit req).toInt :=
    (nodeLimit_reaches_iff hlimit hoffset).mpr hsum
  have hpos := clientLimit_pos hlimit
  have hanswers : AllAnswer P fanOutLimit w req := by
    refine ⟨hwaits, fun t ht => ?_⟩
    obtain ⟨s, hs⟩ := Option.isSome_iff_exists.mp (hreach t ht)
    have hsent : ¬ (fanRequest fanOutLimit req).limit < 0 := by
      rw [Int32.lt_iff_toInt_lt]
      show ¬ (nodeLimit fanOutLimit req).toInt < 0
      omega
    have hstart : ¬ (fanRequest fanOutLimit req).offset < 0 := show ¬ (0 : Int32) < 0 by decide
    exact ⟨s, _, hs, serve_executable hsent hstart (h.matches hP hparse hast ht hs).1⟩
  rw [← h.matchCount_eq hP hparse hast hE]
  exact hanswers.full_page hlimit hoffset hnode sha256

/-- A list of entries on the shelf that is in the order of an answer. -/
structure InOrder (w : World B) (held : String → Multiset LogEntry) (l : List LogEntry) : Prop where
  shelf : ∀ e ∈ l, OnShelf w held e
  ids : (l.map LogEntry.id).Nodup
  sorted : l.Pairwise before

theorem Shelved.listing_inOrder (hP : P.Inverts) (h : Shelved P bloom w held)
    (hparse : parse req.queryString = .ok ast) (hast : bloom = true → TokenFields ast) :
    InOrder w held (listing P w req) where
  shelf := fun _ he => ((h.mem_listing hP hparse hast).mp he).1
  ids := central_ids (h.found_ids hP hparse hast)
  sorted := List.pairwise_insertionSort _ _

theorem InOrder.filter {l : List LogEntry} (h : InOrder w held l) (p : LogEntry → Bool) :
    InOrder w held (l.filter p) where
  shelf := fun e he => h.shelf e (List.mem_of_mem_filter he)
  ids := (List.filter_sublist.map _).nodup h.ids
  sorted := h.sorted.filter p

theorem InOrder.union (hw : Shelved P bloom w held) {l l' : List LogEntry} (h : InOrder w held l)
    (h' : InOrder w held l') :
    InOrder w held ((l ++ l'.filter (fun e => e ∉ l)).insertionSort before) := by
  have hmem : ∀ e ∈ l ++ l'.filter (fun e => e ∉ l), OnShelf w held e := by
    intro e he
    rcases List.mem_append.mp he with he | he
    · exact h.shelf e he
    · exact h'.shelf e (List.mem_of_mem_filter he)
  refine ⟨fun e he => hmem e ((List.mem_insertionSort _).mp he), ?_,
    List.pairwise_insertionSort _ _⟩
  refine ((List.perm_insertionSort before _).map LogEntry.id).nodup_iff.mpr ?_
  rw [List.map_append]
  refine List.Nodup.append h.ids (h'.filter _).ids ?_
  intro id hid hid'
  obtain ⟨a, ha, rfl⟩ := List.mem_map.mp hid
  obtain ⟨b, hb, hab⟩ := List.mem_map.mp hid'
  obtain ⟨hbl', hbl⟩ := List.mem_filter.mp hb
  have hsame : b = a := (h'.shelf b hbl').ids hw (h.shelf a ha) hab
  rw [hsame] at hbl
  exact (of_decide_eq_true hbl) ha

theorem satisfies_iff (req : QueryRequest) (ast : Option Query.Node) (e : LogEntry) :
    Satisfies req ast e ↔ Satisfies req none e ∧ matchesNode e ast = true := by
  constructor
  · intro h
    obtain ⟨hnamespace, hservice, hmatch, hstart, hend⟩ := h
    exact ⟨⟨hnamespace, hservice, rfl, hstart, hend⟩, hmatch⟩
  · intro h
    obtain ⟨⟨hnamespace, hservice, -, hstart, hend⟩, hmatch⟩ := h
    exact ⟨hnamespace, hservice, hmatch, hstart, hend⟩

theorem satisfies_both {left right : Query.Node} {e : LogEntry} :
    Satisfies req (some (.and left right)) e ↔
      Satisfies req (some left) e ∧ Satisfies req (some right) e := by
  rw [satisfies_iff req (some (.and left right)), satisfies_iff req (some left),
    satisfies_iff req (some right)]
  simp only [matchesNode, matchesTree, Bool.and_eq_true]
  exact and_and_left

theorem satisfies_either {left right : Query.Node} {e : LogEntry} :
    Satisfies req (some (.or left right)) e ↔
      Satisfies req (some left) e ∨ Satisfies req (some right) e := by
  rw [satisfies_iff req (some (.or left right)), satisfies_iff req (some left),
    satisfies_iff req (some right)]
  simp only [matchesNode, matchesTree, Bool.or_eq_true]
  exact and_or_left

def asking (req : QueryRequest) (query : String) : QueryRequest :=
  { req with queryString := query }

/-- The joined answers are in order, and hold what is on the shelf and matches the tree. -/
theorem select_inOrder (hP : P.Inverts) (h : Shelved P bloom w held) (req : QueryRequest)
    {c : Combination} {asts : String → Query.Node} (hc : c.Accepted asts)
    (hast : bloom = true → ∀ q ∈ c.parts, TokenFields (some (asts q))) :
    InOrder w held (c.select (fun q => listing P w (asking req q))) ∧
    ∀ e, e ∈ c.select (fun q => listing P w (asking req q)) ↔
      OnShelf w held e ∧ Satisfies req (some (c.tree asts)) e := by
  induction c with
  | query q =>
    have hparse : parse (asking req q).queryString = .ok (some (asts q)) :=
      hc q (List.mem_singleton.mpr rfl)
    have hfields : bloom = true → TokenFields (some (asts q)) :=
      fun hb => hast hb q (List.mem_singleton.mpr rfl)
    exact ⟨h.listing_inOrder hP hparse hfields, fun e => h.mem_listing hP hparse hfields⟩
  | both left right ihl ihr =>
    obtain ⟨hl, hml⟩ := ihl (fun q hq => hc q (List.mem_append_left _ hq))
      (fun hb q hq => hast hb q (List.mem_append_left _ hq))
    obtain ⟨-, hmr⟩ := ihr (fun q hq => hc q (List.mem_append_right _ hq))
      (fun hb q hq => hast hb q (List.mem_append_right _ hq))
    refine ⟨hl.filter _, fun e => ?_⟩
    simp only [Combination.select, Combination.tree, List.mem_filter, decide_eq_true_eq, hml, hmr,
      satisfies_both]
    exact and_and_left.symm
  | either left right ihl ihr =>
    obtain ⟨hl, hml⟩ := ihl (fun q hq => hc q (List.mem_append_left _ hq))
      (fun hb q hq => hast hb q (List.mem_append_left _ hq))
    obtain ⟨hr, hmr⟩ := ihr (fun q hq => hc q (List.mem_append_right _ hq))
      (fun hb q hq => hast hb q (List.mem_append_right _ hq))
    refine ⟨hl.union h hr, fun e => ?_⟩
    simp only [Combination.select, Combination.tree, List.mem_insertionSort, List.mem_append,
      List.mem_filter, decide_eq_true_eq, hml, hmr, satisfies_either]
    tauto

/-- The query language is compositional across the cluster. Queries that `Parse` accepts can be
joined with AND and OR to any depth, each part in parentheses; the joined text is accepted, and the
coordinator's answer to it is the page of the joined answers to the parts: the entries in both
lists, or those in either, in order and without repetition. -/
theorem queries_compose (hP : P.Inverts) (w : World B) (hwaits : w.ctxErr = none)
    (held : String → Multiset LogEntry) (h : Shelved P bloom w held) (req : QueryRequest)
    (hlimit : 0 ≤ req.limit.toInt) (hoffset : 0 ≤ req.offset.toInt)
    (hsum : req.offset.toInt + (clientLimit req).toInt < 2 ^ 31) (c : Combination)
    (asts : String → Query.Node) (hc : c.Accepted asts)
    (hast : bloom = true → ∀ q ∈ c.parts, TokenFields (some (asts q))) (sha256 : Bytes → String)
    (x : FanOutExecutor)
    (hmiss : (x.cache.get w.asked (cacheKey sha256 (asking req c.text))).2 = none) :
    ∃ r, (x.execute P sha256 w (asking req c.text)).2 = .ok r ∧
      r.entries = page (clientLimit req) req.offset
        (c.select (fun q => listing P w (asking req q))) ∧
      (r.isPartial = true ↔ ∃ t ∈ targets w, w.reach t.2 = none) := by
  have hparse : parse (asking req c.text).queryString = .ok (some (c.tree asts)) := hc.parse
  have hfields : bloom = true → TokenFields (some (c.tree asts)) :=
    fun hb => Combination.tree_fields (hast hb)
  obtain ⟨r, hr, hpage, hpartial⟩ := fanOut_reached hwaits
    (h.executes hP hparse hfields) (h.found_ids hP hparse hfields) hlimit hoffset hsum
  refine ⟨r, (execute_miss hmiss).trans hr, ?_, hpartial⟩
  obtain ⟨horder, hmem⟩ := select_inOrder hP h req hc hast
  have hlist := h.listing_inOrder hP hparse hfields
  have hsame : listing P w (asking req c.text) =
      c.select (fun q => listing P w (asking req q)) := by
    refine eq_of_sorted before_ties hlist.ids horder.ids hlist.sorted horder.sorted (fun e => ?_)
    rw [hmem]
    exact h.mem_listing hP hparse hfields
  rw [← hsame]
  exact hpage

end Shelf

def threeHeld (addr : String) : Multiset LogEntry :=
  if addr = "host-a" then
    line "3" "t" "api" "up" 3 ::ₘ line "2" "t" "api" "down" 2 ::ₘ line "1" "t" "api" "up" 1 ::ₘ 0
  else 0

theorem threeLines_shelved : Shelved protobuf false (oneNode threeLines 0 0) threeHeld := by
  have htargets : targets (oneNode threeLines 0 0) = [("a", "host-a")] := by decide
  have hholding : Holding protobuf false threeLines (threeHeld "host-a") := by
    have hfresh := fresh_holding protobuf exactFilter 1000 false
    have hone := hfresh.ingest protobuf_inverts exactFilter_sound exactFilter_roundTrips
      (e := line "1" "t" "api" "up" 1) (by decide +kernel) (by decide +kernel)
    have htwo := hone.ingest protobuf_inverts exactFilter_sound exactFilter_roundTrips
      (e := line "2" "t" "api" "down" 2) (by decide +kernel) (by decide +kernel)
    exact htwo.ingest protobuf_inverts exactFilter_sound exactFilter_roundTrips
      (e := line "3" "t" "api" "up" 3) (by decide +kernel) (by decide +kernel)
  constructor
  · intro t ht s hs
    rw [htargets] at ht
    cases List.mem_singleton.mp ht
    cases hs
    exact hholding
  · intro t ht u hu
    rw [htargets] at ht hu
    cases List.mem_singleton.mp ht
    cases List.mem_singleton.mp hu
    decide +kernel

def upOrDown : Combination :=
  .both (.query "service:api") (.either (.query "up") (.query "down AND namespace:t"))

def upOrDownTrees (q : String) : Query.Node :=
  if q = "service:api" then .field "service" "api"
  else if q = "up" then .term "up" else .and (.term "down") (.field "namespace" "t")

theorem queries_compose_three :
    ∃ r, ((FanOutExecutor.new 5).execute protobuf (fun _ => "") (oneNode threeLines 0 0)
        ⟨"(service:api) AND ((up) OR (down AND namespace:t))", "", "", 0, 0, 2, 1⟩).2 = .ok r ∧
      r.entries = [line "2" "t" "api" "down" 2, line "1" "t" "api" "up" 1] := by
  obtain ⟨r, hr, hpage, -⟩ := queries_compose protobuf_inverts (oneNode threeLines 0 0) rfl
    threeHeld threeLines_shelved ⟨"", "", "", 0, 0, 2, 1⟩ (by decide) (by decide) (by decide)
    upOrDown upOrDownTrees (by unfold Combination.Accepted; decide +kernel) (by simp)
    (fun _ => "") (.new 5) rfl
  refine ⟨r, hr, hpage.trans ?_⟩
  decide +kernel

end LogEngine.Coordinator
