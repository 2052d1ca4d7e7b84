import Mathlib.Data.Finset.Filter
import Mathlib.Data.Finset.Insert
import LogEngine.Lib.Simulation
import LogEngine.Query.FullScan
import LogEngine.Query.Isolation
import LogEngine.Query.Pruning
import LogEngine.Storage.Expiry

namespace LogEngine.Query
open Lib Storage

variable {B : BloomPackage} {P : ProtoPackage} {s : Store B} {log : String → List LogEntry}

section Pruned

/-- The queries that require no value of an entry's level or of its own fields: the bloom filters
hold all the words that these ask for. -/
def TokenFields (ast : Option Node) : Prop :=
  ∀ node, ast = some node → ∀ fv ∈ requiredFields node, tokenField fv.1 = true

/-- A filter that covers a segment prunes it for no query that one of its entries matches. -/
theorem covers_unpruned {bf : B.Filter} {es : List LogEntry} (hcovers : Covers bf es) {ast : Node}
    (hfields : TokenFields (some ast)) {e : LogEntry} (he : e ∈ es)
    (hmatch : matchesTree e ast = true) : bloomDefiniteMiss bf ast = false := by
  have hown : ∀ tok ∈ tokenizeEntry e, B.testString bf tok = true :=
    fun tok htok => hcovers tok (List.mem_flatMap.mpr ⟨e, he, htok⟩)
  rw [← Bool.not_eq_true, bloomDefiniteMiss_iff]
  intro hmiss
  rcases hmiss with ⟨tok, htok, htest⟩ | ⟨fv, hfv, htest⟩
  · rw [hown tok (token_of_term hmatch tok htok)] at htest
    cases htest
  · have hvalue := token_of_matchField (hfields ast rfl fv hfv)
      (matchField_of_matches hmatch fv hfv)
    rw [hown _ hvalue] at htest
    cases htest

/-- Between two actions no segment with a selected entry is pruned. -/
theorem screened_unpruned {bloom : Bool} (hs : Screened P bloom s) (hlogged : Logged P s log)
    (hentries : ∀ p, IsSeg p → entriesAt P s.disk p = log p) {req : QueryRequest}
    {ast : Option Node} (hast : bloom = true → TokenFields ast) {p : String} {e : LogEntry}
    (he : e ∈ log p) (hsel : selects req ast e = true) :
    pruned s.manager.blooms ast p = false := by
  cases bloom with
  | false => exact unpruned (hs.bloomless rfl) ast p
  | true =>
    obtain ⟨n, size, hactive, -⟩ := hlogged.active
    have hmatch := (selects_iff.mp hsel).2.2.1
    unfold pruned
    split
    · rename_i bf node hbf
      have hcovers := ((hs.covered rfl _ hactive).memory p bf hbf).2
      rw [hentries p (hlogged.segs p (hlogged.mem_paths he))] at hcovers
      exact covers_unpruned hcovers (hast rfl) he hmatch
    · rfl

/-- Between two actions a query reads what a full scan selects, with bloom filters and without. -/
theorem reads_screened (hP : P.Inverts) {bloom : Bool} (hs : Screened P bloom s)
    (hkept : Kept P s log) {es : List LogEntry} (hmem : ∀ x, (∃ p, x ∈ log p) ↔ x ∈ es)
    (hfits : ∀ e ∈ es, Fits P e) (hids : ∀ a ∈ es, ∀ b ∈ es, a.id = b.id → a = b)
    {req : QueryRequest} {ast : Option Node} (hast : bloom = true → TokenFields ast) :
    Readable P s.disk ∧ (∀ p ∈ resolved s req ast, IsSeg p) ∧
      matched req ast (reads P s req ast) = fullScan req ast es := by
  have hlog : ∀ p, ∀ e ∈ log p, Fits P e := fun p e he => hfits e ((hmem e).mp ⟨p, he⟩)
  obtain ⟨hreadable, hentries⟩ := hkept.logged.readable hP hlog
  obtain ⟨live, hrep, hlive⟩ := hkept.catalogued
  have hsegs : ∀ p, ∀ e ∈ log p, IsSeg p :=
    fun p e he => hkept.logged.segs p (hkept.logged.mem_paths he)
  have hresolved : ∀ p ∈ resolved s req ast, IsSeg p := by
    intro p hp
    rw [resolved, hrep.mem_resolve] at hp
    obtain ⟨⟨x, hx⟩, -⟩ := hp
    exact hsegs p x ((hlive p x).mp hx)
  refine ⟨hreadable, hresolved, matched_fullScan hids ?_ ?_⟩
  · intro x hx
    obtain ⟨p, hp, -, hin⟩ := mem_reads.mp hx
    rw [hentries p (hresolved p hp)] at hin
    exact (hmem x).mp ⟨p, hin⟩
  · intro x hx hsel
    obtain ⟨p, hp⟩ := (hmem x).mpr hx
    have hin : x ∈ entriesAt P s.disk p := by rwa [hentries p (hsegs p x hp)]
    exact mem_reads.mpr ⟨p, resolved_of_live hrep ((hlive p x).mpr hp) hsel,
      screened_unpruned hs hkept.logged hentries hast hp hsel, hin⟩

/-- A query between two actions is a full scan. -/
theorem execute_screened (hP : P.Inverts) {bloom : Bool} (hs : Screened P bloom s)
    (hkept : Kept P s log) {es : List LogEntry} (hmem : ∀ x, (∃ p, x ∈ log p) ↔ x ∈ es)
    (hfits : ∀ e ∈ es, Fits P e) (hids : ∀ a ∈ es, ∀ b ∈ es, a.id = b.id → a = b)
    {req : QueryRequest} {ast : Option Node} (hlimit : 0 ≤ req.limit) (hoffset : 0 ≤ req.offset)
    (hparse : parse req.queryString = .ok ast) (hast : bloom = true → TokenFields ast) :
    ∃ r, execute P s .background req = .ok r ∧ Answers req ast es r := by
  obtain ⟨hreadable, hresolved, hmatched⟩ := reads_screened hP hs hkept hmem hfits hids hast
  refine ⟨finishQuery req ast (reads P s req ast), ?_, fun hlen => ?_, ?_⟩
  · simpa only [execute, if_neg (Int32.not_lt.mpr hlimit), if_neg (Int32.not_lt.mpr hoffset),
      Ctx.background, hparse] using runQuery_reads hreadable hresolved
  · rw [finishQuery, hmatched]
    exact Int32.toInt_ofNat_of_lt hlen
  · rw [finishQuery, hmatched, page]
    split <;> rfl

end Pruned

/-- What a node is asked to do. -/
inductive NodeCall where
  | act (a : Action)
  | query (req : QueryRequest)

inductive NodeReply where
  | done
  | answer (r : Except ExecError QueryResult)

/-- A call on a node with nothing else going on. A restart that fails stops it. -/
def nodeStep (P : ProtoPackage) (s : Store B) : NodeCall → Option (Store B × NodeReply)
  | .act a => (a.apply P s).map (fun t => (t, .done))
  | .query req => some (s, .answer (execute P s .background req))

/-- The requests that are refused whatever is stored. -/
def refusal (req : QueryRequest) : Option ExecError :=
  if req.limit < 0 then some .negativeLimit
  else if req.offset < 0 then some .negativeOffset
  else
    match parse req.queryString with
    | .error err => some (.parse err)
    | .ok _ => none

theorem execute_refused (s : Store B) {req : QueryRequest} {err : ExecError}
    (h : refusal req = some err) : execute P s .background req = .error err := by
  unfold refusal at h
  unfold execute
  split at h
  · rename_i hlimit
    cases h
    rw [if_pos hlimit]
  · rename_i hlimit
    rw [if_neg hlimit]
    split at h
    · rename_i hoffset
      cases h
      rw [if_pos hoffset]
    · rename_i hoffset
      rw [if_neg hoffset]
      cases hparse : parse req.queryString with
      | error err' =>
        rw [hparse] at h
        cases h
        rfl
      | ok ast =>
        rw [hparse] at h
        cases h

theorem refusal_none {req : QueryRequest} (h : refusal req = none) :
    0 ≤ req.limit ∧ 0 ≤ req.offset ∧ ∃ ast, parse req.queryString = .ok ast := by
  unfold refusal at h
  split at h
  · cases h
  rename_i hlimit
  split at h
  · cases h
  rename_i hoffset
  split at h
  · cases h
  · rename_i ast hparse
    exact ⟨Int32.not_lt.mp hlimit, Int32.not_lt.mp hoffset, ast, hparse⟩

/-- What a node is for. It is a set of entries: an ingest adds one, a retention pass may take out
entries that are past its cutoff, merging and restarting change nothing, and a query is answered
by a scan of the whole set. -/
inductive LogSpec : Finset LogEntry → NodeCall → NodeReply → Finset LogEntry → Prop
  | ingest (E : Finset LogEntry) (e : LogEntry) : LogSpec E (.act (.ingest e)) .done (insert e E)
  | merge (E : Finset LogEntry) (threshold : Int) (faults : String → MergeFaults) :
      LogSpec E (.act (.merge threshold faults)) .done E
  | retain {E E' : Finset LogEntry} {now : Int64} {days : Int} : E' ⊆ E →
      (∀ e ∈ E, e ∉ E' → 0 < days ∧ e.timestamp < retentionCutoff now days) →
      LogSpec E (.act (.retain now days)) .done E'
  | restart (E : Finset LogEntry) (maxSegmentBytes : Int) (bloomEnabled : Bool) :
      LogSpec E (.act (.restart maxSegmentBytes bloomEnabled)) .done E
  | refuse {E : Finset LogEntry} {req : QueryRequest} {err : ExecError} :
      refusal req = some err → LogSpec E (.query req) (.answer (.error err)) E
  | answer {E : Finset LogEntry} {req : QueryRequest} {ast : Option Node} {r : QueryResult} :
      refusal req = none → parse req.queryString = .ok ast → Answers req ast E.toList r →
      LogSpec E (.query req) (.answer (.ok r)) E

/-- A rotation in the call finds a segment number left. -/
def NodeCall.NumberLeft (P : ProtoPackage) (s : Store B) : NodeCall → Prop
  | .act a => a.NumberLeft P s
  | .query _ => True

instance (s : Store B) : (c : NodeCall) → Decidable (c.NumberLeft P s)
  | .act a => inferInstanceAs (Decidable (a.NumberLeft P s))
  | .query _ => isTrue trivial

/-- The calls after which the filters are as they should be, and the queries that they serve. -/
def NodeCall.Screens (bloom : Bool) : NodeCall → Prop
  | .act a => a.Screens bloom
  | .query req => bloom = true → ∀ ast, parse req.queryString = .ok ast → TokenFields ast

def NodeCall.entries : NodeCall → List LogEntry
  | .act (.ingest e) => [e]
  | .act _ | .query _ => []

section Simulation

variable {bloom : Bool} {sent : List LogEntry}

/-- The node stores this set of entries. -/
structure Shows (P : ProtoPackage) (bloom : Bool) (sent : List LogEntry) (s : Store B)
    (E : Finset LogEntry) : Prop where
  steady : ∃ log, Steady P s log sent ∧ ∀ x, (∃ p, x ∈ log p) ↔ x ∈ E
  screened : Screened P bloom s

theorem Shows.mem_sent {E : Finset LogEntry} (h : Shows P bloom sent s E) : ∀ e ∈ E, e ∈ sent := by
  obtain ⟨log, hsteady, hmem⟩ := h.steady
  intro e he
  obtain ⟨p, hp⟩ := (hmem e).mpr he
  exact hsteady.stored p e hp

theorem Shows.query (hP : P.Inverts) {E : Finset LogEntry} (h : Shows P bloom sent s E)
    (hfits : ∀ e ∈ sent, Fits P e) (hids : ∀ a ∈ sent, ∀ b ∈ sent, a.id = b.id → a = b)
    {req : QueryRequest} (hreq : (NodeCall.query req).Screens bloom) :
    LogSpec E (.query req) (.answer (execute P s .background req)) E := by
  obtain ⟨log, hsteady, hmem⟩ := h.steady
  cases href : refusal req with
  | some err =>
    rw [execute_refused s href]
    exact .refuse href
  | none =>
    obtain ⟨hlimit, hoffset, ast, hparse⟩ := refusal_none href
    obtain ⟨r, hr, hanswers⟩ := execute_screened hP h.screened hsteady.kept
      (fun x => (hmem x).trans Finset.mem_toList.symm)
      (fun e he => hfits e (h.mem_sent e (Finset.mem_toList.mp he)))
      (fun a ha b hb => hids a (h.mem_sent a (Finset.mem_toList.mp ha)) b
        (h.mem_sent b (Finset.mem_toList.mp hb))) hlimit hoffset hparse
      (fun hon => hreq hon ast hparse)
    rw [hr]
    exact .answer href hparse hanswers

/-- An action succeeds, and does to the set of entries what it should. -/
theorem Shows.act (hP : P.Inverts) (hB : B.Sound) (hB' : B.RoundTrips) {E : Finset LogEntry}
    (h : Shows P bloom sent s E) (hfits : ∀ e ∈ sent, Fits P e) {a : Action}
    (hleft : a.NumberLeft P s) (hscreens : a.Screens bloom)
    (hsent : ∀ e ∈ (NodeCall.act a).entries, e ∈ sent) :
    ∃ t E', a.apply P s = some t ∧ LogSpec E (.act a) .done E' ∧ Shows P bloom sent t E' := by
  obtain ⟨log, hsteady, hmem⟩ := h.steady
  have hscreened : ∀ t, a.apply P s = some t → Screened P bloom t :=
    fun t ht => h.screened.action hP hB hB' hsteady ht hleft hscreens
  cases a with
  | ingest e =>
    obtain ⟨hlayout, log', hkept, hmem'⟩ := hsteady.kept.ingest hsteady.layout hleft
    obtain ⟨seg, hactive, -⟩ := hsteady.layout.active
    have he := hsent e (List.mem_singleton_self e)
    refine ⟨_, insert e E, rfl, .ingest E e, ⟨log', ⟨hlayout, hkept, ?_, ?_, ?_⟩, ?_⟩,
      hscreened _ rfl⟩
    · intro p hp
      rcases ingest_paths hactive p hp with hp | hp
      · exact hsteady.named p hp
      · exact ⟨_, hp⟩
    · intro p x hx
      rcases (hmem' x).mp ⟨p, hx⟩ with ⟨q, hq⟩ | ⟨-, hxe⟩
      · exact hsteady.stored q x hq
      · exact hxe ▸ he
    · exact fun x hx hlarge => absurd (hfits x hx) hlarge
    · intro x
      rw [hmem', hmem, Finset.mem_insert, and_iff_right (hfits e he).writable, or_comm]
  | merge threshold faults =>
    obtain ⟨log', hsteady', hsame⟩ := hsteady.mergePass hP threshold faults
    refine ⟨_, E, rfl, .merge E threshold faults, ⟨log', hsteady', fun x => ?_⟩, hscreened _ rfl⟩
    rw [← hsteady'.kept.mem_sequence, hsame, hsteady.kept.mem_sequence, hmem]
  | retain now days =>
    obtain ⟨hsteady', hold⟩ := hsteady.retentionPass hP hfits now days
    classical
    refine ⟨_, E.filter (fun e => ∃ p, e ∈ without log (retired P s now days) p), rfl,
      .retain (Finset.filter_subset _ _) ?_, ⟨_, hsteady', fun x => ?_⟩, hscreened _ rfl⟩
    · intro e he hlost
      obtain ⟨p, hp⟩ := (hmem e).mpr he
      refine hold p e hp (fun hp' => hlost (Finset.mem_filter.mpr ⟨he, p, hp'⟩))
    · rw [Finset.mem_filter]
      constructor
      · intro hx
        obtain ⟨p, hp⟩ := hx
        exact ⟨(hmem x).mp ⟨p, (mem_without.mp hp).2⟩, p, hp⟩
      · exact fun hx => hx.2
  | restart maxSegmentBytes bloomEnabled =>
    obtain ⟨t, ht⟩ := hsteady.starts hP hfits maxSegmentBytes bloomEnabled
    obtain ⟨hkept, hlayout, hpaths⟩ := hsteady.kept.restarted hP hsteady.layout hsteady.named ht
    exact ⟨t, E, ht, .restart E maxSegmentBytes bloomEnabled, ⟨log, ⟨hlayout, hkept,
      fun p hp => hsteady.named p (hpaths p hp), hsteady.stored, hsteady.oversize⟩, hmem⟩,
      hscreened t ht⟩

theorem nodeStep_simulates (hP : P.Inverts) (hB : B.Sound) (hB' : B.RoundTrips)
    (hfits : ∀ e ∈ sent, Fits P e) (hids : ∀ a ∈ sent, ∀ b ∈ sent, a.id = b.id → a = b) :
    Simulates (nodeStep P) (fun (s : Store B) c => c.NumberLeft P s ∧ c.Screens bloom ∧
      ∀ e ∈ c.entries, e ∈ sent) LogSpec (Shows P bloom sent) := by
  intro s E c h hok
  obtain ⟨hleft, hscreens, hsent⟩ := hok
  cases c with
  | act a =>
    obtain ⟨t, E', ht, hspec, hshows⟩ := h.act hP hB hB' hfits hleft hscreens hsent
    exact ⟨t, .done, E', by rw [nodeStep, ht, Option.map_some], hspec, hshows⟩
  | query req => exact ⟨s, _, E, rfl, h.query hP hfits hids hscreens, h⟩

theorem fresh_shows (P : ProtoPackage) (B : BloomPackage) (maxSegmentBytes : Int) (bloom : Bool)
    (hfits : ∀ e ∈ sent, Fits P e) : Shows P bloom sent (fresh B maxSegmentBytes bloom) ∅ := by
  have hsteady := fresh_steady P B maxSegmentBytes bloom
  exact ⟨⟨fun _ => [], ⟨hsteady.layout, hsteady.kept, hsteady.named, by simp,
    fun e he hlarge => absurd (hfits e he) hlarge⟩, by simp⟩,
    fresh_screened P B maxSegmentBytes bloom⟩

end Simulation

/-- Three lines in three segments, merged and restarted, with a query before and after. -/
def sevenCalls : List NodeCall :=
  [.act (.ingest (line "a" "t" "orders" "disk full" 1)),
    .act (.ingest (line "b" "t" "orders" "link down" 2)),
    .act (.ingest (line "c" "t" "orders" "disk full" 3)), .query tenantRequest,
    .act (.merge 1000 noFaults), .act (.restart 40 true), .query tenantRequest]

end LogEngine.Query
