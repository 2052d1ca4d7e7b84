import LogEngine.Coordinator.Search
import LogEngine.Coordinator.Transparent
import LogEngine.Lib.Lists

namespace LogEngine.Coordinator
open Lib Storage Query Metadata
open Ingest (Traffic Event Fleet)

variable {ι : Type} {B : BloomPackage}

/-- A call of `Execute` that the cache did not serve: which call it is, the cluster state it read
and the order in which it ranges over the nodes, when it began, and the node and store that answered
at an address. `start` is the cluster as it was when the call began. -/
structure Flight (ι : Type) (B : BloomPackage) where
  id : Nat
  req : QueryRequest
  state : ClusterState
  targetOrder : Order String
  began : Int
  start : Traffic ι B
  seen : String → Option (ι × Store B)

/-- What the call meets when it merges what has arrived. -/
def Flight.world (f : Flight ι B) (arrival : Order NodeResult) (ctxErr : Option CtxError)
    (filled : Int) : World B where
  state := f.state
  targetOrder := f.targetOrder
  arrival := arrival
  reach := fun addr => (f.seen addr).map Prod.snd
  ctxErr := ctxErr
  asked := f.began
  filled := filled

def Flight.targets (f : Flight ι B) : List (String × String) :=
  (f.targetOrder.arrange f.state.nodes.keys).filterMap (targetAddress f.state)

theorem Flight.targets_world (f : Flight ι B) (arrival : Order NodeResult)
    (ctxErr : Option CtxError) (filled : Int) :
    Coordinator.targets (f.world arrival ctxErr filled) = f.targets := rfl

/-- The first answer of the node that listens at an address. -/
def Flight.reads (f : Flight ι B) (w : Traffic ι B) (addr : String) : Flight ι B :=
  { f with seen := fun a =>
    if a = addr then
      f.seen addr <|> (w.fleet.listens addr).map (fun j => (j, (w.fleet.node j).store))
    else f.seen a }

/-- A fan-out that has ended. -/
structure Landed (ι : Type) (B : BloomPackage) where
  flight : Flight ι B
  ended : Int
  result : Except CtxError Result

/-- What the caller of a call was told, and when it had asked. -/
structure Answer where
  id : Nat
  req : QueryRequest
  asked : Int
  result : Except CtxError Result
  deriving DecidableEq

/-- The coordinator's query service over a cluster: the calls of `Execute` so far, those of them
that are under way, and what has ended and was answered. The calls share the cache. -/
structure Service (ι : Type) (B : BloomPackage) where
  traffic : Traffic ι B
  clock : Int
  calls : Nat
  executor : FanOutExecutor
  flights : List (Flight ι B)
  landed : List (Landed ι B)
  answers : List Answer

/-- What can happen next: the cluster does something, time passes, a call of `Execute` looks in the
cache, a node answers a call, a call ends with what it has. -/
inductive ServiceStep (ι : Type) where
  | event (ev : Event ι)
  | wait (ns : Nat)
  | call (req : QueryRequest) (state : ClusterState) (targetOrder : Order String)
  | read (k : Nat) (addr : String)
  | finish (k : Nat) (arrival : Order NodeResult) (ctxErr : Option CtxError)

namespace Service

def initial (fleet : Fleet ι B) (fanOutLimit : Int32) : Service ι B :=
  ⟨.initial fleet, 0, 0, .new fanOutLimit, [], [], []⟩

/-- The part of `Execute` up to the fan-out. -/
def call (sha256 : Bytes → String) (s : Service ι B) (req : QueryRequest) (state : ClusterState)
    (targetOrder : Order String) : Service ι B :=
  match s.executor.cache.get s.clock (cacheKey sha256 req) with
  | (cache, some cached) =>
    { s with
      calls := s.calls + 1
      executor := { s.executor with cache }
      answers := s.answers ++ [⟨s.calls, req, s.clock, .ok cached⟩] }
  | (cache, none) =>
    { s with
      calls := s.calls + 1
      executor := { s.executor with cache }
      flights := s.flights ++
        [⟨s.calls, req, state, targetOrder, s.clock, s.traffic, fun _ => none⟩] }

/-- The part of `Execute` from the merge on. -/
def finish (P : ProtoPackage) (sha256 : Bytes → String) (s : Service ι B) (k : Nat)
    (f : Flight ι B) (arrival : Order NodeResult) (ctxErr : Option CtxError) : Service ι B :=
  let result := fanOut P s.executor.fanOutLimit (f.world arrival ctxErr s.clock) f.req
  let told : Service ι B :=
    { s with
      flights := s.flights.eraseIdx k
      landed := s.landed ++ [⟨f, s.clock, result⟩]
      answers := s.answers ++ [⟨f.id, f.req, f.began, result⟩] }
  match result with
  | .error _ => told
  | .ok r =>
    if r.isPartial then told
    else
      let cache := s.executor.cache.put s.clock (cacheKey sha256 f.req) r
      { told with executor := { s.executor with cache } }

variable [DecidableEq ι]

def step (P : ProtoPackage) (sha256 : Bytes → String) (s : Service ι B) :
    ServiceStep ι → Service ι B
  | .event ev => { s with traffic := s.traffic.step P ev }
  | .wait ns => { s with clock := s.clock + ns }
  | .call req state targetOrder => s.call sha256 req state targetOrder
  | .read k addr =>
    match s.flights[k]? with
    | none => s
    | some f => { s with flights := s.flights.set k (f.reads s.traffic addr) }
  | .finish k arrival ctxErr =>
    match s.flights[k]? with
    | none => s
    | some f => s.finish P sha256 k f arrival ctxErr

def run (P : ProtoPackage) (sha256 : Bytes → String) (s : Service ι B)
    (steps : List (ServiceStep ι)) : Service ι B := steps.foldl (step P sha256) s

end Service

namespace Service

section Specs

variable (P : ProtoPackage) (sha256 : Bytes → String) (s : Service ι B)

/-- A call is answered from the cache or becomes a flight. -/
theorem call_cases (req : QueryRequest) (state : ClusterState) (targetOrder : Order String) :
    (∃ cached, (s.executor.cache.get s.clock (cacheKey sha256 req)).2 = some cached ∧
      s.call sha256 req state targetOrder =
        { s with
          calls := s.calls + 1
          executor := { s.executor with
            cache := (s.executor.cache.get s.clock (cacheKey sha256 req)).1 }
          answers := s.answers ++ [⟨s.calls, req, s.clock, .ok cached⟩] }) ∨
    s.call sha256 req state targetOrder =
      { s with
        calls := s.calls + 1
        executor := { s.executor with
          cache := (s.executor.cache.get s.clock (cacheKey sha256 req)).1 }
        flights := s.flights ++
          [⟨s.calls, req, state, targetOrder, s.clock, s.traffic, fun _ => none⟩] } := by
  unfold call
  rcases s.executor.cache.get s.clock (cacheKey sha256 req) with ⟨cache, _ | cached⟩
  · exact .inr rfl
  · exact .inl ⟨cached, rfl, rfl⟩

/-- A flight that ends is answered, and a result that is not partial is put into the cache. -/
theorem finish_cases (k : Nat) (f : Flight ι B) (arrival : Order NodeResult)
    (ctxErr : Option CtxError) : ∃ result cache,
    result = fanOut P s.executor.fanOutLimit (f.world arrival ctxErr s.clock) f.req ∧
    (cache = s.executor.cache ∨ ∃ r, result = .ok r ∧ r.isPartial = false ∧
      cache = s.executor.cache.put s.clock (cacheKey sha256 f.req) r) ∧
    s.finish P sha256 k f arrival ctxErr =
      { s with
        executor := { s.executor with cache }
        flights := s.flights.eraseIdx k
        landed := s.landed ++ [⟨f, s.clock, result⟩]
        answers := s.answers ++ [⟨f.id, f.req, f.began, result⟩] } := by
  unfold finish
  dsimp only
  cases hresult : fanOut P s.executor.fanOutLimit (f.world arrival ctxErr s.clock) f.req with
  | error err => exact ⟨_, _, rfl, .inl rfl, rfl⟩
  | ok r =>
    dsimp only
    split
    · exact ⟨_, _, rfl, .inl rfl, rfl⟩
    · rename_i hpartial
      exact ⟨_, _, rfl, .inr ⟨r, rfl, by simpa using hpartial, rfl⟩, rfl⟩

end Specs

end Service

section Alone

variable [DecidableEq ι] (P : ProtoPackage) (sha256 : Bytes → String)

theorem Service.reads_none (s : Service ι B) (h : s.flights = []) (addrs : List String) :
    s.run P sha256 (addrs.map (.read 0)) = s := by
  induction addrs with
  | nil => rfl
  | cons addr addrs ih =>
    have hstep : s.step P sha256 (.read 0 addr) = s := by simp [Service.step, h]
    rw [List.map_cons, Service.run, List.foldl_cons, hstep]
    exact ih

theorem Service.reads_one (s : Service ι B) (f : Flight ι B) (h : s.flights = [f])
    (addrs : List String) : s.run P sha256 (addrs.map (.read 0)) =
      { s with flights := [addrs.foldl (fun f addr => f.reads s.traffic addr) f] } := by
  induction addrs generalizing s f with
  | nil =>
    rw [List.map_nil, List.foldl_nil, ← h]
    rfl
  | cons addr addrs ih =>
    have hstep : s.step P sha256 (.read 0 addr) =
        { s with flights := [f.reads s.traffic addr] } := by simp [Service.step, h]
    rw [List.map_cons, Service.run, List.foldl_cons, hstep, ← Service.run, ih _ _ rfl]
    rfl

omit [DecidableEq ι] in
/-- A flight that all of some addresses have answered has the stores of their nodes. -/
theorem Flight.reads_all (f : Flight ι B) (w : Traffic ι B) (addrs : List String) :
    addrs.foldl (fun f addr => f.reads w addr) f =
      { f with seen := fun a => f.seen a <|>
        if a ∈ addrs then (w.fleet.listens a).map (fun j => (j, (w.fleet.node j).store))
        else none } := by
  induction addrs generalizing f with
  | nil => simp
  | cons addr addrs ih =>
    rw [List.foldl_cons, ih]
    simp only [Flight.reads, Flight.mk.injEq, true_and]
    funext a
    by_cases ha : a = addr
    · subst ha
      cases f.seen a <;> cases w.fleet.listens a <;> simp
    · simp [ha]

/-- A call that nothing comes between is `Execute`. -/
theorem Service.run_alone (s : Service ι B) (hidle : s.flights = []) (req : QueryRequest)
    (state : ClusterState) (targetOrder : Order String) (addrs : List String)
    (arrival : Order NodeResult) (ctxErr : Option CtxError) :
    let w : World B := ⟨state, targetOrder, arrival,
      fun addr => if addr ∈ addrs then s.traffic.storeAt addr else none, ctxErr, s.clock, s.clock⟩
    let t := s.run P sha256
      (.call req state targetOrder :: (addrs.map (.read 0) ++ [.finish 0 arrival ctxErr]))
    t.executor = (s.executor.execute P sha256 w req).1 ∧
      t.answers = s.answers ++
        [⟨s.calls, req, s.clock, (s.executor.execute P sha256 w req).2⟩] := by
  intro w t
  have ht : t = ((s.call sha256 req state targetOrder).run P sha256
      (addrs.map (.read 0))).step P sha256 (.finish 0 arrival ctxErr) := by
    simp only [t, Service.run, List.foldl_cons, List.foldl_append, List.foldl_nil]
    rfl
  rw [ht, Service.call]
  cases hget : s.executor.cache.get s.clock (cacheKey sha256 req) with
  | mk cache hit =>
    cases hit with
    | some cached =>
      dsimp only
      rw [Service.reads_none]
      · simp [Service.step, hidle, FanOutExecutor.execute, w, hget]
      · exact hidle
    | none =>
      dsimp only
      rw [Service.reads_one P sha256 _ _ (by simp only [hidle, List.nil_append]; rfl),
        Flight.reads_all]
      have hworld : Flight.world ⟨s.calls, req, state, targetOrder, s.clock, s.traffic,
          fun a => none <|> if a ∈ addrs then (s.traffic.fleet.listens a).map
            (fun j => (j, (s.traffic.fleet.node j).store)) else none⟩ arrival ctxErr s.clock =
          w := by
        simp only [Flight.world, w, World.mk.injEq, true_and, and_true]
        funext a
        split <;> simp [Traffic.storeAt, Function.comp_def]
      have hasked : s.executor.cache.get w.asked (cacheKey sha256 req) = (cache, none) := hget
      simp only [Service.step, List.getElem?_cons_zero, Service.finish, FanOutExecutor.execute,
        hasked, hworld]
      cases fanOut P s.executor.fanOutLimit w req with
      | error err => exact ⟨rfl, rfl⟩
      | ok r => cases hwhole : r.isPartial <;> simp [hwhole, w]

end Alone

section Invariant

variable [DecidableEq ι] {P : ProtoPackage} {sha256 : Bytes → String} {bloom : Bool}
  {A : String → String → Prop}

theorem HadBetween.later {start now later : Traffic ι B} {j : ι} {s : Store B}
    (h : HadBetween P bloom start now j s) (hlater : now.Grows later) :
    HadBetween P bloom start later j s := by
  obtain ⟨seen, hstart, hnow, hrest⟩ := h
  exact ⟨seen, hstart, hnow.trans hlater, hrest⟩

/-- A flight of a known tenant that has read stores which the nodes had since it began. -/
structure Flight.Airborne (P : ProtoPackage) (bloom : Bool) (A : String → String → Prop)
    (now : Traffic ι B) (time : Int) (f : Flight ι B) : Prop where
  tenant : A f.req.namespace f.req.service
  began : f.began ≤ time
  grows : f.start.Grows now
  seen : ∀ addr j s, f.seen addr = some (j, s) → HadBetween P bloom f.start now j s

theorem Flight.Airborne.later {f : Flight ι B} {now later : Traffic ι B} {time time' : Int}
    (h : f.Airborne P bloom A now time) (hlater : now.Grows later) (htime : time ≤ time') :
    f.Airborne P bloom A later time' :=
  ⟨h.tenant, h.began.trans htime, h.grows.trans hlater,
    fun addr j s hs => (h.seen addr j s hs).later hlater⟩

/-- A node that answers adds a store that it has now. -/
theorem Flight.Airborne.reads {f : Flight ι B} {now : Traffic ι B} {time : Int}
    (h : f.Airborne P bloom A now time) (hstores : ∀ j, now.Stocked P bloom j) (addr : String) :
    (f.reads now addr).Airborne P bloom A now time := by
  refine ⟨h.tenant, h.began, h.grows, fun a j s hs => ?_⟩
  simp only [Flight.reads] at hs
  split at hs
  · cases hseen : f.seen addr with
    | some x =>
      rw [hseen] at hs
      cases hs
      exact h.seen addr j s hseen
    | none =>
      rw [hseen] at hs
      obtain ⟨j', -, hj'⟩ := Option.map_eq_some_iff.mp hs
      cases hj'
      exact ⟨now, h.grows, .same rfl rfl rfl, hstores j, rfl⟩
  · exact h.seen a j s hs

/-- An answer is that of a fan-out for the same request: of the call itself, or of one whose result
was whole and had been put at most the TTL before. -/
def Told (landed : List (Landed ι B)) (a : Answer) : Prop :=
  ∃ d ∈ landed, d.flight.req = a.req ∧ d.result = a.result ∧
    (a.id = d.flight.id ∧ a.asked = d.flight.began ∨
      (∀ r, a.result = .ok r → r.isPartial = false) ∧ a.asked ≤ d.ended + cacheTTL)

omit [DecidableEq ι] in
theorem Told.mono {landed : List (Landed ι B)} {a : Answer} (h : Told landed a) (d : Landed ι B) :
    Told (landed ++ [d]) a := by
  obtain ⟨d', hd', hrest⟩ := h
  exact ⟨d', List.mem_append_left _ hd', hrest⟩

/-- A cached result is that of a whole fan-out, put when that ended. -/
def PutBack (sha256 : Bytes → String) (landed : List (Landed ι B)) (key : String)
    (entry : CacheEntry Result) : Prop :=
  ∃ d ∈ landed, cacheKey sha256 d.flight.req = key ∧ d.result = .ok entry.result ∧
    entry.result.isPartial = false ∧ entry.insertedAt = d.ended

structure Service.Kept (P : ProtoPackage) (sha256 : Bytes → String) (bloom : Bool)
    (A : String → String → Prop) (s : Service ι B) : Prop where
  conserved : ∃ called, s.traffic.Conserved P bloom called
  flights : ∀ f ∈ s.flights, f.Airborne P bloom A s.traffic s.clock
  landed : ∀ d ∈ s.landed, d.flight.Airborne P bloom A s.traffic d.ended ∧ d.ended ≤ s.clock ∧
    ∃ fanOutLimit arrival ctxErr,
      d.result = fanOut P fanOutLimit (d.flight.world arrival ctxErr d.ended) d.flight.req
  ttl : s.executor.cache.ttl = cacheTTL
  cached : s.executor.cache.Holds (PutBack sha256 s.landed)
  answers : ∀ a ∈ s.answers, Told s.landed a
  numbered : (s.answers.map Answer.id ++ s.flights.map Flight.id).Perm (List.range s.calls)

/-- A step of the cluster is one that may happen there, and the calls are those of the tenants. -/
def ServiceStep.Allowed (P : ProtoPackage) (bloom : Bool)
    (A : String → String → Prop) (s : Service ι B) : ServiceStep ι → Prop
  | .event ev => ev.Allowed P bloom s.traffic
  | .call req _ _ => A req.namespace req.service
  | _ => True

theorem Service.Kept.call {s : Service ι B} (h : s.Kept P sha256 bloom A)
    (hsha : Function.Injective sha256) (hA : Separated A) {req : QueryRequest}
    (hreq : A req.namespace req.service) (state : ClusterState) (targetOrder : Order String) :
    (s.call sha256 req state targetOrder).Kept P sha256 bloom A := by
  have httl := (s.executor.cache.get_ttl s.clock (cacheKey sha256 req)).trans h.ttl
  have hcached := h.cached.get s.clock (cacheKey sha256 req)
  rcases Service.call_cases sha256 s req state targetOrder with
    ⟨cached, hhit, hcall⟩ | hcall <;> rw [hcall]
  · refine ⟨h.conserved, h.flights, h.landed, httl, hcached, fun a ha => ?_, ?_⟩
    swap
    · rw [List.range_succ, List.map_append, List.append_assoc]
      exact (List.perm_append_comm.append_left _).trans
        (by rw [← List.append_assoc]; exact h.numbered.append_right _)
    rcases List.mem_append.mp ha with ha | ha
    · exact h.answers a ha
    · rw [List.mem_singleton.mp ha]
      obtain ⟨t, hitem, hfresh⟩ := QueryCache.get_hit hhit
      obtain ⟨d, hd, hkey, hresult, hwhole, htime⟩ := h.cached _ _ hitem
      have hsame : d.flight.req = req :=
        cacheKey_inj hsha hA (h.landed d hd).1.tenant hreq hkey
      refine ⟨d, hd, hsame, hresult, .inr ⟨fun r hr => ?_, ?_⟩⟩
      · rw [← Except.ok.inj hr]
        exact hwhole
      · rw [h.ttl] at hfresh
        dsimp only at htime ⊢
        omega
  · refine ⟨h.conserved, fun f hf => ?_, h.landed, httl, hcached, h.answers, ?_⟩
    swap
    · rw [List.range_succ, List.map_append, ← List.append_assoc]
      exact h.numbered.append_right _
    rcases List.mem_append.mp hf with hf | hf
    · exact h.flights f hf
    · rw [List.mem_singleton.mp hf]
      refine ⟨hreq, le_refl _, .same rfl rfl rfl, fun addr j st hs => ?_⟩
      cases hs

theorem Service.Kept.finish {s : Service ι B} (h : s.Kept P sha256 bloom A) {k : Nat}
    {f : Flight ι B} (hk : s.flights[k]? = some f) (arrival : Order NodeResult)
    (ctxErr : Option CtxError) : (s.finish P sha256 k f arrival ctxErr).Kept P sha256 bloom A := by
  have hf := List.mem_of_getElem? hk
  obtain ⟨result, cache, hresult, hcache, hfinish⟩ :=
    Service.finish_cases P sha256 s k f arrival ctxErr
  rw [hfinish]
  have hnew : (⟨f, s.clock, result⟩ : Landed ι B) ∈ s.landed ++ [⟨f, s.clock, result⟩] :=
    List.mem_append_right _ (List.mem_singleton.mpr rfl)
  have hold : s.executor.cache.Holds (PutBack sha256 (s.landed ++ [⟨f, s.clock, result⟩])) := by
    refine h.cached.mono (fun key entry hput => ?_)
    obtain ⟨d, hd, hrest⟩ := hput
    exact ⟨d, List.mem_append_left _ hd, hrest⟩
  refine ⟨h.conserved, fun g hg => h.flights g (List.mem_of_mem_eraseIdx hg), fun d hd => ?_,
    ?_, ?_, fun a ha => ?_, ?_⟩
  · rcases List.mem_append.mp hd with hd | hd
    · exact h.landed d hd
    · rw [List.mem_singleton.mp hd]
      exact ⟨h.flights f hf, le_refl _, _, arrival, ctxErr, hresult⟩
  · rcases hcache with rfl | ⟨r, -, -, rfl⟩
    · exact h.ttl
    · exact (QueryCache.put_ttl _ _ _ _).trans h.ttl
  · rcases hcache with rfl | ⟨r, hr, hwhole, rfl⟩
    · exact hold
    · exact hold.put ⟨_, hnew, rfl, hr, hwhole, rfl⟩
  · rcases List.mem_append.mp ha with ha | ha
    · exact (h.answers a ha).mono _
    · rw [List.mem_singleton.mp ha]
      exact ⟨_, hnew, rfl, rfl, .inl ⟨rfl, rfl⟩⟩
  · obtain ⟨hlt, hget⟩ := List.getElem?_eq_some_iff.mp hk
    have hperm := (List.getElem_cons_eraseIdx_perm hlt).map Flight.id
    rw [hget] at hperm
    rw [List.map_append, List.append_assoc]
    exact (hperm.append_left _).trans h.numbered

/-- The cluster and the clock move on. -/
theorem Service.Kept.advance {s : Service ι B} (h : s.Kept P sha256 bloom A) {w : Traffic ι B}
    (hw : ∃ called, w.Conserved P bloom called) (hgrows : s.traffic.Grows w) (ns : Nat) :
    ({ s with traffic := w, clock := s.clock + ns } : Service ι B).Kept P sha256 bloom A := by
  refine ⟨hw, fun f hf => (h.flights f hf).later hgrows (by dsimp only; omega), fun d hd => ?_,
    h.ttl, h.cached, h.answers, h.numbered⟩
  obtain ⟨hflight, hended, hresult⟩ := h.landed d hd
  exact ⟨hflight.later hgrows (le_refl _), by dsimp only; omega, hresult⟩

theorem Service.Kept.step (hP : P.Inverts) (hB : B.Sound) (hB' : B.RoundTrips) {s : Service ι B}
    (h : s.Kept P sha256 bloom A) (hsha : Function.Injective sha256) (hA : Separated A)
    {st : ServiceStep ι} (hst : st.Allowed P bloom A s) :
    (s.step P sha256 st).Kept P sha256 bloom A := by
  obtain ⟨called, hconserved⟩ := h.conserved
  cases st with
  | event ev =>
    have hnext := h.advance ⟨_, hconserved.step hP hB hB' hst⟩ (.step _ ev) 0
    rwa [Int.natCast_zero, add_zero] at hnext
  | wait ns => exact h.advance h.conserved (.same rfl rfl rfl) ns
  | call req state targetOrder => exact h.call hsha hA hst state targetOrder
  | read k addr =>
    simp only [Service.step]
    split
    · exact h
    · rename_i f hf
      have hmem : f ∈ s.flights := List.mem_of_getElem? hf
      have hids : (s.flights.set k (f.reads s.traffic addr)).map Flight.id =
          s.flights.map Flight.id := map_set_same hf rfl
      refine ⟨h.conserved, fun g hg => ?_, h.landed, h.ttl, h.cached, h.answers,
        hids.symm ▸ h.numbered⟩
      rcases List.mem_or_eq_of_mem_set hg with hg | rfl
      · exact h.flights g hg
      · exact (h.flights f hmem).reads hconserved.stores addr
  | finish k arrival ctxErr =>
    simp only [Service.step]
    split
    · exact h
    · rename_i f hf
      exact h.finish hf arrival ctxErr

/-- Every step of a run is allowed where it happens. -/
def AllowedSteps (P : ProtoPackage) (sha256 : Bytes → String) (bloom : Bool)
    (A : String → String → Prop) : Service ι B → List (ServiceStep ι) → Prop
  | _, [] => True
  | s, st :: steps => st.Allowed P bloom A s ∧
    AllowedSteps P sha256 bloom A (s.step P sha256 st) steps

theorem AllowedSteps.append {s : Service ι B} {past rest : List (ServiceStep ι)}
    (h : AllowedSteps P sha256 bloom A s (past ++ rest)) :
    AllowedSteps P sha256 bloom A s past ∧
      AllowedSteps P sha256 bloom A (s.run P sha256 past) rest := by
  induction past generalizing s with
  | nil => exact ⟨trivial, h⟩
  | cons st past ih =>
    obtain ⟨hpast, hrest⟩ := ih h.2
    exact ⟨⟨h.1, hpast⟩, hrest⟩

theorem Service.Kept.run (hP : P.Inverts) (hB : B.Sound) (hB' : B.RoundTrips) {s : Service ι B}
    (h : s.Kept P sha256 bloom A) (hsha : Function.Injective sha256) (hA : Separated A)
    {steps : List (ServiceStep ι)} (hsteps : AllowedSteps P sha256 bloom A s steps) :
    (s.run P sha256 steps).Kept P sha256 bloom A := by
  induction steps generalizing s with
  | nil => exact h
  | cons st steps ih => exact ih (h.step hP hB hB' hsha hA hsteps.1) hsteps.2

theorem Service.initial_kept {fleet : Fleet ι B} (hfresh : ∀ i, ∃ maxSegmentBytes,
      (fleet.node i).store = fresh B maxSegmentBytes bloom) (fanOutLimit : Int32) :
    (Service.initial fleet fanOutLimit).Kept P sha256 bloom A := by
  refine ⟨⟨[], Traffic.initial_conserved hfresh⟩, ?_, ?_, rfl, ?_, ?_, .refl _⟩
  · intro f hf
    cases hf
  · intro d hd
    cases hd
  · intro key entry hentry
    cases hentry
  · intro a ha
    cases ha

/-- Fan-outs that begin after a moment begin with a cluster that has grown since. -/
structure Service.Since (time : Int) (w : Traffic ι B) (s : Service ι B) : Prop where
  clock : time ≤ s.clock
  grows : w.Grows s.traffic
  flights : ∀ f ∈ s.flights, f.began ≤ time ∨ w.Grows f.start
  landed : ∀ d ∈ s.landed, d.flight.began ≤ time ∨ w.Grows d.flight.start

theorem Service.Since.step {time : Int} {w : Traffic ι B} {s : Service ι B} (h : s.Since time w)
    (st : ServiceStep ι) : (s.step P sha256 st).Since time w := by
  cases st with
  | event ev => exact ⟨h.clock, h.grows.trans (.step _ ev), h.flights, h.landed⟩
  | wait ns =>
    refine ⟨?_, h.grows, h.flights, h.landed⟩
    have hclock := h.clock
    simp only [Service.step]
    omega
  | call req state targetOrder =>
    simp only [Service.step]
    rcases Service.call_cases sha256 s req state targetOrder with
      ⟨cached, -, hcall⟩ | hcall <;> rw [hcall]
    · exact ⟨h.clock, h.grows, h.flights, h.landed⟩
    · refine ⟨h.clock, h.grows, fun f hf => ?_, h.landed⟩
      rcases List.mem_append.mp hf with hf | hf
      · exact h.flights f hf
      · rw [List.mem_singleton.mp hf]
        exact .inr h.grows
  | read k addr =>
    simp only [Service.step]
    split
    · exact h
    · rename_i f hf
      refine ⟨h.clock, h.grows, fun g hg => ?_, h.landed⟩
      rcases List.mem_or_eq_of_mem_set hg with hg | rfl
      · exact h.flights g hg
      · exact h.flights f (List.mem_of_getElem? hf)
  | finish k arrival ctxErr =>
    simp only [Service.step]
    split
    · exact h
    · rename_i f hf
      obtain ⟨result, cache, -, -, hfinish⟩ :=
        Service.finish_cases P sha256 s k f arrival ctxErr
      rw [hfinish]
      refine ⟨h.clock, h.grows, fun g hg => h.flights g (List.mem_of_mem_eraseIdx hg),
        fun d hd => ?_⟩
      rcases List.mem_append.mp hd with hd | hd
      · exact h.landed d hd
      · rw [List.mem_singleton.mp hd]
        exact h.flights f (List.mem_of_getElem? hf)

theorem Service.Since.run {time : Int} {w : Traffic ι B} {s : Service ι B} (h : s.Since time w)
    (steps : List (ServiceStep ι)) : (s.run P sha256 steps).Since time w := by
  induction steps generalizing s with
  | nil => exact h
  | cons st steps ih => exact ih (h.step st)

theorem Service.Kept.since {s : Service ι B} (h : s.Kept P sha256 bloom A) :
    s.Since s.clock s.traffic :=
  ⟨le_refl _, .same rfl rfl rfl, fun f hf => .inl (h.flights f hf).began,
    fun d hd => .inl ((h.landed d hd).1.began.trans (h.landed d hd).2.1)⟩

end Invariant

/-- A search long after a write, and the same search again a little later. -/
def searchTwice : List (ServiceStep Bool) :=
  Ingest.hopAndCopy.map .event ++
    [.wait 40000000000, .call ⟨"up", "", "", 0, 0, 10, 0⟩ replicaOnly.state .listed,
      .read 0 "host-a", .read 0 "host-b", .wait 5, .finish 0 .listed none, .wait 5,
      .call ⟨"up", "", "", 0, 0, 10, 0⟩ replicaOnly.state .listed]

def noTenant (n s : String) : Prop := n = "" ∧ s = ""

theorem noTenant_separated : Separated noTenant := by
  intro n s n' s' h h' _
  exact ⟨h.1.trans h'.1.symm, h.2.trans h'.2.symm⟩

def searchedTwice : Service Bool exactFilter :=
  (Service.initial Ingest.twoFresh 5).run protobuf plainHash searchTwice

end LogEngine.Coordinator
