import LogEngine.Coordinator.CacheKey
import LogEngine.Coordinator.Page
import Mathlib.Data.List.Induction

namespace LogEngine.Coordinator
open Lib Storage Query Metadata

variable {B : BloomPackage}

structure Call (B : BloomPackage) where
  world : World B
  req : QueryRequest

/-- The namespace, service and time range of a request. -/
def InScope (req : QueryRequest) (e : LogEntry) : Prop :=
  (req.namespace = "" ∨ e.namespace = req.namespace) ∧
  (req.service = "" ∨ e.service = req.service) ∧
  (0 < req.startTime.toInt → req.startTime.toInt ≤ e.timestamp.toInt) ∧
  (0 < req.endTime.toInt → e.timestamp.toInt ≤ req.endTime.toInt)

section Scope

variable {P : ProtoPackage} {w : World B} {req : QueryRequest}

theorem nodeMatches_inScope {s : Store B} {e : LogEntry} (h : e ∈ nodeMatches P s req) :
    InScope req e := by
  unfold nodeMatches at h
  split at h
  · cases h
  · split at h
    · cases h
    · obtain ⟨hn, hs, -, hstart, hend⟩ := selects_iff.mp (mem_matched.mp h).1
      exact ⟨hn, hs, hstart, hend⟩

theorem ask_inScope {fanOutLimit : Int32} {t : String × String} {e : LogEntry}
    (h : e ∈ (ask P w (fanRequest fanOutLimit req) t).entries) : InScope req e := by
  unfold ask at h
  split at h
  · cases h
  · split at h
    · cases h
    · rename_i s _ resp hserve
      dsimp only at h
      rw [serve_window hserve] at h
      exact nodeMatches_inScope (List.mem_of_mem_take h)

theorem mergeResults_subset {parts : List NodeResult} {offset limit : Int32} {e : LogEntry}
    (h : e ∈ (mergeResults parts offset limit).entries) : ∃ p ∈ parts, e ∈ p.entries := by
  have hcombined : e ∈ combined parts := by
    simp only [mergeResults] at h
    split at h
    · exact List.mem_of_mem_drop (List.mem_of_mem_take h)
    · exact List.mem_of_mem_drop h
  obtain ⟨p, hp, he⟩ := List.mem_flatMap.mp (mem_combined.mp hcombined).mem
  exact ⟨p, List.mem_of_mem_filter hp, he⟩

/-- The fan-out answers with entries in the scope of its request. -/
theorem fanOut_inScope {fanOutLimit : Int32} {r : Result} (h : fanOut P fanOutLimit w req = .ok r) :
    ∀ e ∈ r.entries, InScope req e := by
  intro e he
  unfold fanOut at h
  split at h
  · cases h
  · rw [← Except.ok.inj h] at he
    obtain ⟨p, hp, hep⟩ := mergeResults_subset he
    obtain ⟨t, -, rfl⟩ := List.mem_map.mp ((w.arrival.perm _).mem_iff.mp hp)
    exact ask_inScope hep

end Scope

section Runs

variable (P : ProtoPackage) (sha256 : Bytes → String)

def FanOutExecutor.after (e : FanOutExecutor) (calls : List (Call B)) : FanOutExecutor :=
  calls.foldl (fun e c => (e.execute P sha256 c.world c.req).1) e

/-- The result that the cache serves to a call. -/
def FanOutExecutor.served (e : FanOutExecutor) (c : Call B) : Option Result :=
  (e.cache.get c.world.asked (cacheKey sha256 c.req)).2

/-- A call that the cache does not serve computes a result that is not partial. -/
def Computes (e : FanOutExecutor) (c : Call B) (r : Result) : Prop :=
  e.served sha256 c = none ∧ fanOut P e.fanOutLimit c.world c.req = .ok r ∧ r.isPartial = false

/-- Each result that the cache serves during a sequence of calls was computed for an equal request,
at most the TTL ago, and is in the scope of the request served. -/
def Transparent (fanOutLimit : Int32) (calls : List (Call B)) : Prop :=
  ∀ before call later r, calls = before ++ call :: later →
    ((FanOutExecutor.new fanOutLimit).after P sha256 before).served sha256 call = some r →
    (∃ older c newer, before = older ++ c :: newer ∧ c.req = call.req ∧
      Computes P sha256 ((FanOutExecutor.new fanOutLimit).after P sha256 older) c r ∧
      call.world.asked - c.world.filled ≤ cacheTTL) ∧
    ∀ e ∈ r.entries, InScope call.req e

variable {P sha256}

/-- One call keeps a property of the cached entries that its own result has. -/
theorem execute_holds {Q : String → CacheEntry Result → Prop} {e : FanOutExecutor} {c : Call B}
    (h : e.cache.Holds Q)
    (hnew : ∀ r, Computes P sha256 e c r → Q (cacheKey sha256 c.req) ⟨r, c.world.filled⟩) :
    (e.execute P sha256 c.world c.req).1.cache.Holds Q := by
  have hget := h.get c.world.asked (cacheKey sha256 c.req)
  unfold FanOutExecutor.execute
  dsimp only
  split
  · rename_i cache cached hc
    rw [hc] at hget
    exact hget
  · rename_i cache hc
    rw [hc] at hget
    split
    · exact hget
    · rename_i r hr
      split
      · exact hget
      · rename_i hpartial
        refine hget.put (hnew r ⟨?_, hr, by simpa using hpartial⟩)
        rw [FanOutExecutor.served, hc]

theorem execute_config (e : FanOutExecutor) (c : Call B) :
    (e.execute P sha256 c.world c.req).1.fanOutLimit = e.fanOutLimit ∧
    (e.execute P sha256 c.world c.req).1.cache.ttl = e.cache.ttl := by
  have hget := e.cache.get_ttl c.world.asked (cacheKey sha256 c.req)
  unfold FanOutExecutor.execute
  dsimp only
  split
  · rename_i hc
    rw [hc] at hget
    exact ⟨rfl, hget⟩
  · rename_i hc
    rw [hc] at hget
    split
    · exact ⟨rfl, hget⟩
    · split
      · exact ⟨rfl, hget⟩
      · exact ⟨rfl, (QueryCache.put_ttl _ _ _ _).trans hget⟩

/-- A computed result is served to the next call with its key until it expires. -/
theorem Computes.served {e : FanOutExecutor} {c d : Call B} {r : Result}
    (h : Computes P sha256 e c r) (hkey : cacheKey sha256 d.req = cacheKey sha256 c.req)
    (hfresh : d.world.asked - c.world.filled ≤ e.cache.ttl) :
    (e.execute P sha256 c.world c.req).1.served sha256 d = some r := by
  obtain ⟨hnone, hr, hpartial⟩ := h
  rw [FanOutExecutor.served] at hnone
  have httl := e.cache.get_ttl c.world.asked (cacheKey sha256 c.req)
  unfold FanOutExecutor.execute
  dsimp only
  split
  · rename_i hc
    rw [hc] at hnone
    cases hnone
  · rename_i cache hc
    rw [hc] at httl
    simp only [hr, hpartial, Bool.false_eq_true, if_false]
    rw [FanOutExecutor.served, hkey]
    exact QueryCache.get_put _ _ _ (by rw [httl]; exact hfresh)

theorem after_append (e : FanOutExecutor) (calls : List (Call B)) (c : Call B) :
    e.after P sha256 (calls ++ [c]) =
      ((e.after P sha256 calls).execute P sha256 c.world c.req).1 := by
  rw [FanOutExecutor.after, List.foldl_append]
  rfl

/-- The entry was put by one of the calls. -/
def PutBy (P : ProtoPackage) (sha256 : Bytes → String) (fanOutLimit : Int32)
    (calls : List (Call B)) (key : String) (entry : CacheEntry Result) : Prop :=
  ∃ older c newer, calls = older ++ c :: newer ∧ cacheKey sha256 c.req = key ∧
    Computes P sha256 ((FanOutExecutor.new fanOutLimit).after P sha256 older) c entry.result ∧
    entry.insertedAt = c.world.filled

theorem after_ttl (fanOutLimit : Int32) (calls : List (Call B)) :
    ((FanOutExecutor.new fanOutLimit).after P sha256 calls).cache.ttl = cacheTTL := by
  induction calls using List.reverseRecOn with
  | nil => rfl
  | append_singleton calls c ih => rw [after_append, (execute_config _ c).2, ih]

/-- Along every run each cached entry was put by an earlier call. -/
theorem after_holds (fanOutLimit : Int32) (calls : List (Call B)) :
    ((FanOutExecutor.new fanOutLimit).after P sha256 calls).cache.Holds
      (PutBy P sha256 fanOutLimit calls) := by
  induction calls using List.reverseRecOn with
  | nil =>
    intro k e he
    cases he
  | append_singleton calls c ih =>
    rw [after_append]
    refine execute_holds (ih.mono ?_) ?_
    · intro k e h
      obtain ⟨older, d, newer, hcalls, hkey, hcomputes, htime⟩ := h
      exact ⟨older, d, newer ++ [c], by simp [hcalls], hkey, hcomputes, htime⟩
    · intro r hr
      exact ⟨calls, c, [], rfl, rfl, hr, rfl⟩

end Runs

def noNodes (B : BloomPackage) : World B where
  state := ⟨.empty, .empty⟩
  targetOrder := .listed
  arrival := .listed
  reach := fun _ => none
  ctxErr := none
  asked := 0
  filled := 0

theorem fanOut_noNodes (P : ProtoPackage) (fanOutLimit : Int32) (req : QueryRequest) :
    fanOut P fanOutLimit (noNodes B) req = .ok ⟨[], 0, false⟩ := by
  have hnone : partsOf P fanOutLimit (noNodes B) req = [] := rfl
  rw [fanOut_eq rfl, hnone]
  simp [mergeResults, combined, received, firsts]

/-- The cache is transparent for the calls of a set of tenants exactly when no tenant's namespace
and service, joined by bars as in the key, end another's. -/
theorem cache_transparent_iff (P : ProtoPackage) (B : BloomPackage) {sha256 : Bytes → String}
    (hsha : Function.Injective sha256) (fanOutLimit : Int32) (A : String → String → Prop) :
    (∀ calls : List (Call B), (∀ c ∈ calls, A c.req.namespace c.req.service) →
      Transparent P sha256 fanOutLimit calls) ↔ Separated A := by
  constructor
  · intro h n s n' s' hA hA' hgiven
    obtain ⟨x, hx⟩ := hgiven
    have htext : utf8 (keyText ⟨String.ofList x, n, s, 0, 0, 0, 0⟩) =
        utf8 (keyText ⟨"", n', s', 0, 0, 0, 0⟩) := by
      refine congrArg utf8 (String.toList_inj.mp ?_)
      rw [keyText_toList, keyText_toList, String.toList_ofList, hx]
      rfl
    have hcomputes : Computes P sha256 (.new fanOutLimit) ⟨noNodes B, ⟨"", n', s', 0, 0, 0, 0⟩⟩
        ⟨[], 0, false⟩ := ⟨rfl, fanOut_noNodes P fanOutLimit _, rfl⟩
    have htransparent := h [⟨noNodes B, ⟨"", n', s', 0, 0, 0, 0⟩⟩,
      ⟨noNodes B, ⟨String.ofList x, n, s, 0, 0, 0, 0⟩⟩] (by simp [hA, hA'])
    obtain ⟨⟨older, c, newer, hbefore, hreq, -⟩, -⟩ := htransparent [_] _ [] _ rfl
      (hcomputes.served (congrArg sha256 htext) (show (0 : Int) - 0 ≤ cacheTTL by decide))
    have hfirst : c ∈ older ++ c :: newer := by simp
    rw [← hbefore] at hfirst
    rw [List.mem_singleton.mp hfirst] at hreq
    injection hreq with _ hn hs
    exact ⟨hn.symm, hs.symm⟩
  · intro hA calls hcalls before call later r hsplit hserved
    obtain ⟨t, hitem, hfresh⟩ := QueryCache.get_hit hserved
    obtain ⟨older, c, newer, hbefore, hkey, hcomputes, htime⟩ :=
      after_holds fanOutLimit before _ _ hitem
    have hreq : c.req = call.req := by
      refine cacheKey_inj hsha hA (hcalls c ?_) (hcalls call ?_) hkey
      · simp [hsplit, hbefore]
      · simp [hsplit]
    refine ⟨⟨older, c, newer, hbefore, hreq, hcomputes, ?_⟩, ?_⟩
    · rw [after_ttl] at hfresh
      rw [← htime]
      exact hfresh
    · rw [← hreq]
      exact fanOut_inScope hcomputes.2.1

/-- A hash without collisions: the bytes as characters. -/
def plainHash (bytes : Bytes) : String := String.ofList (bytes.map (fun b => Char.ofNat b.toNat))

theorem plainHash_injective : Function.Injective plainHash := by
  intro bs cs h
  refine List.map_injective_iff.mpr ?_ (String.ofList_injective h)
  intro b c hbc
  have hval : ∀ b : UInt8, (Char.ofNat b.toNat).toNat = b.toNat := by
    intro b
    have hb := b.toNat_lt
    exact toNat_ofNat (.inl (by omega))
  have hnat := congrArg Char.toNat hbc
  rw [hval, hval] at hnat
  exact UInt8.toNat_inj.mp hnat

def twoTenants (n s : String) : Prop := n = "t" ∧ s = "api" ∨ n = "u" ∧ s = "api"

theorem twoTenants_separated : Separated twoTenants := by
  intro n s n' s' h h' hsuffix
  rcases h with ⟨rfl, rfl⟩ | ⟨rfl, rfl⟩ <;> rcases h' with ⟨rfl, rfl⟩ | ⟨rfl, rfl⟩
  · exact ⟨rfl, rfl⟩
  · exact absurd hsuffix (by decide)
  · exact absurd hsuffix (by decide)
  · exact ⟨rfl, rfl⟩

/-- Two tenants ask, the first asks again and is served from the cache. -/
def askAgain : List (Call exactFilter) :=
  [⟨oneNode threeLines 0 1, ⟨"up", "t", "api", 0, 0, 10, 0⟩⟩,
   ⟨oneNode threeLines 2 3, ⟨"up", "u", "api", 0, 0, 10, 0⟩⟩,
   ⟨oneNode threeLines 4 5, ⟨"up", "t", "api", 0, 0, 10, 0⟩⟩]

theorem cache_transparent_again : Transparent protobuf plainHash 2 askAgain ∧
    (((FanOutExecutor.new 2).after protobuf plainHash (askAgain.take 2)).served plainHash
      ⟨oneNode threeLines 4 5, ⟨"up", "t", "api", 0, 0, 10, 0⟩⟩).isSome = true := by
  refine ⟨?_, by decide +kernel⟩
  refine (cache_transparent_iff protobuf exactFilter plainHash_injective 2 twoTenants).mpr
    twoTenants_separated _ ?_
  unfold twoTenants
  decide

def barredLine : Store exactFilter :=
  (fresh exactFilter 1000 false).ingestAll protobuf [line "1" "a|b" "c" "error" 1]

def barredFirst : Call exactFilter :=
  ⟨oneNode barredLine 0 1, ⟨"error", "a|b", "c", 0, 0, 10, 0⟩⟩

def barredSecond : Call exactFilter :=
  ⟨oneNode barredLine 2 3, ⟨"error|a", "b", "c", 0, 0, 10, 0⟩⟩

/-- A bar in a namespace moves the border to the query: namespace `b` is served a line of
namespace `a|b`. -/
theorem cache_crosses_tenants :
    ((FanOutExecutor.new 2).after protobuf plainHash [barredFirst]).served plainHash barredSecond =
      some ⟨[line "1" "a|b" "c" "error" 1], 1, false⟩ ∧
    ¬ Transparent protobuf plainHash 2 [barredFirst, barredSecond] := by
  have hserved : ((FanOutExecutor.new 2).after protobuf plainHash [barredFirst]).served plainHash
      barredSecond = some ⟨[line "1" "a|b" "c" "error" 1], 1, false⟩ := by decide +kernel
  refine ⟨hserved, ?_⟩
  intro h
  obtain ⟨-, hscope⟩ := h [barredFirst] barredSecond [] _ rfl hserved
  rcases (hscope _ (List.mem_singleton.mpr rfl)).1 with hnone | hsame
  · exact absurd hnone (by decide)
  · exact absurd hsame (by decide)

end LogEngine.Coordinator
