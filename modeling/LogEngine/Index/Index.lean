import LogEngine.Types
import LogEngine.Lib.Postings
import Mathlib.Data.String.Basic
import Mathlib.Data.List.Sort

namespace LogEngine
open Lib

def Index.tokenize (s : String) : List String := alnumRuns (toLower s)

structure SegmentMeta where
  minTime : Int64
  maxTime : Int64
  deriving DecidableEq

/-- `index.Index`: message tokens, services and namespaces to the segments they occur in,
and the time bounds of each segment. -/
structure Index where
  tokenSegments : Postings String String
  serviceSegments : Postings String String
  namespaceSegments : Postings String String
  segmentMeta : GoMap String SegmentMeta

namespace Index

def new : Index := ⟨.empty, .empty, .empty, .empty⟩

/-- The time bounds of a segment after `Add` saw one more timestamp. -/
def widen (old : Option SegmentMeta) (ts : Int64) : SegmentMeta :=
  match old with
  | none => ⟨ts, ts⟩
  | some b => ⟨if ts < b.minTime then ts else b.minTime, if ts > b.maxTime then ts else b.maxTime⟩

def add (idx : Index) (e : LogEntry) (path : String) : Index where
  tokenSegments :=
    (tokenize e.message).foldl (fun m tok => Postings.add m tok path) idx.tokenSegments
  serviceSegments :=
    if e.service ≠ "" then Postings.add idx.serviceSegments e.service path else idx.serviceSegments
  namespaceSegments := Postings.add idx.namespaceSegments e.namespace path
  segmentMeta := idx.segmentMeta.set path (widen (idx.segmentMeta.get path) e.timestamp)

/-- Keep the candidates found in a posting set; a key without a set ends the search. -/
def intersect (m : Postings String String) (key : String) (candidates : List String) :
    Option (List String) :=
  (m.get key).map (fun segs => candidates.filter (fun p => (segs.get p).isSome))

/-- The namespace and service filters of `Resolve`, which an empty key leaves out. -/
def intersectUnless (m : Postings String String) (key : String) (candidates : List String) :
    Option (List String) :=
  if key ≠ "" then intersect m key candidates else some candidates

/-- The token loop of `Resolve`, with its two early returns. -/
def intersectTokens (m : Postings String String) : List String → List String → Option (List String)
  | [], candidates => some candidates
  | tok :: rest, candidates =>
    match intersect m tok candidates with
    | none => none
    | some [] => none
    | some kept => intersectTokens m rest kept

/-- The time-range test of `Resolve` on one candidate. -/
def inRange (idx : Index) (startTime endTime : Int64) (path : String) : Bool :=
  match idx.segmentMeta.get path with
  | none => false
  | some b => !(startTime > 0 && b.maxTime < startTime) && !(endTime > 0 && b.minTime > endTime)

def resolve (idx : Index) (tokens : List String) (ns service : String)
    (startTime endTime : Int64) : List String :=
  let found := do
    let a ← intersectTokens idx.tokenSegments tokens idx.segmentMeta.keys
    let b ← intersectUnless idx.namespaceSegments ns a
    let c ← intersectUnless idx.serviceSegments service b
    some (c.filter (inRange idx startTime endTime))
  (found.getD []).insertionSort (· ≤ ·)

def tokenCount (idx : Index) : Nat := idx.tokenSegments.keys.length

def removeSegment (idx : Index) (path : String) : Index where
  tokenSegments := Postings.remove idx.tokenSegments path
  serviceSegments := Postings.remove idx.serviceSegments path
  namespaceSegments := Postings.remove idx.namespaceSegments path
  segmentMeta := idx.segmentMeta.delete path

def addAll (idx : Index) (path : String) (entries : List LogEntry) : Index :=
  entries.foldl (fun i e => i.add e path) idx

def rebuildFromSegments {ε : Type} (idx : Index) (readFn : String → Except ε (List LogEntry)) :
    List String → Except ε Index
  | [] => .ok idx
  | path :: rest =>
    match readFn path with
    | .error err => .error err
    | .ok entries => (idx.addAll path entries).rebuildFromSegments readFn rest

theorem addAll_nil (idx : Index) (path : String) : idx.addAll path [] = idx := rfl

theorem addAll_cons (idx : Index) (path : String) (e : LogEntry) (es : List LogEntry) :
    idx.addAll path (e :: es) = (idx.add e path).addAll path es := by
  simp only [addAll, List.foldl_cons]

theorem intersect_some {m : Postings String String} {key : String} {candidates kept : List String}
    (h : intersect m key candidates = some kept) (p : String) :
    p ∈ kept ↔ p ∈ candidates ∧ Postings.posted m key p = true := by
  unfold intersect at h
  cases hm : m.get key with
  | none => simp [hm] at h
  | some segs =>
    simp only [hm, Option.map_some, Option.some.injEq] at h
    subst kept
    simp [Postings.posted, hm]

theorem intersect_none {m : Postings String String} {key : String} {candidates : List String}
    (h : intersect m key candidates = none) (p : String) : Postings.posted m key p = false := by
  unfold intersect at h
  cases hm : m.get key with
  | none => simp [Postings.posted, hm]
  | some segs => simp [hm] at h

theorem intersectTokens_mem (m : Postings String String) (tokens candidates : List String)
    (p : String) : p ∈ (intersectTokens m tokens candidates).getD [] ↔
      p ∈ candidates ∧ ∀ tok ∈ tokens, Postings.posted m tok p = true := by
  induction tokens generalizing candidates with
  | nil => simp [intersectTokens]
  | cons tok rest ih =>
    unfold intersectTokens
    cases hi : intersect m tok candidates with
    | none => simp [intersect_none hi p]
    | some kept =>
      have hk := intersect_some hi p
      cases kept with
      | nil =>
        simp only [Option.getD_none, List.not_mem_nil, false_iff, List.forall_mem_cons]
        rintro ⟨hc, hp, _⟩
        exact absurd (hk.mpr ⟨hc, hp⟩) (by simp)
      | cons q qs =>
        rw [ih (q :: qs), hk, List.forall_mem_cons, and_assoc]

theorem getD_bind_filter {f : List String → Option (List String)} {o : Option (List String)}
    {p : String} {Q : Prop} (hf : ∀ c, p ∈ (f c).getD [] ↔ p ∈ c ∧ Q) :
    p ∈ (o.bind f).getD [] ↔ p ∈ o.getD [] ∧ Q := by
  cases o with
  | none => simp
  | some c => simpa using hf c

theorem intersectUnless_mem (m : Postings String String) (key : String)
    (candidates : List String) (p : String) :
    p ∈ (intersectUnless m key candidates).getD [] ↔
      p ∈ candidates ∧ (key = "" ∨ Postings.posted m key p = true) := by
  unfold intersectUnless
  by_cases hk : key = ""
  · simp [hk]
  · simp only [ne_eq, hk, not_false_eq_true, ↓reduceIte, false_or]
    cases hi : intersect m key candidates with
    | none => simp [intersect_none hi p]
    | some kept => simpa using intersect_some hi p

/-- Membership in `Resolve`'s answer, field by field of the index. -/
theorem mem_resolve (idx : Index) (tokens : List String) (ns service : String)
    (startTime endTime : Int64) (p : String) :
    p ∈ idx.resolve tokens ns service startTime endTime ↔
      (∀ tok ∈ tokens, Postings.posted idx.tokenSegments tok p = true) ∧
      (ns = "" ∨ Postings.posted idx.namespaceSegments ns p = true) ∧
      (service = "" ∨ Postings.posted idx.serviceSegments service p = true) ∧
      idx.inRange startTime endTime p = true := by
  have hkeys : idx.inRange startTime endTime p = true → p ∈ idx.segmentMeta.keys := by
    unfold inRange
    cases hm : idx.segmentMeta.get p with
    | none => simp
    | some b => intro _; exact idx.segmentMeta.mem_keys_iff.mpr ⟨b, hm⟩
  have hlast : ∀ c : List String, p ∈ (some (c.filter (inRange idx startTime endTime))).getD [] ↔
      p ∈ c ∧ idx.inRange startTime endTime p = true := by
    intro c
    simp
  have hservice := fun b => getD_bind_filter
    (o := intersectUnless idx.serviceSegments service b) hlast
  have hns := fun a => getD_bind_filter (o := intersectUnless idx.namespaceSegments ns a)
    (fun b => (hservice b).trans
      ((and_congr_left' (intersectUnless_mem idx.serviceSegments service b p)).trans and_assoc))
  have hall := getD_bind_filter
    (o := intersectTokens idx.tokenSegments tokens idx.segmentMeta.keys)
    (fun a => (hns a).trans
      ((and_congr_left' (intersectUnless_mem idx.namespaceSegments ns a p)).trans and_assoc))
  rw [resolve, List.mem_insertionSort]
  refine hall.trans ?_
  rw [intersectTokens_mem]
  constructor
  · rintro ⟨⟨_, ht⟩, hn, hs, hr⟩
    exact ⟨ht, hn, hs, hr⟩
  · rintro ⟨ht, hn, hs, hr⟩
    exact ⟨⟨hkeys hr, ht⟩, hn, hs, hr⟩

theorem intersectUnless_sublist {m : Postings String String} {key : String}
    {candidates kept : List String} (h : intersectUnless m key candidates = some kept) :
    kept.Sublist candidates := by
  unfold intersectUnless at h
  split at h
  · obtain ⟨segs, -, hkept⟩ := Option.map_eq_some_iff.mp h
    exact hkept ▸ List.filter_sublist
  · exact Option.some.inj h ▸ List.Sublist.refl _

theorem intersectTokens_sublist {m : Postings String String} {tokens candidates kept : List String}
    (h : intersectTokens m tokens candidates = some kept) : kept.Sublist candidates := by
  induction tokens generalizing candidates with
  | nil => exact Option.some.inj h ▸ List.Sublist.refl _
  | cons tok rest ih =>
    unfold intersectTokens at h
    split at h
    · cases h
    · cases h
    · rename_i found hfound
      obtain ⟨segs, -, hkept⟩ := Option.map_eq_some_iff.mp hfound
      exact (ih h).trans (hkept ▸ List.filter_sublist)

/-- `Resolve` names no segment twice. -/
theorem resolve_nodup (idx : Index) (tokens : List String) (ns service : String)
    (startTime endTime : Int64) : (idx.resolve tokens ns service startTime endTime).Nodup := by
  refine (List.perm_insertionSort _ _).nodup_iff.mpr ?_
  cases ha : intersectTokens idx.tokenSegments tokens idx.segmentMeta.keys with
  | none => exact .nil
  | some a =>
    cases hb : intersectUnless idx.namespaceSegments ns a with
    | none => simp [hb]
    | some b =>
      cases hc : intersectUnless idx.serviceSegments service b with
      | none => simp [hb, hc]
      | some c =>
        have hsub := (intersectUnless_sublist hc).trans
          ((intersectUnless_sublist hb).trans (intersectTokens_sublist ha))
        simpa [hb, hc] using (idx.segmentMeta.nodup.sublist hsub).filter _

end Index
end LogEngine
