import LogEngine.Storage.Layout
import LogEngine.Storage.Log
import LogEngine.Packages

namespace LogEngine.Storage
open Lib

variable {B : BloomPackage} {P : ProtoPackage}

def segmentAt (n : Nat) : String := segmentName (UInt64.ofNat n)

theorem segmentAt_isSeg (n : Nat) : IsSeg (segmentAt n) := segmentName_isSeg _

/-- The names of the first `n` segments. -/
def names (n : Nat) : List String := (List.range n).map (fun i => segmentAt (i + 1))

theorem names_succ (n : Nat) : names (n + 1) = names n ++ [segmentAt (n + 1)] := by
  simp [names, List.range_succ]

theorem ofNat_lt {i j : Nat} (h : i < j) (hj : j < 2 ^ 64) : UInt64.ofNat i < UInt64.ofNat j := by
  have hsize : UInt64.size = 2 ^ 64 := rfl
  rw [UInt64.lt_iff_toNat_lt, UInt64.toNat_ofNat_of_lt' (by omega),
    UInt64.toNat_ofNat_of_lt' (by omega)]
  exact h

theorem names_increasing {n : Nat} (h : n < 2 ^ 64) : (names n).Pairwise (· < ·) := by
  rw [names, List.pairwise_map]
  refine List.pairwise_lt_range.imp_of_mem (fun _ hj hlt => ?_)
  have hj := List.mem_range.mp hj
  exact segmentName_lt (ofNat_lt (by omega) (by omega))

theorem names_fresh {n : Nat} (h : n + 1 < 2 ^ 64) :
    segmentAt (n + 1) ∉ names n := by
  have hall := names_increasing h
  rw [names_succ] at hall
  intro hmem
  exact lt_irrefl _ ((List.pairwise_append.mp hall).2.2 _ hmem _ (List.mem_singleton_self _))

theorem maxSeq_names {n : Nat} (h : n < 2 ^ 64) : maxSeq (names n) = n := by
  have hsize : UInt64.size = 2 ^ 64 := rfl
  have hparse : ∀ p ∈ names n, ∃ i < n, parseUint (trimSuffix p ".seg") = some (i + 1) := by
    intro p hp
    obtain ⟨i, hi, rfl⟩ := List.mem_map.mp hp
    have hi := List.mem_range.mp hi
    refine ⟨i, hi, ?_⟩
    rw [segmentAt, parse_segmentName, UInt64.toNat_ofNat_of_lt' (by omega)]
  obtain ⟨hle, hattained⟩ := maxSeq_spec (names n)
  apply Nat.le_antisymm
  · rcases hattained with hzero | ⟨p, hp, hmax⟩
    · omega
    · obtain ⟨i, hi, hsome⟩ := hparse p hp
      rw [hmax, Option.some.injEq] at hsome
      omega
  · cases n with
    | zero => exact Nat.zero_le _
    | succ k =>
      refine hle (segmentAt (k + 1)) ?_ (k + 1) ?_
      · rw [names_succ]
        exact List.mem_append_right _ (List.mem_singleton_self _)
      · rw [segmentAt, parse_segmentName, UInt64.toNat_ofNat_of_lt' (by omega)]

/-- The store between two calls: segments 1 to `n` with the entries of the log, none of them longer
than the limit unless it holds a single record. -/
structure Chronicle (P : ProtoPackage) (limit : Int) (s : Store B)
    (log : String → List LogEntry) (n : Nat) : Prop where
  logged : Logged P s log
  paths : s.manager.paths = names (n + 1)
  few : n + 1 < 2 ^ 64
  next : s.manager.nextSeq = UInt64.ofNat (n + 2)
  active : s.manager.active = some ⟨segmentAt (n + 1),
    ((log (segmentAt (n + 1))).flatMap (record P)).length⟩
  maxSegmentBytes : s.manager.maxSegmentBytes = limit
  shape : ∀ p, (((log p).flatMap (record P)).length : Int) ≤ limit ∨ (log p).length ≤ 1

section Append

variable {s : Store B} {log : String → List LogEntry} {n : Nat} {limit : Int}

/-- The manager after an append that opens a segment. -/
theorem append_rotating {seg : Segment} {e : LogEntry} (hactive : s.manager.active = some seg)
    (he : Writable P e) (hfull : mustRotate P s seg e = true) (ok : Bool) :
    let t := s.run (appendLocked P s e ok).1
    let name := segmentName s.manager.nextSeq
    t.manager.paths = s.manager.paths ++ [name] ∧ t.manager.nextSeq = s.manager.nextSeq + 1 ∧
      t.manager.active = some ⟨name,
        (((s.disk.files.get name).getD []).length : Int) + ((record P e).length : Int)⟩ := by
  obtain ⟨hget, -, -, hlayout⟩ := rotateBloom_run (P := P) s s.manager.activeSegmentName ok
  have hname := hget _ (segmentName_isSeg s.manager.nextSeq)
  rw [appendLocked_eq hactive he, rotateIfFull, appendTarget, if_pos hfull, if_pos hfull, rotate,
    run_append, run_append]
  generalize s.run (rotateBloom P s s.manager.activeSegmentName ok) = t at *
  simp only [openNewSegment, writeSteps, run_cons, run_nil, Step.apply, Store.openActive,
    Disk.create, GoMap.get_set, if_true, Option.getD_some, hname, Option.map_some, record_length,
    hlayout.paths, hlayout.nextSeq, and_self]

theorem flatMap_addTo {front : List String} {last : String} (h : last ∉ front) (e : LogEntry) :
    (front ++ [last]).flatMap (addTo log last e) = (front ++ [last]).flatMap log ++ [e] := by
  have hfront : front.flatMap (addTo log last e) = front.flatMap log := by
    refine List.flatMap_congr (fun p hp => ?_)
    have hne : p ≠ last := fun heq => h (heq ▸ hp)
    exact if_neg hne
  rw [List.flatMap_append, List.flatMap_append, hfront]
  simp [addTo]

theorem addTo_shape {path : String} {e : LogEntry}
    (hshape : ∀ p, (((log p).flatMap (record P)).length : Int) ≤ limit ∨ (log p).length ≤ 1)
    (hpath : (((log path).flatMap (record P)).length : Int) + (record P e).length ≤ limit ∨
      log path = []) (p : String) :
    (((addTo log path e p).flatMap (record P)).length : Int) ≤ limit ∨
      (addTo log path e p).length ≤ 1 := by
  unfold addTo
  split
  · rename_i heq
    rw [heq]
    rcases hpath with hle | hnil
    · refine .inl ?_
      rw [List.flatMap_append, List.length_append]
      simpa using hle
    · exact .inr (by simp [hnil])
  · exact hshape p

/-- An append adds its entry at the end. -/
theorem Chronicle.append (h : Chronicle P limit s log n) {e : LogEntry} (he : Writable P e)
    (hfew : (s.run (appendLocked P s e true).1).manager.paths.length < 2 ^ 64) :
    ∃ log' n', Chronicle P limit (s.run (appendLocked P s e true).1) log' n' ∧
      (names (n' + 1)).flatMap log' = (names (n + 1)).flatMap log ++ [e] := by
  obtain ⟨path, hlogged, hname, -⟩ := h.logged.append he true
  have hmax := (append_spec true h.active he).maxSegmentBytes.trans h.maxSegmentBytes
  rw [Manager.activeSegmentName] at hname
  cases hmust : mustRotate P s ⟨segmentAt (n + 1),
      ((log (segmentAt (n + 1))).flatMap (record P)).length⟩ e with
  | false =>
    have hfits := Bool.eq_false_iff.mp hmust
    obtain ⟨hpaths, hnext, hactive⟩ := append_fitting h.active he hfits true
    generalize s.run (appendLocked P s e true).1 = t at *
    rw [hpaths, h.paths, names_succ, List.getLast?_concat, Option.getD_some] at hname
    subst hname
    refine ⟨_, n, ⟨hlogged, hpaths.trans h.paths, h.few, hnext.trans h.next, ?_, hmax,
      addTo_shape h.shape (.inl ?_)⟩, ?_⟩
    · rw [hactive]
      simp [addTo]
    · have hle := of_decide_eq_false hmust
      rw [h.maxSegmentBytes, ← record_length] at hle
      simpa using hle
    · rw [names_succ]
      exact flatMap_addTo (names_fresh h.few) e
  | true =>
    obtain ⟨hpaths, hnext, hactive⟩ := append_rotating h.active he hmust true
    generalize s.run (appendLocked P s e true).1 = t at *
    rw [h.next, ← segmentAt] at hpaths hactive
    rw [hpaths, List.getLast?_concat, Option.getD_some] at hname
    subst hname
    rw [h.paths, ← names_succ] at hpaths
    have hlen : n + 2 < 2 ^ 64 := by simpa [hpaths, names] using hfew
    have hnot := names_fresh hlen
    have hnil : log (segmentAt (n + 2)) = [] :=
      h.logged.unlisted _ (by rw [h.paths]; exact hnot)
    refine ⟨_, n + 1, ⟨hlogged, hpaths, hlen, ?_, ?_, hmax, addTo_shape h.shape (.inr hnil)⟩, ?_⟩
    · rw [hnext, h.next]
      exact (UInt64.ofNat_add (n + 2) 1).symm
    · rw [hactive, h.logged.getD (segmentAt_isSeg _)]
      simp [addTo]
    · rw [names_succ, flatMap_addTo hnot, List.flatMap_append]
      simp [hnil]

theorem Chronicle.congr (h : Chronicle P limit s log n) {t : Store B} (hdisk : t.disk = s.disk)
    (hpaths : t.manager.paths = s.manager.paths) (hactive : t.manager.active = s.manager.active)
    (hnext : t.manager.nextSeq = s.manager.nextSeq)
    (hmax : t.manager.maxSegmentBytes = s.manager.maxSegmentBytes) : Chronicle P limit t log n := by
  obtain ⟨⟨files, unlisted, writable, segs, active⟩, paths, few, next, seg, max, shape⟩ := h
  rw [← hpaths] at unlisted segs paths
  rw [← hdisk, ← hpaths] at files
  rw [← hdisk, ← hpaths, ← hactive] at active
  exact ⟨⟨files, unlisted, writable, segs, active⟩, paths, few, hnext.trans next,
    hactive.trans seg, hmax.trans max, shape⟩

theorem newManager_named {d : Disk} {k : UInt64} {bs : Bytes}
    (hmark : d.marker = some (segmentName k)) (hfile : d.files.get (segmentName k) = some bs)
    (maxSegmentBytes : Int) (bloomEnabled : Bool) :
    ∃ t : Store B, newManager B d maxSegmentBytes bloomEnabled = some t ∧ t.disk = d ∧
      SameLayout ⟨maxSegmentBytes, some ⟨segmentName k, bs.length⟩,
        nextSeqFromMatches (activeLast (matchedSegments d) (segmentName k)),
        activeLast (matchedSegments d) (segmentName k), bloomEnabled, .empty⟩ t.manager := by
  have hmarked := markedSegment_eq hmark (by rw [hfile]; rfl)
  simp only [newManager, initialManager, hmarked, Option.some_or, if_neg (segmentName_ne_empty k),
    hfile, Option.getD_some]
  exact ⟨_, rfl, rfl, loadBlooms_layout _ d⟩

/-- The directory holds the segments in order. -/
theorem Chronicle.matched (h : Chronicle P limit s log n) :
    matchedSegments s.disk = names (n + 1) := by
  have hfiles : ∀ p, p ∈ matchedSegments s.disk ↔ p ∈ names (n + 1) := by
    intro p
    rw [mem_matchedSegments, ← h.paths]
    constructor
    · intro hand
      rw [h.logged.files p hand.1] at hand
      by_contra hnot
      rw [if_neg hnot] at hand
      cases hand.2
    · intro hp
      rw [h.logged.files p (h.logged.segs p hp), if_pos hp]
      exact ⟨h.logged.segs p hp, rfl⟩
  have hincreasing := names_increasing h.few
  refine List.Perm.eq_of_pairwise (fun a b _ _ hab hba => le_antisymm hab hba)
    (matchedSegments_sorted s.disk) (hincreasing.imp le_of_lt) ?_
  exact (List.perm_ext_iff_of_nodup (matchedSegments_nodup _)
    (hincreasing.imp ne_of_lt)).mpr hfiles

/-- `Close` and `NewManager` on the directory find the same segments again. -/
theorem Chronicle.reopen (h : Chronicle P limit s log n) (bloomEnabled : Bool) :
    ∃ t : Store B, newManager B s.disk limit bloomEnabled = some t ∧ Chronicle P limit t log n := by
  have hlast : (names (n + 1)).getLast? = some (segmentAt (n + 1)) := by
    rw [names_succ, List.getLast?_concat]
  have hkept : activeLast (names (n + 1)) (segmentAt (n + 1)) = names (n + 1) :=
    if_neg (fun hand => hand.2 hlast)
  obtain ⟨k, size, hactive, -, hmark⟩ := h.logged.active
  have hname : segmentName k = segmentAt (n + 1) := by
    rw [h.active, Option.some.injEq, Segment.mk.injEq] at hactive
    exact hactive.1.symm
  have hfile : s.disk.files.get (segmentName k) =
      some ((log (segmentName k)).flatMap (record P)) := by
    rw [h.logged.files _ (segmentName_isSeg k), hname, h.paths,
      if_pos (List.mem_of_getLast? hlast)]
  obtain ⟨t, ht, hdisk, hlayout⟩ := newManager_named (B := B) hmark hfile limit bloomEnabled
  rw [hname, h.matched, hkept, nextSeqFromMatches, maxSeq_names h.few] at hlayout
  refine ⟨t, ht, h.congr hdisk (hlayout.paths.trans h.paths.symm)
    (hlayout.active.trans h.active.symm) ?_ (hlayout.maxSegmentBytes.trans h.maxSegmentBytes.symm)⟩
  rw [hlayout.nextSeq, h.next]
  exact (UInt64.ofNat_add (n + 1) 1).symm

end Append

/-- The calls that write and open a data directory. -/
inductive LogCall where
  | append (e : LogEntry)
  | reopen (bloomEnabled : Bool)

/-- The store after a call; `Close` followed by `NewManager` may find no store. -/
def LogCall.apply (P : ProtoPackage) (limit : Int) (s : Store B) : LogCall → Option (Store B)
  | .append e => some (s.run (appendLocked P s e true).1)
  | .reopen bloomEnabled => newManager B s.disk limit bloomEnabled

def runCalls (P : ProtoPackage) (limit : Int) (s : Store B) : List LogCall → Option (Store B)
  | [] => some s
  | c :: calls => (c.apply P limit s).bind (fun t => runCalls P limit t calls)

def LogCall.entries : LogCall → List LogEntry
  | .append e => [e]
  | .reopen _ => []

/-- At no time there are `2 ^ 64` segments. -/
def FewSegments (P : ProtoPackage) (limit : Int) (s : Store B) : List LogCall → Prop
  | [] => s.manager.paths.length < 2 ^ 64
  | c :: calls => s.manager.paths.length < 2 ^ 64 ∧
      ∀ t ∈ c.apply P limit s, FewSegments P limit t calls

instance FewSegments.decidable {limit : Int} : (s : Store B) → (calls : List LogCall) →
    Decidable (FewSegments P limit s calls)
  | _, [] => inferInstanceAs (Decidable (_ < _))
  | s, c :: calls => @instDecidableAnd _ _ inferInstance
      (@Option.decidableForallMem _ _ (fun t => FewSegments.decidable t calls)
        (c.apply P limit s))

section Calls

variable {s : Store B} {log : String → List LogEntry} {n : Nat} {limit : Int}

theorem FewSegments.now {calls : List LogCall} (h : FewSegments P limit s calls) :
    s.manager.paths.length < 2 ^ 64 := by
  cases calls with
  | nil => exact h
  | cons c calls => exact h.1

/-- Every run of calls ends in a store with the entries of its appends, in their order. -/
theorem Chronicle.run {calls : List LogCall} (h : Chronicle P limit s log n)
    (hfits : ∀ e ∈ calls.flatMap LogCall.entries, Writable P e)
    (hfew : FewSegments P limit s calls) :
    ∃ t log' n', runCalls P limit s calls = some t ∧ Chronicle P limit t log' n' ∧
      (names (n' + 1)).flatMap log' =
        (names (n + 1)).flatMap log ++ calls.flatMap LogCall.entries := by
  induction calls generalizing s log n with
  | nil => exact ⟨s, log, n, rfl, h, by simp⟩
  | cons c calls ih =>
    have hrest : ∀ e ∈ calls.flatMap LogCall.entries, Writable P e :=
      fun e he => hfits e (List.mem_append_right _ he)
    cases c with
    | append e =>
      have hlater := hfew.2 _ rfl
      obtain ⟨log₁, n₁, h₁, heq₁⟩ := h.append (hfits e List.mem_cons_self) hlater.now
      obtain ⟨t, log₂, n₂, ht, h₂, heq₂⟩ := ih h₁ hrest hlater
      refine ⟨t, log₂, n₂, ht, h₂, ?_⟩
      rw [heq₂, heq₁, List.flatMap_cons, List.append_assoc]
      rfl
    | reopen bloomEnabled =>
      obtain ⟨u, hu, h₁⟩ := h.reopen bloomEnabled
      obtain ⟨t, log₂, n₂, ht, h₂, heq₂⟩ := ih h₁ hrest (hfew.2 u hu)
      refine ⟨t, log₂, n₂, ?_, h₂, by rw [heq₂]; rfl⟩
      rw [runCalls, LogCall.apply, hu]
      exact ht

theorem fresh_chronicle (P : ProtoPackage) (B : BloomPackage) (limit : Int) (bloomEnabled : Bool) :
    Chronicle P limit (fresh B limit bloomEnabled) (fun _ => []) 0 := by
  refine ⟨fresh_logged P B limit bloomEnabled, fresh_paths B limit bloomEnabled, by decide, ?_, ?_,
    ?_, fun p => .inr (by simp)⟩
  · rw [fresh, (openNewSegment_run _ _).2.2.2.1]
    rfl
  · simp only [fresh, openNewSegment, run_cons, run_nil, Step.apply, Store.openActive, Disk.create,
      GoMap.get_set, if_true, Option.getD_some]
    rfl
  · rw [fresh, (openNewSegment_run _ _).2.2.2.2.2.1]
    rfl

/-- The data directory is an append-only log: whatever the segment size and however often the
manager is closed and opened again, all entries read back in order, the names increase, and a
segment above the limit holds a single record. -/
theorem append_only_log (hP : P.Inverts) (B : BloomPackage) (limit : Int) (bloomEnabled : Bool)
    {calls : List LogCall} (hfits : ∀ e ∈ calls.flatMap LogCall.entries, Fits P e)
    (hfew : FewSegments P limit (fresh B limit bloomEnabled) calls) :
    ∃ s : Store B, runCalls P limit (fresh B limit bloomEnabled) calls = some s ∧
      s.readAll P = .ok (calls.flatMap LogCall.entries) ∧ s.manager.paths.Pairwise (· < ·) ∧
      ∀ p ∈ s.manager.paths, ∃ bs, s.disk.files.get p = some bs ∧
        (bs = [] ∨ (bs.length : Int) ≤ limit ∨ ∃ e, bs = record P e) := by
  obtain ⟨s, log, n, hs, h, heq⟩ := (fresh_chronicle P B limit bloomEnabled).run
    (fun e he => (hfits e he).writable) hfew
  have hnone : (names (0 + 1)).flatMap (fun _ => ([] : List LogEntry)) = [] := by simp
  rw [hnone, List.nil_append, ← h.paths] at heq
  have hlog : ∀ p, ∀ e ∈ log p, Fits P e := by
    intro p e he
    refine hfits e ?_
    rw [← heq]
    exact List.mem_flatMap.mpr ⟨p, h.logged.mem_paths he, he⟩
  refine ⟨s, hs, by rw [h.logged.readAll_eq hP hlog, heq], h.paths ▸ names_increasing h.few, ?_⟩
  intro p hp
  have hfile := h.logged.files p (h.logged.segs p hp)
  rw [if_pos hp] at hfile
  refine ⟨_, hfile, ?_⟩
  rcases h.shape p with hle | hone
  · exact .inr (.inl hle)
  · cases hentries : log p with
    | nil => exact .inl rfl
    | cons e rest =>
      rw [hentries, List.length_cons] at hone
      have hrest : rest = [] := List.length_eq_zero_iff.mp (by omega)
      exact .inr (.inr ⟨e, by simp [hrest]⟩)

end Calls

/-- Three lines in segments that hold one record each, with a restart between them. -/
def threeCalls : List LogCall :=
  [.append (line "a" "" "orders" "disk full" 1), .append (line "b" "" "orders" "link down" 2),
    .reopen true, .append (line "c" "" "orders" "disk full" 3)]

theorem append_only_three :
    ∃ s : Store exactFilter, runCalls protobuf 10 (fresh exactFilter 10 false) threeCalls = some s ∧
      s.readAll protobuf = .ok (threeCalls.flatMap LogCall.entries) ∧
      s.manager.paths.Pairwise (· < ·) ∧
      ∀ p ∈ s.manager.paths, ∃ bs, s.disk.files.get p = some bs ∧
        (bs = [] ∨ (bs.length : Int) ≤ 10 ∨ ∃ e, bs = record protobuf e) :=
  append_only_log protobuf_inverts exactFilter 10 false (by decide +kernel) (by decide +kernel)

end LogEngine.Storage
