import LogEngine.Lib.NextFit
import LogEngine.Storage.AppendOnly

namespace LogEngine.Storage
open Lib

variable {B : BloomPackage} {P : ProtoPackage} {limit : Int} {s : Store B}

def recordSize (P : ProtoPackage) (e : LogEntry) : Nat := (record P e).length

theorem load_recordSize (es : List LogEntry) :
    load (recordSize P) es = (es.flatMap (record P)).length := by
  rw [load, List.length_flatMap]
  rfl

/-- The store between two calls: an append-only log of entries that fit, packed into the segments
as they came. -/
structure Packed (P : ProtoPackage) (limit : Int) (s : Store B) (es : List LogEntry) : Prop where
  chronicle : ∃ log n, Chronicle P limit s log n ∧ ∀ p, ∀ e ∈ log p, Fits P e
  bins : s.manager.paths.map (entriesAt P s.disk) = nextFit limit (recordSize P) es

theorem Packed.sound (hP : P.Inverts) {es : List LogEntry} (h : Packed P limit s es) :
    Sound P s := by
  obtain ⟨log, n, hchronicle, hfits⟩ := h.chronicle
  exact hchronicle.logged.sound hP hfits

/-- The active segment has the size of its entries. -/
theorem Packed.active (hP : P.Inverts) {es : List LogEntry} (h : Packed P limit s es) :
    ∃ front seg, s.manager.paths = front ++ [seg.path] ∧ seg.path ∉ front ∧
      s.manager.active = some seg ∧
      seg.size = load (recordSize P) (entriesAt P s.disk seg.path) ∧
      s.manager.maxSegmentBytes = limit := by
  obtain ⟨log, n, hchronicle, hfits⟩ := h.chronicle
  have hentries := (hchronicle.logged.readable hP hfits).2 _ (segmentAt_isSeg (n + 1))
  refine ⟨names n, ⟨segmentAt (n + 1), ((log (segmentAt (n + 1))).flatMap (record P)).length⟩,
    hchronicle.paths.trans (names_succ n), names_fresh hchronicle.few, hchronicle.active, ?_,
    hchronicle.maxSegmentBytes⟩
  rw [hentries, load_recordSize]

theorem Packed.append (hP : P.Inverts) {es : List LogEntry} (h : Packed P limit s es)
    {e : LogEntry} (he : Fits P e)
    (hfew : (s.run (appendLocked P s e true).1).manager.paths.length < 2 ^ 64) :
    Packed P limit (s.run (appendLocked P s e true).1) (es ++ [e]) := by
  have hsound := h.sound hP
  obtain ⟨log, n, hchronicle, hfits⟩ := h.chronicle
  obtain ⟨log', n', hchronicle', hall⟩ := hchronicle.append he.writable hfew
  have hfits' : ∀ p, ∀ x ∈ log' p, Fits P x := by
    intro p x hx
    have hin : x ∈ (names (n' + 1)).flatMap log' :=
      List.mem_flatMap.mpr ⟨p, hchronicle'.paths ▸ hchronicle'.logged.mem_paths hx, hx⟩
    rw [hall, List.mem_append, List.mem_flatMap, List.mem_singleton] at hin
    rcases hin with ⟨q, -, hq⟩ | rfl
    · exact hfits q x hq
    · exact he
  obtain ⟨front, seg, hpaths, hlast, hactive, hsize, hlimit⟩ := h.active hP
  have happended := append_spec true hactive he.writable
  obtain ⟨-, htarget, -⟩ := happended.sound hP hsound he
  have hentries : ∀ q, IsSeg q → entriesAt P (s.run (appendLocked P s e true).1).disk q =
      if q = appendTarget P s seg e then entriesAt P s.disk q ++ [e] else entriesAt P s.disk q :=
    fun q hq => happended.entriesAt hP hsound.readable htarget he hq
  have hkeep : ∀ l : List String, (∀ p ∈ l, p ∈ s.manager.paths) → appendTarget P s seg e ∉ l →
      l.map (entriesAt P (s.run (appendLocked P s e true).1).disk) =
        l.map (entriesAt P s.disk) := by
    intro l hl hnot
    refine List.map_congr_left (fun p hp => ?_)
    have hne : p ≠ appendTarget P s seg e := fun heq => hnot (heq ▸ hp)
    rw [hentries p (hsound.segs p (hl p hp)), if_neg hne]
  refine ⟨⟨log', n', hchronicle', hfits'⟩, ?_⟩
  rw [nextFit_concat, ← h.bins, hpaths, List.map_append, List.map_singleton, place_concat]
  rw [hpaths] at hkeep
  have hsum : mustRotate P s seg e =
      decide (load (recordSize P) (entriesAt P s.disk seg.path) + recordSize P e > limit) := by
    rw [mustRotate, hsize, hlimit, ← record_length, ← recordSize]
  cases hmust : mustRotate P s seg e with
  | false =>
    rw [hsum, decide_eq_false_iff_not] at hmust
    obtain ⟨hpaths', -, -⟩ := append_fitting hactive he.writable (by simpa [hsum] using hmust) true
    have htarget' : appendTarget P s seg e = seg.path := if_neg (by simpa [hsum] using hmust)
    rw [htarget'] at hkeep hentries
    rw [hpaths', hpaths, List.map_append, List.map_singleton,
      hentries _ (hsound.segs _ (by simp [hpaths])), if_pos rfl,
      hkeep front (fun p hp => List.mem_append_left _ hp) hlast, if_neg hmust]
  | true =>
    obtain ⟨hpaths', -, -⟩ := append_rotating hactive he.writable hmust true
    have htarget' : appendTarget P s seg e = segmentName s.manager.nextSeq := if_pos hmust
    rw [hsum, decide_eq_true_eq] at hmust
    rw [htarget'] at hkeep hentries
    have hnodup : (s.manager.paths ++ [segmentName s.manager.nextSeq]).Nodup := by
      rw [← hpaths', hchronicle'.paths]
      exact (names_increasing hchronicle'.few).imp ne_of_lt
    have hnew : segmentName s.manager.nextSeq ∉ s.manager.paths := fun hin =>
      (List.nodup_append.mp hnodup).2.2 _ hin _ (List.mem_singleton_self _) rfl
    have hempty : entriesAt P s.disk (segmentName s.manager.nextSeq) = [] := by
      refine List.eq_nil_iff_forall_not_mem.mpr (fun x hx => hnew ?_)
      exact hsound.listed _ (segmentName_isSeg _) (exists_of_mem_entriesAt hx)
    rw [hpaths] at hnew hpaths'
    rw [hpaths', List.map_append, List.map_singleton, hentries _ (segmentName_isSeg _), if_pos rfl,
      hempty, List.nil_append, hkeep _ (fun p hp => hp) hnew, List.map_append, List.map_singleton,
      if_pos hmust]

theorem Packed.reopen (hP : P.Inverts) {es : List LogEntry} (h : Packed P limit s es)
    (bloomEnabled : Bool) :
    ∃ t : Store B, newManager B s.disk limit bloomEnabled = some t ∧ Packed P limit t es := by
  obtain ⟨log, n, hchronicle, hfits⟩ := h.chronicle
  obtain ⟨t, ht, hchronicle'⟩ := hchronicle.reopen bloomEnabled
  refine ⟨t, ht, ⟨log, n, hchronicle', hfits⟩, ?_⟩
  rw [← h.bins, hchronicle'.paths, hchronicle.paths]
  refine List.map_congr_left (fun p hp => ?_)
  have hseg : IsSeg p := hchronicle.logged.segs p (hchronicle.paths ▸ hp)
  rw [(hchronicle'.logged.readable hP hfits).2 p hseg,
    (hchronicle.logged.readable hP hfits).2 p hseg]

theorem Packed.run (hP : P.Inverts) {calls : List LogCall} {es : List LogEntry}
    (h : Packed P limit s es) (hfits : ∀ e ∈ calls.flatMap LogCall.entries, Fits P e)
    (hfew : FewSegments P limit s calls) :
    ∃ t : Store B, runCalls P limit s calls = some t ∧
      Packed P limit t (es ++ calls.flatMap LogCall.entries) := by
  induction calls generalizing s es with
  | nil => exact ⟨s, rfl, by simpa using h⟩
  | cons c calls ih =>
    have hrest : ∀ e ∈ calls.flatMap LogCall.entries, Fits P e :=
      fun e he => hfits e (List.mem_append_right _ he)
    rw [List.flatMap_cons, ← List.append_assoc]
    cases c with
    | append e =>
      have hlater := hfew.2 _ rfl
      exact ih (h.append hP (hfits e List.mem_cons_self) hlater.now) hrest hlater
    | reopen bloomEnabled =>
      obtain ⟨u, hu, hpacked⟩ := h.reopen hP bloomEnabled
      obtain ⟨t, ht, hpacked'⟩ := ih hpacked hrest (hfew.2 u hu)
      refine ⟨t, ?_, by simpa [LogCall.entries] using hpacked'⟩
      rw [runCalls, LogCall.apply, hu]
      exact ht

/-- Whatever is appended, and however often the manager is closed and opened again, the segments
are the next-fit packing of the records, so that `n` segments hold at least `(n - 1) / 2` times
the limit. -/
theorem rotation_next_fit (hP : P.Inverts) (B : BloomPackage) (limit : Int) (bloomEnabled : Bool)
    {calls : List LogCall} (hfits : ∀ e ∈ calls.flatMap LogCall.entries, Fits P e)
    (hfew : FewSegments P limit (fresh B limit bloomEnabled) calls) :
    ∃ s : Store B, runCalls P limit (fresh B limit bloomEnabled) calls = some s ∧
      s.manager.paths.map (entriesAt P s.disk) =
        nextFit limit (recordSize P) (calls.flatMap LogCall.entries) ∧
      (s.manager.paths.length - 1) * limit ≤
        2 * ((calls.flatMap LogCall.entries).flatMap (record P)).length := by
  have hfresh : Packed P limit (fresh B limit bloomEnabled) [] := by
    refine ⟨⟨_, 0, fresh_chronicle P B limit bloomEnabled, by simp⟩, ?_⟩
    rw [fresh_paths, List.map_singleton, fresh_entriesAt]
    rfl
  obtain ⟨s, hs, hpacked⟩ := hfresh.run hP hfits hfew
  rw [List.nil_append] at hpacked
  have hlength := congrArg List.length hpacked.bins
  rw [List.length_map] at hlength
  refine ⟨s, hs, hpacked.bins, ?_⟩
  rw [hlength, ← load_recordSize]
  exact nextFit_length limit (recordSize P) _

/-- The first two of five lines share a segment, and so do the next two. -/
def fiveCalls : List LogCall :=
  [.append (line "a" "" "api" "up" 1), .append (line "b" "" "api" "up" 2), .reopen true,
    .append (line "c" "" "api" "up" 3), .append (line "d" "" "api" "up" 4), .reopen false,
    .append (line "e" "" "api" "up" 5)]

theorem rotation_next_fit_five :
    ∃ s : Store exactFilter, runCalls protobuf 60 (fresh exactFilter 60 false) fiveCalls = some s ∧
      s.manager.paths.map (fun p => (entriesAt protobuf s.disk p).map LogEntry.id) =
        [["a", "b"], ["c", "d"], ["e"]] := by
  obtain ⟨s, hs, hbins, -⟩ := rotation_next_fit protobuf_inverts exactFilter 60 false
    (show ∀ e ∈ fiveCalls.flatMap LogCall.entries, Fits protobuf e by decide +kernel)
    (by decide +kernel)
  refine ⟨s, hs, ?_⟩
  have hids := congrArg (List.map (List.map LogEntry.id)) hbins
  rw [List.map_map] at hids
  refine hids.trans ?_
  decide +kernel

end LogEngine.Storage
