import LogEngine.Query.FullScan
import LogEngine.Storage.Traced

namespace LogEngine.Concurrent
open Lib Storage Query

variable {B : BloomPackage} {P : ProtoPackage}

/-- Every query for a first page that the entry satisfies is answered, and with the entry in it
unless more of the entries `es` match than the limit allows. -/
def Findable (P : ProtoPackage) (s : Store B) (es : List LogEntry) (e : LogEntry) : Prop :=
  ∀ req ast, 0 ≤ req.limit → req.offset = 0 → parse req.queryString = .ok ast →
    Satisfies req ast e → ∃ r, execute P s .background req = .ok r ∧
      ((fullScan req ast es).length ≤ (if req.limit = 0 then 100 else req.limit.toInt.toNat) →
        e ∈ r.entries)

section Finished

variable {σ : System B} {log : String → List LogEntry} {live : Index.Live}

theorem finished_iff : σ.finished = true ↔ σ.waiting = [] ∧ σ.steps = [] ∧ σ.stage = .idle := by
  rw [System.finished, Bool.and_eq_true, List.isEmpty_iff, resting_iff]

theorem finished_appended (h : σ.waiting = []) : σ.appended = σ.acked := by
  rw [System.appended, h, List.map_nil, List.append_nil]

/-- When all have finished, what is stored is what was acknowledged and not deleted. -/
theorem Traced.mem_remaining (h : Traced P σ log live) (hwaiting : σ.waiting = [])
    (hnodup : σ.acked.Nodup) {e : LogEntry} : (∃ p, e ∈ log p) ↔ e ∈ σ.remaining := by
  have happended := finished_appended hwaiting
  obtain ⟨-, hdeleted⟩ := h.single (happended ▸ hnodup)
  rw [System.remaining, List.mem_filter, decide_eq_true_eq]
  constructor
  · intro hin
    obtain ⟨p, hp⟩ := hin
    exact ⟨happended ▸ h.origin p e hp, fun hdel => hdeleted e hdel p hp⟩
  · intro hgiven
    obtain ⟨hacked, hkept⟩ := hgiven
    exact (h.stored e (happended ▸ hacked)).resolve_left hkept

theorem Traced.searchable (hP : P.Inverts) (h : Traced P σ log live) (hwaiting : σ.waiting = [])
    (hsteps : σ.steps = []) (hfits : ∀ p, ∀ e ∈ log p, Fits P e) :
    Searchable P σ.store log := by
  have hfiled := h.filed
  have hknown := h.known
  rw [hsteps, run_nil] at hfiled
  rw [hsteps, hwaiting] at hknown
  have hentries : ∀ p, IsSeg p → entriesAt P σ.store.disk p = log p :=
    fun p hp => hfiled.entriesAt_eq hP hp (hfits p)
  refine ⟨⟨fun p bs hp hbs => ?_, fun p hp e he => hfits p e (hentries p hp ▸ he)⟩, hentries,
    fun p e he => (hfiled.entries p e he).1,
    ⟨live, h.rep, fun p e he => (hknown p e he).resolve_right List.not_mem_nil, h.liveSegs⟩,
    h.bloomless⟩
  rcases hfiled.files p hp with hfile | ⟨hnone, -⟩
  · rw [hfile] at hbs
    cases hbs
    exact ⟨log p, decodeSegment_records hP (hfits p)⟩
  · rw [hnone] at hbs
    cases hbs

theorem everything_satisfied (e : LogEntry) : Satisfies everything none e :=
  ⟨.inl rfl, .inl rfl, rfl, fun hpos => absurd hpos (by decide),
    fun hpos => absurd hpos (by decide)⟩

theorem Traced.findable_iff (hP : P.Inverts) (h : Traced P σ log live) (hdone : σ.finished = true)
    (hids : (σ.acked.map LogEntry.id).Nodup) :
    (∀ e ∈ σ.remaining, Findable P σ.store σ.remaining e) ↔ ∀ e ∈ σ.acked, Fits P e := by
  obtain ⟨hwaiting, hsteps, -⟩ := finished_iff.mp hdone
  have hmem : ∀ e, (∃ p, e ∈ log p) ↔ e ∈ σ.remaining :=
    fun e => h.mem_remaining hwaiting (hids.of_map _)
  have hdistinct : ∀ a ∈ σ.remaining, ∀ b ∈ σ.remaining, a.id = b.id → a = b :=
    fun a ha b hb => List.inj_on_of_nodup_map hids (List.mem_of_mem_filter ha)
      (List.mem_of_mem_filter hb)
  constructor
  · intro hfind e he
    rcases h.stored e (finished_appended hwaiting ▸ he) with hdel | ⟨p, hp⟩
    · exact (h.deletedFits e hdel).1
    · have hfiled := h.filed
      have hknown := (h.known p e hp).resolve_right (by simp [hwaiting])
      rw [hsteps] at hfiled hknown
      obtain ⟨r, hr, -⟩ := hfind e ((hmem e).mp ⟨p, hp⟩) everything none (by decide) rfl
        everything_parse (everything_satisfied e)
      obtain ⟨paths, all, hall, hpath⟩ := everything_reads h.rep h.bloomless hknown hr
      exact hfiled.fits_of_decodes hP (fun _ hbs => decodes_of_readSegments hall hpath hbs) e hp
  · intro hfits e he req ast hlimit hoffset hparse hsat
    have hfits' : ∀ p, ∀ x ∈ log p, Fits P x := fun p x hx =>
      hfits x (List.mem_of_mem_filter ((hmem x).mp ⟨p, hx⟩))
    obtain ⟨r, hr, hanswers⟩ := (h.searchable hP hwaiting hsteps hfits').answers hmem hdistinct
      hlimit (by rw [hoffset]; decide) hparse
    refine ⟨r, hr, fun hlen => ?_⟩
    have hzero : req.offset.toInt.toNat = 0 := by rw [hoffset]; rfl
    rw [hanswers.entries, hzero, List.drop_zero, List.take_of_length_le hlen]
    exact mem_fullScan.mpr ⟨he, hsat⟩

end Finished

/-- Handlers append and index, and merge and retention passes run beside them, in any order. When
all have finished, every acknowledged entry whose segment was not deleted is found, exactly when no
entry is too large to be read. -/
theorem acknowledged_findable_iff (hP : P.Inverts) {s : Store B} {log : String → List LogEntry}
    (hs : Kept P s log) (hlayout : Layout s) (hoff : s.manager.bloomEnabled = false)
    (hbloomless : ∀ p, s.manager.blooms.get p = none) {actions : List Action}
    (hleft : (System.init s (sequence s log)).NumbersLeft P actions) {σ : System B}
    (hrun : (System.init s (sequence s log)).run P actions = σ) (hdone : σ.finished = true)
    (hids : (σ.acked.map LogEntry.id).Nodup) :
    (∀ e ∈ σ.remaining, Findable P σ.store σ.remaining e) ↔ ∀ e ∈ σ.acked, Fits P e := by
  obtain ⟨live₀, hinit⟩ := Traced.init hs hlayout hoff hbloomless
  obtain ⟨log', live, h⟩ := hinit.run hP hleft
  rw [hrun] at h
  exact h.findable_iff hP hdone hids

/-- Three lines in segments of their own. The second is indexed when its segment has been merged
into another and is gone. -/
def lateAdd : List Action :=
  [.append (line "a" "" "orders" "disk full" 1), .append (line "b" "" "orders" "link down" 2),
    .add 0, .append (line "c" "" "orders" "link up" 3), .merge 1000] ++
  List.replicate 30 .compact ++ [.add 0, .add 0]

theorem acknowledged_findable_late :
    let σ : System exactFilter := (System.init (fresh exactFilter 40 false) []).run protobuf lateAdd
    line "b" "" "orders" "link down" 2 ∈ σ.remaining ∧
      Findable protobuf σ.store σ.remaining (line "b" "" "orders" "link down" 2) := by
  obtain ⟨hlayout, hkept, -, -⟩ := fresh_steady protobuf exactFilter 40 false
  have hleft : (System.init (fresh exactFilter 40 false) []).NumbersLeft protobuf lateAdd := by
    decide +kernel
  have hfind := (acknowledged_findable_iff protobuf_inverts hkept hlayout rfl (fun p => rfl) hleft
    rfl (by decide +kernel) (by decide +kernel)).mpr (by decide +kernel)
  have hmem : line "b" "" "orders" "link down" 2 ∈
      ((System.init (fresh exactFilter 40 false) []).run protobuf lateAdd).remaining := by
    decide +kernel
  exact ⟨hmem, hfind _ hmem⟩

/-- A single handler on an empty store, whose entry is found only if it fits. -/
theorem append_add_fits (hP : P.Inverts) {s : Store B} (hs : Kept P s (fun _ => []))
    (hlayout : Layout s) (hoff : s.manager.bloomEnabled = false)
    (hbloomless : ∀ p, s.manager.blooms.get p = none) {e : LogEntry} (he : Writable P e)
    (hseq : SeqLeft P s e) :
    ∃ t, (System.init s []).run P [.append e, .add 0] = ⟨t, [], [], .idle, [e], []⟩ ∧
      (Findable P t [e] e → Fits P e) := by
  obtain ⟨seg, hactive, -⟩ := hlayout.active
  obtain ⟨live₀, hinit⟩ := Traced.init hs hlayout hoff hbloomless
  have hempty : sequence s (fun _ => []) = [] := List.flatMap_eq_nil_iff.mpr (fun _ _ => rfl)
  have hleft : (System.init s []).NumbersLeft P [.append e, .add 0] :=
    ⟨hseq, fun _ _ => ⟨trivial, fun _ _ => trivial⟩⟩
  have happend : (System.init s []).step P (.append e) = ⟨s.run (appendLocked P s e true).1,
      [(e, appendTarget P s seg e)], [], .idle, [], []⟩ := by
    simp only [System.step, System.init, appendWithPath_eq hlayout hactive he hseq, List.nil_append]
  obtain ⟨t, ht⟩ : ∃ t, (System.init s []).run P [.append e, .add 0] =
      ⟨t, [], [], .idle, [e], []⟩ := by
    rw [System.run, List.foldl_cons, happend]
    exact ⟨_, rfl⟩
  rw [hempty] at hinit
  obtain ⟨log, live, h⟩ := hinit.run hP hleft
  rw [ht] at h
  refine ⟨t, ht, fun hfind => (h.findable_iff hP rfl (List.nodup_singleton _)).mp ?_ e
    (List.mem_singleton_self _)⟩
  have hall : (⟨t, [], [], .idle, [e], []⟩ : System B).remaining = [e] :=
    List.filter_eq_self.mpr (fun x _ => decide_eq_true List.not_mem_nil)
  rw [hall]
  intro x hx
  rw [List.mem_singleton.mp hx]
  exact hfind

/-- An acknowledged line that is too long to be read back is not found. -/
theorem acknowledged_unfindable :
    ∃ t : Store exactFilter, (System.init (fresh exactFilter 1000 false) []).run protobuf
        [.append longLine, .add 0] = ⟨t, [], [], .idle, [longLine], []⟩ ∧
      ¬ Findable protobuf t [longLine] longLine := by
  obtain ⟨hwritable, hlarge⟩ := longLine_size
  have hseq : SeqLeft protobuf (fresh exactFilter 1000 false) longLine :=
    fun _ _ _ => by decide +kernel
  obtain ⟨hlayout, hkept, -, -⟩ := fresh_steady protobuf exactFilter 1000 false
  obtain ⟨t, ht, hfits⟩ := append_add_fits protobuf_inverts hkept hlayout rfl (fun p => rfl)
    hwritable hseq
  exact ⟨t, ht, fun hfind => hlarge (hfits hfind)⟩

end LogEngine.Concurrent
