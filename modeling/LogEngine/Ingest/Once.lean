import LogEngine.Ingest.Distinct

namespace LogEngine.Ingest
open Lib Storage

variable {B : BloomPackage} {P : ProtoPackage}

section Turn

variable {net : Network B} {primary : Int → Node B} {totalShards shard : Int} {s : Store B}

/-- The entries that a turn of `CatchUp` appends, in their order. -/
def appended (P : ProtoPackage) (net : Network B) (totalShards shard : Int) (s : Store B) :
    List LogEntry :=
  (tailEntries P net totalShards shard
    (s.run (transferMissingSegments P net totalShards shard s).1)).map protoToEntry

/-- The turn does not rotate the active segment, or only after an entry of `other` has gone to
it. -/
def Lasts (P : ProtoPackage) (net : Network B) (totalShards shard : Int) (s : Store B)
    (other : Int) : Prop :=
  ∀ seg ∈ s.manager.active,
    let es := appended P net totalShards shard s
    let first := beforeRotation P s.manager.maxSegmentBytes seg.size es
    first = es ∨ ∃ e ∈ first, totalShards = 0 ∨ shardOf totalShards e = other

/-- A turn of `CatchUp` for `shard` leaves `other` caught up: it replaces no segment that has
an entry of `other`, and the active segment, if the primary of `other` has one of its name, has
an entry of `other`, or gets one, or is not rotated. -/
structure Settles (P : ProtoPackage) (net : Network B) (primary : Int → Node B)
    (totalShards shard : Int) (s : Store B) (other : Int) : Prop where
  spares : ∀ name, Replaced P net totalShards shard s name → ∀ e ∈ entriesAt P s.disk name,
    ¬ inShard totalShards other e = true
  stays : s.manager.activeSegmentName ∈ (primary other).listSegments P (Int32.ofInt other) →
    segmentHolds P s.disk totalShards other s.manager.activeSegmentName = true ∨
      Lasts P net totalShards shard s other

/-- Nothing of the shard is left to transfer or to fetch. -/
structure Quiet (P : ProtoPackage) (primary : Node B) (totalShards shard : Int)
    (s : Store B) : Prop where
  listed : ∀ name ∈ primary.listSegments P (Int32.ofInt shard),
    name ∈ covered P s totalShards shard ∨ name = s.manager.activeSegmentName
  newest : ∀ e, Stored P primary e → inShard totalShards shard e = true →
    0 ≤ e.receivedAt.toInt →
    (∀ x, Holds P s.disk x → inShard totalShards shard x = true →
      x.receivedAt.toInt ≤ e.receivedAt.toInt) → Holds P s.disk e

theorem inShard_of_holds {e : LogEntry} {other : Int}
    (h : totalShards = 0 ∨ shardOf totalShards e = other) : inShard totalShards other e = true :=
  inShard_iff.mpr (h.imp_left (fun hzero => by omega))

theorem mem_covered {name : String} {other : Int} (hs : Sound P s) :
    name ∈ covered P s totalShards other ↔ name ∈ s.manager.listClosedSegments ∧
      ∃ e ∈ entriesAt P s.disk name, totalShards = 0 ∨ shardOf totalShards e = other := by
  rw [covered, List.mem_filter]
  refine and_congr_right (fun hmem => ?_)
  exact segmentHolds_iff hs.readable (hs.segs name (List.dropLast_subset _ hmem)) _ _

/-- A shard is quiet exactly when its turn asks for no segment and appends no entry. -/
theorem quiet_iff (hP : P.Inverts) (h : Undisturbed P net primary)
    (hprimary : Serving P totalShards (primary shard)) (hwire : OnWire shard) (hs : Sound P s)
    (hids : SameIDs P (primary shard) s) :
    Quiet P (primary shard) totalShards shard s ↔
      missingNames P net totalShards shard s = [] ∧ appended P net totalShards shard s = [] := by
  have htail := h.mem_tail hP hprimary hwire hs
  rw [List.eq_nil_iff_forall_not_mem, List.eq_nil_iff_forall_not_mem]
  simp only [appended, htail, h.mem_missing]
  constructor
  · intro hquiet
    have hnone : ∀ e, ¬ Offered P (primary shard) totalShards shard s e := by
      intro e hoffered
      obtain ⟨name, hlist, hcov, hne, -⟩ := hoffered
      exact (hquiet.listed name hlist).elim hcov hne
    refine ⟨fun name hname => ?_, fun e he => ?_⟩
    · obtain ⟨hlist, hcov, hne⟩ := hname
      exact (hquiet.listed name hlist).elim hcov hne
    · obtain ⟨hstored, hin, hnewest, hunknown⟩ := he
      have hheld := hquiet.newest e hstored hin hnewest.1
        (fun x hx hinx => hnewest.2 x ⟨hinx, .inl hx⟩)
      exact hunknown ⟨e, ⟨hin, .inl hheld⟩, hnewest, rfl⟩
  · intro hnothing
    obtain ⟨hmissing, hfetched⟩ := hnothing
    refine ⟨fun name hlist => ?_, fun e hstored hin hzero htop => ?_⟩
    · by_contra hnot
      exact hmissing name ⟨hlist, not_or.mp hnot⟩
    · have hlocal : ∀ x, AtHand P (primary shard) totalShards shard s x → Holds P s.disk x := by
        intro x hx
        refine hx.2.elim id (fun hoffered => ?_)
        obtain ⟨name, hlist, hcov, hne, -⟩ := hoffered
        exact absurd ⟨hlist, hcov, hne⟩ (hmissing name)
      have hnewest : Newest P (primary shard) totalShards shard s e :=
        ⟨hzero, fun x hx => htop x (hlocal x hx) hx.1⟩
      by_contra habsent
      refine hfetched e ⟨hstored, hin, hnewest, fun hknown => ?_⟩
      obtain ⟨x, hx, -, hid⟩ := hknown
      exact habsent (hids x e (.inl (hlocal x hx)) (.inr hstored) hid ▸ hlocal x hx)

/-- The count grows with every entry that is appended. -/
theorem appendAll_count (hP : P.Inverts) {pbs : List LogEntryPB} {acc : Store B × Nat}
    (hs : Sound P acc.1) (hfits : ∀ e ∈ pbs.map protoToEntry, Fits P e) :
    (pbs.foldl (appendOne P) acc).2 = acc.2 + pbs.length := by
  induction pbs generalizing acc with
  | nil => rfl
  | cons pb pbs ih =>
    have he := hfits _ List.mem_cons_self
    obtain ⟨seg, hactive, -⟩ := hs.active
    have hone : (appendOne P acc pb).2 = acc.2 + 1 := by
      simp only [appendOne, appendLocked_eq hactive he.writable, if_true]
    rw [List.foldl_cons, ih (hs.ingest hP he).1 (fun e h => hfits e (List.mem_cons_of_mem _ h)),
      hone, List.length_cons]
    omega

/-- A segment that the primary lists for the shard brings an entry. -/
theorem transferOne_count (hP : P.Inverts) (h : Undisturbed P net primary)
    (hprimary : Serving P totalShards (primary shard)) (hwire : OnWire shard) {name : String}
    (hname : name ∈ missingNames P net totalShards shard s) :
    0 < (transferOne P net shard name).2 := by
  obtain ⟨hlist, -⟩ := h.mem_missing.mp hname
  obtain ⟨chunks, hchunks⟩ := h.transfers shard name hlist
  obtain ⟨hcreate, hstream, hrename⟩ := h.files shard name
  obtain ⟨hseg, hdec⟩ := hprimary.transferred hP hchunks
  have hcount : (transferOne P net shard name).2 = (indexable P chunks).length := by
    simp [transferOne, h.call, h.peer, hcreate, hstream, hrename, hchunks]
  obtain ⟨-, hholds⟩ := List.mem_filter.mp hlist
  rw [hprimary.totalShards, hwire.toInt, segmentHolds_iff hprimary.readable hseg] at hholds
  obtain ⟨e, he, hof⟩ := hholds
  rw [hcount, indexable, hdec, hwire.toInt]
  exact List.length_pos_of_mem (List.mem_filter.mpr ⟨he, inShard_of_holds hof⟩)

/-- A turn does nothing for a quiet shard, and for any other it counts what it does. -/
theorem quiet_turn (hP : P.Inverts) (h : Undisturbed P net primary)
    (hprimary : Serving P totalShards (primary shard)) (hwire : OnWire shard) (hs : Sound P s)
    (hids : SameIDs P (primary shard) s) (n : Nat) :
    (Quiet P (primary shard) totalShards shard s →
      catchUpShard P net totalShards shard (s, n) = (s, n)) ∧
    (¬ Quiet P (primary shard) totalShards shard s →
      n < (catchUpShard P net totalShards shard (s, n)).2) := by
  have hrun := (transferMissing_run hP (h.serving hprimary) hs).sound
  have hcount : (catchUpShard P net totalShards shard (s, n)).2 =
      n + ((missingNames P net totalShards shard s).map
        (fun name => (transferOne P net shard name).2)).sum +
        (appended P net totalShards shard s).length := by
    rw [appended, List.length_map]
    refine (appendAll_count hP hrun (fun e he =>
      (Ingest.mem_tail (h.serving hprimary) hwire he).2)).trans ?_
    simp only [transferMissingSegments, List.map_map]
    rfl
  rw [quiet_iff hP h hprimary hwire hs hids]
  constructor
  · intro hnothing
    obtain ⟨hmissing, happended⟩ := hnothing
    have htransfer : transferMissingSegments P net totalShards shard s = ([], 0) := by
      simp [transferMissingSegments, hmissing]
    rw [appended, htransfer, run_nil, List.map_eq_nil_iff] at happended
    simp [catchUpShard, htransfer, appendTail, happended]
  · intro hsome
    rw [hcount]
    cases hmissing : missingNames P net totalShards shard s with
    | nil =>
      have hne : appended P net totalShards shard s ≠ [] := fun hnil => hsome ⟨hmissing, hnil⟩
      have hpos := List.length_pos_of_ne_nil hne
      omega
    | cons name names =>
      have hpos : 0 < (transferOne P net shard name).2 :=
        transferOne_count hP h hprimary hwire (s := s) (hmissing ▸ List.mem_cons_self)
      simp only [List.map_cons, List.sum_cons]
      omega

/-- What a turn of `CatchUp` for a shard leaves of a store. -/
structure Turned (P : ProtoPackage) (net : Network B) (primary : Node B) (totalShards shard : Int)
    (s t : Store B) : Prop where
  sound : Sound P t
  closed : ∀ p, p ∈ s.manager.listClosedSegments ∨ p ∈ missingNames P net totalShards shard s →
    p ∈ t.manager.listClosedSegments
  active : t.manager.activeSegmentName = s.manager.activeSegmentName ∨
    s.manager.activeSegmentName ∈ t.manager.listClosedSegments
  lasts : ∀ other, Lasts P net totalShards shard s other →
    t.manager.activeSegmentName = s.manager.activeSegmentName ∨
      ∃ e ∈ entriesAt P t.disk s.manager.activeSegmentName,
        totalShards = 0 ∨ shardOf totalShards e = other
  kept : ∀ q, IsSeg q → q ∉ missingNames P net totalShards shard s →
    ∀ e ∈ entriesAt P s.disk q, e ∈ entriesAt P t.disk q
  brought : ∀ q ∈ missingNames P net totalShards shard s, ∀ e ∈ entriesAt P primary.store.disk q,
    inShard totalShards shard e = true → e ∈ entriesAt P t.disk q

theorem Undisturbed.turned (hP : P.Inverts) (h : Undisturbed P net primary)
    (hprimary : Serving P totalShards (primary shard)) (hwire : OnWire shard)
    {acc : Store B × Nat} (hs : Sound P acc.1) :
    Turned P net (primary shard) totalShards shard acc.1
      (catchUpShard P net totalShards shard acc).1 := by
  have hrun := transferMissing_run hP (h.serving hprimary) hs
  have hsound := hrun.sound
  have hentries := fun q => h.transfer_entries hP hprimary hwire hs (q := q)
  have hfits : ∀ e ∈ (tailEntries P net totalShards shard (acc.1.run
      (transferMissingSegments P net totalShards shard acc.1).1)).map protoToEntry, Fits P e :=
    fun e he => (Ingest.mem_tail (h.serving hprimary) hwire he).2
  have hgrown := hsound.ingestAll_grown hP hfits
  have hlast : (acc.1.run (transferMissingSegments P net totalShards shard
      acc.1).1).manager.activeSegmentName = acc.1.manager.activeSegmentName :=
    congrArg (Option.getD · "") hrun.last
  unfold catchUpShard
  simp only [appendTail_fst]
  refine ⟨(hsound.ingestAll hP hfits).1, fun p hp => hgrown.closed p ?_, ?_, fun other hlasts => ?_,
    fun q hq hmiss e he => hgrown.entries q hq e ?_,
    fun q hmiss e he hin => hgrown.entries q (h.missing_isSeg hP hprimary hmiss) e ?_⟩
  · exact (hrun.closed p).mpr (hp.imp_right h.replaced_iff.mpr)
  · have hactive := hgrown.active
    rw [hlast] at hactive
    exact hactive
  · obtain ⟨seg, hactive, hseg⟩ := hs.active
    obtain ⟨hfirst, hall⟩ := hsound.ingestAll_first hP (hrun.active.trans hactive) hfits
    rw [run_maxSegmentBytes] at hfirst hall
    rcases hlasts seg hactive with heq | ⟨e, he, hof⟩
    · refine .inl ?_
      rw [← hlast, Manager.activeSegmentName, hall heq]
      rfl
    · refine .inr ⟨e, ?_, hof⟩
      rw [Manager.activeSegmentName, hseg]
      exact hfirst e he
  · rw [hentries q hq, if_neg hmiss]
    exact he
  · rw [hentries q (h.missing_isSeg hP hprimary hmiss), if_pos hmiss]
    exact List.mem_filter.mpr ⟨he, hin⟩

theorem Settles.covered {t : Store B} {other : Int} (hs : Sound P s)
    (hsettles : Settles P net primary totalShards shard s other)
    (h : Undisturbed P net primary)
    (hturned : Turned P net (primary shard) totalShards shard s t) {name : String}
    (hseg : IsSeg name) (hclosed : name ∈ t.manager.listClosedSegments)
    (hholds : segmentHolds P s.disk totalShards other name = true) :
    name ∈ Ingest.covered P t totalShards other := by
  obtain ⟨e, he, hshard⟩ := (segmentHolds_iff hs.readable hseg _ _).mp hholds
  have hkept : name ∉ missingNames P net totalShards shard s := fun hmiss =>
    hsettles.spares name (h.replaced_iff.mpr hmiss) e he (inShard_of_holds hshard)
  exact (mem_covered hturned.sound).mpr
    ⟨hclosed, e, hturned.kept name hseg hkept e he, hshard⟩

/-- After a turn that settles a shard, which is its own or was quiet before, nothing of the shard
is left to transfer. -/
theorem Settles.listed (hP : P.Inverts) (h : Undisturbed P net primary)
    (hprimary : Serving P totalShards (primary shard)) (hwire : OnWire shard) (hs : Sound P s)
    {t : Store B} {other : Int} (hsettles : Settles P net primary totalShards shard s other)
    (hturned : Turned P net (primary shard) totalShards shard s t)
    (hor : other = shard ∨ Quiet P (primary other) totalShards other s) {name : String}
    (hlist : name ∈ (primary other).listSegments P (Int32.ofInt other)) :
    name ∈ Ingest.covered P t totalShards other ∨ name = t.manager.activeSegmentName := by
  by_cases hcov : name ∈ Ingest.covered P s totalShards other
  · obtain ⟨hclosed, hholds⟩ := List.mem_filter.mp hcov
    exact .inl (hsettles.covered hs h hturned
      (hs.segs name (List.dropLast_subset _ hclosed)) (hturned.closed name (.inl hclosed)) hholds)
  by_cases hactive : name = s.manager.activeSegmentName
  · rcases hturned.active with hsame | hclosed
    · exact .inr (hactive.trans hsame.symm)
    · subst hactive
      have hseg := hturned.sound.segs _ (List.dropLast_subset _ hclosed)
      rcases hsettles.stays hlist with hholds | hlasts
      · exact .inl (hsettles.covered hs h hturned hseg hclosed hholds)
      · rcases hturned.lasts other hlasts with hsame | hgot
        · exact .inr hsame.symm
        · exact .inl ((mem_covered hturned.sound).mpr ⟨hclosed, hgot⟩)
  · rcases hor with heq | hquiet
    · subst heq
      have hmiss := h.mem_missing.mpr ⟨hlist, hcov, hactive⟩
      obtain ⟨-, hholds⟩ := List.mem_filter.mp hlist
      rw [hprimary.totalShards, hwire.toInt, segmentHolds_iff hprimary.readable
        (h.missing_isSeg hP hprimary hmiss)] at hholds
      obtain ⟨e, he, hof⟩ := hholds
      exact .inl ((mem_covered hturned.sound).mpr ⟨hturned.closed name (.inr hmiss), e,
        hturned.brought name hmiss e he (inShard_of_holds hof), hof⟩)
    · exact absurd (hquiet.listed name hlist) (not_or.mpr ⟨hcov, hactive⟩)

/-- Nor is anything left to fetch. -/
theorem Settles.quiet (hP : P.Inverts) (h : Undisturbed P net primary)
    (hprimary : Serving P totalShards (primary shard)) (hwire : OnWire shard)
    {acc : Store B × Nat} (hs : Sound P acc.1) (hids : SameIDs P (primary shard) acc.1)
    {other : Int} (hsettles : Settles P net primary totalShards shard acc.1 other)
    (hor : other = shard ∨ Quiet P (primary other) totalShards other acc.1) :
    Quiet P (primary other) totalShards other (catchUpShard P net totalShards shard acc).1 := by
  have hturned := h.turned hP hprimary hwire hs
  have hshard := h.shard_iff hP hprimary hwire hs
  generalize (catchUpShard P net totalShards shard acc).1 = t at *
  have hkept : ∀ x, Holds P acc.1.disk x → inShard totalShards other x = true →
      Holds P t.disk x := by
    intro x hx hin
    obtain ⟨q, hq, hmem⟩ := hx
    exact (hshard x).mpr (.inl ⟨q, hq, hmem, fun hrep => hsettles.spares q hrep x hmem hin⟩)
  refine ⟨fun name hlist => hsettles.listed hP h hprimary hwire hs hturned hor hlist,
    fun e hstored hin hzero htop => ?_⟩
  rcases hor with heq | hquiet
  · subst heq
    have hhand : ∀ x, AtHand P (primary other) totalShards other acc.1 x → Holds P t.disk x := by
      intro x hx
      obtain ⟨hinx, hx⟩ := hx
      rcases hx with hx | hx
      · exact hkept x hx hinx
      · exact (hshard x).mpr (.inr (.inl hx))
    have hnewest : Newest P (primary other) totalShards other acc.1 e :=
      ⟨hzero, fun x hx => htop x (hhand x hx) hx.1⟩
    by_cases hknown : ∃ x, AtHand P (primary other) totalShards other acc.1 x ∧
        Newest P (primary other) totalShards other acc.1 x ∧ x.id = e.id
    · obtain ⟨x, hx, -, hid⟩ := hknown
      exact hids x e hx.known (.inr hstored) hid ▸ hhand x hx
    · exact (hshard e).mpr (.inr (.inr ⟨hstored, hin, hnewest, hknown⟩))
  · exact hkept e (hquiet.newest e hstored hin hzero
      (fun x hx hinx => htop x (hkept x hx hinx) hinx)) hin

end Turn

section Run

variable {net : Network B} {primary : Int → Node B} {totalShards : Int} {s : Store B}
  {order : List Int}

/-- The entry is on the replica or on one of the primaries. -/
def Known (P : ProtoPackage) (primary : Int → Node B) (order : List Int) (s : Store B)
    (e : LogEntry) : Prop :=
  Holds P s.disk e ∨ ∃ shard ∈ order, Stored P (primary shard) e

/-- What the replica holds during `CatchUp` was there or comes from a primary. -/
theorem catchUp_known (hP : P.Inverts) (h : Undisturbed P net primary)
    (hprimary : ∀ shard, Serving P totalShards (primary shard)) (state : ClusterState)
    (nodeID : String) (horder : ∀ shard ∈ order, OnWire shard) (hs : Sound P s) (k : Nat) :
    ∀ e, Holds P (catchUp P net state nodeID totalShards (order.take k) s).1.disk e →
      Known P primary order s e := by
  have hsound := catchUp_sound hP (fun shard => h.serving (hprimary shard)) state nodeID horder hs
  refine catchUp_run (I := fun _ t => ∀ e, Holds P t.disk e → Known P primary order s e)
    (fun e he => .inl he) ?_ (fun _ _ _ ht => ht) k
  intro k shard hk _ ht e he
  have hmem := List.mem_of_getElem? hk
  rcases (h.shard_iff hP (hprimary shard) (horder shard hmem) (hsound k) e).mp he with
    hspared | hoffered | hfetched
  · exact ht e hspared.holds
  · exact .inr ⟨shard, hmem, hoffered.stored⟩
  · exact .inr ⟨shard, hmem, hfetched.1⟩

theorem catchUpStep_count (net : Network B) (state : ClusterState) (nodeID : String)
    (totalShards : Int) (acc : Store B × Nat) (shard : Int) :
    acc.2 ≤ (catchUpStep P net state nodeID totalShards acc shard).2 := by
  have hone : ∀ (acc : Store B × Nat) pb, acc.2 ≤ (appendOne P acc pb).2 := by
    intro acc pb
    simp only [appendOne]
    split <;> omega
  unfold catchUpStep
  split
  · have htail := le_foldl hone
      (acc.1.run (transferMissingSegments P net totalShards shard acc.1).1,
        acc.2 + (transferMissingSegments P net totalShards shard acc.1).2)
    exact le_trans (Nat.le_add_right _ _) (htail _)
  · exact Nat.le_refl _

/-- A `CatchUp` changes nothing and returns 0 exactly when every shard that it turns to is
quiet. -/
theorem catchUp_quiet_iff (hP : P.Inverts) (h : Undisturbed P net primary)
    (hprimary : ∀ shard, Serving P totalShards (primary shard)) {state : ClusterState}
    {nodeID : String} (horder : ∀ shard ∈ order, OnWire shard) (hs : Sound P s)
    (hids : ∀ shard ∈ order, SameIDs P (primary shard) s) :
    catchUp P net state nodeID totalShards order s = (s, 0) ↔
      ∀ shard ∈ order, Turns net state nodeID shard →
        Quiet P (primary shard) totalShards shard s := by
  unfold catchUp
  induction order with
  | nil => simp
  | cons shard order ih =>
    have hwire := horder shard List.mem_cons_self
    have hrest := ih (fun x hx => horder x (List.mem_cons_of_mem _ hx))
      (fun x hx => hids x (List.mem_cons_of_mem _ hx))
    obtain ⟨hidle, hbusy⟩ := quiet_turn hP h (hprimary shard) hwire hs
      (hids shard List.mem_cons_self) 0
    rw [List.foldl_cons, List.forall_mem_cons]
    by_cases hturn : Turns net state nodeID shard
    · have hstep : catchUpStep P net state nodeID totalShards (s, 0) shard = _ := if_pos hturn
      rw [hstep]
      by_cases hquiet : Quiet P (primary shard) totalShards shard s
      · rw [hidle hquiet, hrest]
        exact (and_iff_right (fun _ => hquiet)).symm
      · -- What the turn has counted is not lost on the way to the end.
        refine iff_of_false (fun heq => ?_) (fun hall => hquiet (hall.1 hturn))
        have hmore := le_foldl (catchUpStep_count (P := P) net state nodeID totalShards)
          (catchUpShard P net totalShards shard (s, 0)) order
        have hsome := hbusy hquiet
        rw [heq] at hmore
        omega
    · have hstep : catchUpStep P net state nodeID totalShards (s, 0) shard = _ := if_neg hturn
      rw [hstep, hrest]
      exact (and_iff_right (fun ht => absurd ht hturn)).symm

/-- During `CatchUp` the replica and the primaries agree on the IDs. -/
theorem catchUp_sameIDs (hP : P.Inverts) (h : Undisturbed P net primary)
    (hprimary : ∀ shard, Serving P totalShards (primary shard)) (state : ClusterState)
    (nodeID : String) (horder : ∀ shard ∈ order, OnWire shard) (hs : Sound P s)
    (hids : ∀ x y, Known P primary order s x → Known P primary order s y → x.id = y.id → x = y)
    (k : Nat) {shard : Int} (hshard : shard ∈ order) :
    SameIDs P (primary shard) (catchUp P net state nodeID totalShards (order.take k) s).1 := by
  intro x y hx hy
  have hknown : ∀ e, Holds P (catchUp P net state nodeID totalShards (order.take k) s).1.disk e ∨
      Stored P (primary shard) e → Known P primary order s e := by
    intro e he
    rcases he with he | he
    · exact catchUp_known hP h hprimary state nodeID horder hs k e he
    · exact .inr ⟨shard, hshard, he⟩
  exact hids x y (hknown x hx) (hknown y hy)

/-- If every turn settles the shards caught up so far, these are quiet after each turn. -/
theorem catchUp_settled (hP : P.Inverts) (h : Undisturbed P net primary)
    (hprimary : ∀ shard, Serving P totalShards (primary shard)) {state : ClusterState}
    {nodeID : String} (horder : ∀ shard ∈ order, OnWire shard) (hs : Sound P s)
    (hids : ∀ x y, Known P primary order s x → Known P primary order s y → x.id = y.id → x = y)
    (hall : ∀ k shard, order[k]? = some shard → Turns net state nodeID shard →
      ∀ other ∈ order.take (k + 1), Turns net state nodeID other →
        Settles P net primary totalShards shard
          (catchUp P net state nodeID totalShards (order.take k) s).1 other) (k : Nat) :
    ∀ other ∈ order.take k, Turns net state nodeID other →
      Quiet P (primary other) totalShards other
        (catchUp P net state nodeID totalShards (order.take k) s).1 := by
  have hsound := catchUp_sound hP (fun shard => h.serving (hprimary shard)) state nodeID horder hs
  have hlast : ∀ k, ∀ other ∈ order.take (k + 1),
      other ∈ order.take k ∨ order[k]? = some other := by
    intro k other hother
    simpa [List.take_add_one] using hother
  refine catchUp_run (I := fun k t => ∀ other ∈ order.take k, Turns net state nodeID other →
    Quiet P (primary other) totalShards other t) (by simp) ?_ ?_ k
  · intro k shard hk hturn ht other hother hturns
    have hmem := List.mem_of_getElem? hk
    refine (hall k shard hk hturn other hother hturns).quiet hP h (hprimary shard)
      (horder shard hmem) (hsound k)
      (catchUp_sameIDs hP h hprimary state nodeID horder hs hids k hmem) ?_
    rcases hlast k other hother with hbefore | hnow
    · exact .inr (ht other hbefore hturns)
    · exact .inl (Option.some.inj (hnow.symm.trans hk))
  · intro k t hidle ht other hother hturns
    rcases hlast k other hother with hbefore | hnow
    · exact ht other hbefore hturns
    · exact absurd hturns (hidle other hnow)

/-- For an undisturbed `CatchUp` between stores on which an ID denotes one entry and occurs
once: after each of its turns no ID occurs in two records of the replica, exactly when each
turn brings its entries once. A `CatchUp` that follows, over any of the shards, changes nothing
and returns 0 exactly when each shard that it turns to is quiet in the store that the first one
has left. All are if each turn settles the shards caught up so far. -/
theorem catchUp_once_iff (hP : P.Inverts) (h : Undisturbed P net primary)
    (hprimary : ∀ shard, Serving P totalShards (primary shard)) (state : ClusterState)
    (nodeID : String) (horder : ∀ shard ∈ order, OnWire shard) (hs : Sound P s)
    (hd : Distinct P s) (hdp : ∀ shard ∈ order, Distinct P (primary shard).store)
    (hids : ∀ x y, Known P primary order s x → Known P primary order s y → x.id = y.id → x = y) :
    let done := (catchUp P net state nodeID totalShards order s).1
    ((∀ k, Distinct P (catchUp P net state nodeID totalShards (order.take k) s).1) ↔
      ∀ k shard, order[k]? = some shard → Turns net state nodeID shard →
        BringsOnce P (primary shard) totalShards shard
          (catchUp P net state nodeID totalShards (order.take k) s).1) ∧
    (∀ again : List Int, (∀ shard ∈ again, shard ∈ order) →
      (catchUp P net state nodeID totalShards again done = (done, 0) ↔
        ∀ shard ∈ again, Turns net state nodeID shard →
          Quiet P (primary shard) totalShards shard done)) ∧
    ((∀ k shard, order[k]? = some shard → Turns net state nodeID shard →
        ∀ other ∈ order.take (k + 1), Turns net state nodeID other →
          Settles P net primary totalShards shard
            (catchUp P net state nodeID totalShards (order.take k) s).1 other) →
      ∀ shard ∈ order, Turns net state nodeID shard →
        Quiet P (primary shard) totalShards shard done) := by
  have hsound := catchUp_sound hP (fun shard => h.serving (hprimary shard)) state nodeID horder hs
  have hsame := fun k shard (hshard : shard ∈ order) =>
    catchUp_sameIDs hP h hprimary state nodeID horder hs hids k hshard
  have hturn := fun k shard (hk : order[k]? = some shard)
      (hd : Distinct P (catchUp P net state nodeID totalShards (order.take k) s).1) =>
    distinct_turn hP h (hprimary shard) (horder shard (List.mem_of_getElem? hk)) (hsound k) hd
      (hdp shard (List.mem_of_getElem? hk)) (hsame k shard (List.mem_of_getElem? hk))
  refine ⟨⟨fun hall k shard hk hshard => ?_, fun hall k => ?_⟩, fun again hagain => ?_,
    fun hall => ?_⟩
  · have hnext := hall (k + 1)
    rw [catchUp_turn totalShards hk hshard s] at hnext
    exact (hturn k shard hk (hall k)).mp hnext
  · refine catchUp_run (I := fun _ => Distinct P) hd ?_ (fun _ _ _ ht => ht) k
    intro k shard hk hshard ht
    exact (hturn k shard hk ht).mpr (hall k shard hk hshard)
  · have hend := hsound order.length
    have hagree := hsame order.length
    rw [List.take_length] at hend hagree
    exact catchUp_quiet_iff hP h hprimary (fun shard hshard => horder shard (hagain shard hshard))
      hend (fun shard hshard => hagree shard (hagain shard hshard))
  · have hquiet := catchUp_settled hP h hprimary horder hs hids hall order.length
    rw [List.take_length] at hquiet
    exact hquiet

end Run

def emptyReplica : Store exactFilter := sampleStore []

theorem emptyReplica_entriesAt (q : String) : entriesAt protobuf emptyReplica.disk q = [] :=
  fresh_entriesAt protobuf exactFilter 40 false q

theorem emptyReplica_sound : Sound protobuf emptyReplica :=
  fresh_sound protobuf exactFilter 40 false

theorem emptyReplica_holds (e : LogEntry) : ¬ Holds protobuf emptyReplica.disk e := by
  rintro ⟨q, -, he⟩
  rw [emptyReplica_entriesAt] at he
  cases he

theorem fullNode_distinct : Distinct protobuf fullNode.store := by
  constructor
  · decide +kernel
  · decide +kernel

theorem emptyReplica_ids (order : List Int) (x y : LogEntry)
    (hx : Known protobuf (fun _ => fullNode) order emptyReplica x)
    (hy : Known protobuf (fun _ => fullNode) order emptyReplica y) (hid : x.id = y.id) : x = y := by
  have hmem : ∀ e, Known protobuf (fun _ => fullNode) order emptyReplica e →
      e ∈ fullPrimary.manager.paths.flatMap (entriesAt protobuf fullPrimary.disk) := by
    intro e he
    rcases he with he | ⟨_, -, p, hp, he⟩
    · exact absurd he (emptyReplica_holds e)
    · exact List.mem_flatMap.mpr ⟨p, hp, he⟩
  have hall : ∀ x ∈ fullPrimary.manager.paths.flatMap (entriesAt protobuf fullPrimary.disk),
      ∀ y ∈ fullPrimary.manager.paths.flatMap (entriesAt protobuf fullPrimary.disk),
        x.id = y.id → x = y := by
    decide +kernel
  exact hall x (hmem x hx) y (hmem y hy) hid

/-- The turn of shard 1 on an empty replica: the primary's second segment is transferred, and
its third entry is fetched into the active segment. -/
theorem emptyReplica_lasts :
    Lasts protobuf (sampleNetwork fullPrimary) 2 1 emptyReplica 1 := by
  have hactive : emptyReplica.manager.active = some ⟨"00000000000000000001.seg", 0⟩ := by
    decide +kernel
  intro seg hseg
  rw [hactive] at hseg
  cases hseg
  left
  decide +kernel

theorem emptyReplica_bringsOnce : BringsOnce protobuf fullNode 2 1 emptyReplica := by
  have hnodup : fullNode.store.manager.paths.Nodup := by decide +kernel
  refine ⟨fun e _ => emptyReplica_holds e, fun p hp => ?_⟩
  have hle := List.nodup_iff_count_le_one.mp hnodup p
  omega

theorem catchUp_once_empty :
    (∀ k, Distinct protobuf (catchUp protobuf (sampleNetwork fullPrimary) sampleState "b" 2
      (List.take k [0, 1]) emptyReplica).1) ∧
    ∀ again : List Int, (∀ shard ∈ again, shard ∈ [0, 1]) →
      catchUp protobuf (sampleNetwork fullPrimary) sampleState "b" 2 again
          (catchUp protobuf (sampleNetwork fullPrimary) sampleState "b" 2 [0, 1] emptyReplica).1 =
        ((catchUp protobuf (sampleNetwork fullPrimary) sampleState "b" 2 [0, 1] emptyReplica).1,
          0) := by
  have hone : ∀ shard ∈ [(0 : Int), 1], Turns (sampleNetwork fullPrimary) sampleState "b" shard →
      shard = 1 := by
    decide +kernel
  have hat : ∀ (k : Nat) (shard : Int), [(0 : Int), 1][k]? = some shard → shard = 1 →
      (catchUp protobuf (sampleNetwork fullPrimary) sampleState "b" 2 (List.take k [0, 1])
        emptyReplica).1 = emptyReplica := by
    intro k shard hk hshard
    rcases k with _ | _ | k
    · simp [hshard] at hk
    · rfl
    · simp at hk
  obtain ⟨honce, hagain, hsettled⟩ := catchUp_once_iff (s := emptyReplica) protobuf_inverts
    sampleNetwork_undisturbed (fun _ => fullNode_serving) sampleState "b"
    (by simp [OnWire] : ∀ shard ∈ [(0 : Int), 1], OnWire shard) emptyReplica_sound
    ⟨fun p _ => by simp [emptyReplica_entriesAt],
      fun p _ q _ a ha => by simp [emptyReplica_entriesAt] at ha⟩
    (fun _ _ => fullNode_distinct) (emptyReplica_ids [0, 1])
  refine ⟨honce.mpr (fun k shard hk hturn => ?_), fun again hmem => (hagain again hmem).mpr
    (fun shard hshard => hsettled (fun k shard hk hturn other hother hturns => ?_) shard
      (hmem shard hshard))⟩
  · have hshard := hone shard (List.mem_of_getElem? hk) hturn
    rw [hat k shard hk hshard, hshard]
    exact emptyReplica_bringsOnce
  · have hshard := hone shard (List.mem_of_getElem? hk) hturn
    rw [hat k shard hk hshard, hshard, hone other (List.mem_of_mem_take hother) hturns]
    refine ⟨?_, fun _ => .inr emptyReplica_lasts⟩
    simp [emptyReplica_entriesAt]

/-- A primary of both shards, whose second segment has an entry of each. -/
def mixedPrimary : Store exactFilter :=
  (fresh exactFilter 70 false).ingestAll protobuf [sampleEntry "p1" "orders" 1,
    sampleEntry "p2" "api" 2, sampleEntry "p3" "orders" 3, sampleEntry "p4" "api" 4,
    sampleEntry "p5" "orders" 5]

/-- Node `b` is the replica of both shards. -/
def bothState : ClusterState where
  nodes := sampleState.nodes
  shards := (GoMap.empty.set 0 ⟨"a", "b"⟩).set 1 ⟨"a", "b"⟩

/-- A replica that got the second entry through replication, in its active segment, gets it
again with the primary's segment. And where two shards share a segment of the primary, their
turns replace its file for each other, so that a second run transfers it twice again. -/
theorem catchUp_repeats :
    ((partialReplica.readAll protobuf).toOption =
        some [sampleEntry "p2" "api" 2] ∧
      (fullPrimary.readAll protobuf).toOption = some [sampleEntry "p1" "api" 1,
        sampleEntry "p2" "api" 2, sampleEntry "p3" "api" 3] ∧
      ["00000000000000000001.seg", "00000000000000000002.seg"].map (fun p =>
        decide (sampleEntry "p2" "api" 2 ∈ entriesAt protobuf
          (catchUp protobuf (sampleNetwork fullPrimary) sampleState "b" 2 [0, 1]
            partialReplica).1.disk p)) = [true, true]) ∧
    (mixedPrimary.readAll protobuf).toOption.map (List.map LogEntry.id) =
        some ["p1", "p2", "p3", "p4", "p5"] ∧
      (catchUp protobuf (sampleNetwork mixedPrimary) bothState "b" 2 [0, 1]
        (catchUp protobuf (sampleNetwork mixedPrimary) bothState "b" 2 [0, 1]
          emptyReplica).1).2 = 2 := by
  decide +kernel

end LogEngine.Ingest
