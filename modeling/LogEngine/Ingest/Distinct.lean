import Mathlib.Data.List.Nodup
import LogEngine.Ingest.Complete
import LogEngine.Lib.Lists

namespace LogEngine.Ingest
open Lib Storage

variable {B : BloomPackage} {P : ProtoPackage}

/-- No ID occurs in two records of the segments that the store lists. -/
structure Distinct (P : ProtoPackage) (s : Store B) : Prop where
  within : ∀ p ∈ s.manager.paths, ((entriesAt P s.disk p).map LogEntry.id).Nodup
  across : ∀ p ∈ s.manager.paths, ∀ q ∈ s.manager.paths, ∀ a ∈ entriesAt P s.disk p,
    ∀ b ∈ entriesAt P s.disk q, a.id = b.id → p = q

/-- For a sound store this is about all segment files. -/
theorem distinct_iff {s : Store B} (hs : Sound P s) : Distinct P s ↔
    (∀ p, IsSeg p → ((entriesAt P s.disk p).map LogEntry.id).Nodup) ∧
      ∀ p q, IsSeg p → IsSeg q → ∀ a ∈ entriesAt P s.disk p, ∀ b ∈ entriesAt P s.disk q,
        a.id = b.id → p = q := by
  have hlisted : ∀ p, IsSeg p → ∀ e ∈ entriesAt P s.disk p, p ∈ s.manager.paths :=
    fun p hp e he => hs.listed p hp (exists_of_mem_entriesAt he)
  constructor
  · intro h
    refine ⟨fun p hp => ?_, fun p q hp hq a ha b hb => ?_⟩
    · by_cases hmem : p ∈ s.manager.paths
      · exact h.within p hmem
      · have hnil : entriesAt P s.disk p = [] :=
          List.eq_nil_iff_forall_not_mem.mpr (fun e he => hmem (hlisted p hp e he))
        simp [hnil]
    · exact h.across p (hlisted p hp a ha) q (hlisted q hq b hb) a ha b hb
  · intro h
    exact ⟨fun p hp => h.1 p (hs.segs p hp),
      fun p hp q hq a ha b hb => h.2 p q (hs.segs p hp) (hs.segs q hq) a ha b hb⟩

/-- An ingest keeps the IDs distinct exactly when the ID is new. -/
theorem distinct_ingest (hP : P.Inverts) {s : Store B} (hs : Sound P s) {e : LogEntry}
    (he : Fits P e) :
    Distinct P (s.ingest P e) ↔ Distinct P s ∧ ∀ x, Holds P s.disk x → x.id ≠ e.id := by
  obtain ⟨hsound, path, hpath, -, hentries⟩ := hs.ingest hP he
  have hkept : ∀ q, IsSeg q → (entriesAt P s.disk q).Sublist
      (entriesAt P (s.ingest P e).disk q) := by
    intro q hq
    rw [hentries q hq]
    split
    · exact List.sublist_append_left _ _
    · exact List.Sublist.refl _
  have hnew : e ∈ entriesAt P (s.ingest P e).disk path := by
    rw [hentries path hpath, if_pos rfl]
    simp
  rw [distinct_iff hsound, distinct_iff hs]
  constructor
  · intro hgiven
    obtain ⟨hwithin, hacross⟩ := hgiven
    refine ⟨⟨fun p hp => ((hkept p hp).map _).nodup (hwithin p hp), fun p q hp hq a ha b hb =>
      hacross p q hp hq a ((hkept p hp).subset ha) b ((hkept q hq).subset hb)⟩, ?_⟩
    intro x hx hid
    obtain ⟨q, hq, hx⟩ := hx
    have hqp := hacross q path hq hpath x ((hkept q hq).subset hx) e hnew hid
    subst hqp
    have hnodup := hwithin q hq
    rw [hentries q hq, if_pos rfl, List.map_append] at hnodup
    exact (List.nodup_append.mp hnodup).2.2 x.id (List.mem_map_of_mem hx) e.id (by simp) hid
  · intro hgiven
    obtain ⟨⟨hwithin, hacross⟩, hfresh⟩ := hgiven
    have hmem : ∀ q, IsSeg q → ∀ x ∈ entriesAt P (s.ingest P e).disk q,
        x ∈ entriesAt P s.disk q ∨ x = e ∧ q = path := by
      intro q hq x hx
      rw [hentries q hq] at hx
      split at hx
      · rename_i heq
        rcases List.mem_append.mp hx with hx | hx
        · exact .inl hx
        · exact .inr ⟨List.mem_singleton.mp hx, heq⟩
      · exact .inl hx
    refine ⟨fun p hp => ?_, fun p q hp hq a ha b hb hid => ?_⟩
    · rw [hentries p hp]
      split
      · rw [List.map_append]
        refine List.nodup_append.mpr ⟨hwithin p hp, by simp, fun i hi j hj hij => ?_⟩
        obtain ⟨x, hx, hxi⟩ := List.mem_map.mp hi
        simp only [List.map_cons, List.map_nil, List.mem_singleton] at hj
        exact hfresh x ⟨p, hp, hx⟩ (hxi.trans (hij.trans hj))
      · exact hwithin p hp
    · rcases hmem p hp a ha with ha | ⟨hae, hpp⟩
      · rcases hmem q hq b hb with hb | ⟨hbe, -⟩
        · exact hacross p q hp hq a ha b hb hid
        · exact absurd (hbe ▸ hid) (hfresh a ⟨p, hp, ha⟩)
      · rcases hmem q hq b hb with hb | ⟨-, hqp⟩
        · exact absurd (hae ▸ hid).symm (hfresh b ⟨q, hq, hb⟩)
        · exact hpp.trans hqp.symm

theorem distinct_ingestAll (hP : P.Inverts) {s : Store B} (hs : Sound P s) {es : List LogEntry}
    (hes : ∀ e ∈ es, Fits P e) :
    Distinct P (s.ingestAll P es) ↔
      Distinct P s ∧ (es.map LogEntry.id).Nodup ∧
        ∀ e ∈ es, ∀ x, Holds P s.disk x → x.id ≠ e.id := by
  induction es generalizing s with
  | nil => simp [Store.ingestAll]
  | cons e es ih =>
    have he := hes e List.mem_cons_self
    change Distinct P ((s.ingest P e).ingestAll P es) ↔ _
    rw [ih (hs.ingest hP he).1 (fun x hx => hes x (List.mem_cons_of_mem _ hx)),
      distinct_ingest hP hs he]
    simp only [hs.holds_ingest hP he, List.map_cons, List.nodup_cons, List.forall_mem_cons,
      List.mem_map, not_exists, not_and]
    constructor
    · intro hgiven
      obtain ⟨⟨hd, hfresh⟩, hnodup, hall⟩ := hgiven
      exact ⟨hd, ⟨fun x hx hid => hall x hx e (.inr rfl) hid.symm, hnodup⟩, hfresh,
        fun f hf x hx => hall f hf x (.inl hx)⟩
    · intro hgiven
      obtain ⟨hd, ⟨hother, hnodup⟩, hfresh, hall⟩ := hgiven
      refine ⟨⟨hd, hfresh⟩, hnodup, fun f hf x hx => ?_⟩
      rcases hx with hx | hx
      · exact hall f hf x hx
      · exact fun hid => hother f hf (hx ▸ hid).symm

/-- What a turn of `CatchUp` brings is new to the replica and comes in one record: no segment
that it asks for has an entry that is held, and no segment that the primary lists twice has an
entry that it fetches. -/
structure BringsOnce (P : ProtoPackage) (primary : Node B) (totalShards shard : Int)
    (s : Store B) : Prop where
  offered : ∀ e, Offered P primary totalShards shard s e → ¬ Holds P s.disk e
  fetched : ∀ p, 2 ≤ primary.store.manager.paths.count p →
    ∀ e ∈ entriesAt P primary.store.disk p, ¬ Fetched P primary totalShards shard s e

/-- An ID denotes one entry on the two stores. -/
def SameIDs (P : ProtoPackage) (primary : Node B) (s : Store B) : Prop :=
  ∀ x y, Holds P s.disk x ∨ Stored P primary x → Holds P s.disk y ∨ Stored P primary y →
    x.id = y.id → x = y

theorem Offered.stored {n : Node B} {totalShards shard : Int} {s : Store B} {e : LogEntry}
    (h : Offered P n totalShards shard s e) : Stored P n e := by
  obtain ⟨name, hlist, -, -, he, -⟩ := h
  exact ⟨name, List.dropLast_subset _ (List.mem_of_mem_filter hlist), he⟩

theorem AtHand.known {n : Node B} {totalShards shard : Int} {s : Store B} {e : LogEntry}
    (h : AtHand P n totalShards shard s e) : Holds P s.disk e ∨ Stored P n e :=
  h.2.imp_right Offered.stored

section Turn

variable {net : Network B} {primary : Int → Node B} {totalShards shard : Int} {s : Store B}

theorem missing_listed (h : Undisturbed P net primary) {name : String}
    (hname : name ∈ missingNames P net totalShards shard s) :
    name ∈ (primary shard).store.manager.paths :=
  List.dropLast_subset _ (List.mem_of_mem_filter (h.mem_missing.mp hname).1)

/-- The transfers keep the IDs distinct exactly when they bring nothing that is held. -/
theorem distinct_transfers (hP : P.Inverts) (h : Undisturbed P net primary)
    (hprimary : Serving P totalShards (primary shard)) (hwire : OnWire shard) (hs : Sound P s)
    (hd : Distinct P s) (hdp : Distinct P (primary shard).store)
    (hids : SameIDs P (primary shard) s) :
    Distinct P (s.run (transferMissingSegments P net totalShards shard s).1) ↔
      ∀ e, Offered P (primary shard) totalShards shard s e → ¬ Holds P s.disk e := by
  have hsound := (transferMissing_run hP (h.serving hprimary) hs).sound
  have hentries := fun q => h.transfer_entries hP hprimary hwire hs (q := q)
  rw [distinct_iff hsound]
  constructor
  · intro hdistinct e hoffered hheld
    obtain ⟨name, hlist, hcov, hne, he, hin⟩ := hoffered
    obtain ⟨q, hq, hmem, hspared⟩ :=
      spared_of_inShard (h.serving hprimary) hwire hs hheld hin
    have hmissing := h.mem_missing.mpr ⟨hlist, hcov, hne⟩
    have hkept : q ∉ missingNames P net totalShards shard s :=
      fun hq' => hspared (h.replaced_iff.mpr hq')
    have hseg := h.missing_isSeg hP hprimary hmissing
    have hsame : q = name := by
      refine hdistinct.2 q name hq hseg e ?_ e ?_ rfl
      · rw [hentries q hq, if_neg hkept]
        exact hmem
      · rw [hentries name hseg, if_pos hmissing]
        exact List.mem_filter.mpr ⟨he, hin⟩
    exact hkept (hsame ▸ hmissing)
  · intro hnew
    obtain ⟨hwithin, hacross⟩ := (distinct_iff hs).mp hd
    have hoffered : ∀ q, q ∈ missingNames P net totalShards shard s →
        ∀ a ∈ (entriesAt P (primary shard).store.disk q).filter (inShard totalShards shard),
          Offered P (primary shard) totalShards shard s a := by
      intro q hq a ha
      obtain ⟨hlist, hcov, hne⟩ := h.mem_missing.mp hq
      obtain ⟨ha, hin⟩ := List.mem_filter.mp ha
      exact ⟨q, hlist, hcov, hne, ha, hin⟩
    have hclash : ∀ a b, Offered P (primary shard) totalShards shard s a → Holds P s.disk b →
        a.id ≠ b.id := by
      intro a b ha hb hid
      exact hnew a ha (hids a b (.inr ha.stored) (.inl hb) hid ▸ hb)
    refine ⟨fun p hp => ?_, fun p q hp hq a ha b hb hid => ?_⟩
    · rw [hentries p hp]
      split
      · rename_i hmissing
        exact (List.filter_sublist.map _).nodup (hdp.within p (missing_listed h hmissing))
      · exact hwithin p hp
    · rw [hentries p hp] at ha
      rw [hentries q hq] at hb
      split at ha
      · rename_i hpm
        split at hb
        · rename_i hqm
          exact hdp.across p (missing_listed h hpm) q (missing_listed h hqm) a
            (List.mem_of_mem_filter ha) b (List.mem_of_mem_filter hb) hid
        · exact absurd hid (hclash a b (hoffered p hpm a ha) ⟨q, hq, hb⟩)
      · split at hb
        · rename_i hqm
          exact absurd hid.symm (hclash b a (hoffered q hqm b hb) ⟨p, hp, ha⟩)
        · exact hacross p q hp hq a ha b hb hid

/-- The second phase appends no ID twice exactly when the primary lists no segment with a
fetched entry twice. -/
theorem tail_nodup_iff (hP : P.Inverts) (h : Undisturbed P net primary)
    (hprimary : Serving P totalShards (primary shard)) (hwire : OnWire shard) (hs : Sound P s)
    (hdp : Distinct P (primary shard).store) :
    (((tailEntries P net totalShards shard
        (s.run (transferMissingSegments P net totalShards shard s).1)).map protoToEntry).map
          LogEntry.id).Nodup ↔
      ∀ p, 2 ≤ (primary shard).store.manager.paths.count p →
        ∀ e ∈ entriesAt P (primary shard).store.disk p,
          ¬ Fetched P (primary shard) totalShards shard s e := by
  obtain ⟨appends, happends, hperm⟩ := h.tail_perm hP hprimary hwire hs
  have hapart : ∀ p ∈ (primary shard).store.manager.paths,
      ∀ q ∈ (primary shard).store.manager.paths, p ≠ q →
      List.Disjoint (((entriesAt P (primary shard).store.disk p).filter appends).map LogEntry.id)
        (((entriesAt P (primary shard).store.disk q).filter appends).map LogEntry.id) := by
    intro p hp q hq hne i hi hj
    obtain ⟨a, ha, hai⟩ := List.mem_map.mp hi
    obtain ⟨b, hb, hbi⟩ := List.mem_map.mp hj
    exact hne (hdp.across p hp q hq a (List.mem_of_mem_filter ha) b (List.mem_of_mem_filter hb)
      (hai.trans hbi.symm))
  rw [(hperm.map LogEntry.id).nodup_iff, List.map_flatMap, List.nodup_flatMap]
  have hwithin : ∀ p ∈ (primary shard).store.manager.paths,
      (((entriesAt P (primary shard).store.disk p).filter appends).map LogEntry.id).Nodup :=
    fun p hp => (List.filter_sublist.map _).nodup (hdp.within p hp)
  rw [and_iff_right hwithin, pairwise_iff_twice hapart]
  refine forall_congr' (fun p => forall_congr' (fun htwice => ?_))
  have hp : p ∈ (primary shard).store.manager.paths := List.count_pos_iff.mp (by omega)
  constructor
  · intro hdisjoint e he hfetched
    have hmem := List.mem_map_of_mem (f := LogEntry.id)
      (List.mem_filter.mpr ⟨he, (happends e ⟨p, hp, he⟩).mpr hfetched⟩)
    exact hdisjoint hmem hmem
  · intro hnone i hi _
    obtain ⟨e, he, -⟩ := List.mem_map.mp hi
    obtain ⟨he, happend⟩ := List.mem_filter.mp he
    exact hnone e he ((happends e ⟨p, hp, he⟩).mp happend)

/-- A turn of `CatchUp` keeps the IDs distinct exactly when what it brings comes once. -/
theorem distinct_turn (hP : P.Inverts) (h : Undisturbed P net primary)
    (hprimary : Serving P totalShards (primary shard)) (hwire : OnWire shard)
    {acc : Store B × Nat} (hs : Sound P acc.1)
    (hd : Distinct P acc.1) (hdp : Distinct P (primary shard).store)
    (hids : SameIDs P (primary shard) acc.1) :
    Distinct P (catchUpShard P net totalShards shard acc).1 ↔
      BringsOnce P (primary shard) totalShards shard acc.1 := by
  have hsound := (transferMissing_run hP (h.serving hprimary) hs).sound
  unfold catchUpShard
  simp only [appendTail_fst]
  rw [distinct_ingestAll hP hsound
      (fun e he => (Ingest.mem_tail (h.serving hprimary) hwire he).2),
    distinct_transfers hP h hprimary hwire hs hd hdp hids,
    tail_nodup_iff hP h hprimary hwire hs hdp]
  constructor
  · exact fun hgiven => ⟨hgiven.1, hgiven.2.1⟩
  · refine fun honce => ⟨honce.offered, honce.fetched, fun e he x hx hid => ?_⟩
    obtain ⟨hstored, hin, hnewest, hunknown⟩ := (h.mem_tail hP hprimary hwire hs e).mp he
    rw [h.transfer_iff hP hprimary hwire hs] at hx
    have hor : Holds P acc.1.disk x ∨ Offered P (primary shard) totalShards shard acc.1 x :=
      hx.imp_left Spared.holds
    have hsame := hids x e (hor.imp_right Offered.stored) (.inr hstored) hid
    exact hunknown ⟨e, ⟨hin, hsame ▸ hor⟩, hnewest, rfl⟩

end Turn

end LogEngine.Ingest
