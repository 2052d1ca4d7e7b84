import Mathlib.Data.List.Flatten
import LogEngine.Lib.Bags
import LogEngine.Storage.Expiry

namespace LogEngine.Storage
open Lib

variable {B : BloomPackage} {P : ProtoPackage} {bloom : Bool} {s : Store B}
  {E : Multiset LogEntry}

/-- A node that holds exactly these entries, each as often as it is stored, and can read them. -/
structure Holding (P : ProtoPackage) (bloom : Bool) (s : Store B) (E : Multiset LogEntry) :
    Prop where
  stored : ∃ log, Steady P s log (sequence s log) ∧ (sequence s log : Multiset LogEntry) = E
  fits : ∀ e ∈ E, Fits P e
  screened : Screened P bloom s

theorem Holding.readAll (hP : P.Inverts) (h : Holding P bloom s E) :
    ∃ es : List LogEntry, s.readAll P = .ok es ∧ (es : Multiset LogEntry) = E := by
  obtain ⟨log, hsteady, hE⟩ := h.stored
  have hfits : ∀ p, ∀ e ∈ log p, Fits P e := fun p e he =>
    h.fits e (hE ▸ hsteady.stored p e he)
  exact ⟨_, hsteady.kept.readAll_eq hP hfits, hE⟩

theorem holding_of {log : String → List LogEntry} (hlayout : Layout s) (hkept : Kept P s log)
    (hnamed : ∀ p ∈ s.manager.paths, ∃ k, p = segmentName k)
    (hE : (sequence s log : Multiset LogEntry) = E) (hfits : ∀ e ∈ E, Fits P e)
    (hs : Screened P bloom s) : Holding P bloom s E := by
  refine ⟨⟨log, ⟨hlayout, hkept, hnamed, fun p e he => ?_, fun e he hlarge => ?_⟩, hE⟩, hfits, hs⟩
  · exact hkept.mem_sequence.mpr ⟨p, he⟩
  · exact absurd (hfits e (hE ▸ he)) hlarge

theorem sequence_ingest {log : String → List LogEntry} (hs : Kept P s log) {t : Store B}
    {e : LogEntry} {path : String} (ht : Kept P t (addTo log path e)) :
    (sequence t (addTo log path e)).Perm (e :: sequence s log) := by
  have hin : e ∈ addTo log path e path := by simp [addTo]
  refine (flatMap_perm_add ht.nodup (ht.logged.mem_paths hin) log e).trans (.cons e ?_)
  refine flatMap_perm_of_support ht.nodup hs.nodup (fun p hp => ?_) hs.logged.unlisted
  have hnone := ht.logged.unlisted p hp
  unfold addTo at hnone
  split at hnone
  · exact (List.append_eq_nil_iff.mp hnone).1
  · exact hnone

/-- An ingest adds its entry once. -/
theorem Holding.ingest (hP : P.Inverts) (hB : B.Sound) (hB' : B.RoundTrips)
    (h : Holding P bloom s E) {e : LogEntry} (he : Fits P e) (hleft : SeqLeft P s e) :
    Holding P bloom (s.ingest P e) (e ::ₘ E) := by
  obtain ⟨log, hsteady, hE⟩ := h.stored
  obtain ⟨seg, hactive, -⟩ := hsteady.layout.active
  obtain ⟨path, hlogged, hindex⟩ := hsteady.kept.logged.ingest he.writable
  have hlayout := (hsteady.kept.ingest hsteady.layout hleft).1
  have hkept : Kept P (s.ingest P e) (addTo log path e) :=
    ⟨hlogged, hlayout.nodup, hindex ▸ hsteady.kept.catalogued.add e path⟩
  have hperm := sequence_ingest hsteady.kept hkept
  have hbag : (sequence (s.ingest P e) (addTo log path e) : Multiset LogEntry) = e ::ₘ E := by
    rw [← hE, Multiset.cons_coe, Multiset.coe_eq_coe]
    exact hperm
  have hfits : ∀ x ∈ e ::ₘ E, Fits P x := by
    intro x hx
    rcases Multiset.mem_cons.mp hx with rfl | hx
    · exact he
    · exact h.fits x hx
  refine holding_of hlayout hkept (fun p hp => ?_) hbag hfits
    (h.screened.action hP hB hB' hsteady (a := .ingest e) rfl hleft trivial)
  rcases ingest_paths hactive p hp with hp | hp
  · exact hsteady.named p hp
  · exact ⟨_, hp⟩

theorem Holding.merge (hP : P.Inverts) (hB : B.Sound) (hB' : B.RoundTrips)
    (h : Holding P bloom s E) (threshold : Int) {faults : String → MergeFaults}
    (hfaults : bloom = true → ∀ p, (faults p).writeBloom = false) :
    Holding P bloom (s.run (runMergePass P s threshold faults)) E := by
  obtain ⟨log, hsteady, hE⟩ := h.stored
  obtain ⟨log', hsteady', hsame⟩ := hsteady.mergePass hP threshold faults
  exact holding_of hsteady'.layout hsteady'.kept hsteady'.named (hsame ▸ hE) h.fits
    (h.screened.action hP hB hB' hsteady (a := .merge threshold faults) rfl trivial hfaults)

/-- A retention pass takes out entries from before its cutoff. -/
theorem Holding.retain (hP : P.Inverts) (hB : B.Sound) (hB' : B.RoundTrips)
    (h : Holding P bloom s E) (now : Int64) (days : Int) :
    ∃ E' ≤ E, Holding P bloom (s.run (runRetentionPass P s now days)) E' ∧
      ∀ e ∈ E, e ∉ E' → 0 < days ∧ e.timestamp < retentionCutoff now days := by
  obtain ⟨log, hsteady, hE⟩ := h.stored
  have hlog : ∀ p, ∀ e ∈ log p, Fits P e := fun p e he => h.fits e (hE ▸ hsteady.stored p e he)
  obtain ⟨-, hpaths⟩ := hsteady.kept.retired hP hsteady.layout hlog now days
  obtain ⟨hsteady', hold⟩ := hsteady.retentionPass hP (fun e he => h.fits e (hE ▸ he)) now days
  have hsame : sequence (s.run (runRetentionPass P s now days)) (without log
      (retired P s now days)) = (s.manager.paths.filter (fun p => p ∉ retired P s now days)).flatMap
        log := by
    rw [sequence, hpaths]
    refine List.flatMap_congr (fun p hp => if_neg ?_)
    simpa using (List.mem_filter.mp hp).2
  refine ⟨_, ?_, holding_of hsteady'.layout hsteady'.kept hsteady'.named rfl ?_
    (h.screened.action hP hB hB' hsteady (a := .retain now days) rfl trivial trivial), ?_⟩
  · rw [← hE, hsame, Multiset.coe_le]
    exact (List.filter_sublist.flatMap log).subperm
  · intro e he
    obtain ⟨p, hp⟩ := hsteady'.kept.mem_sequence.mp he
    exact hlog p e (mem_without.mp hp).2
  · intro e he hlost
    obtain ⟨p, hp⟩ := hsteady.kept.mem_sequence.mp (hE ▸ he)
    exact hold p e hp (fun hp' => hlost (hsteady'.kept.mem_sequence.mpr ⟨p, hp'⟩))

theorem Holding.restart (hP : P.Inverts) (hB : B.Sound) (hB' : B.RoundTrips)
    (h : Holding P bloom s E) (maxSegmentBytes : Int) :
    ∃ t, start P B s.disk maxSegmentBytes bloom = some t ∧ Holding P bloom t E := by
  obtain ⟨log, hsteady, hE⟩ := h.stored
  obtain ⟨t, ht⟩ := hsteady.starts hP (fun e he => h.fits e (hE ▸ he)) maxSegmentBytes bloom
  obtain ⟨hkept, hlayout, hpaths⟩ := hsteady.kept.restarted hP hsteady.layout hsteady.named ht
  refine ⟨t, ht, holding_of hlayout hkept (fun p hp => hsteady.named p (hpaths p hp)) ?_ h.fits
    (h.screened.action hP hB hB' hsteady (a := .restart maxSegmentBytes bloom) ht trivial rfl)⟩
  rw [← hE, Multiset.coe_eq_coe]
  exact flatMap_perm_of_support hkept.nodup hsteady.kept.nodup hkept.logged.unlisted
    hsteady.kept.logged.unlisted

theorem fresh_holding (P : ProtoPackage) (B : BloomPackage) (maxSegmentBytes : Int)
    (bloom : Bool) : Holding P bloom (fresh B maxSegmentBytes bloom) 0 := by
  have hsteady := fresh_steady P B maxSegmentBytes bloom
  refine holding_of hsteady.layout hsteady.kept hsteady.named ?_ (by simp)
    (fresh_screened P B maxSegmentBytes bloom)
  simp [sequence]

end LogEngine.Storage
