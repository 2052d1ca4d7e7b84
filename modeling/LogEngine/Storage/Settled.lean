import LogEngine.Lib.Runs
import LogEngine.Storage.Preserved

namespace LogEngine.Storage
open Lib

variable {B : BloomPackage} {P : ProtoPackage} {log : String → List LogEntry} {s : Store B}

section Clean

theorem failedAppend_none {all : List LogEntry} (h : ∀ e ∈ all, Writable P e) :
    failedAppend P {} all = none := by
  rw [failedAppend, List.findIdx?_eq_none_iff]
  intro x hx
  obtain ⟨e, i⟩ := x
  have he : (marshalLogEntry P e).length < 2 ^ 32 := h e (List.fst_mem_of_mem_zipIdx hx)
  have hlen : (marshalLogEntry P e).length ≤ 2 ^ 32 - 1 := by omega
  simpa [writeRecord] using hlen

/-- A merge in which nothing fails goes through. -/
theorem mergeRun_clean (hP : P.Inverts) (hs : Kept P s log)
    (hfits : ∀ p, ∀ e ∈ log p, Fits P e) {newPath : String} {olds : List String}
    (hlisted : ∀ p ∈ newPath :: olds, p ∈ s.manager.paths) :
    ∃ all, readSegments P s.disk (newPath :: olds) = .ok all ∧
      mergeRun P s {} (newPath :: olds) =
        mergeWrite P (tmpPath newPath) all ++ (newPath :: olds).map .indexRemove ++
          .rename (tmpPath newPath) newPath ::
            mergeCommit s.manager.bloomEnabled true newPath olds all := by
  have hread := readSegments_eq (hs.logged.readable hP hfits).1
    (fun p hp => hs.logged.segs p (hlisted p hp))
  refine ⟨_, hread, ?_⟩
  have hwritable : ∀ e ∈ (newPath :: olds).flatMap (entriesAt P s.disk), Writable P e := by
    intro e he
    obtain ⟨p, hp, he⟩ := List.mem_flatMap.mp he
    rw [(hs.logged.readable hP hfits).2 p (hs.logged.segs p (hlisted p hp))] at he
    exact hs.logged.writable p e he
  simp only [mergeRun, hread, mergeAll, failedAppend_none hwritable, Bool.false_eq_true, if_false,
    Bool.not_false]

/-- What is left of a list of segments in the list of the manager when its runs are merged. -/
def heads (groups : List (List String)) : List String := groups.map (fun g => g.headD "")

/-- Runs that have become one segment each, with all their entries; nothing else has changed. -/
structure Joined (P : ProtoPackage) (s t : Store B) (log log' : String → List LogEntry)
    (groups : List (List String)) : Prop where
  kept : Kept P t log'
  joined : ∀ g ∈ groups, log' (g.headD "") = g.flatMap log
  others : ∀ p, p ∉ groups.flatten → log' p = log p
  source : ∀ p, ∀ e ∈ log' p, ∃ q, e ∈ log q
  alone : ∀ p, [p] ∈ groups ∨ p ∉ groups.flatten → IsSeg p →
    t.disk.files.get p = s.disk.files.get p

/-- Where nothing is merged everything stays. -/
theorem Joined.refl (hs : Kept P s log) {groups : List (List String)}
    (halone : ∀ g ∈ groups, ∃ p, g = [p]) : Joined P s s log log groups := by
  refine ⟨hs, ?_, fun _ _ => rfl, fun p e he => ⟨p, he⟩, fun _ _ _ => rfl⟩
  intro g hg
  obtain ⟨p, rfl⟩ := halone g hg
  simp

theorem Joined.trans {t u : Store B} {log₁ log₂ : String → List LogEntry}
    {groups groups' : List (List String)} (h : Joined P s t log log₁ groups)
    (h' : Joined P t u log₁ log₂ groups') (hnodup : (groups ++ groups').flatten.Nodup)
    (hne : ∀ g ∈ groups, g ≠ []) : Joined P s u log log₂ (groups ++ groups') := by
  rw [List.flatten_append, List.nodup_append] at hnodup
  have hapart : ∀ p, p ∈ groups.flatten → p ∉ groups'.flatten :=
    fun p hp hp' => hnodup.2.2 p hp p hp' rfl
  refine ⟨h'.kept, ?_, ?_, ?_, ?_⟩
  · intro g hg
    rcases List.mem_append.mp hg with hg | hg
    · obtain ⟨p, ps, rfl⟩ := List.exists_cons_of_ne_nil (hne g hg)
      have hp : p ∈ groups.flatten := List.mem_flatten.mpr ⟨_, hg, List.mem_cons_self⟩
      rw [← h.joined _ hg]
      exact h'.others p (hapart p hp)
    · rw [h'.joined g hg]
      refine List.flatMap_congr (fun p hp => h.others p (fun hin => hapart p hin ?_))
      exact List.mem_flatten.mpr ⟨g, hg, hp⟩
  · intro p hp
    rw [List.flatten_append, List.mem_append, not_or] at hp
    rw [h'.others p hp.2, h.others p hp.1]
  · intro p e he
    obtain ⟨q, hq⟩ := h'.source p e he
    exact h.source q e hq
  · intro p hp hseg
    have hsides : ([p] ∈ groups ∨ p ∉ groups.flatten) ∧
        ([p] ∈ groups' ∨ p ∉ groups'.flatten) := by
      rw [List.flatten_append, List.mem_append, List.mem_append, not_or] at hp
      rcases hp with (hp | hp) | hp
      · exact ⟨.inl hp, .inr (hapart p (List.mem_flatten.mpr ⟨_, hp, List.mem_singleton_self p⟩))⟩
      · refine ⟨.inr (fun hin => hapart p hin ?_), .inl hp⟩
        exact List.mem_flatten.mpr ⟨_, hp, List.mem_singleton_self p⟩
      · exact ⟨.inr hp.1, .inr hp.2⟩
    rw [h'.alone p hsides.2 hseg, h.alone p hsides.1 hseg]

/-- A merge of two segments or more in which nothing fails. -/
theorem Joined.mergeRun (hP : P.Inverts) (hs : Kept P s log)
    (hfits : ∀ p, ∀ e ∈ log p, Fits P e) {newPath : String} {front olds back : List String}
    (hpaths : s.manager.paths = front ++ (newPath :: olds) ++ back) (hback : back ≠ [])
    (holds : olds ≠ []) :
    (s.run (mergeRun P s {} (newPath :: olds))).manager.paths = front ++ [newPath] ++ back ∧
      ∃ log', Joined P s (s.run (mergeRun P s {} (newPath :: olds))) log log'
        [newPath :: olds] := by
  have hlisted : ∀ p ∈ newPath :: olds, p ∈ s.manager.paths := by
    intro p hp
    rw [hpaths]
    exact List.mem_append_left _ (List.mem_append_right _ hp)
  obtain ⟨all, hall, hsteps⟩ := mergeRun_clean hP hs hfits hlisted
  obtain ⟨hkept, hpaths'⟩ := hs.committed hP hpaths hback hall hsteps
    (mergeRun_compacts (fun p hp => hp) s _)
  refine ⟨by rw [hpaths', List.append_cons], _, hkept, ?_, ?_, fun p e he => mem_foldInto he, ?_⟩
  · intro g hg
    rw [List.mem_singleton.mp hg]
    exact if_pos rfl
  · intro p hp
    rw [List.flatten_singleton, List.mem_cons, not_or] at hp
    rw [foldInto, if_neg hp.1, without, if_neg hp.2]
  · intro p hp hseg
    have hout : p ∉ newPath :: olds := by
      rcases hp with hp | hp
      · rw [List.mem_singleton, List.cons.injEq] at hp
        exact absurd hp.2.symm holds
      · simpa using hp
    obtain ⟨hne, hold⟩ := not_or.mp (List.mem_cons.not.mp hout)
    rw [hsteps, merged_get s newPath olds all _ _ hseg, if_neg hold, if_neg hne]

/-- `flush` of a run in which nothing fails. -/
theorem Joined.flush (hP : P.Inverts) (hs : Kept P s log)
    (hfits : ∀ p, ∀ e ∈ log p, Fits P e) {front run back : List String}
    (hpaths : s.manager.paths = front ++ run ++ back) (hback : back ≠ []) :
    (s.run (flush P s noFaults run)).manager.paths =
        front ++ heads (if run = [] then [] else [run]) ++ back ∧
      ∃ log', Joined P s (s.run (flush P s noFaults run)) log log'
        (if run = [] then [] else [run]) := by
  rcases run with _ | ⟨newPath, _ | ⟨q, olds⟩⟩
  · exact ⟨hpaths, log, .refl hs (by simp)⟩
  · exact ⟨hpaths, log, .refl hs (by simp)⟩
  · exact Joined.mergeRun hP hs hfits hpaths hback (List.cons_ne_nil _ _)

theorem isSmall_congr {d d' : Disk} {p : String} (h : d'.files.get p = d.files.get p)
    (threshold : Int) : isSmall d' threshold {} p = isSmall d threshold {} p := by
  simp only [isSmall, h]

theorem mergeLoop_cons (threshold : Int) (s : Store B) (run : List String) (path : String)
    (rest : List String) : mergeLoop P threshold noFaults s run (path :: rest) =
      if isSmall s.disk threshold {} path = true then
        mergeLoop P threshold noFaults s (run ++ [path]) rest
      else flush P s noFaults run ++
        mergeLoop P threshold noFaults (s.run (flush P s noFaults run)) [] rest := rfl

/-- The loop of a merge pass in which nothing fails merges the runs of small segments. -/
theorem Joined.mergeLoop (hP : P.Inverts) {threshold : Int} {small : String → Bool}
    {front run rest back : List String} (hs : Kept P s log)
    (hfits : ∀ p, ∀ e ∈ log p, Fits P e)
    (hpaths : s.manager.paths = front ++ run ++ (rest ++ back)) (hback : back ≠ [])
    (hrun : ∀ p ∈ run, small p = true)
    (hsmall : ∀ p ∈ rest, isSmall s.disk threshold {} p = small p) :
    (s.run (mergeLoop P threshold noFaults s run rest)).manager.paths =
        front ++ heads (maximalRuns small (run ++ rest)) ++ back ∧
      ∃ log', Joined P s (s.run (mergeLoop P threshold noFaults s run rest)) log log'
        (maximalRuns small (run ++ rest)) := by
  have hflush : ∀ r : List String, (∀ p ∈ r, small p = true) →
      (if r = [] then [] else [r]) = maximalRuns small r := by
    intro r hr
    split
    · rename_i hnil
      rw [hnil]
      rfl
    · rename_i hne
      exact (maximalRuns_of_all hne hr).symm
  induction rest generalizing s log front run with
  | nil =>
    rw [List.append_nil, ← hflush run hrun]
    exact Joined.flush hP hs hfits hpaths hback
  | cons path rest ih =>
    obtain ⟨hpath, hrest⟩ := List.forall_mem_cons.mp hsmall
    rw [mergeLoop_cons, hpath]
    cases hcase : small path with
    | true =>
      have hlonger : s.manager.paths = front ++ (run ++ [path]) ++ (rest ++ back) := by
        rw [hpaths]
        simp
      have hrun' : ∀ p ∈ run ++ [path], small p = true := by
        intro p hp
        rcases List.mem_append.mp hp with hp | hp
        · exact hrun p hp
        · rw [List.mem_singleton.mp hp, hcase]
      rw [if_pos rfl, List.append_cons run path rest]
      exact ih hs hfits hlonger hrun' hrest
    | false =>
      have hback' : path :: rest ++ back ≠ [] := List.cons_ne_nil _ _
      obtain ⟨hpaths₁, log₁, hjoined⟩ := Joined.flush hP hs hfits hpaths hback'
      rw [hflush run hrun] at hpaths₁ hjoined
      have hnodup := hs.nodup
      rw [hpaths, List.append_assoc, ← List.append_assoc run] at hnodup
      have hlisted := (List.nodup_append.mp (List.nodup_append.mp hnodup).2.1).1
      have hpaths₂ : (s.run (Storage.flush P s noFaults run)).manager.paths =
          front ++ heads (maximalRuns small run) ++ [path] ++ [] ++ (rest ++ back) := by
        rw [hpaths₁]
        simp
      have hsmall₁ : ∀ p ∈ rest, isSmall (s.run (Storage.flush P s noFaults run)).disk
          threshold {} p = small p := by
        intro p hp
        have hout : p ∉ (maximalRuns small run).flatten := by
          rw [maximalRuns_flatten]
          exact fun hin => (List.nodup_append.mp hlisted).2.2 p hin p
            (List.mem_cons_of_mem _ hp) rfl
        have hseg : IsSeg p := hs.logged.segs p (by rw [hpaths]; simp [hp])
        rw [← hrest p hp]
        exact isSmall_congr (hjoined.alone p (.inr hout) hseg) threshold
      have hfits₁ : ∀ p, ∀ e ∈ log₁ p, Fits P e := by
        intro p e he
        obtain ⟨q, hq⟩ := hjoined.source p e he
        exact hfits q e hq
      obtain ⟨hpaths₃, log₂, hjoined₂⟩ := ih hjoined.kept hfits₁ hpaths₂ (by simp) hsmall₁
      rw [if_neg Bool.false_ne_true, run_append, maximalRuns_append_cons hcase, List.append_cons]
      refine ⟨?_, log₂, (hjoined.trans (.refl hjoined.kept ?_) ?_ ?_).trans hjoined₂ ?_ ?_⟩
      · rw [hpaths₃]
        simp [heads]
      · simp
      · rw [List.flatten_append, maximalRuns_flatten, List.flatten_singleton]
        exact hlisted.sublist (by simp)
      · exact fun g hg => maximalRuns_ne_nil hg
      · rw [List.flatten_append, List.flatten_append, maximalRuns_flatten, maximalRuns_flatten,
          List.flatten_singleton, List.append_assoc]
        exact hlisted
      · intro g hg
        rcases List.mem_append.mp hg with hg | hg
        · exact maximalRuns_ne_nil hg
        · rw [List.mem_singleton.mp hg]
          exact List.cons_ne_nil _ _

/-- A merge pass finds nothing to do where no two neighbours are small. -/
theorem mergeLoop_idle {threshold : Int} {run rest : List String}
    (hrun : run.length ≤ 1)
    (hchain : (run ++ rest).IsChain (fun p q => isSmall s.disk threshold {} p = false ∨
      isSmall s.disk threshold {} q = false))
    (hsmall : ∀ p ∈ run, isSmall s.disk threshold {} p = true) :
    mergeLoop P threshold noFaults s run rest = [] := by
  have hflush : ∀ r : List String, r.length ≤ 1 → flush P s noFaults r = [] :=
    fun r hr => if_neg (by omega)
  induction rest generalizing run with
  | nil => exact hflush run hrun
  | cons path rest ih =>
    have hrest := (List.isChain_append.mp hchain).2.1
    rw [mergeLoop_cons]
    split
    · rename_i hpath
      have hnil : run = [] := by
        rcases run with _ | ⟨p, run⟩
        · rfl
        · obtain rfl : run = [] := by simpa using hrun
          have hp := hsmall p List.mem_cons_self
          have hbreak := (List.isChain_cons_cons.mp hchain).1
          simp [hp, hpath] at hbreak
      subst hnil
      exact ih (by simp) hchain (by simpa using hpath)
    · rw [hflush run hrun, List.nil_append]
      exact ih (by simp) hrest.tail (by simp)

/-- A pass over fewer than two closed segments is the loop too, which merges nothing. -/
theorem runMergePass_eq {threshold : Int} (hpos : 0 < threshold) (s : Store B) :
    runMergePass P s threshold noFaults =
      mergeLoop P threshold noFaults s [] s.manager.listClosedSegments := by
  rw [runMergePass, if_neg (by omega)]
  dsimp only
  split
  · rename_i hfew
    rcases hclosed : s.manager.listClosedSegments with _ | ⟨p, rest⟩
    · rfl
    · rw [hclosed, List.length_cons] at hfew
      obtain rfl : rest = [] := List.length_eq_zero_iff.mp (by omega)
      rw [mergeLoop_idle (by simp) (List.isChain_singleton p) (by simp)]
  · rfl

/-- A merge pass in which nothing fails merges the runs of small closed segments. -/
theorem Joined.mergePass (hP : P.Inverts) (hs : Kept P s log)
    (hfits : ∀ p, ∀ e ∈ log p, Fits P e) {threshold : Int} (hpos : 0 < threshold)
    {groups : List (List String)}
    (hgroups : groups = maximalRuns (isSmall s.disk threshold {}) s.manager.listClosedSegments) :
    ∃ last log', s.manager.paths = groups.flatten ++ [last] ∧
      (s.run (runMergePass P s threshold noFaults)).manager.paths = heads groups ++ [last] ∧
      Joined P s (s.run (runMergePass P s threshold noFaults)) log log' groups := by
  obtain ⟨n, -, -, hlast, -⟩ := hs.logged.active
  obtain ⟨closed, hcat⟩ := List.getLast?_eq_some_iff.mp hlast
  have hclosed : s.manager.listClosedSegments = closed := by
    rw [Manager.listClosedSegments, hcat, List.dropLast_concat]
  have hpaths : s.manager.paths = [] ++ [] ++ (closed ++ [segmentName n]) := hcat
  rw [hclosed] at hgroups
  obtain ⟨hpaths', log', hjoined⟩ := Joined.mergeLoop hP hs hfits hpaths
    (List.cons_ne_nil _ _) (by simp) (fun p _ => (rfl : isSmall s.disk threshold {} p = _))
  simp only [List.nil_append, ← hgroups] at hpaths' hjoined
  rw [runMergePass_eq hpos, hclosed]
  exact ⟨_, log', by rw [hgroups, maximalRuns_flatten, hcat], hpaths', hjoined⟩

/-- No two neighbours are small in the list that a merge pass leaves. -/
theorem Joined.settled {t : Store B} {log' : String → List LogEntry} {threshold : Int}
    {closed : List String} (hseg : ∀ p ∈ closed, IsSeg p)
    (h : Joined P s t log log' (maximalRuns (isSmall s.disk threshold {}) closed)) :
    (heads (maximalRuns (isSmall s.disk threshold {}) closed)).IsChain (fun p q =>
      isSmall t.disk threshold {} p = false ∨ isSmall t.disk threshold {} q = false) := by
  have hlarge : ∀ g ∈ maximalRuns (isSmall s.disk threshold {}) closed, ∀ p, g = [p] →
      isSmall s.disk threshold {} p = false → isSmall t.disk threshold {} (g.headD "") = false := by
    intro g hg p hp hlarge
    subst hp
    have hin : p ∈ closed := by
      rw [← maximalRuns_flatten (isSmall s.disk threshold {}) closed]
      exact List.mem_flatten.mpr ⟨_, hg, List.mem_singleton_self p⟩
    rw [List.headD_cons, isSmall_congr (h.alone p (.inl hg) (hseg p hin)), hlarge]
  rw [heads, List.isChain_map]
  refine (maximalRuns_between _ closed).imp_of_mem_imp (fun g g' hg hg' hbreak => ?_)
  rcases hbreak with ⟨p, hp, hlarge'⟩ | ⟨p, hp, hlarge'⟩
  · exact .inl (hlarge g hg p hp hlarge')
  · exact .inr (hlarge g' hg' p hp hlarge')

end Clean

/-- A merge pass in which nothing fails makes one segment of every maximal run of small closed
segments, and a second pass finds nothing to merge. -/
theorem merge_pass_settles (hP : P.Inverts) {maxSegmentBytes : Int} {bloomEnabled : Bool}
    {acts : List Action} (hs : history P (fresh B maxSegmentBytes bloomEnabled) acts = some s)
    (hleft : NumbersLeft P (fresh B maxSegmentBytes bloomEnabled) acts)
    (hfits : ∀ e ∈ acts.flatMap (Action.accepted P), Fits P e) {threshold : Int}
    (hpos : 0 < threshold) :
    let groups := maximalRuns (isSmall s.disk threshold {}) s.manager.listClosedSegments
    let t := s.run (runMergePass P s threshold noFaults)
    t.manager.listClosedSegments = groups.map (fun g => g.headD "") ∧
      t.manager.activeSegmentName = s.manager.activeSegmentName ∧
      (∀ g ∈ groups, readSegments P t.disk [g.headD ""] = readSegments P s.disk g) ∧
      runMergePass P t threshold noFaults = [] := by
  obtain ⟨log, hsteady⟩ :=
    (fresh_steady P B maxSegmentBytes bloomEnabled).history hP hs hleft
  rw [List.nil_append] at hsteady
  have hlog := hsteady.fits_iff.mpr hfits
  have hkept := hsteady.kept
  intro groups t
  obtain ⟨last, log', hbefore, hafter, hjoined⟩ := Joined.mergePass hP hkept hlog hpos
    (rfl : groups = _)
  have hlog' : ∀ p, ∀ e ∈ log' p, Fits P e := by
    intro p e he
    obtain ⟨q, hq⟩ := hjoined.source p e he
    exact hlog q e hq
  have hclosed : t.manager.listClosedSegments = heads groups := by
    rw [Manager.listClosedSegments, hafter, List.dropLast_concat]
  have hlisted : ∀ g ∈ groups, ∀ p ∈ g, p ∈ s.manager.paths := by
    intro g hg p hp
    rw [hbefore]
    exact List.mem_append_left _ (List.mem_flatten.mpr ⟨g, hg, hp⟩)
  refine ⟨hclosed, ?_, ?_, ?_⟩
  · rw [Manager.activeSegmentName, Manager.activeSegmentName, hafter, hbefore,
      List.getLast?_concat, List.getLast?_concat]
  · intro g hg
    have hhead : g.headD "" ∈ t.manager.paths := by
      rw [hafter]
      exact List.mem_append_left _ (List.mem_map_of_mem hg)
    obtain ⟨hreadable, hentries⟩ := hkept.logged.readable hP hlog
    obtain ⟨hreadable', hentries'⟩ := hjoined.kept.logged.readable hP hlog'
    have hseg' := hjoined.kept.logged.segs _ hhead
    rw [readSegments_single hreadable' hseg', hentries' _ hseg', hjoined.joined g hg,
      readSegments_eq hreadable (fun p hp => hkept.logged.segs p (hlisted g hg p hp))]
    refine congrArg _ (List.flatMap_congr (fun p hp => ?_))
    exact (hentries p (hkept.logged.segs p (hlisted g hg p hp))).symm
  · have hseg : ∀ p ∈ s.manager.listClosedSegments, IsSeg p :=
      fun p hp => hkept.logged.segs p (List.dropLast_subset _ hp)
    rw [runMergePass_eq hpos, hclosed]
    exact mergeLoop_idle (by simp) (hjoined.settled hseg) (by simp)

/-- Three lines in three segments. -/
def threeLines : List Action :=
  [.ingest (line "a" "" "orders" "disk full" 1), .ingest (line "b" "" "orders" "link down" 2),
    .ingest (line "c" "" "orders" "disk full" 3)]

theorem merge_pass_settles_three :
    ∃ s : Store exactFilter, history protobuf (fresh exactFilter 40 true) threeLines = some s ∧
      s.manager.listClosedSegments = [segmentName 1, segmentName 2] ∧
      let t := s.run (runMergePass protobuf s 1000 noFaults)
      t.manager.listClosedSegments = [segmentName 1] ∧
        runMergePass protobuf t 1000 noFaults = [] := by
  refine ⟨_, rfl, by decide +kernel, ?_⟩
  have hsettles := @merge_pass_settles exactFilter protobuf _ protobuf_inverts 40 true threeLines
    rfl (by decide +kernel) (by decide +kernel) 1000 (by decide)
  refine ⟨hsettles.1.trans ?_, hsettles.2.2.2⟩
  decide +kernel

end LogEngine.Storage
