import LogEngine.Storage.MergeTrace

namespace LogEngine.Storage
open Lib

variable {B : BloomPackage} {P : ProtoPackage} {p : String}

/-- The step takes the file at `p` away. -/
def Step.removes (p : String) : Step B → Bool
  | .remove q => q = p
  | _ => false

/-- The step puts another file in the place of the one at `p`. -/
def Step.replaces (p : String) : Step B → Bool
  | .rename _ q => q = p
  | _ => false

/-- The segments that the merges among the steps fold into the one at `p`. -/
def mergedWith (steps : List (Step B)) (p : String) : List String :=
  steps.flatMap (fun st =>
    match st with
    | .finishMerge q olds => if q = p then olds else []
    | _ => [])

/-- What the file at `p` holds after the first `t` steps of a pass, told from what the segments
held before it. -/
def contentAt (P : ProtoPackage) (s : Store B) (steps : List (Step B)) (t : Nat) (p : String) :
    List LogEntry :=
  if (steps.take t).any (Step.removes p) then []
  else if (steps.take t).any (Step.replaces p) then
    (p :: mergedWith steps p).flatMap (entriesAt P s.disk)
  else entriesAt P s.disk p

theorem mergedWith_append (xs ys : List (Step B)) (p : String) :
    mergedWith (xs ++ ys) p = mergedWith xs p ++ mergedWith ys p := List.flatMap_append

theorem mergedWith_rename (old new : String) (steps : List (Step B)) (p : String) :
    mergedWith (.rename old new :: steps) p = mergedWith steps p := rfl

theorem mem_mergedWith {steps : List (Step B)} {q : String} :
    q ∈ mergedWith steps p ↔ ∃ olds, .finishMerge p olds ∈ steps ∧ q ∈ olds := by
  unfold mergedWith
  rw [List.mem_flatMap]
  constructor
  · intro h
    obtain ⟨st, hst, hq⟩ := h
    cases st with
    | finishMerge r olds =>
      dsimp only at hq
      split at hq
      · rename_i hr
        exact ⟨olds, hr ▸ hst, hq⟩
      · cases hq
    | _ => cases hq
  · intro h
    obtain ⟨olds, hst, hq⟩ := h
    exact ⟨_, hst, by simpa using hq⟩

theorem unchanged_of_untouched {st : Step B} (h : p ∉ st.touches) :
    st.removes p = false ∧ st.replaces p = false := by
  cases st with
  | rename old new =>
    simp only [Step.touches, List.mem_cons, List.not_mem_nil, or_false, not_or] at h
    exact ⟨rfl, by simpa [Step.replaces] using Ne.symm h.2⟩
  | remove q =>
    simp only [Step.touches, List.mem_singleton] at h
    exact ⟨by simpa [Step.removes] using Ne.symm h, rfl⟩
  | _ => exact ⟨rfl, rfl⟩

/-- A pass changes a segment file only by removing or replacing it. -/
theorem untouched_of_unchanged {closed : List String} {st : Step B} (hst : st.Compacts closed)
    (hp : IsSeg p) (hremoves : st.removes p = false) (hreplaces : st.replaces p = false) :
    p ∉ st.touches := by
  cases st with
  | create q | truncate q | append q bs =>
    obtain ⟨r, -, hq⟩ := hst
    simpa [Step.touches] using (tmpPath_touch hp hq).1
  | rename old new =>
    obtain ⟨q, -, hor⟩ := hst
    have hold : p ≠ old := by
      rcases hor with ⟨hold, -⟩ | ⟨hold, -⟩
      · exact (tmpPath_touch hp (.inl hold)).1
      · exact (tmpPath_touch hp (.inr hold)).1
    have hnew : new ≠ p := by simpa [Step.replaces] using hreplaces
    simp [Step.touches, hold, Ne.symm hnew]
  | remove q =>
    have hne : q ≠ p := by simpa [Step.removes] using hremoves
    simp [Step.touches, Ne.symm hne]
  | mark | openActive | grow | setBloom | loadSegment => exact hst.elim
  | _ => simp [Step.touches]

/-- Steps that neither remove nor replace the file at `p`. -/
def Unchanging (p : String) (steps : List (Step B)) : Prop :=
  ∀ st ∈ steps, st.removes p = false ∧ st.replaces p = false

theorem Unchanging.any {steps : List (Step B)} (h : Unchanging p steps) :
    steps.any (Step.removes p) = false ∧ steps.any (Step.replaces p) = false := by
  constructor
  · exact List.any_eq_false.mpr (fun st hst => by simp [(h st hst).1])
  · exact List.any_eq_false.mpr (fun st hst => by simp [(h st hst).2])

theorem Unchanging.take {steps : List (Step B)} (h : Unchanging p steps) (t : Nat) :
    Unchanging p (steps.take t) :=
  fun st hst => h st (List.mem_of_mem_take hst)

theorem unchanging_of_not_mem {closed : List String} {steps : List (Step B)}
    (hsteps : ∀ st ∈ steps, Step.Compacts closed st) (hp : IsSeg p) (hnot : p ∉ closed) :
    Unchanging p steps :=
  fun st hst => unchanged_of_untouched (compacts_untouched (hsteps st hst) hp hnot)

theorem Unchanging.get {closed : List String} {steps : List (Step B)} (h : Unchanging p steps)
    (hsteps : ∀ st ∈ steps, Step.Compacts closed st) (hp : IsSeg p) (s : Store B) :
    (s.run steps).disk.files.get p = s.disk.files.get p :=
  run_get s (fun st hst => untouched_of_unchanged (hsteps st hst) hp (h st hst).1 (h st hst).2)

/-- A file that a pass does not replace stays until it is removed. -/
theorem unreplaced_get {closed : List String} {steps : List (Step B)}
    (hsteps : ∀ st ∈ steps, Step.Compacts closed st) (hp : IsSeg p)
    (hreplaces : ∀ st ∈ steps, st.replaces p = false) (s : Store B) :
    (s.run steps).disk.files.get p =
      if steps.any (Step.removes p) then none else s.disk.files.get p := by
  induction steps generalizing s with
  | nil => rfl
  | cons st steps ih =>
    obtain ⟨hst, hsteps⟩ := List.forall_mem_cons.mp hsteps
    obtain ⟨hrep, hreplaces⟩ := List.forall_mem_cons.mp hreplaces
    rw [run_cons, ih hsteps hreplaces, List.any_cons]
    cases hrem : st.removes p with
    | false => rw [get_apply s (untouched_of_unchanged hst hp hrem hrep), Bool.false_or]
    | true =>
      have hgone : (Step.apply s st).disk.files.get p = none := by
        cases st with
        | remove q =>
          have hq : q = p := by simpa [Step.removes] using hrem
          rw [get_remove, if_pos hq.symm]
        | _ => cases hrem
      rw [hgone, Bool.true_or, if_pos rfl]
      split <;> rfl

/-- What becomes of a segment file in a pass: it is never replaced, or once, by the records of
the segments merged into it. -/
inductive Fate (P : ProtoPackage) (held : String → List LogEntry) (s : Store B)
    (steps : List (Step B)) (p : String) : Prop
  | unreplaced (h : ∀ st ∈ steps, st.replaces p = false)
  | merged (pre post : List (Step B)) (heq : steps = pre ++ .rename (tmpPath p) p :: post)
      (hpre : Unchanging p pre) (hpost : Unchanging p post)
      (hfile : (s.run (pre ++ [.rename (tmpPath p) p])).disk.files.get p =
        some (((p :: mergedWith steps p).flatMap held).flatMap (record P)))

theorem Fate.append_right {held : String → List LogEntry} {s : Store B}
    {xs ys : List (Step B)} (h : Fate P held s xs p) (hys : Unchanging p ys)
    (hnone : mergedWith ys p = []) : Fate P held s (xs ++ ys) p := by
  cases h with
  | unreplaced h =>
    refine .unreplaced (fun st hst => ?_)
    rcases List.mem_append.mp hst with hst | hst
    · exact h st hst
    · exact (hys st hst).2
  | merged pre post heq hpre hpost hfile =>
    refine .merged pre (post ++ ys) (by rw [heq]; simp) hpre ?_ ?_
    · intro st hst
      rcases List.mem_append.mp hst with hst | hst
      · exact hpost st hst
      · exact hys st hst
    · rw [mergedWith_append, hnone, List.append_nil]
      exact hfile

theorem Fate.append_left {held : String → List LogEntry} {s : Store B} {xs ys : List (Step B)}
    (h : Fate P held (s.run xs) ys p) (hxs : Unchanging p xs) (hnone : mergedWith xs p = []) :
    Fate P held s (xs ++ ys) p := by
  cases h with
  | unreplaced h =>
    refine .unreplaced (fun st hst => ?_)
    rcases List.mem_append.mp hst with hst | hst
    · exact (hxs st hst).2
    · exact h st hst
  | merged pre post heq hpre hpost hfile =>
    refine .merged (xs ++ pre) post (by rw [heq]; simp) ?_ hpost ?_
    · intro st hst
      rcases List.mem_append.mp hst with hst | hst
      · exact hxs st hst
      · exact hpre st hst
    · rw [mergedWith_append, hnone, List.nil_append, List.append_assoc, run_append]
      exact hfile

theorem mergedWith_of_not_mem {closed : List String} {steps : List (Step B)}
    (hsteps : ∀ st ∈ steps, Step.Compacts closed st) (hnot : p ∉ closed) :
    mergedWith steps p = [] := by
  rw [List.eq_nil_iff_forall_not_mem]
  intro q hq
  obtain ⟨olds, hst, -⟩ := mem_mergedWith.mp hq
  exact hnot (hsteps _ hst).1

/-- What was read of the segments is what they hold. -/
theorem readSegments_entries {d : Disk} {paths : List String} {all : List LogEntry}
    (h : readSegments P d paths = .ok all) : all = paths.flatMap (entriesAt P d) := by
  induction paths generalizing all with
  | nil =>
    cases h
    rfl
  | cons q paths ih =>
    rw [List.flatMap_cons]
    simp only [readSegments] at h
    split at h
    · rename_i hq
      rw [← ih h]
      simp [entriesAt, hq]
    · cases h
    · rename_i entries hq
      obtain ⟨rest, hrest, heq⟩ := map_ok.mp h
      rw [← ih hrest, ← heq]
      simp [entriesAt, hq]

theorem mergeWrite_unchanging {q : String} (hp : IsSeg p) (all : List LogEntry) :
    Unchanging p (mergeWrite P (tmpPath q) all : List (Step B)) := by
  intro st hst
  exact unchanged_of_untouched ((mergeWrite_keeps _ all st hst).2 p (tmpPath_touch hp (.inl rfl)).1)

theorem indexRemove_unchanging (paths : List String) :
    Unchanging p (paths.map (Step.indexRemove (B := B))) := by
  intro st hst
  obtain ⟨q, -, rfl⟩ := List.mem_map.mp hst
  exact ⟨rfl, rfl⟩

/-- The steps after the rename replace no segment, and remove the old ones only. -/
theorem mergeCommit_changes {newPath : String} {olds : List String} (hp : IsSeg p)
    {enabled ok : Bool} {all : List LogEntry} :
    ∀ st ∈ (mergeCommit enabled ok newPath olds all : List (Step B)),
      st.replaces p = false ∧ (p ∉ olds → st.removes p = false) := by
  intro st hst
  have htmp := (tmpPath_touch hp (.inr rfl : tmpPath (bloomPath newPath) = tmpPath newPath ∨ _)).1
  have hbloom : ∀ q, bloomPath q ≠ p := fun q h => bloomPath_not_seg q (h ▸ hp)
  simp only [mergeCommit, List.mem_append, List.mem_map, List.mem_singleton,
    List.mem_flatMap] at hst
  rcases hst with ((hst | ⟨e, -, rfl⟩) | rfl) | ⟨op, hop, hst⟩
  · split at hst
    · unfold writeBloom at hst
      split at hst <;> simp only [List.mem_cons, List.not_mem_nil, or_false] at hst
      · rcases hst with rfl | rfl | rfl <;> simp [Step.replaces, Step.removes, hbloom]
      · rcases hst with rfl | rfl <;> simp [Step.replaces, Step.removes, Ne.symm htmp]
    · cases hst
  · exact ⟨rfl, fun _ => rfl⟩
  · exact ⟨rfl, fun _ => rfl⟩
  · simp only [List.mem_cons, List.not_mem_nil, or_false] at hst
    rcases hst with rfl | rfl
    · refine ⟨rfl, fun hnot => ?_⟩
      have hne : op ≠ p := fun h => hnot (h ▸ hop)
      simpa [Step.removes] using hne
    · exact ⟨rfl, fun _ => by simp [Step.removes, hbloom]⟩

theorem unreplaced_of_plain {steps : List (Step B)} (h : ∀ st ∈ steps, Step.plain st = true) :
    ∀ st ∈ steps, st.replaces p = false := by
  intro st hst
  have hplain := h st hst
  cases st with
  | rename => cases hplain
  | _ => rfl

theorem mergedWith_of_plain {steps : List (Step B)} (h : ∀ st ∈ steps, Step.plain st = true) :
    mergedWith steps p = [] := by
  rw [List.eq_nil_iff_forall_not_mem]
  intro q hq
  obtain ⟨olds, hst, -⟩ := mem_mergedWith.mp hq
  cases h _ hst

theorem mergedWith_mergeCommit (enabled ok : Bool) (newPath : String) (olds : List String)
    (all : List LogEntry) :
    mergedWith (mergeCommit enabled ok newPath olds all : List (Step B)) newPath = olds := by
  have hbloom : mergedWith (if enabled = true ∧ all.flatMap tokenizeEntry ≠ [] then
      writeBloom newPath (bloomOf B all) ok else [] : List (Step B)) newPath = [] := by
    split
    · unfold writeBloom
      split <;> rfl
    · rfl
  have hadds : mergedWith (all.map (fun e => .indexAdd e newPath) : List (Step B)) newPath = [] :=
    mergedWith_of_plain (by simp [Step.plain])
  have hremoves : mergedWith (olds.flatMap (fun op => [.remove op, .remove (bloomPath op)]) :
      List (Step B)) newPath = [] := by
    refine mergedWith_of_plain (fun st hst => ?_)
    obtain ⟨op, -, hst⟩ := List.mem_flatMap.mp hst
    simp only [List.mem_cons, List.not_mem_nil, or_false] at hst
    rcases hst with rfl | rfl <;> rfl
  have hfinish : mergedWith ([.finishMerge newPath olds] : List (Step B)) newPath = olds := by
    simp [mergedWith]
  rw [mergeCommit, mergedWith_append, mergedWith_append, mergedWith_append, hbloom, hadds,
    hremoves, hfinish, List.nil_append, List.nil_append, List.append_nil]

/-- The fates of the segments of one run. -/
theorem mergeRun_fate {held : String → List LogEntry} {s : Store B} {run : List String}
    (hseg : ∀ q ∈ run, IsSeg q) (hnodup : run.Nodup)
    (hheld : ∀ q ∈ run, entriesAt P s.disk q = held q) (f : MergeFaults) (hp : p ∈ run) :
    Fate P held s (mergeRun P s f run) p := by
  cases run with
  | nil => cases hp
  | cons newPath olds =>
    rcases mergeRun_cases (P := P) s f newPath olds with hplain | ⟨all, hall, -, heq⟩
    · exact .unreplaced (unreplaced_of_plain hplain)
    · have hpseg := hseg p hp
      have hfront : Unchanging p (mergeWrite P (tmpPath newPath) all ++
          (newPath :: olds).map .indexRemove : List (Step B)) := by
        intro st hst
        rcases List.mem_append.mp hst with hst | hst
        · exact mergeWrite_unchanging hpseg all st hst
        · exact indexRemove_unchanging _ st hst
      by_cases hhead : p = newPath
      · subst hhead
        have hnot : p ∉ olds := (List.nodup_cons.mp hnodup).1
        have hcontent : all = (p :: olds).flatMap held := by
          rw [readSegments_entries hall]
          exact List.flatMap_congr hheld
        have holds : mergedWith (mergeRun P s f (p :: olds)) p = olds := by
          rw [heq, mergedWith_append, mergedWith_of_plain (mergeFront_plain p olds all),
            mergedWith_rename, mergedWith_mergeCommit, List.nil_append]
        refine .merged _ _ heq hfront ?_ ?_
        · intro st hst
          exact ⟨(mergeCommit_changes hpseg st hst).2 hnot, (mergeCommit_changes hpseg st hst).1⟩
        · rw [(merged_run s p olds all).1, holds, hcontent]
      · refine .unreplaced (fun st hst => ?_)
        rw [heq] at hst
        rcases List.mem_append.mp hst with hst | hst
        · exact (hfront st hst).2
        · rcases List.mem_cons.mp hst with rfl | hst
          · simpa [Step.replaces] using Ne.symm hhead
          · exact (mergeCommit_changes hpseg st hst).1

theorem flush_fate {held : String → List LogEntry} {s : Store B} {run : List String}
    (hseg : ∀ q ∈ run, IsSeg q) (hnodup : run.Nodup)
    (hheld : ∀ q ∈ run, entriesAt P s.disk q = held q) (faults : String → MergeFaults)
    (hp : p ∈ run) : Fate P held s (flush P s faults run) p := by
  unfold flush
  split
  · exact mergeRun_fate hseg hnodup hheld _ hp
  · exact .unreplaced (by simp)

/-- The fates of all segments of a pass. Each run changes only its own segments. -/
theorem mergeLoop_fate {held : String → List LogEntry} {s : Store B} {run rest : List String}
    (hseg : ∀ q ∈ run ++ rest, IsSeg q) (hnodup : (run ++ rest).Nodup)
    (hheld : ∀ q ∈ run ++ rest, entriesAt P s.disk q = held q) (threshold : Int)
    (faults : String → MergeFaults) (hp : p ∈ run ++ rest) :
    Fate P held s (mergeLoop P threshold faults s run rest) p := by
  induction rest generalizing s run with
  | nil =>
    rw [List.append_nil] at hseg hnodup hheld hp
    exact flush_fate hseg hnodup hheld faults hp
  | cons path rest ih =>
    simp only [mergeLoop]
    split
    · refine ih ?_ ?_ ?_ ?_ <;> simpa only [List.append_assoc, List.singleton_append]
    · obtain ⟨hrun, hrest, hdisjoint⟩ := List.nodup_append.mp hnodup
      have hflush : ∀ st ∈ flush P s faults run, Step.Compacts run st :=
        flush_compacts (fun q hq => hq) s faults
      have hloop : ∀ st ∈ mergeLoop P threshold faults (s.run (flush P s faults run)) [] rest,
          Step.Compacts rest st :=
        mergeLoop_compacts (by simp) (fun q hq => hq) threshold faults _
      have hpseg := hseg p hp
      by_cases hin : p ∈ run
      · have hnot : p ∉ rest := fun h => hdisjoint p hin p (List.mem_cons_of_mem _ h) rfl
        exact (flush_fate (fun q hq => hseg q (List.mem_append_left _ hq)) hrun
          (fun q hq => hheld q (List.mem_append_left _ hq)) faults hin).append_right
          (unchanging_of_not_mem hloop hpseg hnot) (mergedWith_of_not_mem hloop hnot)
      · have houter : ∀ q ∈ rest, q ∈ run ++ path :: rest := fun q hq =>
          List.mem_append_right _ (List.mem_cons_of_mem _ hq)
        by_cases hpath : p ∈ rest
        · refine (ih ?_ ?_ ?_ hpath).append_left (unchanging_of_not_mem hflush hpseg hin)
            (mergedWith_of_not_mem hflush hin)
          · exact fun q hq => hseg q (houter q hq)
          · exact (List.nodup_cons.mp hrest).2
          · intro q hq
            have hqrun : q ∉ run := fun h => hdisjoint q h q (List.mem_cons_of_mem _ hq) rfl
            have hqseg := hseg q (houter q hq)
            rw [entriesAt_congr ((unchanging_of_not_mem hflush hqseg hqrun).get hflush hqseg s)]
            exact hheld q (houter q hq)
        · refine .unreplaced (fun st hst => ?_)
          rcases List.mem_append.mp hst with hst | hst
          · exact (unchanging_of_not_mem hflush hpseg hin st hst).2
          · exact (unchanging_of_not_mem hloop hpseg hpath st hst).2

theorem runMergePass_fate {s : Store B} (hseg : ∀ q ∈ s.manager.paths, IsSeg q)
    (hnodup : s.manager.paths.Nodup) (threshold : Int) (faults : String → MergeFaults)
    (hp : IsSeg p) : Fate P (entriesAt P s.disk) s (runMergePass P s threshold faults) p := by
  by_cases hclosed : p ∈ s.manager.listClosedSegments
  · simp only [runMergePass]
    split
    · exact .unreplaced (by simp)
    split
    · exact .unreplaced (by simp)
    · refine mergeLoop_fate ?_ (hnodup.sublist (List.dropLast_sublist _)) (fun q _ => rfl)
        threshold faults hclosed
      exact fun q hq => hseg q (List.dropLast_subset _ hq)
  · have hsteps := runMergePass_compacts (P := P) s threshold faults
    exact .unreplaced (fun st hst => (unchanging_of_not_mem hsteps hp hclosed st hst).2)

/-- A path that is read in the course of a pass gives the content that its fate tells. -/
theorem Fate.read (hP : P.Inverts) {s : Store B} {steps : List (Step B)} {closed : List String}
    (h : Fate P (entriesAt P s.disk) s steps p) (hs : Readable P s.disk)
    (hclosed : ∀ q ∈ closed, IsSeg q) (hsteps : ∀ st ∈ steps, Step.Compacts closed st)
    (hp : IsSeg p) (t : Nat) :
    readSegments P (s.run (steps.take t)).disk [p] = .ok (contentAt P s steps t p) := by
  have htake : ∀ st ∈ steps.take t, Step.Compacts closed st :=
    fun st hst => hsteps st (List.mem_of_mem_take hst)
  unfold contentAt
  cases h with
  | unreplaced h =>
    have hreplaces : ∀ st ∈ steps.take t, st.replaces p = false :=
      fun st hst => h st (List.mem_of_mem_take hst)
    have hnone : (steps.take t).any (Step.replaces p) = false :=
      List.any_eq_false.mpr (fun st hst => by simp [hreplaces st hst])
    have hget := unreplaced_get htake hp hreplaces s
    rw [hnone]
    split at hget
    · rename_i hgone
      rw [if_pos hgone]
      simp [readSegments, readSegment, hget]
    · rename_i hkept
      rw [if_neg hkept, readSegments_congr (List.forall_mem_singleton.mpr hget)]
      exact readSegments_single hs hp
  | merged pre post heq hpre hpost hfile =>
    by_cases ht : t ≤ pre.length
    · have hpart : steps.take t = pre.take t := by
        rw [heq, List.take_append_of_le_length ht]
      rw [hpart] at htake ⊢
      have hkept := hpre.take t
      rw [hkept.any.1, hkept.any.2,
        readSegments_congr (List.forall_mem_singleton.mpr (hkept.get htake hp s))]
      exact readSegments_single hs hp
    · obtain ⟨k, hk⟩ : ∃ k, t - pre.length = k + 1 := ⟨t - pre.length - 1, by omega⟩
      have hpart : steps.take t = pre ++ [.rename (tmpPath p) p] ++ post.take k := by
        rw [heq, List.take_append, List.take_of_length_le (by omega), hk, List.take_succ_cons,
          List.append_assoc, List.singleton_append]
      rw [hpart] at htake ⊢
      have hrest := hpost.take k
      have hremoves : (pre ++ [Step.rename (tmpPath p) p] ++ post.take k).any (Step.removes p) =
          false := by
        rw [List.any_append, List.any_append, hpre.any.1, hrest.any.1]
        rfl
      have hreplaces : (pre ++ [Step.rename (tmpPath p) p] ++ post.take k).any
          (Step.replaces p) = true := by
        have hone : [(Step.rename (tmpPath p) p : Step B)].any (Step.replaces p) = true := by
          simp [Step.replaces]
        rw [List.any_append, List.any_append, hone, Bool.or_true, Bool.true_or]
      have hget := hrest.get (fun st hst => htake st (List.mem_append_right _ hst)) hp
        (s.run (pre ++ [.rename (tmpPath p) p]))
      have hfits : ∀ e ∈ (p :: mergedWith steps p).flatMap (entriesAt P s.disk), Fits P e := by
        intro e he
        obtain ⟨q, hq, he⟩ := List.mem_flatMap.mp he
        refine hs.fits q ?_ e he
        rcases List.mem_cons.mp hq with hqp | hq
        · exact hqp ▸ hp
        · obtain ⟨olds, hst, hin⟩ := mem_mergedWith.mp hq
          exact hclosed q ((hsteps _ hst).2 q hin)
      rw [hremoves, hreplaces, if_neg Bool.false_ne_true, if_pos rfl, run_append]
      simp only [readSegments, readSegment, hget.trans hfile, decodeSegment_records hP hfits,
        Except.map, List.append_nil]

end LogEngine.Storage
