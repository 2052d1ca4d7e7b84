import Mathlib.Data.List.Pairwise
import Mathlib.Data.List.Perm.Basic
import LogEngine.Storage.Concurrent

namespace LogEngine.Concurrent
open Lib Storage

variable {B : BloomPackage} {P : ProtoPackage} {log : String → List LogEntry}

section Files

variable {d d' : Disk}

/-- Every segment file is the records of its log, and a missing one has none. -/
structure Filed (P : ProtoPackage) (d : Disk) (log : String → List LogEntry) : Prop where
  files : ∀ p, IsSeg p → d.files.get p = some ((log p).flatMap (record P)) ∨
    d.files.get p = none ∧ log p = []
  entries : ∀ p, ∀ e ∈ log p, IsSeg p ∧ Writable P e

theorem Filed.getD (h : Filed P d log) {p : String} (hp : IsSeg p) :
    (d.files.get p).getD [] = (log p).flatMap (record P) := by
  rcases h.files p hp with hfile | ⟨hnone, hnil⟩
  · rw [hfile, Option.getD_some]
  · rw [hnone, hnil]
    rfl

/-- A file that gains records, in the place of the log that gains their entries. -/
theorem Filed.grow (h : Filed P d log) {path : String} (hseg : IsSeg path) {es : List LogEntry}
    (hes : ∀ e ∈ es, Writable P e)
    (hget : d'.files.get path = some ((d.files.get path).getD [] ++ es.flatMap (record P)))
    (hother : ∀ q, q ≠ path → d'.files.get q = d.files.get q) :
    Filed P d' (fun p => if p = path then log p ++ es else log p) := by
  refine ⟨fun p hp => ?_, fun p e he => ?_⟩
  · by_cases heq : p = path
    · subst heq
      rw [hget, h.getD hp, if_pos rfl, List.flatMap_append]
      exact .inl rfl
    · rw [hother p heq, if_neg heq]
      exact h.files p hp
  · split at he
    · rename_i heq
      rcases List.mem_append.mp he with he | he
      · exact h.entries p e he
      · exact ⟨heq ▸ hseg, hes e he⟩
    · exact h.entries p e he

theorem Filed.fits_of_decodes (hP : P.Inverts) (h : Filed P d log) {p : String}
    (hdecodes : ∀ bs, d.files.get p = some bs → ∃ es, decodeSegment P bs = .ok es) :
    ∀ e ∈ log p, Fits P e := by
  intro e he
  rcases h.files p (h.entries p e he).1 with hfile | ⟨-, hnil⟩
  · obtain ⟨es, hes⟩ := hdecodes _ hfile
    rw [← List.append_nil ((log p).flatMap (record P))] at hes
    exact (records_readable hP (fun x hx => (h.entries p x hx).2) hes).1 e he
  · rw [hnil] at he
    cases he

theorem Filed.entriesAt_eq (hP : P.Inverts) (h : Filed P d log) {p : String} (hp : IsSeg p)
    (hfits : ∀ e ∈ log p, Fits P e) : entriesAt P d p = log p := by
  rcases h.files p hp with hfile | ⟨hnone, hnil⟩
  · exact entriesAt_some hfile (decodeSegment_records hP hfits)
  · rw [entriesAt_none hnone, hnil]

/-- What was read of segments is their logs. -/
theorem Filed.read (hP : P.Inverts) (h : Filed P d log) {paths : List String}
    {all : List LogEntry} (hall : readSegments P d paths = .ok all)
    (hseg : ∀ p ∈ paths, IsSeg p) :
    all = paths.flatMap log ∧ ∀ p ∈ paths, ∀ e ∈ log p, Fits P e := by
  have hfits : ∀ p ∈ paths, ∀ e ∈ log p, Fits P e := fun p hp =>
    h.fits_of_decodes hP (fun _ hbs => decodes_of_readSegments hall hp hbs)
  refine ⟨?_, hfits⟩
  rw [readSegments_entries hall]
  exact List.flatMap_congr (fun p hp => h.entriesAt_eq hP (hseg p hp) (hfits p hp))

end Files

section Posts

variable {p : String} {e : LogEntry}

/-- Whether the index has an entry under a segment after a step, told from whether it had it
before. -/
def posts (p : String) (e : LogEntry) (had : Prop) : Step B → Prop
  | .indexAdd x q => had ∨ (q = p ∧ x = e)
  | .indexRemove q => had ∧ q ≠ p
  | _ => had

/-- The same after all steps of a list. -/
def posted (p : String) (e : LogEntry) : List (Step B) → Prop → Prop
  | [], had => had
  | st :: steps, had => posted p e steps (posts p e had st)

theorem posts_mono {st : Step B} {a b : Prop} (h : a → b) : posts p e a st → posts p e b st := by
  cases st with
  | indexAdd x q => exact Or.imp_left h
  | indexRemove q => exact And.imp_left h
  | _ => exact h

theorem posted_mono {steps : List (Step B)} {a b : Prop} (h : a → b) :
    posted p e steps a → posted p e steps b := by
  induction steps generalizing a b with
  | nil => exact h
  | cons st steps ih => exact ih (posts_mono h)

theorem posted_append (xs ys : List (Step B)) (had : Prop) :
    posted p e (xs ++ ys) had = posted p e ys (posted p e xs had) := by
  induction xs generalizing had with
  | nil => rfl
  | cons st xs ih => exact ih _

theorem posted_of_kept {steps : List (Step B)} (h : Step.indexRemove p ∉ steps) {had : Prop}
    (hhad : had) : posted p e steps had := by
  induction steps generalizing had with
  | nil => exact hhad
  | cons st steps ih =>
    obtain ⟨hst, hsteps⟩ := not_or.mp (List.mem_cons.not.mp h)
    refine ih hsteps ?_
    cases st with
    | indexAdd x q => exact .inl hhad
    | indexRemove q => exact ⟨hhad, fun heq => hst (heq ▸ rfl)⟩
    | _ => exact hhad

theorem posted_of_added {steps : List (Step B)} (hadd : Step.indexAdd e p ∈ steps)
    (hkept : Step.indexRemove p ∉ steps) (had : Prop) : posted p e steps had := by
  obtain ⟨xs, ys, heq⟩ := List.append_of_mem hadd
  rw [heq, posted_append, posted]
  refine posted_of_kept (fun hmem => hkept ?_) (.inr ⟨rfl, rfl⟩)
  rw [heq]
  exact List.mem_append_right _ (List.mem_cons_of_mem _ hmem)

/-- The index after a step. -/
theorem rep_apply {s : Store B} {live : Index.Live} (h : Index.Rep s.index live) (st : Step B) :
    ∃ live', Index.Rep (Step.apply s st).index live' ∧
      ∀ p e, (p, e) ∈ live' ↔ posts p e ((p, e) ∈ live) st := by
  cases st with
  | indexAdd x q =>
    refine ⟨_, h.add x q, fun p e => ?_⟩
    rw [List.mem_append, List.mem_singleton, Prod.mk.injEq, posts, eq_comm (a := p),
      eq_comm (a := e)]
  | indexRemove q =>
    refine ⟨_, h.removeSegment q, fun p e => ?_⟩
    rw [List.mem_filter, decide_eq_true_eq, posts, ne_eq, ne_eq, eq_comm (a := p)]
  | _ =>
    refine ⟨live, ?_, fun p e => Iff.rfl⟩
    rw [index_apply s rfl]
    exact h

end Posts

section Blocks

variable {s : Store B}

/-- What a merge or a deletion does, once it has all been done: the log it leaves, the entries that
are gone with a deleted segment, and that the index still leads to what is left where it did. -/
structure Block (P : ProtoPackage) (s : Store B) (log : String → List LogEntry)
    (steps : List (Step B)) (log' : String → List LogEntry) (gone : List LogEntry) : Prop where
  filed : Filed P (s.run steps).disk log'
  kept : ∀ p, ∀ e ∈ log p, e ∈ gone ∨ ∃ q, e ∈ log' q
  origin : ∀ p, ∀ e ∈ log' p, ∃ q, e ∈ log q
  posts : ∀ p, ∀ e ∈ log' p, (∀ had, posted p e steps had) ∨
    e ∈ log p ∧ ∀ had : Prop, had → posted p e steps had
  lost : ∀ e ∈ gone, Fits P e ∧ ∃ p, e ∈ log p
  single : (∀ p q e, e ∈ log p → e ∈ log q → p = q) →
    (∀ p q e, e ∈ log' p → e ∈ log' q → p = q) ∧ ∀ e ∈ gone, ∀ p, e ∉ log' p

theorem Block.nothing (h : Filed P s.disk log) : Block P s log [] log [] where
  filed := h
  kept := fun p _ he => .inr ⟨p, he⟩
  origin := fun p _ he => ⟨p, he⟩
  posts := fun _ _ he => .inr ⟨he, fun _ hhad => hhad⟩
  lost := fun _ he => absurd he List.not_mem_nil
  single := fun h => ⟨h, fun _ he => absurd he List.not_mem_nil⟩

/-- A merge that writes no more than its temp file. -/
theorem Block.gaveUp (h : Filed P s.disk log) {newPath : String} {part : List LogEntry}
    {steps : List (Step B)} (hsteps : ∀ st ∈ steps, st ∈ mergeWrite P (tmpPath newPath) part) :
    Block P s log steps log [] := by
  refine { Block.nothing h with filed := ⟨fun p hp => ?_, h.entries⟩, posts := ?_ }
  · rw [run_get s (fun st hst =>
      (mergeWrite_keeps _ part st (hsteps st hst)).2 p (tmpPath_touch hp (.inl rfl)).1)]
    exact h.files p hp
  · intro p e he
    refine .inr ⟨he, fun had hhad => posted_of_kept (fun hmem => ?_) hhad⟩
    simpa [mergeWrite] using hsteps _ hmem

theorem mergeCommit_kept {newPath p : String} {olds : List String} {all : List LogEntry} :
    Step.indexRemove p ∉ (mergeCommit false true newPath olds all : List (Step B)) := by
  simp [mergeCommit]

theorem foldInto_from {newPath p : String} {olds : List String} {e : LogEntry}
    (h : e ∈ foldInto log newPath olds p) :
    ∃ q, e ∈ log q ∧ p = if q ∈ newPath :: olds then newPath else q := by
  unfold foldInto at h
  split at h
  · rename_i heq
    obtain ⟨q, hq, he⟩ := List.mem_flatMap.mp h
    exact ⟨q, he, by rw [if_pos hq, heq]⟩
  · rename_i hne
    obtain ⟨hold, he⟩ := mem_without.mp h
    exact ⟨p, he, by rw [if_neg (fun hin => (List.mem_cons.mp hin).elim hne hold)]⟩

/-- A merge that goes through. -/
theorem Block.merged (hP : P.Inverts) (h : Filed P s.disk log) {newPath : String}
    {olds : List String} {all : List LogEntry}
    (hseg : ∀ p ∈ newPath :: olds, IsSeg p)
    (hall : readSegments P s.disk (newPath :: olds) = .ok all) (hnew : newPath ∉ olds)
    {steps : List (Step B)}
    (hsteps : steps = mergeWrite P (tmpPath newPath) all ++ (newPath :: olds).map .indexRemove ++
      .rename (tmpPath newPath) newPath :: mergeCommit false true newPath olds all) :
    Block P s log steps (foldInto log newPath olds) [] := by
  obtain ⟨hcontent, -⟩ := h.read hP hall hseg
  have hnewLog : foldInto log newPath olds newPath = all := by rw [foldInto, if_pos rfl, hcontent]
  have hother : ∀ p, p ≠ newPath → foldInto log newPath olds p = without log olds p :=
    fun p hne => if_neg hne
  refine ⟨⟨fun p hp => ?_, fun p e he => ?_⟩, fun p e he => ?_, fun p e he => mem_foldInto he,
    fun p e he => ?_, fun e he => absurd he List.not_mem_nil,
    fun hsingle => ⟨?_, fun e he => absurd he List.not_mem_nil⟩⟩
  · rw [hsteps, merged_get s newPath olds all false true hp]
    by_cases hold : p ∈ olds
    · have hne : p ≠ newPath := fun heq => hnew (heq ▸ hold)
      rw [if_pos hold, hother p hne, without, if_pos hold]
      exact .inr ⟨rfl, rfl⟩
    · rw [if_neg hold]
      by_cases hpn : p = newPath
      · rw [if_pos hpn, hpn, hnewLog]
        exact .inl rfl
      · rw [if_neg hpn, hother p hpn, without, if_neg hold]
        exact h.files p hp
  · refine ⟨?_, ?_⟩
    · by_cases hpn : p = newPath
      · exact hpn ▸ hseg newPath List.mem_cons_self
      · rw [hother p hpn] at he
        exact (h.entries p e (mem_without.mp he).2).1
    · obtain ⟨q, hq⟩ := mem_foldInto he
      exact (h.entries q e hq).2
  · right
    by_cases hin : p ∈ newPath :: olds
    · refine ⟨newPath, ?_⟩
      rw [hnewLog, hcontent]
      exact List.mem_flatMap.mpr ⟨p, hin, he⟩
    · obtain ⟨hne, hold⟩ := not_or.mp (List.mem_cons.not.mp hin)
      exact ⟨p, by rw [hother p hne]; exact mem_without.mpr ⟨hold, he⟩⟩
  · by_cases hpn : p = newPath
    · refine .inl (fun had => ?_)
      subst hpn
      rw [hnewLog] at he
      rw [hsteps, posted_append, posted]
      refine posted_of_added ?_ mergeCommit_kept _
      simp [mergeCommit, he]
    · rw [hother p hpn] at he
      obtain ⟨hold, he⟩ := mem_without.mp he
      refine .inr ⟨he, fun had hhad => posted_of_kept (fun hmem => ?_) hhad⟩
      rw [hsteps] at hmem
      rcases List.mem_append.mp hmem with hmem | hmem
      · rcases List.mem_append.mp hmem with hmem | hmem
        · simp [mergeWrite] at hmem
        · obtain ⟨q, hq, heq⟩ := List.mem_map.mp hmem
          cases heq
          exact (List.mem_cons.mp hq).elim hpn hold
      · rcases List.mem_cons.mp hmem with heq | hmem
        · cases heq
        · exact mergeCommit_kept hmem
  · intro p q e hp hq
    obtain ⟨r, hr, hfrom⟩ := foldInto_from hp
    obtain ⟨r', hr', hfrom'⟩ := foldInto_from hq
    rw [hfrom, hfrom', hsingle r r' e hr hr']

/-- A merge of the compactor, when nothing fails. -/
theorem Block.mergeRun (hP : P.Inverts) (h : Filed P s.disk log)
    (hoff : s.manager.bloomEnabled = false) {run : List String} (hseg : ∀ p ∈ run, IsSeg p)
    (hnodup : run.Nodup) : ∃ log', Block P s log (Storage.mergeRun P s {} run) log' [] := by
  cases run with
  | nil => exact ⟨log, .nothing h⟩
  | cons newPath olds =>
    have hnew := (List.nodup_cons.mp hnodup).1
    rcases mergeRun_outcome (P := P) s {} newPath olds with
      ⟨part, hpart⟩ | ⟨all, hall, hwrites, -⟩
    · exact ⟨log, .gaveUp h hpart⟩
    · refine ⟨_, .merged hP h hseg hall hnew ?_⟩
      simp [Storage.mergeRun, hall, mergeAll, hwrites, hoff]

theorem Block.flush (hP : P.Inverts) (h : Filed P s.disk log)
    (hoff : s.manager.bloomEnabled = false) {run : List String} (hseg : ∀ p ∈ run, IsSeg p)
    (hnodup : run.Nodup) : ∃ log', Block P s log (Storage.flush P s noFaults run) log' [] := by
  unfold Storage.flush
  split
  · exact Block.mergeRun hP h hoff hseg hnodup
  · exact ⟨log, .nothing h⟩

/-- One segment of a retention pass. -/
theorem Block.retainOne (hP : P.Inverts) (h : Filed P s.disk log) (cutoff : Int64) {path : String}
    (hpath : IsSeg path) : ∃ log', Block P s log (Storage.retainOne P s cutoff path) log'
      (if (Storage.retainOne P s cutoff path).isEmpty then [] else entriesAt P s.disk path) := by
  unfold Storage.retainOne
  split
  · exact ⟨log, .nothing h⟩
  rename_i entries hentries
  split
  · obtain ⟨-, hfits⟩ := h.read hP hentries (by simpa using hpath)
    have hfits := hfits path (List.mem_singleton_self _)
    have hgone := h.entriesAt_eq hP hpath hfits
    have hget : ∀ p, IsSeg p → (s.run [.deleteSegment path, .indexRemove path, .remove path,
        .remove (bloomPath path)]).disk.files.get p =
        if p = path then none else s.disk.files.get p := by
      intro p hp
      have hne : p ≠ bloomPath path := fun heq => bloomPath_not_seg path (heq ▸ hp)
      simp only [run_cons, run_nil, get_remove, if_neg hne]
      rfl
    rw [List.isEmpty_cons, if_neg Bool.false_ne_true, hgone]
    refine ⟨without log [path], ⟨fun p hp => ?_, fun p e he => ?_⟩, fun p e he => ?_,
      fun p e he => ⟨p, (mem_without.mp he).2⟩, fun p e he => ?_,
      fun e he => ⟨hfits e he, path, he⟩, fun hsingle => ⟨?_, ?_⟩⟩
    · rw [hget p hp, without]
      by_cases heq : p = path
      · rw [if_pos heq, if_pos (List.mem_singleton.mpr heq)]
        exact .inr ⟨rfl, rfl⟩
      · rw [if_neg heq, if_neg (List.mem_singleton.not.mpr heq)]
        exact h.files p hp
    · exact h.entries p e (mem_without.mp he).2
    · by_cases heq : p = path
      · exact .inl (heq ▸ he)
      · exact .inr ⟨p, mem_without.mpr ⟨List.mem_singleton.not.mpr heq, he⟩⟩
    · obtain ⟨hne, he⟩ := mem_without.mp he
      refine .inr ⟨he, fun had hhad => posted_of_kept ?_ hhad⟩
      simpa using hne
    · exact fun p q e hp hq => hsingle p q e (mem_without.mp hp).2 (mem_without.mp hq).2
    · intro e he p hp
      obtain ⟨hne, hp⟩ := mem_without.mp hp
      exact hne (List.mem_singleton.mpr (hsingle p path e hp he))
  · exact ⟨log, .nothing h⟩

end Blocks

section Past

variable {s t : Store B} {p : String}

/-- A segment that is written no more: it is not the active one, and no later one gets its name. -/
structure Past (s : Store B) (p : String) : Prop where
  seg : IsSeg p
  closed : s.manager.active.map Segment.path ≠ some p
  numbered : ∀ k, p = segmentName k → k < s.manager.nextSeq

theorem Past.congr (h : Past s p) (hactive : t.manager.active = s.manager.active)
    (hnext : t.manager.nextSeq = s.manager.nextSeq) : Past t p :=
  ⟨h.seg, hactive ▸ h.closed, hnext ▸ h.numbered⟩

theorem Past.ne_target (h : Past s p) {seg : Segment} (hactive : s.manager.active = some seg)
    (e : LogEntry) : p ≠ appendTarget P s seg e := by
  unfold appendTarget
  split
  · exact fun heq => UInt64.lt_irrefl _ (h.numbered _ heq)
  · exact fun heq => h.closed (by rw [hactive, heq]; rfl)

/-- An append leaves the segments that are written no more. -/
theorem Past.append (h : Past s p) {seg : Segment} (hactive : s.manager.active = some seg)
    {e : LogEntry} (ok : Bool) (hseq : SeqLeft P s e) :
    Past (s.run (appendLocked P s e ok).1) p := by
  have hopen := rotateIfFull_opened (P := P) e ok hactive
  obtain ⟨size, hactive'⟩ := hopen.active
  obtain ⟨tail, heq, htail⟩ := appendLocked_cases (P := P) e ok hactive
  have hopened : Past (s.run (rotateIfFull P s seg e ok)) p := by
    refine ⟨h.seg, ?_, fun k hk => ?_⟩
    · rw [hactive']
      exact fun hsome => h.ne_target hactive e (Option.some.inj hsome).symm
    · have hlt := h.numbered k hk
      by_cases hsame : (s.run (rotateIfFull P s seg e ok)).manager.nextSeq = s.manager.nextSeq
      · rwa [hsame]
      · have hwrap := hseq seg hactive (rotateIfFull_nextSeq hsame)
        rcases hopen.layout with ⟨-, -, -, hnext, -⟩ | ⟨-, -, -, hnext, -⟩
        · exact absurd hnext hsame
        · rw [hnext, lt_succ hwrap]
          exact .inl hlt
  rw [heq, run_append]
  rcases htail with hnil | hwrite
  · rwa [hnil, run_nil]
  · obtain ⟨size', wactive⟩ := writeSteps_active (P := P) hactive' (appendTarget P s seg e) e
    obtain ⟨-, wnext, -⟩ := writeSteps_layout (P := P) (s.run (rotateIfFull P s seg e ok))
      (appendTarget P s seg e) e
    rw [hwrite]
    refine ⟨h.seg, ?_, wnext ▸ hopened.numbered⟩
    rw [wactive]
    exact fun hsome => h.ne_target hactive e (Option.some.inj hsome).symm

/-- With bloom filters off an append touches only the file it writes to. -/
theorem append_touches {seg : Segment} (hactive : s.manager.active = some seg)
    (hoff : s.manager.bloomEnabled = false) (e : LogEntry) (ok : Bool) {q : String}
    (hq : q ≠ appendTarget P s seg e) :
    (s.run (appendLocked P s e ok).1).disk.files.get q = s.disk.files.get q := by
  obtain ⟨tail, heq, htail⟩ := appendLocked_cases (P := P) e ok hactive
  have hrotate : (s.run (rotateIfFull P s seg e ok)).disk.files.get q = s.disk.files.get q := by
    unfold rotateIfFull
    split
    · rename_i hrot
      rw [appendTarget, if_pos hrot] at hq
      rw [rotate, rotateBloom, if_neg (by simp [hoff]), List.nil_append,
        (openNewSegment_run s s.manager).1, if_neg hq]
    · rfl
  rw [heq, run_append, ← hrotate]
  rcases htail with hnil | hwrite
  · rw [hnil, run_nil]
  · rw [hwrite, writeSteps_get, if_neg hq]

theorem append_keeps {seg : Segment} (hactive : s.manager.active = some seg) (e : LogEntry)
    (ok : Bool) : (s.run (appendLocked P s e ok).1).index = s.index ∧
      (s.run (appendLocked P s e ok).1).manager.bloomEnabled = s.manager.bloomEnabled := by
  have hopen := rotateIfFull_opened (P := P) e ok hactive
  obtain ⟨tail, heq, htail⟩ := appendLocked_cases (P := P) e ok hactive
  rw [heq, run_append]
  rcases htail with hnil | hwrite
  · rw [hnil, run_nil]
    exact ⟨hopen.index, hopen.bloomEnabled⟩
  · obtain ⟨-, -, wbloom, -, -, windex⟩ := writeSteps_layout (P := P)
      (s.run (rotateIfFull P s seg e ok)) (appendTarget P s seg e) e
    rw [hwrite]
    exact ⟨windex.trans hopen.index, wbloom.trans hopen.bloomEnabled⟩

end Past

/-- The state of a run, told by the log that the files will hold when the compactor is through with
the merge or deletion it is in. Every entry of the log will then still be indexed, or its handler
has yet to index it, and what is indexed of it now will not be taken out for good. -/
structure Traced (P : ProtoPackage) (σ : System B) (log : String → List LogEntry)
    (live : Index.Live) : Prop where
  filed : Filed P (σ.store.run σ.steps).disk log
  layout : Layout σ.store
  segs : ∀ p ∈ σ.store.manager.paths, IsSeg p
  off : σ.store.manager.bloomEnabled = false
  bloomless : ∀ p, σ.store.manager.blooms.get p = none
  compacts : ∃ closed, (∀ p ∈ closed, Past σ.store p) ∧ ∀ st ∈ σ.steps, st.Compacts closed
  ahead : ∀ p ∈ σ.stage.segments, Past σ.store p
  distinct : σ.stage.segments.Nodup
  rep : Index.Rep σ.store.index live
  liveSegs : ∀ p e, (p, e) ∈ live → IsSeg p
  waitingSegs : ∀ e p, (e, p) ∈ σ.waiting → IsSeg p
  known : ∀ p, ∀ e ∈ log p, posted p e σ.steps ((p, e) ∈ live) ∨ (e, p) ∈ σ.waiting
  lasting : ∀ p, ∀ e ∈ log p, posted p e σ.steps True
  stored : ∀ e ∈ σ.appended, e ∈ σ.deleted ∨ ∃ p, e ∈ log p
  origin : ∀ p, ∀ e ∈ log p, e ∈ σ.appended
  deletedFits : ∀ e ∈ σ.deleted, Fits P e ∧ e ∈ σ.appended
  single : σ.appended.Nodup → (∀ p q e, e ∈ log p → e ∈ log q → p = q) ∧
    ∀ e ∈ σ.deleted, ∀ p, e ∉ log p

section Actions

variable {σ : System B} {live : Index.Live}

/-- The compactor begins a merge or a deletion. -/
theorem Traced.begin (h : Traced P σ log live) (hnone : σ.steps = []) {steps : List (Step B)}
    {log' : String → List LogEntry} {gone : List LogEntry}
    (hblock : Block P σ.store log steps log' gone) {closed : List String}
    (hclosed : ∀ p ∈ closed, Past σ.store p) (hcompacts : ∀ st ∈ steps, st.Compacts closed)
    {stage : Stage} (hahead : ∀ p ∈ stage.segments, Past σ.store p)
    (hdistinct : stage.segments.Nodup) :
    Traced P { σ with steps, stage, deleted := σ.deleted ++ gone } log' live := by
  have hknown := h.known
  rw [hnone] at hknown
  refine { h with
    filed := hblock.filed, compacts := ⟨closed, hclosed, hcompacts⟩, ahead := hahead
    distinct := hdistinct, known := fun p e he => ?_, lasting := fun p e he => ?_
    stored := fun e he => ?_, origin := fun p e he => ?_, deletedFits := fun e he => ?_
    single := fun hnodup => ?_ }
  · rcases hblock.posts p e he with hall | ⟨hin, hkeeps⟩
    · exact .inl (hall _)
    · exact (hknown p e hin).imp_left (hkeeps _)
  · rcases hblock.posts p e he with hall | ⟨-, hkeeps⟩
    · exact hall _
    · exact hkeeps _ trivial
  · rcases h.stored e he with hdel | ⟨p, hp⟩
    · exact .inl (List.mem_append_left _ hdel)
    · exact (hblock.kept p e hp).imp_left (List.mem_append_right _)
  · obtain ⟨q, hq⟩ := hblock.origin p e he
    exact h.origin q e hq
  · rcases List.mem_append.mp he with he | he
    · exact h.deletedFits e he
    · obtain ⟨hfits, p, hp⟩ := hblock.lost e he
      exact ⟨hfits, h.origin p e hp⟩
  · obtain ⟨hsingle, hdeleted⟩ := h.single hnodup
    obtain ⟨hsingle', hgone⟩ := hblock.single hsingle
    refine ⟨hsingle', fun e he p hp => ?_⟩
    rcases List.mem_append.mp he with he | he
    · obtain ⟨q, hq⟩ := hblock.origin p e hp
      exact hdeleted e he q hq
    · exact hgone e he p hp

/-- The compactor does one of its steps. -/
theorem Traced.advance (h : Traced P σ log live) {st : Step B} {steps : List (Step B)}
    (hsteps : σ.steps = st :: steps) :
    ∃ live', Traced P { σ with store := Step.apply σ.store st, steps } log live' := by
  obtain ⟨closed, hclosed, hcompacts⟩ := h.compacts
  rw [hsteps] at hcompacts
  obtain ⟨hst, hrest⟩ := List.forall_mem_cons.mp hcompacts
  obtain ⟨seg, hactive, -⟩ := h.layout.active
  obtain ⟨hlayout, hact, hnext⟩ := h.layout.compact_step hactive
    (fun hin => (hclosed _ hin).closed (by rw [hactive]; rfl))
    (fun k hk => (hclosed _ hk).numbered k rfl) hst
  obtain ⟨live', hrep, hlive⟩ := rep_apply h.rep st
  have hfiled := h.filed
  have hknown := h.known
  have hlasting := h.lasting
  rw [hsteps] at hfiled hknown hlasting
  refine ⟨live', { h with
    filed := hfiled, layout := hlayout, segs := fun p hp => ?_, off := ?_, bloomless := fun p => ?_
    compacts := ⟨closed, fun p hp => (hclosed p hp).congr hact hnext, hrest⟩
    ahead := fun p hp => (h.ahead p hp).congr hact hnext, rep := hrep, liveSegs := fun p e he => ?_
    known := fun p e he => ?_, lasting := fun p e he => ?_ }⟩
  · have hone : ∀ u ∈ [st], Step.Compacts closed u := by simpa using hst
    exact h.segs p (compacts_paths hone σ.store p hp)
  · exact (compacts_bloomless hst h.off h.bloomless).1
  · exact (compacts_bloomless hst h.off h.bloomless).2 p
  · have hposts := (hlive p e).mp he
    cases st with
    | indexAdd x q =>
      rcases hposts with hin | ⟨heq, -⟩
      · exact h.liveSegs p e hin
      · exact heq ▸ (hclosed q hst).seg
    | indexRemove q => exact h.liveSegs p e hposts.1
    | _ => exact h.liveSegs p e hposts
  · exact (hknown p e he).imp_left (posted_mono (hlive p e).mpr)
  · exact posted_mono (fun _ => trivial) (hlasting p e he)

/-- A handler indexes its entry. -/
theorem Traced.add (h : Traced P σ log live) {k : Nat} {e : LogEntry} {path : String}
    (hk : σ.waiting[k]? = some (e, path)) :
    Traced P { σ with
      store := ⟨σ.store.disk, σ.store.manager, σ.store.index.add e path⟩
      waiting := σ.waiting.eraseIdx k, acked := σ.acked ++ [e] } log (live ++ [(path, e)]) := by
  have hmem := List.mem_of_getElem? hk
  have hperm : σ.waiting.Perm ((e, path) :: σ.waiting.eraseIdx k) := by
    obtain ⟨hlt, hget⟩ := List.getElem?_eq_some_iff.mp hk
    have hcons := List.getElem_cons_eraseIdx_perm hlt
    rw [hget] at hcons
    exact hcons.symm
  have happended : (σ.acked ++ [e] ++ (σ.waiting.eraseIdx k).map Prod.fst).Perm σ.appended := by
    rw [List.append_assoc, List.singleton_append]
    exact ((hperm.map Prod.fst).append_left σ.acked).symm
  obtain ⟨index', hrun⟩ := run_reindexed σ.store (σ.store.index.add e path) σ.steps
  obtain ⟨closed, hclosed, hcompacts⟩ := h.compacts
  refine ⟨?_, h.layout.congr rfl rfl, h.segs, h.off, h.bloomless,
    ⟨closed, fun p hp => (hclosed p hp).congr rfl rfl, hcompacts⟩,
    fun p hp => (h.ahead p hp).congr rfl rfl, h.distinct, h.rep.add e path, ?_, ?_, ?_, h.lasting,
    ?_, ?_, ?_, ?_⟩
  · rw [hrun]
    exact h.filed
  · intro p x hx
    rcases List.mem_append.mp hx with hx | hx
    · exact h.liveSegs p x hx
    · rw [List.mem_singleton, Prod.mk.injEq] at hx
      exact hx.1 ▸ h.waitingSegs e path hmem
  · exact fun x p hx => h.waitingSegs x p (List.mem_of_mem_eraseIdx hx)
  · intro p x hx
    rcases h.known p x hx with hpost | hwait
    · exact .inl (posted_mono (List.mem_append_left _) hpost)
    · rcases List.mem_cons.mp (hperm.mem_iff.mp hwait) with heq | hwait
      · cases heq
        exact .inl (posted_mono (fun _ => List.mem_append_right _ (List.mem_singleton_self _))
          (h.lasting path e hx))
      · exact .inr hwait
  · exact fun x hx => h.stored x (happended.mem_iff.mp hx)
  · exact fun p x hx => happended.mem_iff.mpr (h.origin p x hx)
  · exact fun x hx => ⟨(h.deletedFits x hx).1, happended.mem_iff.mpr (h.deletedFits x hx).2⟩
  · exact fun hnodup => h.single (happended.nodup_iff.mp hnodup)

theorem Traced.target_isSeg (h : Traced P σ log live) {seg : Segment}
    (hactive : σ.store.manager.active = some seg) (e : LogEntry) :
    IsSeg (appendTarget P σ.store seg e) := by
  obtain ⟨seg', hseg', hlast⟩ := h.layout.active
  rw [appendTarget]
  split
  · exact segmentName_isSeg _
  · rw [hactive] at hseg'
    cases hseg'
    exact h.segs _ (List.mem_of_getLast? hlast)

/-- New entries in one file leave every entry in one file. -/
theorem single_extend {log' : String → List LogEntry} {path : String}
    {es appended : List LogEntry}
    (hin : ∀ p x, x ∈ log' p ↔ x ∈ log p ∨ (p = path ∧ x ∈ es))
    (horigin : ∀ p, ∀ x ∈ log p, x ∈ appended) (hnew : ∀ x ∈ es, x ∉ appended)
    (hsingle : ∀ p q x, x ∈ log p → x ∈ log q → p = q) (p q : String) (x : LogEntry)
    (hp : x ∈ log' p) (hq : x ∈ log' q) : p = q := by
  rcases (hin p x).mp hp with hp | ⟨hpp, hpe⟩
  · rcases (hin q x).mp hq with hq | ⟨-, hqe⟩
    · exact hsingle p q x hp hq
    · exact absurd (horigin p x hp) (hnew x hqe)
  · rcases (hin q x).mp hq with hq | ⟨hqp, -⟩
    · exact absurd (horigin q x hq) (hnew x hpe)
    · rw [hpp, hqp]

/-- An append, or the rotation in front of one that is refused, beside whatever the compactor is
doing. -/
theorem Traced.written (h : Traced P σ log live) {seg : Segment}
    (hactive : σ.store.manager.active = some seg) {e : LogEntry} (hseq : SeqLeft P σ.store e)
    {s' : Store B} (hs' : s' = σ.store.run (appendLocked P σ.store e true).1) {path : String}
    (hpath : path = appendTarget P σ.store seg e) {es : List LogEntry}
    (hes : ∀ x ∈ es, Writable P x)
    (hget : s'.disk.files.get path =
      some ((σ.store.disk.files.get path).getD [] ++ es.flatMap (record P))) :
    ∃ log', Traced P { σ with
      store := s', waiting := σ.waiting ++ es.map (fun x => (x, path)) } log' live := by
  obtain ⟨closed, hclosed, hcompacts⟩ := h.compacts
  obtain ⟨hindex, hoff⟩ := append_keeps (P := P) hactive e true
  have hseg : IsSeg path := hpath ▸ h.target_isSeg hactive e
  have hfree : path ∉ closed := fun hin => (hclosed _ hin).ne_target hactive e hpath
  have hfresh : ∀ st ∈ σ.steps, path ∉ st.touches :=
    fun st hst => compacts_untouched (hcompacts st hst) hseg hfree
  have hkept : Step.indexRemove path ∉ σ.steps := fun hmem => hfree (hcompacts _ hmem)
  have hother : ∀ q, q ≠ path → s'.disk.files.get q = σ.store.disk.files.get q := by
    intro q hq
    rw [hs', append_touches hactive h.off e true (hpath ▸ hq)]
  have hpast : ∀ p, Past σ.store p → Past s' p :=
    fun p hp => hs' ▸ hp.append hactive true hseq
  have hin : ∀ p x, x ∈ (if p = path then log p ++ es else log p) ↔
      x ∈ log p ∨ (p = path ∧ x ∈ es) := by
    intro p x
    by_cases heq : p = path <;> simp [heq]
  have happended : ∀ x, x ∈ σ.acked ++ (σ.waiting ++ es.map (fun x => (x, path))).map Prod.fst ↔
      x ∈ σ.appended ∨ x ∈ es := by
    intro x
    simp [System.appended, List.mem_map, or_assoc]
  refine ⟨fun p => if p = path then log p ++ es else log p, ?_, hs' ▸ h.layout.append true hseq,
    fun p hp => ?_, ?_, fun p => ?_, ⟨closed, fun p hp => hpast p (hclosed p hp), hcompacts⟩,
    fun p hp => hpast p (h.ahead p hp), h.distinct, ?_, h.liveSegs, ?_, fun p x hx => ?_,
    fun p x hx => ?_, fun x hx => ?_, fun p x hx => ?_, fun x hx => ?_, fun hnodup => ?_⟩
  · refine h.filed.grow hseg hes ?_ (run_apart hother hfresh)
    rw [run_get s' hfresh, hget, run_get σ.store hfresh]
  · rw [hs'] at hp
    rcases append_paths hactive true p hp with hp | hp
    · exact h.segs p hp
    · exact hp ▸ segmentName_isSeg _
  · rw [hs', hoff, h.off]
  · rw [hs', append_blooms hactive h.off]
    exact h.bloomless p
  · rw [hs', hindex]
    exact h.rep
  · intro x p hx
    rcases List.mem_append.mp hx with hx | hx
    · exact h.waitingSegs x p hx
    · obtain ⟨y, -, heq⟩ := List.mem_map.mp hx
      exact (Prod.mk.inj heq).2 ▸ hseg
  · rcases (hin p x).mp hx with hx | ⟨heq, hx⟩
    · exact (h.known p x hx).imp_right (List.mem_append_left _)
    · exact .inr (List.mem_append_right _ (List.mem_map.mpr ⟨x, hx, by rw [heq]⟩))
  · rcases (hin p x).mp hx with hx | ⟨heq, -⟩
    · exact h.lasting p x hx
    · exact posted_of_kept (heq ▸ hkept) trivial
  · rcases (happended x).mp hx with hx | hx
    · exact (h.stored x hx).imp_right (Exists.imp (fun p hp => (hin p x).mpr (.inl hp)))
    · exact .inr ⟨path, (hin path x).mpr (.inr ⟨rfl, hx⟩)⟩
  · rcases (hin p x).mp hx with hx | ⟨-, hx⟩
    · exact (happended x).mpr (.inl (h.origin p x hx))
    · exact (happended x).mpr (.inr hx)
  · exact ⟨(h.deletedFits x hx).1, (happended x).mpr (.inl (h.deletedFits x hx).2)⟩
  · have hsplit : σ.acked ++ (σ.waiting ++ es.map (fun x => (x, path))).map Prod.fst =
        σ.appended ++ es := by
      simp [System.appended, Function.comp_def]
    have hnodup : (σ.appended ++ es).Nodup := hsplit ▸ hnodup
    obtain ⟨hold, -, hapart⟩ := List.nodup_append.mp hnodup
    have hnew : ∀ x ∈ es, x ∉ σ.appended := fun x hx hmem => hapart x hmem x hx rfl
    obtain ⟨hsingle, hdeleted⟩ := h.single hold
    refine ⟨single_extend hin h.origin hnew hsingle, fun x hx p hp => ?_⟩
    rcases (hin p x).mp hp with hp | ⟨-, hpe⟩
    · exact hdeleted x hx p hp
    · exact hnew x hpe (h.deletedFits x hx).2

theorem appendWithPath_eq {s : Store B} (hs : Layout s) {seg : Segment}
    (hactive : s.manager.active = some seg) {e : LogEntry} (he : Writable P e)
    (hseq : SeqLeft P s e) :
    s.appendWithPath P e =
      (s.run (appendLocked P s e true).1, some (appendTarget P s seg e)) := by
  obtain ⟨seg', hactive', hlast⟩ := (hs.append true hseq).active
  obtain ⟨size, hpath⟩ := (append_spec true hactive he).active
  rw [hactive', Option.some.injEq] at hpath
  have hname : (s.run (appendLocked P s e true).1).manager.activeSegmentName =
      appendTarget P s seg e := by
    rw [Manager.activeSegmentName, hlast, Option.getD_some, hpath]
  rw [← hname]
  simp only [Store.appendWithPath, appendLocked_eq hactive he]

theorem appendWithPath_refused {s : Store B} {seg : Segment}
    (hactive : s.manager.active = some seg) {e : LogEntry} (he : ¬ Writable P e) :
    s.appendWithPath P e = (s.run (appendLocked P s e true).1, none) := by
  simp only [Store.appendWithPath, appendLocked_refused hactive he]

/-- A handler appends its entry. -/
theorem Traced.append (h : Traced P σ log live) {e : LogEntry} (hseq : SeqLeft P σ.store e) :
    ∃ log', Traced P (σ.step P (.append e)) log' live := by
  obtain ⟨seg, hactive, -⟩ := h.layout.active
  by_cases he : Writable P e
  · have hget := (append_spec true hactive he).content
    have hes : ∀ x ∈ [e], Writable P x := by simpa using he
    simp only [System.step, appendWithPath_eq h.layout hactive he hseq]
    refine h.written hactive hseq rfl rfl hes ?_
    rw [hget, List.flatMap_singleton]
  · simp only [System.step, appendWithPath_refused hactive he]
    by_cases hrot : mustRotate P σ.store seg e = true
    · have hget : (σ.store.run (appendLocked P σ.store e true).1).disk.files.get
          (appendTarget P σ.store seg e) =
          some ((σ.store.disk.files.get (appendTarget P σ.store seg e)).getD [] ++
            ([] : List LogEntry).flatMap (record P)) := by
        rw [appendLocked_refused hactive he, rotateIfFull, if_pos hrot, rotate, rotateBloom,
          if_neg (by simp [h.off]), List.nil_append, (openNewSegment_run _ _).1, appendTarget,
          if_pos hrot, if_pos rfl, List.flatMap_nil, List.append_nil]
      have hes : ∀ x ∈ ([] : List LogEntry), Writable P x := by simp
      obtain ⟨log', h'⟩ := h.written hactive hseq rfl rfl hes hget
      rw [List.map_nil, List.append_nil] at h'
      exact ⟨log', h'⟩
    · rw [appendLocked_refused hactive he, rotateIfFull, if_neg hrot, run_nil]
      exact ⟨log, h⟩

/-- The closed segments are written no more. -/
theorem closed_past {s : Store B} (hs : Layout s) (hsegs : ∀ p ∈ s.manager.paths, IsSeg p) :
    ∀ p ∈ s.manager.listClosedSegments, Past s p := by
  intro p hp
  have hlisted : p ∈ s.manager.paths := List.dropLast_subset _ hp
  refine ⟨hsegs p hlisted, fun heq => ?_, fun k hk => hs.listed k (hk ▸ hlisted)⟩
  obtain ⟨seg, hseg, hpath⟩ := Option.map_eq_some_iff.mp heq
  exact hs.active_open hseg (hpath ▸ hp)

/-- The compactor begins a pass, or ends one. -/
theorem Traced.enter (h : Traced P σ log live) {stage : Stage}
    (hstage : stage.segments = [] ∨ stage.segments = σ.store.manager.listClosedSegments) :
    Traced P { σ with stage } log live := by
  refine { h with ahead := ?_, distinct := ?_ }
  · intro p hp
    rcases hstage with hnil | hclosed
    · rw [hnil] at hp
      cases hp
    · exact closed_past h.layout h.segs p (hclosed ▸ hp)
  · rcases hstage with hnil | hclosed
    · rw [hnil]
      exact List.nodup_nil
    · rw [hclosed]
      exact h.layout.nodup.sublist (List.dropLast_sublist _)

theorem merge_segments (s : Store B) (threshold : Int) :
    (Stage.merge s threshold).segments = [] ∨
      (Stage.merge s threshold).segments = s.manager.listClosedSegments := by
  simp only [Stage.merge]
  split
  · exact .inl rfl
  split
  · exact .inl rfl
  · exact .inr (List.nil_append _)

theorem retention_segments (s : Store B) (now : Int64) (days : Int) :
    (Stage.retention s now days).segments = [] ∨
      (Stage.retention s now days).segments = s.manager.listClosedSegments := by
  unfold Stage.retention
  split
  · exact .inl rfl
  · exact .inr rfl

/-- The compactor merges the run it has collected. -/
theorem Traced.flush (hP : P.Inverts) (h : Traced P σ log live) (hnone : σ.steps = [])
    {threshold : Int} {run rest : List String} (hstage : σ.stage = .scan threshold run rest)
    (stage : Stage) (hsub : stage.segments.Sublist rest) :
    ∃ log', Traced P { σ with
      steps := Storage.flush P σ.store noFaults run, stage } log' live := by
  have hahead := h.ahead
  have hdistinct := h.distinct
  have hfiled := h.filed
  rw [hstage, Stage.segments] at hahead hdistinct
  rw [hnone, run_nil] at hfiled
  obtain ⟨hrunNodup, hrestNodup, -⟩ := List.nodup_append.mp hdistinct
  have hrun : ∀ p ∈ run, Past σ.store p := fun p hp => hahead p (List.mem_append_left _ hp)
  obtain ⟨log', hblock⟩ := Block.flush hP hfiled h.off (fun p hp => (hrun p hp).seg) hrunNodup
  have h' := h.begin hnone hblock hrun (flush_compacts (fun p hp => hp) _ _)
    (fun p hp => hahead p (List.mem_append_right _ (hsub.subset hp))) (hrestNodup.sublist hsub)
  rw [List.append_nil] at h'
  exact ⟨log', h'⟩

theorem Traced.compact (hP : P.Inverts) (h : Traced P σ log live) :
    ∃ log' live', Traced P (σ.compact P) log' live' := by
  unfold System.compact
  split
  · rename_i st steps hsteps
    exact ⟨log, h.advance hsteps⟩
  rename_i hnone
  split
  · exact ⟨log, live, h⟩
  · rename_i threshold run hstage
    obtain ⟨log', h'⟩ := h.flush hP hnone hstage .idle (List.nil_sublist _)
    exact ⟨log', live, h'⟩
  · rename_i threshold run path rest hstage
    split
    · have hahead := h.ahead
      have hdistinct := h.distinct
      rw [hstage, Stage.segments, List.append_cons] at hahead hdistinct
      exact ⟨log, live, { h with ahead := hahead, distinct := hdistinct }⟩
    · obtain ⟨log', h'⟩ := h.flush hP hnone hstage (.scan threshold [] rest)
        (List.sublist_cons_self _ _)
      exact ⟨log', live, h'⟩
  · exact ⟨log, live, h.enter (.inl rfl)⟩
  · rename_i cutoff path rest hstage
    have hahead := h.ahead
    have hdistinct := h.distinct
    have hfiled := h.filed
    rw [hstage, Stage.segments] at hahead hdistinct
    rw [hnone, run_nil] at hfiled
    obtain ⟨hpath, hrest⟩ := List.forall_mem_cons.mp hahead
    obtain ⟨log', hblock⟩ := Block.retainOne hP hfiled cutoff hpath.seg
    have hclosed : ∀ p ∈ [path], Past σ.store p := by simpa using hpath
    exact ⟨log', live, h.begin hnone hblock hclosed
      (retainOne_compacts (List.mem_singleton_self path) cutoff σ.store) hrest
      (List.nodup_cons.mp hdistinct).2⟩

/-- One action keeps the state traced. -/
theorem Traced.step (hP : P.Inverts) (h : Traced P σ log live) {action : Action}
    (hseq : action.NumberLeft P σ.store) :
    ∃ log' live', Traced P (σ.step P action) log' live' := by
  cases action with
  | append e =>
    obtain ⟨log', h'⟩ := h.append hseq
    exact ⟨log', live, h'⟩
  | add k =>
    rw [System.step]
    split
    · rename_i hk
      exact ⟨log, _, h.add hk⟩
    · exact ⟨log, live, h⟩
  | merge threshold =>
    rw [System.step]
    split
    · exact ⟨log, live, h.enter (merge_segments σ.store threshold)⟩
    · exact ⟨log, live, h⟩
  | retain now days =>
    rw [System.step]
    split
    · exact ⟨log, live, h.enter (retention_segments σ.store now days)⟩
    · exact ⟨log, live, h⟩
  | compact => exact h.compact hP

/-- However handlers and compactor take turns, the state stays traced. -/
theorem Traced.run (hP : P.Inverts) {actions : List Action} (h : Traced P σ log live)
    (hleft : σ.NumbersLeft P actions) : ∃ log' live', Traced P (σ.run P actions) log' live' := by
  induction actions generalizing σ log live with
  | nil => exact ⟨log, live, h⟩
  | cons action actions ih =>
    obtain ⟨hnow, hlater⟩ := hleft
    obtain ⟨log', live', h'⟩ := h.step hP hnow
    exact ih h' (hlater _ rfl)

/-- Where no entry is stored twice, an entry is in one segment. -/
theorem segment_unique {paths : List String} (h : (paths.flatMap log).Nodup) {p q : String}
    {e : LogEntry} (hp : p ∈ paths) (hq : q ∈ paths) (hep : e ∈ log p) (heq : e ∈ log q) :
    p = q := by
  have hsymm : Std.Symm (Function.onFun List.Disjoint log) := ⟨fun _ _ hdisj => hdisj.symm⟩
  by_contra hne
  exact (List.nodup_flatMap.mp h).2.forall hp hq hne hep heq

/-- A store between operations is a start. -/
theorem Traced.init {s : Store B} (hs : Kept P s log) (hlayout : Layout s)
    (hoff : s.manager.bloomEnabled = false) (hbloomless : ∀ p, s.manager.blooms.get p = none) :
    ∃ live, Traced P (.init s (sequence s log)) log live := by
  obtain ⟨live, hrep, hlive⟩ := hs.catalogued
  have hsegs : ∀ p, ∀ e ∈ log p, IsSeg p :=
    fun p e he => hs.logged.segs p (hs.logged.mem_paths he)
  have happended : (System.init s (sequence s log)).appended = sequence s log :=
    List.append_nil _
  refine ⟨live, {
    filed := ⟨fun p hp => ?_, fun p e he => ⟨hsegs p e he, hs.logged.writable p e he⟩⟩
    layout := hlayout, segs := hs.logged.segs, off := hoff, bloomless := hbloomless
    compacts := ⟨[], by simp, by simp [System.init]⟩, ahead := by simp [System.init, Stage.segments]
    distinct := List.nodup_nil, rep := hrep, liveSegs := fun p e he => hsegs p e ((hlive p e).mp he)
    waitingSegs := by simp [System.init], known := fun p e he => .inl ((hlive p e).mpr he)
    lasting := fun _ _ _ => trivial, stored := ?_, origin := ?_
    deletedFits := by simp [System.init]
    single := fun hnodup => ⟨fun p q e hp hq => ?_, by simp [System.init]⟩ }⟩
  · rw [System.init, run_nil, hs.logged.files p hp]
    split
    · exact .inl rfl
    · rename_i hnot
      exact .inr ⟨rfl, hs.logged.unlisted p hnot⟩
  · rw [happended]
    exact fun e he => .inr (hs.mem_sequence.mp he)
  · rw [happended]
    exact fun p e he => hs.mem_sequence.mpr ⟨p, he⟩
  · rw [happended] at hnodup
    exact segment_unique hnodup (hs.logged.mem_paths hp) (hs.logged.mem_paths hq) hp hq

end Actions

end LogEngine.Concurrent
