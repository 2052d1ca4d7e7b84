import LogEngine.Storage.Manager

namespace LogEngine.Storage
open Lib

variable {B : BloomPackage}

@[simp] theorem run_nil (s : Store B) : s.run [] = s := rfl

@[simp] theorem run_cons (s : Store B) (st : Step B) (steps : List (Step B)) :
    s.run (st :: steps) = (Step.apply s st).run steps := rfl

@[simp] theorem run_append (s : Store B) (xs ys : List (Step B)) :
    s.run (xs ++ ys) = (s.run xs).run ys := by
  simp [Store.run, List.foldl_append]

/-- What every step of a list keeps holds after the whole list. -/
theorem run_preserves {I : Store B → Prop} {steps : List (Step B)}
    (hstep : ∀ s, ∀ st ∈ steps, I s → I (Step.apply s st)) {s : Store B} (h : I s) :
    I (s.run steps) := by
  induction steps generalizing s with
  | nil => exact h
  | cons st steps ih =>
    rw [run_cons]
    exact ih (fun t u hu => hstep t u (List.mem_cons_of_mem _ hu))
      (hstep s st List.mem_cons_self h)

/-- The files that a step may change. -/
def Step.touches : Step B → List String
  | .create path => [path]
  | .truncate path => [path]
  | .append path _ => [path]
  | .rename old new => [old, new]
  | .remove path => [path]
  | _ => []

/-- The steps that leave the manager alone. -/
def Step.keepsManager : Step B → Bool
  | .openActive _ | .grow _ | .setBloom _ _ | .finishMerge _ _ => false
  | .deleteSegment _ | .loadSegment _ => false
  | _ => true

/-- The steps that leave the index alone. -/
def Step.keepsIndex : Step B → Bool
  | .indexAdd _ _ | .indexRemove _ => false
  | _ => true

theorem Disk.get_rename_ne (d : Disk) {old new q : String} (ho : q ≠ old) (hn : q ≠ new) :
    (d.rename old new).files.get q = d.files.get q := by
  unfold Disk.rename
  split
  · rfl
  · simp only [GoMap.get_set_ne _ _ hn, GoMap.get_delete_ne _ ho]

theorem get_apply {st : Step B} {q : String} (s : Store B) (h : q ∉ st.touches) :
    (Step.apply s st).disk.files.get q = s.disk.files.get q := by
  cases st with
  | create path | truncate path | append path bs =>
    exact GoMap.get_set_ne _ _ (List.ne_of_not_mem_cons h)
  | rename old new =>
    simp only [Step.touches, List.mem_cons, not_or] at h
    exact s.disk.get_rename_ne h.1 h.2.1
  | remove path => exact GoMap.get_delete_ne _ (List.ne_of_not_mem_cons h)
  | finishMerge newPath olds =>
    simp only [Step.apply, Store.finishMerge]
    split <;> rfl
  | _ => simp only [Step.apply, Store.openActive]

/-- A file that no step touches keeps its content. -/
theorem run_get {steps : List (Step B)} {q : String} (s : Store B)
    (h : ∀ st ∈ steps, q ∉ st.touches) :
    (s.run steps).disk.files.get q = s.disk.files.get q :=
  run_preserves (I := fun t => t.disk.files.get q = s.disk.files.get q)
    (fun t st hst ht => (get_apply t (h st hst)).trans ht) rfl

/-- Steps that do not touch a file do the same to the others, whatever it holds. -/
theorem get_apart {s s' : Store B} {path : String} {st : Step B}
    (h : ∀ q, q ≠ path → s'.disk.files.get q = s.disk.files.get q) (hst : path ∉ st.touches)
    {q : String} (hq : q ≠ path) :
    (Step.apply s' st).disk.files.get q = (Step.apply s st).disk.files.get q := by
  cases st with
  | create p | append p bs =>
    have hp := h p (fun heq => hst (heq ▸ List.mem_singleton_self _))
    simp only [Step.apply, Disk.create, Disk.append, GoMap.get_set, hp, h q hq]
  | truncate p => simp only [Step.apply, Disk.write, GoMap.get_set, h q hq]
  | remove p => simp only [Step.apply, Disk.remove, GoMap.get_delete, h q hq]
  | rename old new =>
    have hold := h old (fun heq => hst (heq ▸ List.mem_cons_self))
    simp only [Step.apply, Disk.rename, hold]
    cases s.disk.files.get old with
    | none => exact h q hq
    | some bs => simp only [GoMap.get_set, GoMap.get_delete, h q hq]
  | finishMerge newPath olds =>
    rw [get_apply s' List.not_mem_nil, get_apply s List.not_mem_nil, h q hq]
  | _ => exact h q hq

theorem run_apart {s s' : Store B} {path : String} {steps : List (Step B)}
    (h : ∀ q, q ≠ path → s'.disk.files.get q = s.disk.files.get q)
    (hsteps : ∀ st ∈ steps, path ∉ st.touches) :
    ∀ q, q ≠ path → (s'.run steps).disk.files.get q = (s.run steps).disk.files.get q := by
  induction steps generalizing s s' with
  | nil => exact h
  | cons st steps ih =>
    obtain ⟨hst, hsteps⟩ := List.forall_mem_cons.mp hsteps
    exact ih (fun q hq => get_apart h hst hq) hsteps

theorem manager_apply {st : Step B} (s : Store B) (h : st.keepsManager = true) :
    (Step.apply s st).manager = s.manager := by
  cases st with
  | openActive | grow | setBloom | finishMerge | deleteSegment | loadSegment => cases h
  | _ => simp only [Step.apply]

theorem run_manager {steps : List (Step B)} (s : Store B)
    (h : ∀ st ∈ steps, st.keepsManager = true) : (s.run steps).manager = s.manager :=
  run_preserves (I := fun t => t.manager = s.manager)
    (fun t st hst ht => (manager_apply t (h st hst)).trans ht) rfl

theorem index_apply {st : Step B} (s : Store B) (h : st.keepsIndex = true) :
    (Step.apply s st).index = s.index := by
  cases st with
  | finishMerge newPath olds =>
    simp only [Step.apply, Store.finishMerge]
    split <;> rfl
  | indexAdd | indexRemove => cases h
  | _ => simp only [Step.apply, Store.openActive]

theorem run_index {steps : List (Step B)} (s : Store B)
    (h : ∀ st ∈ steps, st.keepsIndex = true) : (s.run steps).index = s.index :=
  run_preserves (I := fun t => t.index = s.index)
    (fun t st hst ht => (index_apply t (h st hst)).trans ht) rfl

/-- The index has no part in what steps do to the directory and the manager. -/
theorem run_reindexed (s : Store B) (index : Index) (steps : List (Step B)) :
    ∃ index', (⟨s.disk, s.manager, index⟩ : Store B).run steps =
      ⟨(s.run steps).disk, (s.run steps).manager, index'⟩ := by
  induction steps generalizing s index with
  | nil => exact ⟨index, rfl⟩
  | cons st steps ih =>
    have hstep : ∃ index', Step.apply ⟨s.disk, s.manager, index⟩ st =
        ⟨(Step.apply s st).disk, (Step.apply s st).manager, index'⟩ := by
      cases st with
      | finishMerge newPath olds =>
        simp only [Step.apply, Store.finishMerge]
        split <;> exact ⟨_, rfl⟩
      | _ => exact ⟨_, rfl⟩
    obtain ⟨index', hindex⟩ := hstep
    rw [run_cons, run_cons, hindex]
    exact ih _ index'

theorem appends_run (t : Store B) {tmp : String} {bs : Bytes} (chunks : List Bytes)
    (h : t.disk.files.get tmp = some bs) :
    (t.run (chunks.map (fun c => .append tmp c))).disk.files.get tmp =
      some (bs ++ chunks.flatten) := by
  induction chunks generalizing t bs with
  | nil => simpa using h
  | cons c chunks ih =>
    have hstep : (Step.apply t (.append tmp c)).disk.files.get tmp = some (bs ++ c) := by
      simp [Step.apply, Disk.append, h]
    rw [List.map_cons, run_cons, ih _ hstep, List.flatten_cons, List.append_assoc]

/-- Each step of a list is taken in a state in which `Q` allows it. -/
def Along (Q : Store B → Step B → Prop) : Store B → List (Step B) → Prop
  | _, [] => True
  | s, st :: steps => Q s st ∧ Along Q (Step.apply s st) steps

instance Along.decidable {Q : Store B → Step B → Prop} [hQ : ∀ s st, Decidable (Q s st)] :
    (s : Store B) → (steps : List (Step B)) → Decidable (Along Q s steps)
  | _, [] => isTrue trivial
  | s, st :: steps => @instDecidableAnd _ _ (hQ s st) (Along.decidable (Step.apply s st) steps)

section Along

variable {Q R : Store B → Step B → Prop} {I : Store B → Prop}

theorem along_append {s : Store B} {xs ys : List (Step B)} :
    Along Q s (xs ++ ys) ↔ Along Q s xs ∧ Along Q (s.run xs) ys := by
  induction xs generalizing s with
  | nil => simp [Along]
  | cons st xs ih => rw [List.cons_append, Along, Along, ih, run_cons, and_assoc]

theorem Along.of_forall {s : Store B} {steps : List (Step B)}
    (h : ∀ t, ∀ st ∈ steps, Q t st) : Along Q s steps := by
  induction steps generalizing s with
  | nil => trivial
  | cons st steps ih =>
    exact ⟨h s st List.mem_cons_self, ih (fun t u hu => h t u (List.mem_cons_of_mem _ hu))⟩

theorem Along.and {s : Store B} {steps : List (Step B)} (hq : Along Q s steps)
    (hr : Along R s steps) : Along (fun t st => Q t st ∧ R t st) s steps := by
  induction steps generalizing s with
  | nil => trivial
  | cons st steps ih => exact ⟨⟨hq.1, hr.1⟩, ih hq.2 hr.2⟩

theorem Along.initial {s : Store B} {steps pre : List (Step B)} (h : Along Q s steps)
    (hpre : pre <+: steps) : Along Q s pre := by
  obtain ⟨rest, hrest⟩ := hpre
  rw [← hrest] at h
  exact (along_append.mp h).1

/-- What each allowed step keeps holds after all of them. -/
theorem Along.preserves (hstep : ∀ t st, I t → Q t st → I (Step.apply t st)) {s : Store B}
    {steps : List (Step B)} (hs : I s) (h : Along Q s steps) : I (s.run steps) := by
  induction steps generalizing s with
  | nil => exact hs
  | cons st steps ih => exact ih (hstep s st hs h.1) h.2

end Along

end LogEngine.Storage
