import LogEngine.Storage.Append
import LogEngine.Storage.Contents

namespace LogEngine.Storage
open Lib

variable {B : BloomPackage} {P : ProtoPackage}

/-- The steps of an append without filters. -/
def Step.onlyAdds : Step B → Bool
  | .create _ | .append _ _ | .mark _ | .openActive _ | .grow _ => true
  | _ => false

/-- What a step writes at the end of a file. -/
def Step.adds (q : String) : Step B → Bytes
  | .append p bs => if p = q then bs else []
  | _ => []

/-- The content of a file, empty if there is none. -/
def Store.content (s : Store B) (q : String) : Bytes := (s.disk.files.get q).getD []

theorem Step.onlyAdds_content {st : Step B} (h : st.onlyAdds = true) (s : Store B) (q : String) :
    (Step.apply s st).content q = s.content q ++ st.adds q := by
  cases st with
  | create p =>
    simp only [Step.apply, Store.content, Disk.create, GoMap.get_set, Step.adds, List.append_nil]
    split
    · rename_i hq
      rw [hq]
      rfl
    · rfl
  | append p bs =>
    simp only [Step.apply, Store.content, Disk.append, GoMap.get_set, Step.adds]
    by_cases hq : q = p
    · rw [if_pos hq, if_pos hq.symm, hq]
      rfl
    · rw [if_neg hq, if_neg (Ne.symm hq), List.append_nil]
  | mark _ | openActive _ | grow _ => exact (List.append_nil _).symm
  | truncate _ | rename _ _ | remove _ | setBloom _ _ | finishMerge _ _ | deleteSegment _
  | loadSegment _ | indexAdd _ _ | indexRemove _ => cases h

theorem run_onlyAdds_content {steps : List (Step B)} (h : ∀ st ∈ steps, st.onlyAdds = true)
    (s : Store B) (q : String) :
    (s.run steps).content q = s.content q ++ steps.flatMap (Step.adds q) := by
  induction steps generalizing s with
  | nil => exact (List.append_nil _).symm
  | cons st steps ih =>
    obtain ⟨hst, hsteps⟩ := List.forall_mem_cons.mp h
    rw [run_cons, ih hsteps, Step.onlyAdds_content hst, List.flatMap_cons, List.append_assoc]

theorem Step.onlyAdds_blooms {st : Step B} (h : st.onlyAdds = true) (s : Store B) :
    (Step.apply s st).manager.blooms = s.manager.blooms ∧
      (Step.apply s st).manager.bloomEnabled = s.manager.bloomEnabled ∧
      (Step.apply s st).index = s.index := by
  cases st with
  | create _ | append _ _ | mark _ | openActive _ | grow _ => exact ⟨rfl, rfl, rfl⟩
  | truncate _ | rename _ _ | remove _ | setBloom _ _ | finishMerge _ _ | deleteSegment _
  | loadSegment _ | indexAdd _ _ | indexRemove _ => cases h

theorem Step.onlyAdds_congr {st : Step B} (h : st.onlyAdds = true) {s t : Store B}
    (hdisk : s.disk = t.disk) (hmanager : s.manager = t.manager) :
    (Step.apply s st).disk = (Step.apply t st).disk ∧
      (Step.apply s st).manager = (Step.apply t st).manager := by
  cases st with
  | create _ | append _ _ | mark _ | openActive _ | grow _ =>
    simp only [Step.apply, Store.openActive, hdisk, hmanager, and_self]
  | truncate _ | rename _ _ | remove _ | setBloom _ _ | finishMerge _ _ | deleteSegment _
  | loadSegment _ | indexAdd _ _ | indexRemove _ => cases h

theorem entriesAt_content {s : Store B} {p : String} {es : List LogEntry}
    (h : decodeSegment P (s.content p) = .ok es) : entriesAt P s.disk p = es := by
  cases hp : s.disk.files.get p with
  | none =>
    rw [Store.content, hp] at h
    rw [entriesAt_none hp]
    exact Except.ok.inj h
  | some bs =>
    rw [Store.content, hp] at h
    exact entriesAt_some hp h

variable {s : Store B} {seg : Segment}

theorem rotateIfFull_onlyAdds (hoff : s.manager.bloomEnabled = false) (e : LogEntry) (ok : Bool) :
    ∀ st ∈ rotateIfFull P s seg e ok, st.onlyAdds = true ∧ ∀ q, st.adds q = [] := by
  intro st hst
  simp only [rotateIfFull, rotate, rotateBloom, hoff, openNewSegment] at hst
  split at hst
  · simp only [Bool.false_eq_true, if_false, List.nil_append, List.mem_cons, List.not_mem_nil,
      or_false] at hst
    rcases hst with rfl | rfl | rfl | rfl <;> exact ⟨rfl, fun _ => rfl⟩
  · cases hst

theorem writeSteps_onlyAdds (B : BloomPackage) (P : ProtoPackage) (path : String) (e : LogEntry) :
    ∀ st ∈ writeSteps B P path e, st.onlyAdds = true := by
  intro st hst
  simp only [writeSteps, List.mem_cons, List.not_mem_nil, or_false] at hst
  rcases hst with rfl | rfl | rfl <;> rfl

/-- With filters off an append only adds to files. -/
theorem appendLocked_onlyAdds (hactive : s.manager.active = some seg)
    (hoff : s.manager.bloomEnabled = false) (e : LogEntry) (ok : Bool) :
    ∀ st ∈ (appendLocked P s e ok).1, st.onlyAdds = true := by
  intro st hst
  obtain ⟨tail, htail, hcases⟩ := appendLocked_cases (P := P) e ok hactive
  rw [htail] at hst
  rcases List.mem_append.mp hst with hst | hst
  · exact (rotateIfFull_onlyAdds hoff e ok st hst).1
  · rcases hcases with rfl | rfl
    · cases hst
    · exact writeSteps_onlyAdds B P _ e st hst

/-- The bytes that are there in the middle of an append: those of the log, and the record of the
entry, or its length, or nothing of it. -/
theorem append_content (hactive : s.manager.active = some seg)
    (hoff : s.manager.bloomEnabled = false) {e : LogEntry} (he : Writable P e) {ok : Bool}
    {done todo : List (Step B)} (hsplit : (appendLocked P s e ok).1 = done ++ todo) (q : String) :
    ((∀ data n, todo ≠ [.append q data, .grow n]) ∧ (s.run done).content q = s.content q) ∨
    (todo = [.append q (marshalLogEntry P e), .grow (4 + (marshalLogEntry P e).length)] ∧
      (s.run done).content q = s.content q ++ be32 (marshalLogEntry P e).length) ∨
    ((todo = [.grow (4 + (marshalLogEntry P e).length)] ∨ todo = []) ∧
      (s.run done).content q = s.content q ++ record P e) := by
  have honly : ∀ st ∈ done, st.onlyAdds = true := fun st hst =>
    appendLocked_onlyAdds hactive hoff e ok st (hsplit ▸ List.mem_append_left _ hst)
  rw [run_onlyAdds_content honly]
  rw [appendLocked_eq hactive he] at hsplit
  have hnone : ∀ l ⊆ rotateIfFull P s seg e ok, l.flatMap (Step.adds q) = [] := by
    intro l hl
    exact List.flatMap_eq_nil_iff.mpr
      (fun st hst => (rotateIfFull_onlyAdds hoff e ok st (hl hst)).2 q)
  rcases List.append_eq_append_iff.mp hsplit.symm with
    ⟨rest, hrotate, htodo⟩ | ⟨wrote, hdone, hwrite⟩
  · refine .inl ⟨fun data n hmid => ?_, ?_⟩
    · rw [hmid] at htodo
      have hlen := congrArg List.length htodo
      simp [writeSteps] at hlen
    · rw [hnone done (hrotate ▸ List.subset_append_left _ _), List.append_nil]
  rw [hdone, List.flatMap_append, hnone _ (List.Subset.refl _), List.nil_append]
  simp only [writeSteps] at hwrite
  rcases wrote with _ | ⟨a, _ | ⟨b, wrote⟩⟩
  · rw [List.nil_append] at hwrite
    exact .inl ⟨fun data n hmid => by simp [← hwrite] at hmid, List.append_nil _⟩
  · simp only [List.cons_append, List.nil_append, List.cons.injEq] at hwrite
    obtain ⟨rfl, rfl⟩ := hwrite
    by_cases hq : appendTarget P s seg e = q
    · refine .inr (.inl ⟨by rw [hq], ?_⟩)
      simp [Step.adds, hq]
    · refine .inl ⟨fun data n hmid => ?_, by simp [Step.adds, hq]⟩
      simp only [List.cons.injEq, Step.append.injEq] at hmid
      exact hq hmid.1.1
  · simp only [List.cons_append, List.cons.injEq] at hwrite
    obtain ⟨rfl, rfl, hrest⟩ := hwrite
    have hgrow : wrote.flatMap (Step.adds q) = [] := by
      rcases List.cons_eq_append_iff.mp hrest with ⟨rfl, -⟩ | ⟨more, rfl, hnil⟩
      · rfl
      · rw [(List.append_eq_nil_iff.mp hnil.symm).1]
        rfl
    by_cases hq : appendTarget P s seg e = q
    · refine .inr (.inr ⟨?_, ?_⟩)
      · rcases List.cons_eq_append_iff.mp hrest with ⟨-, htodo⟩ | ⟨more, -, hnil⟩
        · exact .inl htodo
        · exact .inr (List.append_eq_nil_iff.mp hnil.symm).2
      · simp [Step.adds, hq, hgrow, record, frame]
    · refine .inl ⟨fun data n hmid => ?_, by simp [Step.adds, hq, hgrow]⟩
      rw [hmid] at hrest
      have hlen := congrArg List.length hrest
      simp at hlen

end LogEngine.Storage
