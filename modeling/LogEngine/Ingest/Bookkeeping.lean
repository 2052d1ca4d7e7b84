import LogEngine.Ingest.Transfer
import LogEngine.Storage.Layout
import LogEngine.Packages

namespace LogEngine.Ingest
open Lib Storage

variable {B : BloomPackage} {P : ProtoPackage}

/-- What happens to a node's segments: its own operations, and transferred files. -/
inductive Change where
  | op (o : Op)
  | install (name : String) (chunks : List Bytes)

def Change.steps (P : ProtoPackage) (s : Store B) : Change → List (Step B)
  | .op o => o.steps P s
  | .install name chunks => Ingest.install P name chunks

/-- A transferred name is new, and below the next number if it is numbered at all. A rotation
finds a number left. -/
def Change.Allowed (P : ProtoPackage) (s : Store B) : Change → Prop
  | .op (.append e _) => SeqLeft P s e
  | .op _ => True
  | .install name _ => name ∉ s.manager.paths ∧
      ∀ k, name = segmentName k → k < s.manager.nextSeq

def changed (P : ProtoPackage) (s : Store B) (cs : List Change) : Store B :=
  cs.foldl (fun s c => s.run (c.steps P s)) s

/-- Each change of a run meets its condition. -/
def AllAllowed (P : ProtoPackage) : Store B → List Change → Prop
  | _, [] => True
  | s, c :: cs => c.Allowed P s ∧ AllAllowed P (s.run (c.steps P s)) cs

theorem layout_installed {t t' : Store B} {name : String} {bs : Bytes} (ht : Layout t)
    (h : Installed t t' name bs) (hnew : name ∉ t.manager.paths)
    (hseq : ∀ k, name = segmentName k → k < t.manager.nextSeq) : Layout t' := by
  obtain ⟨seg, hactive, hlast⟩ := ht.active
  obtain ⟨front, hcat⟩ := List.getLast?_eq_some_iff.mp hlast
  refine ⟨?_, ⟨seg, h.active.trans hactive, h.getLast? hlast⟩, ?_, ?_⟩
  · have hnodup : (name :: (front ++ [seg.path])).Nodup :=
      List.nodup_cons.mpr ⟨hcat ▸ hnew, hcat ▸ ht.nodup⟩
    rw [h.paths, hlast, hcat, List.dropLast_concat, Option.toList_some, List.append_assoc]
    exact List.nodup_middle.mpr hnodup
  · intro k hk
    rw [h.nextSeq]
    rcases (h.mem_paths _).mp hk with hk | hk
    · exact ht.listed k hk
    · exact hseq k hk.symm
  · intro k hk
    rw [h.nextSeq]
    by_cases hname : segmentName k = name
    · exact hseq k hname.symm
    · rw [h.others _ (segmentName_isSeg k) hname] at hk
      exact ht.files k hk

theorem Change.layout {s : Store B} {c : Change} (hs : Layout s) (h : c.Allowed P s) :
    Layout (s.run (c.steps P s)) := by
  cases c with
  | op o =>
    refine hs.op o ?_
    intro e ok ho
    subst ho
    exact h
  | install name chunks => exact layout_installed hs (install_spec s name chunks) h.1 h.2

theorem changed_layout {s : Store B} {cs : List Change} (hs : Layout s)
    (h : AllAllowed P s cs) : Layout (changed P s cs) := by
  induction cs generalizing s with
  | nil => exact hs
  | cons c cs ih => exact ih (Change.layout hs h.1) h.2

theorem install_no_open (name : String) (chunks : List Bytes) (path : String) :
    (Step.openActive path : Step B) ∉ install P name chunks := by
  simp [install, received]

/-- Along every run whose changes meet their conditions the manager lists no path twice and the
active segment last, and opens only files that did not exist. -/
theorem bookkeeping_holds {d : Disk} {maxSegmentBytes : Int} {bloomEnabled : Bool}
    {s : Store B} {cs : List Change} (hmark : MarksSegment d) (hseq : SeqBounded d)
    (hstart : newManager B d maxSegmentBytes bloomEnabled = some s)
    (hrun : AllAllowed P s cs) :
    let s' := changed P s cs
    s'.manager.paths.Nodup ∧
      (∃ seg, s'.manager.active = some seg ∧ s'.manager.paths.getLast? = some seg.path) ∧
      (∀ c : Change, OpensFresh s' (c.steps P s')) ∧
      OpensFresh (⟨d, initialManager B d maxSegmentBytes bloomEnabled, .new⟩ : Store B)
        (newManagerSteps B d maxSegmentBytes bloomEnabled) := by
  have hlayout := changed_layout (newManager_layout hmark hseq hstart) hrun
  refine ⟨hlayout.nodup, hlayout.active, ?_, newManager_opensFresh B d _ _⟩
  intro c
  cases c with
  | op o => exact hlayout.opensFresh o
  | install name chunks => exact opensFresh_of_none (install_no_open name chunks)

/-- A first append, a transferred segment with an unused low number, and a rotation. -/
def sampleChanges : List Change :=
  [.op (.append (line "a" "" "orders" "disk full" 1) true),
    .install (segmentName 0) [record protobuf (line "b" "" "orders" "disk full" 2)],
    .op (.append (line "c" "" "orders" "disk full" 3) true)]

theorem bookkeeping_holds_sample :
    (changed protobuf (fresh exactFilter 40 true) sampleChanges).manager.paths.Nodup := by
  have hseq : ∀ (s : Store exactFilter) (e : LogEntry), s.manager.nextSeq.toNat + 1 < 2 ^ 64 →
      SeqLeft protobuf s e := fun s e h _ _ _ => h
  have hname : ∀ k, segmentName 0 = segmentName k → k < 2 := by
    intro k hk
    rw [← segmentName_inj hk]
    decide
  have hnext : ((fresh exactFilter 40 true).run (Change.steps protobuf (fresh exactFilter 40 true)
      (.op (.append (line "a" "" "orders" "disk full" 1) true)))).manager.nextSeq = 2 := by
    decide +kernel
  have hallowed : AllAllowed protobuf (fresh exactFilter 40 true) sampleChanges := by
    refine ⟨hseq _ _ (by decide +kernel), ⟨by decide +kernel, ?_⟩,
      hseq _ _ (by decide +kernel), trivial⟩
    rw [hnext]
    exact hname
  refine (bookkeeping_holds ?_ ?_ (newManager_empty exactFilter 40 true) hallowed).1
  · intro name h
    cases h
  · intro p _ h
    cases h

/-- A transferred segment with the next number: the next rotation opens its file and lists it
a second time. -/
theorem transfer_reuses_name :
    let s := changed protobuf (fresh exactFilter 40 false)
      [.op (.append (line "a" "" "orders" "disk full" 1) true),
        .install (segmentName 2) [record protobuf (line "b" "" "orders" "disk full" 2)]]
    let rotated := changed protobuf s [.op (.append (line "c" "" "orders" "disk full" 3) true)]
    s.manager.activeSegmentName = segmentName 1 ∧ s.manager.nextSeq = 2 ∧
      (s.disk.files.get (segmentName 2)).isSome = true ∧
      rotated.manager.paths = [segmentName 2, segmentName 1, segmentName 2] := by
  decide +kernel

end LogEngine.Ingest
