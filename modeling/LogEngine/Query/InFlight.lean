import LogEngine.Lib.Lists
import LogEngine.Packages
import LogEngine.Query.Result
import LogEngine.Storage.Fates

namespace LogEngine.Query
open Lib Storage

variable {B : BloomPackage} {P : ProtoPackage}

/-- How the steps of a query lie between those of a pass that starts when its paths are
resolved: how many steps of the pass are done when the filter of a path is looked up, and when
its file is opened. The paths come in name order, and all filters before the first file. -/
structure Schedule where
  check : String → Nat
  read : String → Nat
  check_mono : ∀ p q, p ≤ q → check p ≤ check q
  read_mono : ∀ p q, p ≤ q → read p ≤ read q
  check_le_read : ∀ p q, check p ≤ read q

/-- The paths that the filters leave. -/
def checked (s : Store B) (steps : List (Step B)) (τ : Schedule) (req : QueryRequest)
    (ast : Option Node) : List String :=
  (resolved s req ast).filter
    (fun p => !pruned (s.run (steps.take (τ.check p))).manager.blooms ast p)

/-- `Execute` from `Resolve` on, while the steps of a pass are taken. -/
def inFlight (P : ProtoPackage) (s : Store B) (steps : List (Step B)) (τ : Schedule)
    (req : QueryRequest) (ast : Option Node) : Except ExecError QueryResult :=
  match (checked s steps τ req ast).mapM
      (fun p => readSegments P (s.run (steps.take (τ.read p))).disk [p]) with
  | .error err => .error (.read err)
  | .ok raws => .ok (finishQuery req ast raws.flatten)

/-- Without a pass it is the `Execute` of a store at rest. -/
theorem inFlight_idle (s : Store B) (τ : Schedule) (req : QueryRequest) (ast : Option Node) :
    inFlight P s [] τ req ast = runQuery P s .background req ast := by
  have hread := readSegments_mapM P s.disk (readPaths s req ast)
  simp only [inFlight, runQuery, checked, List.take_nil, run_nil, Ctx.background]
  rw [← readPaths, ← hread]
  by_cases hnil : readPaths s req ast = []
  · rw [if_pos hnil, hnil]
    rfl
  · rw [if_neg hnil]
    cases (readPaths s req ast).mapM (fun p => readSegments P s.disk [p]) <;> rfl

/-- The query finds the entry: one of its paths, at the moment it is opened, holds the entry
before any other record with its ID, and none of the paths opened before has such a record. -/
def Found (P : ProtoPackage) (s : Store B) (steps : List (Step B)) (τ : Schedule)
    (req : QueryRequest) (ast : Option Node) (x : LogEntry) : Prop :=
  ∃ p ∈ checked s steps τ req ast,
    IsFirst LogEntry.id (contentAt P s steps (τ.read p) p) x ∧
    ∀ q ∈ checked s steps τ req ast, q < p →
      ∀ y ∈ contentAt P s steps (τ.read q) q, y.id ≠ x.id

instance (s : Store B) (steps : List (Step B)) (τ : Schedule) (req : QueryRequest)
    (ast : Option Node) (x : LogEntry) : Decidable (Found P s steps τ req ast x) :=
  inferInstanceAs (Decidable (∃ p ∈ checked s steps τ req ast, _))

theorem found_iff (s : Store B) (steps : List (Step B)) (τ : Schedule) (req : QueryRequest)
    (ast : Option Node) (x : LogEntry) :
    Found P s steps τ req ast x ↔ IsFirst LogEntry.id ((checked s steps τ req ast).flatMap
      (fun p => contentAt P s steps (τ.read p) p)) x :=
  (isFirst_flatMap ((resolved_sorted s req ast).filter _)).symm

/-- A query that runs during a merge pass counts an entry exactly when it finds it in what the
pass has left of the resolved files. -/
theorem in_flight_counts_iff (hP : P.Inverts) {s : Store B} (hs : Sound P s)
    (hi : Indexed P s) (hnodup : s.manager.paths.Nodup) (threshold : Int)
    (faults : String → MergeFaults) (τ : Schedule) (req : QueryRequest) (ast : Option Node) :
    let steps := runMergePass P s threshold faults
    ∃ raw, inFlight P s steps τ req ast = .ok (finishQuery req ast raw) ∧
      ∀ x, selects req ast x = true →
        (x ∈ matched req ast raw ↔ Found P s steps τ req ast x) := by
  intro steps
  have hread : ∀ p ∈ checked s steps τ req ast,
      readSegments P (s.run (steps.take (τ.read p))).disk [p] =
        .ok (contentAt P s steps (τ.read p) p) := by
    intro p hp
    have hseg := resolved_seg hi (List.mem_of_mem_filter hp)
    exact (runMergePass_fate hs.segs hnodup threshold faults hseg).read hP hs.readable
      (fun q hq => hs.segs q (List.dropLast_subset _ hq))
      (runMergePass_compacts s threshold faults) hseg _
  refine ⟨(checked s steps τ req ast).flatMap (fun p => contentAt P s steps (τ.read p) p), ?_, ?_⟩
  · rw [inFlight, mapM_ok hread, List.flatMap_def]
  · intro x hsel
    rw [mem_matched, found_iff]
    exact and_iff_right hsel

/-- Three segments without filters, the last one active. -/
def mergingStore : Store exactFilter :=
  (fresh exactFilter 40 false).ingestAll protobuf [line "a" "" "orders" "disk full" 1,
    line "b" "" "orders" "link down" 2, line "c" "" "orders" "disk full" 3]

/-- The files are opened when all, or only a given number, of the steps of the pass are done. -/
def openAt (done : Nat) : Schedule where
  check _ := 0
  read _ := done
  check_mono _ _ _ := Nat.le_refl _
  read_mono _ _ _ := Nat.le_refl _
  check_le_read _ _ := Nat.zero_le _

def linkRequest : QueryRequest := ⟨"link", "", "", 0, 0, 0, 0⟩

/-- After the rename and before the removal. -/
theorem in_flight_counts_sample :
    ∃ raw, inFlight protobuf mergingStore (runMergePass protobuf mergingStore 1000 noFaults)
        (openAt 8) linkRequest (some (.term "link")) =
          .ok (finishQuery linkRequest (some (.term "link")) raw) ∧
      line "b" "" "orders" "link down" 2 ∈ matched linkRequest (some (.term "link")) raw := by
  have hes : ∀ e ∈ [line "a" "" "orders" "disk full" 1, line "b" "" "orders" "link down" 2,
      line "c" "" "orders" "disk full" 3], Fits protobuf e := by decide +kernel
  have hfresh := fresh_sound protobuf exactFilter 40 false
  obtain ⟨raw, hraw, hcounts⟩ := in_flight_counts_iff protobuf_inverts
    (hfresh.ingestAll protobuf_inverts hes).1
    ((fresh_indexed protobuf exactFilter 40 false).ingestAll protobuf_inverts hfresh hes)
    (by decide +kernel) 1000 noFaults (openAt 8) linkRequest (some (.term "link"))
  refine ⟨raw, hraw, (hcounts _ ?_).mpr ?_⟩
  · decide +kernel
  · decide +kernel

/-- The index leads to the second segment only. When the pass has merged it into the first and
removed it before the query opens it, the entry is not counted, although it was stored before
and is stored afterwards. -/
theorem in_flight_loses_entry :
    let steps := runMergePass protobuf mergingStore 1000 noFaults
    let x := line "b" "" "orders" "link down" 2
    resolved mergingStore linkRequest (some (.term "link")) = [segmentName 2] ∧
      selects linkRequest (some (.term "link")) x = true ∧
      x ∈ entriesAt protobuf mergingStore.disk (segmentName 2) ∧
      x ∈ entriesAt protobuf (mergingStore.run steps).disk (segmentName 1) ∧
      (inFlight protobuf mergingStore steps (openAt steps.length) linkRequest
        (some (.term "link"))).toOption = some ⟨[], 0⟩ := by
  decide +kernel

end LogEngine.Query
