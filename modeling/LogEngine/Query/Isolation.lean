import LogEngine.Packages
import LogEngine.Query.Result

namespace LogEngine.Query
open Lib Storage

variable {B : BloomPackage} {P : ProtoPackage} {req : QueryRequest} {ast : Option Node}

/-- A segment that the index resolves for the query and no filter excludes. -/
def Searched (s : Store B) (req : QueryRequest) (ast : Option Node) (p : String) : Prop :=
  p ∈ resolved s req ast ∧ pruned s.manager.blooms ast p = false

/-- No other record with the ID of `x` stands before it in the segments searched, be it in an
earlier segment or in the same one. -/
def Leads (P : ProtoPackage) (s : Store B) (req : QueryRequest) (ast : Option Node)
    (x : LogEntry) : Prop :=
  ∃ p, Searched s req ast p ∧ IsFirst LogEntry.id (entriesAt P s.disk p) x ∧
    ∀ q, Searched s req ast q → q < p → ∀ y ∈ entriesAt P s.disk q, y.id ≠ x.id

theorem leads_iff (s : Store B) (x : LogEntry) :
    Leads P s req ast x ↔ IsFirst LogEntry.id (reads P s req ast) x := by
  have hmem : ∀ p, Searched s req ast p ↔ p ∈ readPaths s req ast := by
    intro p
    simp only [Searched, readPaths, List.mem_filter, Bool.not_eq_true']
  simp only [Leads, hmem, reads]
  exact (isFirst_flatMap ((resolved_sorted s req ast).filter _)).symm

theorem matched_length (req : QueryRequest) (ast : Option Node) (raw : List LogEntry) :
    (matched req ast raw).length ≤ raw.length := by
  have hnodup : (matched req ast raw).Nodup := .of_map _ (matched_ids req ast raw)
  exact (List.subperm_of_subset hnodup (fun x hx => (mem_matched.mp hx).2.mem)).length_le

/-- The largest page shows everything, as long as there is not more than it can hold. -/
theorem full_page {raw : List LogEntry} (hraw : raw.length < 2 ^ 31) :
    page 2147483647 0 (matched req ast raw) = matched req ast raw := by
  have hlen := matched_length req ast raw
  have hmax : (2147483647 : Int32).toInt.toNat = 2147483647 := by decide
  simp only [page, hmax, Int32.toInt_zero, Int.toNat_zero, List.drop_zero]
  exact List.take_of_length_le (by omega)

/-- Two stores with the same entries of a namespace answer its requests alike exactly when, for
each of its entries that matches, either both have it before every other record with its ID
or neither has. -/
theorem namespace_isolated_iff {s₁ s₂ : Store B} (h₁ : Sound P s₁) (i₁ : Indexed P s₁)
    (h₂ : Sound P s₂) (i₂ : Indexed P s₂) {all₁ all₂ : List LogEntry}
    (hall₁ : s₁.readAll P = .ok all₁) (hall₂ : s₂.readAll P = .ok all₂)
    (hns : req.namespace ≠ "")
    (hsame : all₁.filter (fun e => e.namespace = req.namespace) =
      all₂.filter (fun e => e.namespace = req.namespace))
    (hparse : parse req.queryString = .ok ast) :
    ((∀ x ∈ all₁, selects req ast x = true →
        (Leads P s₁ req ast x ↔ Leads P s₂ req ast x)) →
      ∀ limit offset, execute P s₁ .background { req with limit, offset } =
        execute P s₂ .background { req with limit, offset }) ∧
    ((∀ limit offset, execute P s₁ .background { req with limit, offset } =
        execute P s₂ .background { req with limit, offset }) →
      (reads P s₁ req ast).length < 2 ^ 31 → (reads P s₂ req ast).length < 2 ^ 31 →
      ∀ x ∈ all₁, selects req ast x = true →
        (Leads P s₁ req ast x ↔ Leads P s₂ req ast x)) := by
  constructor
  · intro hleads limit offset
    have hmatched :
        matched req ast (reads P s₁ req ast) = matched req ast (reads P s₂ req ast) := by
      refine matched_congr.mpr (fun x hx => ?_)
      by_cases hmem : x ∈ all₁
      · rw [← leads_iff, ← leads_iff]
        exact hleads x hmem hx
      · -- an entry of the namespace that neither store has is read by neither
        have hxns := (selects_iff.mp hx).1.resolve_left hns
        have hmem₂ : x ∉ all₂ := by
          intro hin
          have hf : x ∈ all₂.filter (fun e => e.namespace = req.namespace) :=
            List.mem_filter.mpr ⟨hin, by simpa using hxns⟩
          rw [← hsame] at hf
          exact hmem (List.mem_filter.mp hf).1
        have hread : ∀ {s : Store B} {all : List LogEntry}, Sound P s → Indexed P s →
            s.readAll P = .ok all → x ∉ all → ¬ IsFirst LogEntry.id (reads P s req ast) x := by
          intro s all hs hi hall hnot hfirst
          obtain ⟨p, hp, -, hx⟩ := mem_reads.mp hfirst.mem
          exact hnot ((hs.mem_readAll hall x).mpr ⟨p, resolved_seg hi hp, hx⟩)
        exact iff_of_false (hread h₁ i₁ hall₁ hmem) (hread h₂ i₂ hall₂ hmem₂)
    rw [execute_eq h₁ i₁ hparse, execute_eq h₂ i₂ hparse, hmatched]
  · intro heq hraw₁ hraw₂ x _ hx
    have hlimit : ¬ (2147483647 : Int32) < 0 := by decide
    have hoffset : ¬ (0 : Int32) < 0 := by decide
    have hset : ¬ (2147483647 : Int32) = 0 := by decide
    have hpage := heq 2147483647 0
    simp only [execute_eq h₁ i₁ hparse, execute_eq h₂ i₂ hparse, if_neg hlimit, if_neg hoffset,
      if_neg hset, full_page hraw₁, full_page hraw₂, Except.ok.injEq, QueryResult.mk.injEq] at hpage
    rw [leads_iff, leads_iff]
    exact matched_congr.mp hpage.1 x hx

/-- A store that took the entries in this order, two or three of them to a segment. -/
def tenantStore (es : List LogEntry) : Store exactFilter :=
  (fresh exactFilter 100 false).ingestAll protobuf es

theorem tenantStore_spec {es : List LogEntry} (hes : ∀ e ∈ es, Fits protobuf e) :
    Sound protobuf (tenantStore es) ∧ Indexed protobuf (tenantStore es) :=
  ⟨((fresh_sound protobuf exactFilter 100 false).ingestAll protobuf_inverts hes).1,
    (fresh_indexed protobuf exactFilter 100 false).ingestAll protobuf_inverts
      (fresh_sound protobuf exactFilter 100 false) hes⟩

def tenantRequest : QueryRequest := ⟨"disk", "t", "", 0, 0, 0, 0⟩

/-- Namespace `t` alone, and after an entry of another namespace with an ID of its own. -/
def alone : List LogEntry := [line "1" "t" "orders" "disk full" 1]

def shared : List LogEntry := line "2" "u" "orders" "disk full" 2 :: alone

theorem tenantRequest_parse : parse tenantRequest.queryString = .ok (some (.term "disk")) := by
  have hopt : (parse tenantRequest.queryString).toOption = some (some (.term "disk")) := by
    decide +kernel
  cases h : parse tenantRequest.queryString with
  | error err => simp [h, Except.toOption] at hopt
  | ok ast => simpa [h, Except.toOption] using hopt

theorem namespace_isolated_sample :
    execute protobuf (tenantStore alone) .background tenantRequest =
      execute protobuf (tenantStore shared) .background tenantRequest := by
  obtain ⟨h₁, i₁⟩ := tenantStore_spec (show ∀ e ∈ alone, Fits protobuf e by decide +kernel)
  obtain ⟨h₂, i₂⟩ := tenantStore_spec (show ∀ e ∈ shared, Fits protobuf e by decide +kernel)
  refine (namespace_isolated_iff h₁ i₁ h₂ i₂ h₁.readAll_eq h₂.readAll_eq (by decide)
    (by decide +kernel) tenantRequest_parse).1 ?_ 0 0
  simp only [leads_iff]
  decide +kernel

/-- The same with an entry of another tenant that has the same ID and was written first: it
takes the entry of namespace `t` out of its own tenant's result. -/
theorem namespace_interferes :
    let crowded := line "1" "u" "orders" "hello" 2 :: alone
    ((tenantStore crowded).readAll protobuf).toOption = some crowded ∧
      crowded.filter (fun e => e.namespace = "t") = alone ∧
      (execute protobuf (tenantStore alone) .background
        tenantRequest).toOption.map QueryResult.total = some 1 ∧
      (execute protobuf (tenantStore crowded) .background
        tenantRequest).toOption.map QueryResult.total = some 0 := by
  decide +kernel

/-- No other entry has the ID of an entry of the namespace. -/
def OwnIDs (P : ProtoPackage) (s : Store B) («namespace» : String) : Prop :=
  ∀ x y, Holds P s.disk x → x.namespace = «namespace» → Holds P s.disk y → y.id = x.id → y = x

/-- Without filters every entry that a request selects is read, whatever else is in its segment:
one entry is enough for `Resolve` to return the segment. -/
theorem reads_selected {s : Store B} (hi : Indexed P s) (hoff : ∀ p, s.manager.blooms.get p = none)
    {x : LogEntry} (hx : selects req ast x = true) :
    x ∈ reads P s req ast ↔ Holds P s.disk x := by
  rw [mem_reads]
  constructor
  · rintro ⟨p, hp, -, hmem⟩
    exact ⟨p, resolved_seg hi hp, hmem⟩
  · rintro ⟨p, hp, hmem⟩
    obtain ⟨live, hrep, hlive⟩ := hi
    exact ⟨p, resolved_of_live hrep ((hlive p x).mpr ⟨hp, hmem⟩) hx, unpruned hoff ast p, hmem⟩

/-- Stores with the same entries of a namespace, whose IDs no other entry has, answer its requests
alike where there are no filters. -/
theorem namespace_isolated {s₁ s₂ : Store B} (h₁ : Sound P s₁) (i₁ : Indexed P s₁)
    (h₂ : Sound P s₂) (i₂ : Indexed P s₂) (hoff₁ : ∀ p, s₁.manager.blooms.get p = none)
    (hoff₂ : ∀ p, s₂.manager.blooms.get p = none) (hns : req.namespace ≠ "")
    (hown₁ : OwnIDs P s₁ req.namespace) (hown₂ : OwnIDs P s₂ req.namespace)
    (hsame : ∀ x, x.namespace = req.namespace → (Holds P s₁.disk x ↔ Holds P s₂.disk x))
    (hparse : parse req.queryString = .ok ast) (limit offset : Int32) :
    execute P s₁ .background { req with limit, offset } =
      execute P s₂ .background { req with limit, offset } := by
  have hfirst : ∀ {s : Store B}, Indexed P s → (∀ p, s.manager.blooms.get p = none) →
      OwnIDs P s req.namespace → ∀ x, selects req ast x = true →
        (IsFirst LogEntry.id (reads P s req ast) x ↔ Holds P s.disk x) := by
    intro s hi hoff hown x hx
    have hxns := (selects_iff.mp hx).1.resolve_left hns
    rw [← reads_selected hi hoff hx]
    refine ⟨IsFirst.mem, fun hmem => isFirst_of_mem (fun y hy hid => ?_) hmem⟩
    obtain ⟨p, hp, -, hyp⟩ := mem_reads.mp hy
    exact hown x y ((reads_selected hi hoff hx).mp hmem) hxns ⟨p, resolved_seg hi hp, hyp⟩ hid
  have hmatched : matched req ast (reads P s₁ req ast) = matched req ast (reads P s₂ req ast) := by
    refine matched_congr.mpr (fun x hx => ?_)
    rw [hfirst i₁ hoff₁ hown₁ x hx, hfirst i₂ hoff₂ hown₂ x hx]
    exact hsame x ((selects_iff.mp hx).1.resolve_left hns)
  rw [execute_eq h₁ i₁ hparse, execute_eq h₂ i₂ hparse, hmatched]

end LogEngine.Query
