import LogEngine.Packages
import LogEngine.Query.Result
import LogEngine.Storage.Covers

namespace LogEngine.Query
open Lib Storage

variable {B : BloomPackage}

/-- The field filters that an entry must pass whatever else the query says. -/
def requiredFields : Node → List (String × String)
  | .and l r => requiredFields l ++ requiredFields r
  | .or _ _ => []
  | .term _ => []
  | .field f v => [(f, v)]

/-- The filter is asked for each required word and each required field value. -/
theorem bloomDefiniteMiss_iff (bf : B.Filter) (node : Node) :
    bloomDefiniteMiss bf node = true ↔
      (∃ tok ∈ collectTermTokens node, B.testString bf tok = false) ∨
      ∃ fv ∈ requiredFields node, B.testString bf (toLower fv.2) = false := by
  induction node with
  | and l r ihl ihr =>
    simp only [bloomDefiniteMiss, collectTermTokens, requiredFields, Bool.or_eq_true, ihl, ihr,
      List.mem_append, or_and_right, exists_or]
    exact or_or_or_comm
  | or l r => simp [bloomDefiniteMiss, collectTermTokens, requiredFields]
  | term token => simp [bloomDefiniteMiss, collectTermTokens, requiredFields]
  | field f v => simp [bloomDefiniteMiss, collectTermTokens, requiredFields]

theorem matchField_of_matches {e : LogEntry} {node : Node} (h : matchesTree e node = true) :
    ∀ fv ∈ requiredFields node, matchField e fv.1 fv.2 = true := by
  induction node with
  | and l r ihl ihr =>
    simp only [matchesTree, Bool.and_eq_true] at h
    intro fv hfv
    rcases List.mem_append.mp hfv with hfv | hfv
    · exact ihl h.1 fv hfv
    · exact ihr h.2 fv hfv
  | or l r => simp [requiredFields]
  | term token => simp [requiredFields]
  | field f v => simpa [requiredFields, matchesTree] using h

/-- The fields whose values `tokenizeEntry` takes over as a filter compares them. -/
def tokenField (field : String) : Bool :=
  toLower field = "service" || toLower field = "namespace" || toLower field = "message"

theorem token_of_matchField {e : LogEntry} {field value : String}
    (hfield : tokenField field = true) (h : matchField e field value = true) :
    toLower value ∈ tokenizeEntry e := by
  simp only [tokenField, Bool.or_eq_true, decide_eq_true_eq] at hfield
  simp only [matchField] at h
  rcases hfield with (hf | hf) | hf
  · simp only [hf, String.reduceEq, if_false, if_true, decide_eq_true_eq] at h
    simp [tokenizeEntry, h]
  · simp only [hf, String.reduceEq, if_false, if_true, decide_eq_true_eq] at h
    simp [tokenizeEntry, h]
  · simp only [hf, String.reduceEq, if_false, if_true] at h
    exact List.mem_append_left _ (List.contains_iff_mem.mp h)

theorem token_of_term {e : LogEntry} {node : Node} (h : matchesTree e node = true) :
    ∀ tok ∈ collectTermTokens node, tok ∈ tokenizeEntry e := by
  intro tok htok
  have hmem : tok ∈ Index.tokenize e.message :=
    indexTokens_of_matches (show matchesNode e (some node) = true from h) tok htok
  rw [tokenize_eq] at hmem
  exact List.mem_append_left _ hmem

theorem exactFilter_test {entries : List LogEntry} {tok : String}
    (h : exactFilter.testString (bloomOf exactFilter entries) tok = true) :
    tok ∈ segmentTokens entries := by
  obtain ⟨n, hn⟩ := bloomOf_eq exactFilter entries
  rw [hn] at h
  have hmem := (mem_exactFilter (segmentTokens entries) []).mp (List.contains_iff_mem.mp h)
  exact hmem.resolve_right List.not_mem_nil

/-- Pruning by a segment's filter is sound for a query, whatever the filter library, exactly when
each entry that matches has the values of the query's required filters on its level and its own
fields among the segment's tokens. -/
theorem pruning_sound_iff (ast : Node) (entries : List LogEntry) :
    (∀ B : BloomPackage, B.Sound → bloomDefiniteMiss (bloomOf B entries) ast = true →
      ∀ e ∈ entries, matchesNode e (some ast) = false) ↔
    ∀ e ∈ entries, matchesNode e (some ast) = true →
      ∀ fv ∈ requiredFields ast, tokenField fv.1 = false →
        toLower fv.2 ∈ segmentTokens entries := by
  constructor
  · intro hsound e he hmatch fv hfv _
    by_contra hnot
    have htest : exactFilter.testString (bloomOf exactFilter entries) (toLower fv.2) = false := by
      rw [← Bool.not_eq_true]
      exact fun htrue => hnot (exactFilter_test htrue)
    have hmiss := (bloomDefiniteMiss_iff (bloomOf exactFilter entries) ast).mpr
      (.inr ⟨fv, hfv, htest⟩)
    rw [hsound exactFilter exactFilter_sound hmiss e he] at hmatch
    cases hmatch
  · intro hcond B hB hmiss e he
    by_contra hmatch
    rw [Bool.not_eq_false] at hmatch
    have hcovers := bloomOf_covers hB entries
    have hown : ∀ tok ∈ tokenizeEntry e, tok ∈ segmentTokens entries :=
      fun tok htok => List.mem_flatMap.mpr ⟨e, he, htok⟩
    rcases (bloomDefiniteMiss_iff _ ast).mp hmiss with ⟨tok, htok, htest⟩ | ⟨fv, hfv, htest⟩
    · rw [hcovers tok (hown tok (token_of_term hmatch tok htok))] at htest
      cases htest
    · have hin : toLower fv.2 ∈ segmentTokens entries := by
        cases hfield : tokenField fv.1 with
        | false => exact hcond e he hmatch fv hfv hfield
        | true =>
          exact hown _ (token_of_matchField hfield (matchField_of_matches hmatch fv hfv))
      rw [hcovers _ hin] at htest
      cases htest

/-- A filter on a field of the entry's own: the segment's filter does not know its value. -/
theorem pruning_drops_field :
    let e : LogEntry :=
      { line "1" "" "api" "login" 1 with fields := Fields.empty.set "user" "alice" }
    (parse "user:alice").toOption = some (some (.field "user" "alice")) ∧
      bloomDefiniteMiss (bloomOf exactFilter [e]) (.field "user" "alice") = true ∧
      matchesNode e (some (.field "user" "alice")) = true := by
  decide +kernel

end LogEngine.Query
