import LogEngine.Storage.Bloom

namespace LogEngine.Storage
open Lib

variable {B : BloomPackage}

/-- The strings that the filter of a segment with these entries is built from. -/
def segmentTokens (entries : List LogEntry) : List String := entries.flatMap tokenizeEntry

theorem tokenizeEntry_lower {e : LogEntry} {tok : String} (h : tok ∈ tokenizeEntry e) :
    toLower tok = tok := by
  rcases List.mem_append.mp h with h | h
  · exact toLower_run h
  · simp only [List.mem_cons, List.not_mem_nil, or_false] at h
    rcases h with h | h | h <;> rw [h, toLower_idem]

/-- `BuildBloom` lowers its tokens, which `tokenizeEntry` has done already. -/
theorem bloomOf_eq (B : BloomPackage) (entries : List LogEntry) :
    ∃ n, bloomOf B entries =
      (segmentTokens entries).foldl B.addString (B.newWithEstimates n) := by
  have hlower : (segmentTokens entries).map toLower = segmentTokens entries := by
    conv => rhs; rw [← List.map_id (segmentTokens entries)]
    refine List.map_congr_left (fun tok htok => ?_)
    obtain ⟨e, -, he⟩ := List.mem_flatMap.mp htok
    exact tokenizeEntry_lower he
  have htokens : entries.flatMap tokenizeEntry = segmentTokens entries := rfl
  simp only [bloomOf, buildBloom, htokens, hlower]
  exact ⟨_, rfl⟩

/-- The filter tests positive for every token of the entries. -/
def Covers (bf : B.Filter) (entries : List LogEntry) : Prop :=
  ∀ tok ∈ segmentTokens entries, B.testString bf tok = true

instance (bf : B.Filter) (entries : List LogEntry) : Decidable (Covers bf entries) :=
  inferInstanceAs (Decidable (∀ tok ∈ segmentTokens entries, _))

theorem bloomOf_covers (hB : B.Sound) (entries : List LogEntry) :
    Covers (bloomOf B entries) entries := by
  intro tok htok
  obtain ⟨n, hn⟩ := bloomOf_eq B entries
  rw [hn]
  exact hB n _ tok htok

end LogEngine.Storage
