import LogEngine.Coordinator.FanOut

namespace LogEngine.Coordinator
open Lib

/-- The end of what stands before the numbers in a key text: namespace and service, each after a
bar. -/
def tenantTail («namespace» service : String) : List Char :=
  '|' :: («namespace».toList ++ '|' :: service.toList)

theorem bar_not_in_decimal (i : Int) : '|' ∉ (decimal i).toList := by
  intro h
  rcases decimal_runes h with h | h
  · exact absurd h (by decide)
  · exact absurd h (by decide)

/-- The key text as fields behind bars. -/
theorem keyText_toList (req : QueryRequest) : (keyText req).toList =
    (req.queryString.toList ++ tenantTail req.namespace req.service) ++
      '|' :: (decimal req.startTime.toInt).toList ++ '|' :: (decimal req.endTime.toInt).toList ++
      '|' :: (decimal req.limit.toInt).toList ++ '|' :: (decimal req.offset.toInt).toList := by
  simp [keyText, tenantTail, String.toList_append]

/-- Requests with one key text differ at most in how the text before the numbers is divided. -/
theorem keyText_fields {r r' : QueryRequest} (h : keyText r = keyText r') :
    r.queryString.toList ++ tenantTail r.namespace r.service =
      r'.queryString.toList ++ tenantTail r'.namespace r'.service ∧
    r.startTime = r'.startTime ∧ r.endTime = r'.endTime ∧ r.limit = r'.limit ∧
    r.offset = r'.offset := by
  have hlist := congrArg String.toList h
  rw [keyText_toList, keyText_toList] at hlist
  obtain ⟨hlist, hoffset⟩ := last_field_inj (bar_not_in_decimal _) (bar_not_in_decimal _) hlist
  obtain ⟨hlist, hlimit⟩ := last_field_inj (bar_not_in_decimal _) (bar_not_in_decimal _) hlist
  obtain ⟨hlist, hend⟩ := last_field_inj (bar_not_in_decimal _) (bar_not_in_decimal _) hlist
  obtain ⟨hlist, hstart⟩ := last_field_inj (bar_not_in_decimal _) (bar_not_in_decimal _) hlist
  refine ⟨hlist, ?_, ?_, ?_, ?_⟩
  · exact Int64.toInt_inj.mp (decimal_inj (String.toList_inj.mp hstart))
  · exact Int64.toInt_inj.mp (decimal_inj (String.toList_inj.mp hend))
  · exact Int32.toInt_inj.mp (decimal_inj (String.toList_inj.mp hlimit))
  · exact Int32.toInt_inj.mp (decimal_inj (String.toList_inj.mp hoffset))

/-- No tenant's tail ends another's. -/
def Separated (A : String → String → Prop) : Prop :=
  ∀ n s n' s', A n s → A n' s' → tenantTail n s <:+ tenantTail n' s' → n = n' ∧ s = s'

theorem utf8_inj {s t : String} (h : utf8 s = utf8 t) : s = t := by
  have hs := ofUtf8?_utf8 s
  rw [h, ofUtf8?_utf8] at hs
  exact (Option.some.inj hs).symm

/-- Among separated tenants a key belongs to one request. -/
theorem cacheKey_inj {sha256 : Bytes → String} (hsha : Function.Injective sha256)
    {A : String → String → Prop} (hA : Separated A) {r r' : QueryRequest}
    (hr : A r.namespace r.service) (hr' : A r'.namespace r'.service)
    (h : cacheKey sha256 r = cacheKey sha256 r') : r = r' := by
  obtain ⟨hfront, hstart, hend, hlimit, hoffset⟩ := keyText_fields (utf8_inj (hsha h))
  have htenant : r.namespace = r'.namespace ∧ r.service = r'.service := by
    have hsuffix : tenantTail r.namespace r.service <:+
        r'.queryString.toList ++ tenantTail r'.namespace r'.service :=
      hfront ▸ List.suffix_append _ _
    rcases List.suffix_or_suffix_of_suffix hsuffix (List.suffix_append _ _) with hs | hs
    · exact hA _ _ _ _ hr hr' hs
    · obtain ⟨hn, hs⟩ := hA _ _ _ _ hr' hr hs
      exact ⟨hn.symm, hs.symm⟩
  rw [htenant.1, htenant.2] at hfront
  have hquery : r.queryString = r'.queryString :=
    String.toList_inj.mp (List.append_cancel_right hfront)
  obtain ⟨q, n, s, st, en, li, off⟩ := r
  obtain ⟨q', n', s', st', en', li', off'⟩ := r'
  simp_all

end LogEngine.Coordinator
