import TermMining.Proofs.Filter
import TermMining.Proofs.Pattern.Lowered
import TermMining.Proofs.Tokenizer.Reread

/-! Terms of the standard analyzer, joined by spaces, are read again as they are, unless there is a
dot in one that a capital I was lowered to. -/
namespace TermMining

namespace Tokenizer

variable {maxLength : Int} {text w : String}

theorem mem_toList_of_mem_texts {t : Tokenizer} (h : w ∈ t.texts text) {c : Char}
    (hc : c ∈ w.toList) : c ∈ text.toList := by
  obtain ⟨u, hu, rfl⟩ := List.mem_map.mp h
  obtain ⟨before, after, hstands, -⟩ := standsIn_of_mem_tokens hu
  rw [hstands.text_eq]
  simp [hc]

theorem IsToken.lowercase (h : IsToken maxLength w) (hw : 'İ' ∉ w.toList) :
    IsToken maxLength (Text.lowercase w) := by
  obtain ⟨⟨k, hforms⟩, hlen⟩ := h
  have hlowered := Text.forall₂_lowerAfter hw []
  rw [← Text.toList_lowercase] at hlowered
  constructor
  · exact ⟨k, hforms.of_lowersTo hlowered⟩
  · rwa [← String.length_toList, ← hlowered.length_eq, String.length_toList]

theorem IsToken.dot_mem_lowercase_iff (h : IsToken maxLength w) :
    '\u0307' ∈ (Text.lowercase w).toList ↔ 'İ' ∈ w.toList := by
  obtain ⟨⟨k, hforms⟩, -⟩ := h
  rw [Text.toList_lowercase, Text.dot_mem_lowerAfter_iff]
  exact or_iff_left hforms.notMem_dot

end Tokenizer

namespace Analyzer

open Tokenizer (IsToken)

variable {stopWords : List String} {maxLength : Int} {text x : String} {ws : List String}

theorem terms_standard (stopWords : List String) (maxLength : Int) (text : String) :
    (standard stopWords maxLength).terms text =
      ((Tokenizer.standard maxLength).texts text).filterMap fun w =>
        if Text.lowercase w ∈ stopWords.map Text.lowercase then none
        else some (Text.lowercase w) := by
  have hfield := fieldTerms_chain (some (.standard maxLength)) [.lowercase, .stopWords stopWords]
    "" text
  rw [Filter.applyAll_comm, fieldTerms] at hfield
  refine hfield.trans (congrArg (fun f => List.filterMap f _) ?_)
  funext w
  rw [Filter.applyAll_stopWords_lowercase]
  split <;> rfl

theorem mem_terms_standard : x ∈ (standard stopWords maxLength).terms text ↔
    ∃ w ∈ (Tokenizer.standard maxLength).texts text,
      Text.lowercase w = x ∧ x ∉ stopWords.map Text.lowercase := by
  rw [terms_standard, List.mem_filterMap]
  refine exists_congr fun w => and_congr_right fun _ => ?_
  constructor
  · intro h
    split at h
    · cases h
    · next hstop =>
      obtain rfl := Option.some.inj h
      exact ⟨rfl, hstop⟩
  · rintro ⟨rfl, hstop⟩
    rw [if_neg hstop]

theorem terms_standard_of_mem (h : x ∈ (standard stopWords maxLength).terms text)
    (hdot : '\u0307' ∉ x.toList) : (standard stopWords maxLength).terms x = [x] := by
  obtain ⟨w, hw, rfl, hstop⟩ := mem_terms_standard.mp h
  have htoken := Tokenizer.isToken_of_mem_texts hw
  rw [htoken.dot_mem_lowercase_iff] at hdot
  rw [terms_standard, Tokenizer.texts_standard_of_isToken (htoken.lowercase hdot)]
  simp only [List.filterMap_cons, List.filterMap_nil, Text.lowercase_lowercase, if_neg hstop]

/-- Terms are read back as they are exactly if none of them has the dot. -/
theorem terms_join_eq_iff (h : ∀ x ∈ ws, ∃ text, x ∈ (standard stopWords maxLength).terms text) :
    (standard stopWords maxLength).terms (" ".intercalate ws) = ws ↔
      ∀ x ∈ ws, '\u0307' ∉ x.toList := by
  have hjoin : (standard stopWords maxLength).terms (" ".intercalate ws) =
      ws.flatMap (standard stopWords maxLength).terms :=
    terms_standard_join maxLength [.lowercase, .stopWords stopWords] ws
  rw [hjoin]
  constructor
  · intro heq x hx hdot
    -- the token behind `x` has the capital, which the lowered text that it was read from has not
    have hread := hx
    rw [← heq] at hread
    obtain ⟨y, hy, hxy⟩ := List.mem_flatMap.mp hread
    obtain ⟨w, hw, rfl, -⟩ := mem_terms_standard.mp hxy
    rw [(Tokenizer.isToken_of_mem_texts hw).dot_mem_lowercase_iff] at hdot
    have hcapital := Tokenizer.mem_toList_of_mem_texts hw hdot
    obtain ⟨text, hmem⟩ := h y hy
    obtain ⟨v, -, rfl, -⟩ := mem_terms_standard.mp hmem
    exact (Text.isLower_lowercase v _ hcapital).ne rfl
  · intro hdot
    have hself : ∀ x ∈ ws, (standard stopWords maxLength).terms x = [x] := by
      intro x hx
      obtain ⟨text, hmem⟩ := h x hx
      exact terms_standard_of_mem hmem (hdot x hx)
    calc
      ws.flatMap (standard stopWords maxLength).terms = ws.flatMap fun x => [x] :=
        List.flatMap_congr hself
      _ = ws := List.flatMap_singleton' ws

/-- The default stop words keep no token with a capital I with a dot away. -/
theorem notMem_dot_terms_iff (text : String) :
    (∀ x ∈ standard.terms text, '\u0307' ∉ x.toList) ↔
      ∀ t ∈ Tokenizer.standard.tokens text, 'İ' ∉ t.text.toList := by
  have htoken : ∀ t ∈ Tokenizer.standard.tokens text,
      '\u0307' ∈ (Text.lowercase t.text).toList ↔ 'İ' ∈ t.text.toList := by
    intro t ht
    exact (Tokenizer.isToken_of_mem_texts (List.mem_map_of_mem ht)).dot_mem_lowercase_iff
  constructor
  · intro h t ht hcapital
    have hdot := (htoken t ht).mpr hcapital
    refine h _ (mem_terms_standard.mpr ⟨t.text, List.mem_map_of_mem ht, rfl, ?_⟩) hdot
    intro hstop
    have hplain : ∀ w ∈ englishStopWords.map Text.lowercase, '\u0307' ∉ w.toList := by
      decide +kernel
    exact hplain _ hstop hdot
  · intro h x hx hdot
    obtain ⟨w, hw, rfl, -⟩ := mem_terms_standard.mp hx
    obtain ⟨t, ht, rfl⟩ := List.mem_map.mp hw
    exact h t ht ((htoken t ht).mp hdot)

end Analyzer

end TermMining
