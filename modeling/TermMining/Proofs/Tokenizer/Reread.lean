import Mathlib.Data.List.Basic
import TermMining.Proofs.Analyzer
import TermMining.Proofs.Pattern.Whole

/-! The texts of standard tokens, joined by spaces, have these tokens again and no others. -/
namespace TermMining

open Pattern

namespace Tokenizer

def texts (t : Tokenizer) (text : String) : List String := (t.tokens text).map (·.text)

/-- A text that can be a token: of some kind, and not too long. -/
def IsToken (maxLength : Int) (w : String) : Prop :=
  (∃ k : WordKind, k.Forms w.toList) ∧ (maxLength = 0 ∨ w.length ≤ maxLength)

variable {maxLength : Int} {text w : String} {ws : List String}

theorem mem_texts_standard : w ∈ (standard maxLength).texts text ↔
    w.toList ∈ word.words text.toList ∧ (maxLength = 0 ∨ w.length ≤ maxLength) := by
  unfold texts
  rw [map_text_tokens, List.mem_map]
  constructor
  · rintro ⟨s, hs, rfl⟩
    rw [List.mem_filter, Bool.or_eq_true, decide_eq_true_iff, decide_eq_true_iff] at hs
    rw [String.toList_ofList, String.length_ofList]
    exact hs
  · intro h
    refine ⟨w.toList, ?_, String.ofList_toList⟩
    rw [List.mem_filter, Bool.or_eq_true, decide_eq_true_iff, decide_eq_true_iff,
      String.length_toList]
    exact h

theorem isToken_of_mem_texts (h : w ∈ (standard maxLength).texts text) : IsToken maxLength w := by
  obtain ⟨hmem, hlen⟩ := mem_texts_standard.mp h
  exact ⟨exists_forms_of_mem_words hmem, hlen⟩

theorem texts_standard_of_isToken (h : IsToken maxLength w) :
    (standard maxLength).texts w = [w] := by
  obtain ⟨hforms, hlen⟩ := h
  have hwords : (standard maxLength).pattern.words w.toList = [w.toList] :=
    words_eq_singleton_iff.mpr hforms
  unfold texts
  rw [map_text_tokens, hwords, List.filter_cons_of_pos, List.filter_nil, List.map_singleton,
    String.ofList_toList]
  rw [Bool.or_eq_true, decide_eq_true_iff, decide_eq_true_iff, String.length_toList]
  exact hlen

/-- No token crosses a space. -/
theorem texts_standard_join (maxLength : Int) (ws : List String) :
    (standard maxLength).texts (" ".intercalate ws) = ws.flatMap (standard maxLength).texts := by
  have hterms : (Analyzer.chain (some (standard maxLength)) []).terms =
      (standard maxLength).texts := by
    funext text
    exact congrArg (List.map Token.text) List.filterMap_some
  rw [← hterms]
  exact Analyzer.terms_standard_join maxLength [] ws

/-- Texts joined by spaces are the tokens of what comes of it exactly if each can be a token. -/
theorem texts_standard_join_iff : (standard maxLength).texts (" ".intercalate ws) = ws ↔
    ∀ w ∈ ws, IsToken maxLength w := by
  constructor
  · intro h w hw
    rw [← h] at hw
    exact isToken_of_mem_texts hw
  · intro h
    rw [texts_standard_join]
    calc
      ws.flatMap (standard maxLength).texts = ws.flatMap fun w => [w] :=
        List.flatMap_congr fun w hw => texts_standard_of_isToken (h w hw)
      _ = ws := List.flatMap_singleton' ws

/-- The texts of the standard tokens, joined by spaces, are read back as they are, whatever limit
there is on their length. So is a list of texts exactly if each of them can be a token. -/
theorem texts_standard_reread (maxLength : Int) (text : String) :
    let texts := (standard maxLength).texts
    texts (" ".intercalate (texts text)) = texts text ∧
      ∀ ws, texts (" ".intercalate ws) = ws ↔ ∀ w ∈ ws, IsToken maxLength w := by
  intro texts
  constructor
  · exact texts_standard_join_iff.mpr fun w hw => isToken_of_mem_texts hw
  · intro ws
    exact texts_standard_join_iff

end Tokenizer

end TermMining
