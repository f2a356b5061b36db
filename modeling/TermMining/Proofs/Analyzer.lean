import TermMining.Analyzer
import TermMining.Proofs.Pattern

/-! Texts one by one and texts joined by a separator: what keeps the separator out of its tokens
gets the same terms out of both. -/
namespace TermMining

variable {β γ : Type}

/-- What is read of a text is read in front of a separator and behind it, each by itself. -/
structure Separates (sep : Char) (read : List Char → List β) : Prop where
  nil : read [] = []
  append_cons : ∀ s more, read (s ++ sep :: more) = read s ++ read more

namespace Separates

variable {sep : Char} {read : List Char → List β} (h : Separates sep read)
include h

theorem filterMap (f : β → Option γ) : Separates sep fun s => (read s).filterMap f where
  nil := by rw [h.nil, List.filterMap_nil]
  append_cons s more := by rw [h.append_cons, List.filterMap_append]

theorem filter (p : β → Bool) : Separates sep fun s => (read s).filter p where
  nil := by rw [h.nil, List.filter_nil]
  append_cons s more := by rw [h.append_cons, List.filter_append]

theorem map (f : β → γ) : Separates sep fun s => (read s).map f where
  nil := by rw [h.nil, List.map_nil]
  append_cons s more := by rw [h.append_cons, List.map_append]

theorem flatMap_eq (texts : List (List Char)) :
    texts.flatMap read = read ([sep].intercalate texts) := by
  induction texts with
  | nil => exact h.nil.symm
  | cons s rest ih =>
    cases rest with
    | nil => simp
    | cons t rest =>
      have hjoin : [sep].intercalate (s :: t :: rest) =
          s ++ sep :: [sep].intercalate (t :: rest) := by
        rw [List.intercalate_cons_cons, List.append_assoc]
        rfl
      rw [List.flatMap_cons, ih, hjoin, h.append_cons]

end Separates

theorem Pattern.separates {p : Pattern} {sep : Char} (h : p.Avoids sep) (hnil : p.split? [] = none) :
    Separates sep p.words := ⟨words_nil hnil, words_append_cons h⟩

theorem separates_wordsBetweenBlanks {sep : Char} (h : Text.isBlank sep = true) :
    Separates sep wordsBetweenBlanks where
  nil := by rw [wordsBetweenBlanks]
  append_cons s more := by
    have hsep : (!Text.isBlank sep) = false := by rw [h, Bool.not_true]
    fun_induction wordsBetweenBlanks s with
    | case1 => rw [List.nil_append, wordsBetweenBlanks, if_pos h, List.nil_append]
    | case2 c s hc ih => rw [List.cons_append, wordsBetweenBlanks, if_pos hc, ih]
    | case3 c s hc ih =>
      rw [List.cons_append, wordsBetweenBlanks, if_neg hc, Pattern.takeWhile_append_cons hsep,
        Pattern.dropWhile_append_cons hsep, ih, List.cons_append]

theorem map_mapIdx {α : Type} {f : Nat → α → β} {g : β → γ} {h : α → γ}
    (hfg : ∀ i a, g (f i a) = h a) (l : List α) : (l.mapIdx f).map g = l.map h := by
  induction l generalizing f with
  | nil => rfl
  | cons a l ih => rw [List.mapIdx_cons, List.map_cons, List.map_cons, hfg, ih fun i => hfg (i + 1)]

theorem Tokenizer.map_text_tokens (t : Tokenizer) (text : String) :
    (t.tokens text).map (·.text) =
      ((t.pattern.words text.toList).filter fun w => t.maxLength = 0 || w.length ≤ t.maxLength).map
        String.ofList := by
  unfold tokens Pattern.words
  rw [map_mapIdx (g := Token.text) (h := fun l => String.ofList l.chars) (fun _ _ => rfl),
    List.filter_map, List.map_map]
  rfl

namespace Filter

theorem map_text_apply (f : Filter) {t u : Token} (h : t.text = u.text) :
    (f.apply t).map (·.text) = (f.apply u).map (·.text) := by
  cases f with
  | lowercase => exact congrArg (fun text => some (Text.lowercase text)) h
  | stop words ignoreCase =>
    rw [apply, apply, h]
    by_cases hstop : words.contains (if ignoreCase then Text.lowercase u.text else u.text) = true
    · rw [if_pos hstop, if_pos hstop]
    · rw [if_neg hstop, if_neg hstop]
      exact congrArg some h
  | length least most =>
    rw [apply, apply, h]
    split
    · exact congrArg some h
    · rfl

/-- Of a token the filters see the text alone. -/
theorem map_text_applyAll (fs : List Filter) {t u : Token} (h : t.text = u.text) :
    (applyAll fs t).map (·.text) = (applyAll fs u).map (·.text) := by
  induction fs generalizing t u with
  | nil => exact congrArg some h
  | cons f fs ih =>
    have hstep := f.map_text_apply h
    unfold applyAll
    cases ht : f.apply t with
    | none =>
      rw [ht, Option.map_none] at hstep
      rw [Option.map_eq_none_iff.1 hstep.symm]
    | some t' =>
      rw [ht, Option.map_some] at hstep
      obtain ⟨u', hu, htext⟩ := Option.map_eq_some_iff.1 hstep.symm
      rw [hu]
      exact ih htext.symm

end Filter

namespace Analyzer

/-- The texts of the tokens that go into the filters. -/
def sourceWords (tokenizer : Option Tokenizer) (text : String) : List String :=
  (tokenizer.elim (plainTokens text) (·.tokens text)).map (·.text)

theorem fieldTerms_chain (tokenizer : Option Tokenizer) (filters : List Filter)
    (field text : String) :
    (chain tokenizer filters).fieldTerms field text =
      (sourceWords tokenizer text).filterMap fun w =>
        (Filter.applyAll filters { text := w }).map (·.text) := by
  rw [fieldTerms, terms, tokens, sourceWords, List.map_filterMap, List.filterMap_map]
  congr 1
  funext t
  exact Filter.map_text_applyAll filters rfl

/-- Texts of the field have the same terms as the texts joined by spaces. -/
def JoinsTexts (a : Analyzer) (field : String) : Prop :=
  ∀ texts : List String,
    texts.flatMap (a.fieldTerms field) = a.fieldTerms field (" ".intercalate texts)

theorem joinsTexts_chain {tokenizer : Option Tokenizer}
    (h : Separates ' ' fun s => sourceWords tokenizer (String.ofList s)) (filters : List Filter)
    (field : String) : (chain tokenizer filters).JoinsTexts field := by
  intro texts
  let pass : String → Option String := fun w =>
    (Filter.applyAll filters { text := w }).map (·.text)
  have hfield : (chain tokenizer filters).fieldTerms field =
      fun text => (sourceWords tokenizer text).filterMap pass :=
    funext (fieldTerms_chain tokenizer filters field)
  have hterms := (h.filterMap pass).flatMap_eq (texts.map String.toList)
  have hspace : [' '] = " ".toList := rfl
  rw [hspace, ← String.toList_intercalate, String.ofList_toList, List.flatMap_map] at hterms
  simp only [String.ofList_toList] at hterms
  rw [hfield]
  exact hterms

theorem separates_sourceWords_none : Separates ' ' fun s => sourceWords none (String.ofList s) := by
  have hspace : Text.isBlank ' ' = true := by decide
  have h := (separates_wordsBetweenBlanks hspace).map String.ofList
  have heq : (fun s => sourceWords none (String.ofList s)) =
      fun s => (wordsBetweenBlanks s).map String.ofList := by
    funext s
    unfold sourceWords plainTokens
    rw [Option.elim_none, map_mapIdx (g := Token.text) (h := String.ofList) (fun _ _ => rfl),
      String.toList_ofList]
  rw [heq]
  exact h

theorem separates_sourceWords_some {t : Tokenizer} (h : t.pattern.Avoids ' ')
    (hnil : t.pattern.split? [] = none) :
    Separates ' ' fun s => sourceWords (some t) (String.ofList s) := by
  have hwords := ((Pattern.separates h hnil).filter fun w =>
    t.maxLength = 0 || w.length ≤ t.maxLength).map String.ofList
  have heq : (fun s => sourceWords (some t) (String.ofList s)) = fun s =>
      ((t.pattern.words s).filter fun w => t.maxLength = 0 || w.length ≤ t.maxLength).map
        String.ofList := by
    funext s
    unfold sourceWords
    rw [Option.elim_some, Tokenizer.map_text_tokens, String.toList_ofList]
  rw [heq]
  exact hwords

/-- The tokenizers in use keep spaces out of their tokens, whatever limit there is on the length, and
so do words between white space. -/
theorem joinsTexts {tokenizer : Option Tokenizer}
    (h : tokenizer = none ∨ tokenizer = some .whitespace ∨ tokenizer = some .letter ∨
      ∃ maxLength, tokenizer = some (.standard maxLength))
    (filters : List Filter) (field : String) : (chain tokenizer filters).JoinsTexts field := by
  apply joinsTexts_chain
  rcases h with rfl | rfl | rfl | ⟨maxLength, rfl⟩
  · exact separates_sourceWords_none
  · exact separates_sourceWords_some (by decide) rfl
  · exact separates_sourceWords_some (by decide) rfl
  · exact separates_sourceWords_some (t := .standard maxLength)
      (show Pattern.word.Avoids ' ' by decide) rfl

/-- To one row of filters all fields are alike. -/
theorem fieldTerms_chain_eq_terms (tokenizer : Option Tokenizer) (filters : List Filter)
    (field : String) : (chain tokenizer filters).fieldTerms field =
      (chain tokenizer filters).terms := by
  funext text
  rw [fieldTerms]

theorem terms_standard_join (maxLength : Int) (filters : List Filter) (texts : List String) :
    (chain (some (.standard maxLength)) filters).terms (" ".intercalate texts) =
      texts.flatMap (chain (some (.standard maxLength)) filters).terms := by
  have hjoins := joinsTexts (.inr (.inr (.inr ⟨maxLength, rfl⟩))) filters "" texts
  rw [fieldTerms_chain_eq_terms] at hjoins
  exact hjoins.symm

end Analyzer
end TermMining
