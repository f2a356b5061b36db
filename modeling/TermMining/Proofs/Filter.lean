import TermMining.Proofs.Analyzer.Places
import TermMining.Proofs.Stream
import TermMining.Proofs.Text.Lowercase

/-! Lowering and the dropping of stop words. Where case is ignored it does not matter which comes
first. -/
namespace TermMining

namespace Filter

variable {words : List String}

/-- The tokens whose texts are none of the words, but for case, in lower case. -/
def loweredWithout (words : List String) (ts : List Token) : List Token :=
  (ts.filter fun t => Text.lowercase t.text ∉ words.map Text.lowercase).map fun t =>
    { t with text := Text.lowercase t.text }

theorem apply_stopWords (words : List String) (t : Token) :
    (stopWords words).apply t =
      if Text.lowercase t.text ∈ words.map Text.lowercase then none else some t := by
  simp [stopWords, apply, StringSet.contains_iff]

theorem applyAll_stopWords_lowercase (words : List String) (t : Token) :
    applyAll [stopWords words, .lowercase] t =
      if Text.lowercase t.text ∈ words.map Text.lowercase then none
      else some { t with text := Text.lowercase t.text } := by
  change ((stopWords words).apply t).bind (applyAll [.lowercase]) = _
  rw [apply_stopWords, applyAll_singleton]
  split <;> rfl

/-- Lowering a token first does not change whether it is dropped. -/
theorem applyAll_comm (words : List String) :
    applyAll [.lowercase, stopWords words] = applyAll [stopWords words, .lowercase] := by
  funext t
  let u : Token := { t with text := Text.lowercase t.text }
  have hu : Text.lowercase u.text = Text.lowercase t.text := Text.lowercase_lowercase t.text
  change applyAll [stopWords words] u = _
  rw [applyAll_stopWords_lowercase, applyAll_singleton, apply_stopWords, hu]

theorem sweep_stopWords_lowercase (words : List String) (ts : List Token) :
    sweep [stopWords words, .lowercase] ts = loweredWithout words ts := by
  rw [← filterMap_applyAll]
  unfold loweredWithout
  induction ts with
  | nil => rfl
  | cons t ts ih =>
    rw [List.filterMap_cons, List.filter_cons, applyAll_stopWords_lowercase, ih]
    by_cases ht : Text.lowercase t.text ∈ words.map Text.lowercase <;> simp [ht]

/-- Behind a filter of stop words, wherever it stands, no text is one of them but for case. -/
theorem lowercase_notMem_of_applyAll {fs : List Filter} (h : stopWords words ∈ fs) {t u : Token}
    (hu : applyAll fs t = some u) : Text.lowercase u.text ∉ words.map Text.lowercase := by
  obtain ⟨front, back, rfl⟩ := List.append_of_mem h
  rw [applyAll_append] at hu
  obtain ⟨v, -, hv⟩ := Option.bind_eq_some_iff.mp hu
  obtain ⟨w, hw, hback⟩ := Option.bind_eq_some_iff.mp hv
  rw [apply_stopWords] at hw
  split at hw
  · cases hw
  · next hstop =>
    obtain rfl := Option.some.inj hw
    rw [eq_lowered_of_applyAll hback]
    unfold Token.lowered
    rwa [Text.lowercase_iterate]

theorem lowercase_notMem_of_mem_terms {fs : List Filter} (h : stopWords words ∈ fs)
    (tokenizer : Option Tokenizer) {text x : String}
    (hx : x ∈ (Analyzer.chain tokenizer fs).terms text) :
    Text.lowercase x ∉ words.map Text.lowercase := by
  obtain ⟨u, hu, rfl⟩ := List.mem_map.mp hx
  obtain ⟨t, -, happly⟩ := List.mem_filterMap.mp hu
  exact lowercase_notMem_of_applyAll h happly

/-- Where case is ignored, lowering and dropping stop words give the same in either order, and
streams that do the two in either order read their source alike. Wherever in a row of filters stop
words are dropped, no term is one of them but for case. -/
theorem lowercase_stopWords_comm (words : List String) :
    let stop := stopWords words
    (∀ ts, sweep [.lowercase, stop] ts = loweredWithout words ts ∧
      sweep [stop, .lowercase] ts = loweredWithout words ts) ∧
    (∀ (s : TokenStream) n unread, ((s.layer .lowercase).layer stop).pullMany n unread =
      ((s.layer stop).layer .lowercase).pullMany n unread) ∧
    (∀ fs, stop ∈ fs → ∀ tokenizer text, ∀ x ∈ (Analyzer.chain tokenizer fs).terms text,
      Text.lowercase x ∉ words.map Text.lowercase) ∧
    ∀ maxLength text, ∀ w ∈ words,
      Text.lowercase w ∉ (Analyzer.standard words maxLength).terms text ∧
      Text.lowercase w ∉ (Analyzer.stop words).terms text := by
  intro stop
  have hterms : ∀ fs, stop ∈ fs → ∀ tokenizer text,
      ∀ x ∈ (Analyzer.chain tokenizer fs).terms text, Text.lowercase x ∉ words.map Text.lowercase :=
    fun fs h tokenizer text x hx => lowercase_notMem_of_mem_terms h tokenizer hx
  constructor
  · intro ts
    have hsame : sweep [.lowercase, stop] ts = sweep [stop, .lowercase] ts := by
      rw [← filterMap_applyAll, ← filterMap_applyAll, applyAll_comm]
    exact ⟨hsame.trans (sweep_stopWords_lowercase words ts), sweep_stopWords_lowercase words ts⟩
  constructor
  · intro s n unread
    apply TokenStream.pullMany_congr
    funext t
    change applyAll (s.filters ++ [.lowercase] ++ [stop]) t =
      applyAll (s.filters ++ [stop] ++ [.lowercase]) t
    rw [List.append_assoc, List.append_assoc, applyAll_append, applyAll_append]
    exact congrArg _ (applyAll_comm words)
  constructor
  · exact hterms
  · intro maxLength text w hw
    have hlowered : Text.lowercase (Text.lowercase w) ∈ words.map Text.lowercase := by
      rw [Text.lowercase_lowercase]
      exact List.mem_map_of_mem hw
    have hstop : stop ∈ [.lowercase, stop] := by simp
    constructor
    · exact fun hx => hterms _ hstop (some (.standard maxLength)) text _ hx hlowered
    · exact fun hx => hterms _ hstop (some .letter) text _ hx hlowered

end Filter
end TermMining
