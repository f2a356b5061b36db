import TermMining.Proofs.Analyzer
import TermMining.Proofs.Index.Reading
import TermMining.Proofs.Miner.Sources
import TermMining.Proofs.Tally.Rows

/-! Several texts in a field are as good as one, for analyzers with no spaces in their tokens. -/
namespace TermMining

def joined (texts : List String) : String := " ".intercalate texts

namespace Tally

variable {ω : Type}

theorem ofTexts_congr (c : Criteria ω) {a : Analyzer} {field : String} {texts texts' : List String}
    (h : texts.flatMap (a.fieldTerms field) = texts'.flatMap (a.fieldTerms field)) :
    ofTexts c (some a) field texts = ofTexts c (some a) field texts' := by
  have hrow : textRow c (some a) field texts = textRow c (some a) field texts' := by
    unfold textRow
    dsimp only
    rw [h]
  unfold ofTexts
  rw [addTexts_eq, addTexts_eq, hrow]

end Tally

theorem Document.textsOf_list (texts : List String) :
    textsOf (.list (texts.map .text)) = texts := by
  rw [textsOf, List.filterMap_map]
  exact List.filterMap_some

theorem Document.texts_set (d : Document) (field : String) (v : Value) (f : String) :
    (d.set field v).texts f = if f = field then textsOf v else d.texts f := by
  unfold texts set
  rw [OrderedMap.find?_insert]
  split <;> rfl

theorem Index.readsAlike_joined {ix : Index} {field : String} {texts : List String}
    (hjoins : ((ix.analyzerFor (ix.mapping field).1).1).JoinsTexts (ix.mapping field).1.name)
    (hne : texts ≠ []) (d : Document) :
    ix.ReadsAlike (d.set field (.list (texts.map .text))) (d.set field (.text (joined texts))) := by
  constructor
  · rfl
  · exact (OrderedMap.keys_insert _ _ _).trans (OrderedMap.keys_insert _ _ _).symm
  · intro f
    rw [Document.texts_set, Document.texts_set, Document.textsOf_list]
    split
    · exact List.isEmpty_eq_false_iff.2 hne
    · rfl
  · intro f
    rw [Document.texts_set, Document.texts_set, Document.textsOf_list]
    split
    · next hf =>
      have hterms := hjoins texts
      rw [analyzerFor_fst] at hterms
      rw [hf]
      exact hterms.trans (List.append_nil _).symm
    · rfl

/-- Texts of a field and the texts joined by spaces come to the same, if the analyzer splits at white
space, into letters or into standard tokens, with whatever filters: to the same terms, tallies under
every bound on the tokens, queries, postings and vectors. -/
theorem alike_joined {tokenizer : Option Tokenizer}
    (h : tokenizer = none ∨ tokenizer = some .whitespace ∨ tokenizer = some .letter ∨
      ∃ maxLength, tokenizer = some (.standard maxLength))
    (filters : List Filter) (field : String) (texts : List String) :
    let a := Analyzer.chain tokenizer filters
    texts.flatMap (a.fieldTerms field) = a.fieldTerms field (joined texts) ∧
    (∀ (ω : Type) (c : Criteria ω), Tally.ofTexts c (some a) field texts =
      Tally.ofTexts c (some a) field [joined texts]) ∧
    (∀ (ω : Type) [Weight ω] (m : Miner ω) (corpus : Corpus), m.analyzer = some a →
      m.like corpus (.texts field texts) = m.like corpus (.texts field [joined texts])) ∧
    (texts ≠ [] → ∀ (ix : Index) (d : Document), (ix.analyzerFor (ix.mapping field).1).1 = a →
      let listed := ix.add (d.set field (.list (texts.map .text)))
      let whole := ix.add (d.set field (.text (joined texts)))
      listed.1.postings = whole.1.postings ∧
      ∀ id f, listed.1.vector id f = whole.1.vector id f) := by
  intro a
  have hterms : texts.flatMap (a.fieldTerms field) = a.fieldTerms field (joined texts) :=
    Analyzer.joinsTexts h filters field texts
  have htally : ∀ (ω : Type) (c : Criteria ω), Tally.ofTexts c (some a) field texts =
      Tally.ofTexts c (some a) field [joined texts] := by
    intro ω c
    exact Tally.ofTexts_congr c (hterms.trans (List.append_nil _).symm)
  constructor
  · exact hterms
  constructor
  · exact htally
  constructor
  · intro ω _ m corpus ha
    unfold Miner.like
    rw [Miner.shortlist_texts, Miner.shortlist_texts, ha, htally]
  · intro hne ix d ha
    have hjoins : ((ix.analyzerFor (ix.mapping field).1).1).JoinsTexts (ix.mapping field).1.name := by
      rw [ha]
      exact Analyzer.joinsTexts h filters _
    obtain ⟨hpostings, -, hvectors⟩ := Index.add_congr (Index.readsAlike_joined hjoins hne d)
    exact ⟨hpostings, hvectors⟩

/-- Texts whose tokens would be others without the space between them, with a sigma at the end of a
word and a token that is too long. -/
theorem alike_joined_standard :
    let a := Analyzer.chain (some (.standard 4)) [.lowercase, .stopWords]
    let texts := ["3.", "14 It's", "THE ΟΔΟΣ", "longer"]
    let ix := Index.create (some a) [{ name := "f", termVectors := true }]
    let d : Document := ⟨"1", .empty⟩
    let listed := ix.add (d.set "f" (.list (texts.map .text)))
    let whole := ix.add (d.set "f" (.text (joined texts)))
    a.fieldTerms "f" (joined texts) = ["3", "14", "it's", "οδος"] ∧
    texts.flatMap (a.fieldTerms "f") = a.fieldTerms "f" (joined texts) ∧
    listed.1.postings = whole.1.postings ∧
    listed.1.vector "1" "f" = whole.1.vector "1" "f" := by
  intro a texts ix d listed whole
  have htokenizer : some (Tokenizer.standard 4) = none ∨
      some (Tokenizer.standard 4) = some .whitespace ∨ some (Tokenizer.standard 4) = some .letter ∨
        ∃ maxLength, some (Tokenizer.standard 4) = some (.standard maxLength) :=
    Or.inr (Or.inr (Or.inr ⟨4, rfl⟩))
  obtain ⟨hterms, -, -, hindex⟩ := alike_joined htokenizer [.lowercase, .stopWords] "f" texts
  have hne : texts ≠ [] := List.cons_ne_nil _ _
  obtain ⟨hpostings, hvector⟩ := hindex hne ix d rfl
  exact ⟨by decide +kernel, hterms, hpostings, hvector "1" "f"⟩

end TermMining
