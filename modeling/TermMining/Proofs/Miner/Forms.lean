import TermMining.Proofs.Miner.Sources
import TermMining.Proofs.Query

/-! The shortlist, the words and the query are made of the same drained terms, cut off by nothing
but the cap of the query. -/
namespace TermMining

variable {ω : Type}

theorem Miner.maxQueryTerms_criteriaFor (m : Miner ω) (corpus : Corpus) (source : Source) :
    (m.criteriaFor corpus source).1.maxQueryTerms = m.criteria.maxQueryTerms := by
  cases source with
  | texts field texts => rfl
  | document id =>
    unfold criteriaFor
    dsimp only
    split <;> rfl

variable [Weight ω]

namespace Miner

open Selection (drained)

theorem size_shortlist_le (m : Miner ω) (corpus : Corpus) (source : Source) {s : Shortlist ω}
    (h : (m.shortlist corpus source).answer = .ok s) :
    s.size ≤ m.criteria.maxQueryTerms.toNat := by
  rw [← maxQueryTerms_criteriaFor m corpus source]
  unfold shortlist at h
  dsimp only at h
  cases ht : m.tally corpus (m.criteriaFor corpus source).1 source with
  | error f =>
    rw [ht] at h
    cases h
  | ok t =>
    rw [ht] at h
    exact Selection.size_le_of_select h

theorem words_def (m : Miner ω) (corpus : Corpus) (source : Source) :
    m.words corpus source =
      ⟨(drained (m.shortlist corpus source).answer).map fun ranked => ranked.map (·.term.text),
        (m.shortlist corpus source).warnings⟩ := by
  let r := m.shortlist corpus source
  unfold words
  change (⟨r.answer.map _, r.warnings⟩ : Remarked (List String)) = _
  have hsize : ∀ s, r.answer = .ok s → s.size ≤ m.criteria.maxQueryTerms.toNat :=
    fun s => m.size_shortlist_le corpus source
  unfold drained
  cases hs : r.answer with
  | error f => rfl
  | ok s =>
    -- the bound on the words is that on the terms, so it cuts nothing off
    have hall : s.popMany m.criteria.maxQueryTerms.toNat = s.drain :=
      Shortlist.popMany_eq_drain (hsize s hs)
    simp only [Except.map, bestTexts, hall]
    rfl

/-- The words are the texts of the drained terms, and the query asks for the terms themselves, best
first, as far as its cap allows. -/
theorem forms_agree (m : Miner ω) (corpus : Corpus) (source : Source) :
    let r := m.shortlist corpus source
    m.words corpus source =
      ⟨(drained r.answer).map fun ranked => ranked.map (·.term.text), r.warnings⟩ ∧
    m.like corpus source =
      ⟨(drained r.answer).map fun ranked =>
        { clauses := (ranked.take m.maxClauses.toNat).map fun c =>
            (.should, .term c.term (m.boosting.apply (Query.bestScore ranked) c.score))
          boost := Weight.one
          maxClauses := m.maxClauses }, r.warnings⟩ := by
  intro r
  constructor
  · exact m.words_def corpus source
  · rw [like_def]
    congr 2
    funext ranked
    rw [Group.addAll_eq, Query.shouldClauses_eq, List.nil_append, List.length_nil,
      Int.natCast_zero, Int.sub_zero, List.map_take]

end Miner
end TermMining
