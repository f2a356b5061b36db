import TermMining.Proofs.Miner.Provenance
import TermMining.Proofs.Miner.Ranking
import TermMining.Proofs.Query.Boosts
import TermMining.Proofs.Weight.Real

/-! Boosts in exact arithmetic, over the states that an index can be in. They fall from the factor
towards zero. -/
namespace TermMining

/-- The first clause weighs the factor, no clause more, and none more than those before it. -/
structure WellBoosted (factor : ℝ) (clauses : List (Occur × Query ℝ)) : Prop where
  head : ∀ c, clauses.head? = some c → c.2.boost = factor
  bounds : ∀ c ∈ clauses, 0 < c.2.boost ∧ c.2.boost ≤ factor
  descending : clauses.Pairwise fun c d => d.2.boost ≤ c.2.boost

theorem WellBoosted.take {factor : ℝ} {clauses : List (Occur × Query ℝ)}
    (h : WellBoosted factor clauses) (n : Nat) : WellBoosted factor (clauses.take n) where
  head c hc := by
    cases n with
    | zero => cases hc
    | succ n =>
      rw [List.head?_take, if_neg (Nat.succ_ne_zero n)] at hc
      exact h.head c hc
  bounds c hc := h.bounds c (List.mem_of_mem_take hc)
  descending := h.descending.sublist (List.take_sublist n clauses)

namespace Query

/-- Terms with positive scores, best first, weigh ever less. -/
theorem wellBoosted_shouldClauses {factor : ℝ} (hfactor : 0 < factor)
    {ranked : List (Candidate ℝ)} (hpos : ∀ a ∈ ranked, 0 < a.score)
    (hdesc : ranked.Pairwise fun a b => b.score ≤ a.score) :
    WellBoosted factor (shouldClauses (.relative factor) ranked) := by
  cases ranked with
  | nil => exact ⟨nofun, nofun, List.Pairwise.nil⟩
  | cons best rest =>
    have hbest : 0 < best.score := hpos best List.mem_cons_self
    rw [shouldClauses_eq]
    constructor
    · intro c hc
      obtain rfl := Option.some.inj hc
      exact Boosting.apply_relative_self factor best.score
    · intro c hc
      obtain ⟨a, ha, rfl⟩ := List.mem_map.1 hc
      constructor
      · exact Boosting.apply_relative_pos hfactor hbest (hpos a ha)
      · have hle := Boosting.apply_relative_le hfactor hbest.le (le_bestScore hdesc ha)
        exact hle.trans_eq (Boosting.apply_relative_self factor best.score)
    · apply List.pairwise_map.2
      exact hdesc.imp fun hab => Boosting.apply_relative_le hfactor hbest.le hab

end Query

namespace Index

variable {ω : Type} {ix : Index} {k : Catalog}

/-- No term occurs in more documents than there are, whatever was deleted, replaced or purged. -/
theorem Realizes.docFreq_le_numDocs (h : ix.Realizes k) (t : Term) : ix.docFreq t ≤ ix.numDocs := by
  rw [h.docFreq_eq, h.numDocs_eq]
  exact List.length_filter_le _ _

/-- A vector that an index gives out counts none of its terms less than once. -/
theorem Realizes.isPositive_row (h : ix.Realizes k) {c : Criteria ω} {own : Option Analyzer}
    {id f : String} {l : List (String × Int)} (hl : Tally.row c own ix.corpus id f = .ok l) :
    Tally.IsPositive l := by
  cases hv : k.live.find? id with
  | none =>
    rw [h.row_of_not_live hv] at hl
    cases hl
  | some v =>
    rcases h.row_cases (c := c) hv own f with ⟨-, hrow⟩ | ⟨-, hrow⟩
    · rw [hrow] at hl
      exact Tally.isPositive_textRow c hl
    · rw [hrow] at hl
      obtain rfl := Except.ok.inj hl
      exact Tally.isPositive_ofTerms f (v.terms f)

end Index

/-- The figures of a scored term are those of the index, and all of them are positive. -/
structure Index.Backs (ix : Index) (a : Candidate ℝ) : Prop where
  docFreq : a.docFreq = ix.docFreq a.term
  occurs : 1 ≤ ix.docFreq a.term
  docFreq_le : ix.docFreq a.term ≤ ix.numDocs
  idf : 0 < a.idf
  score : 0 < a.score

namespace Miner

open Selection (drained Admits IsScoring)

theorem count_pos_tally {ω : Type} {m : Miner ω} {ix : Index} {k : Catalog} (h : ix.Realizes k)
    {c : Criteria ω} {source : Source} {t : Tally} (ht : m.tally ix.corpus c source = .ok t)
    {term : Term} {n : Int} (hn : t.count? term = some n) : 0 < n := by
  cases source with
  | document id => exact Tally.count_pos_ofDocument c ht (fun _ _ hl => h.isPositive_row hl) hn
  | texts field texts => exact Tally.count_pos_ofTexts c ht hn

variable {m : Miner ℝ} {ix : Index} {k : Catalog} {source : Source} {c : Criteria ℝ} {t : Tally}

/-- What the criteria let through occurs somewhere, so its idf exists and is positive. -/
theorem exists_idf_of_admits (h : ix.Realizes k)
    (hsim : m.similarity = .classic ∨ m.similarity = .bm25) {term : Term} {n : Int}
    (hadmits : Admits ix.corpus c term n) :
    1 ≤ ix.docFreq term ∧
      ∃ x, m.similarity.idf (ix.corpus.docFreq term) ix.corpus.numDocs = .ok x ∧ 0 < x := by
  have hne : (ix.docFreq term : Int) ≠ 0 := hadmits.occurs
  have hpos : 1 ≤ ix.docFreq term := by omega
  have hle := h.docFreq_le_numDocs term
  exact ⟨hpos, Similarity.exists_idf_pos hsim (Int.ofNat_le.2 hpos) (Int.ofNat_le.2 hle)⟩

theorem backs_of_isScoring (h : ix.Realizes k)
    (hsim : m.similarity = .classic ∨ m.similarity = .bm25) {a : Candidate ℝ}
    (hn : 0 < a.termFreq) (hadmits : Admits ix.corpus c a.term a.termFreq)
    (hscoring : IsScoring ix.corpus m.similarity a) : ix.Backs a := by
  obtain ⟨hpos, x, hx, hxpos⟩ := exists_idf_of_admits h hsim hadmits
  have hidf := hscoring.idf
  rw [hscoring.docFreq] at hidf
  obtain rfl : x = a.idf := Except.ok.inj (hx.symm.trans hidf)
  obtain ⟨w, hw, hscore⟩ := hscoring.score
  obtain rfl : (a.termFreq : ℝ) = w := Except.ok.inj hw
  constructor
  · exact hscoring.docFreq
  · exact hpos
  · exact h.docFreq_le_numDocs a.term
  · exact hxpos
  · rw [hscore]
    exact mul_pos (Int.cast_pos.2 hn) hxpos

theorem scores_real (m : Miner ℝ) (corpus : Corpus) (source : Source) : m.Scores corpus source :=
  fun _ _ a _ _ _ => a.isScored_real

theorem exists_ranking (h : ix.Realizes k)
    (hsim : m.similarity = .classic ∨ m.similarity = .bm25)
    (ht : m.tally ix.corpus (m.criteriaFor ix.corpus source).1 source = .ok t) :
    ∃ r, m.ranking ix.corpus source = .ok r ∧ (∀ a ∈ r, ix.Backs a) ∧
      r.Pairwise fun a b => b.score ≤ a.score := by
  let c := (m.criteriaFor ix.corpus source).1
  have hcandidates : ∀ e ∈ t.terms, ∃ o,
      Selection.candidate? ix.corpus m.similarity c e.1 e.2 = .ok o := by
    intro e _
    apply Selection.exists_candidate?
    intro hadmits
    obtain ⟨-, x, hx, -⟩ := exists_idf_of_admits h hsim hadmits
    exact ⟨⟨x, hx⟩, e.2, rfl⟩
  have hr := Selection.ranking_eq_ok hcandidates
  have hscorable := m.scores_real ix.corpus source t ht
  have hwhole : m.ranking ix.corpus source = Selection.ranking ix.corpus m.similarity c t := by
    unfold ranking
    dsimp only
    rw [ht]
    rfl
  refine ⟨_, hwhole.trans hr, ?_, ?_⟩
  · intro a ha
    obtain ⟨hcount, hadmits, hscoring⟩ := (Selection.mem_ranking_iff hr).1 ha
    exact backs_of_isScoring h hsim (count_pos_tally h ht hcount) hadmits hscoring
  · apply (Selection.isStrictlyRanked_ranking hscorable hr).imp
    intro a b hab
    exact Candidate.score_le_of_outranks hab

theorem drained_ne_nil (h : ix.Realizes k) (hsim : m.similarity = .classic ∨ m.similarity = .bm25)
    (ht : m.tally ix.corpus (m.criteriaFor ix.corpus source).1 source = .ok t) {term : Term} {n : Int}
    (hcount : t.count? term = some n)
    (hadmits : Admits ix.corpus (m.criteriaFor ix.corpus source).1 term n)
    (hroom : 0 < m.criteria.maxQueryTerms) {l : List (Candidate ℝ)}
    (hl : drained (m.shortlist ix.corpus source).answer = .ok l) : l ≠ [] := by
  obtain ⟨r, hr, -, -⟩ := exists_ranking h hsim ht
  obtain ⟨-, x, hx, -⟩ := exists_idf_of_admits h hsim hadmits
  have hmem : (⟨term, Weight.mul (n : ℝ) x, x, ix.corpus.docFreq term, n⟩ : Candidate ℝ) ∈ r := by
    unfold ranking at hr
    dsimp only at hr
    rw [ht] at hr
    exact (Selection.mem_ranking_iff hr).2 ⟨hcount, hadmits, rfl, hx, n, rfl, rfl⟩
  rw [drained_shortlist (m.scores_real ix.corpus source), hr] at hl
  obtain rfl := Except.ok.inj hl
  intro hnil
  rcases List.take_eq_nil_iff.1 hnil with hzero | hempty
  · omega
  · rw [hempty] at hmem
    exact List.not_mem_nil hmem

/-- Over an index with any history, and with either similarity, every term mined of a document or a
text has positive figures, and with boosts by a positive factor the query weighs the first clause by
the factor and the others ever less. The arithmetic never fails, so there is a query whenever there
is a tally. -/
theorem wellBoosted_like (own : Option Analyzer) (mappings : List FieldMapping)
    (cs : List Command) (m : Miner ℝ) (source : Source)
    (hsim : m.similarity = .classic ∨ m.similarity = .bm25) (hboost : m.criteria.boost = true)
    (hfactor : 0 < m.criteria.boostFactor) :
    let ix := ((Index.create own mappings).run cs).2
    let tally := m.tally ix.corpus (m.criteriaFor ix.corpus source).1 source
    (∀ f, tally = .error f → (m.like ix.corpus source).answer = .error f) ∧
    ∀ t, tally = .ok t → ∃ l q,
      drained (m.shortlist ix.corpus source).answer = .ok l ∧ (∀ a ∈ l, ix.Backs a) ∧
      (m.like ix.corpus source).answer = .ok q ∧
      WellBoosted m.criteria.boostFactor q.clauses := by
  intro ix tally
  have hrealizes := ((Index.realizes_create own mappings).run cs).2
  have hscores := m.scores_real ix.corpus source
  constructor
  · intro f hf
    rw [like_eq_take hscores]
    unfold ranking
    dsimp only
    change ((tally.bind _).map _ : Except Fault _) = _
    rw [hf]
    rfl
  · intro t ht
    obtain ⟨r, hr, hbacks, hdesc⟩ := exists_ranking hrealizes hsim ht
    have hboosting : m.boosting = .relative m.criteria.boostFactor := by
      unfold boosting
      rw [hboost]
      rfl
    have hclauses := Query.wellBoosted_shouldClauses hfactor (fun a ha => (hbacks a ha).score) hdesc
    rw [drained_shortlist hscores, like_eq_take hscores, hr, hboosting]
    exact ⟨_, _, rfl, fun a ha => hbacks a (List.mem_of_mem_take ha), rfl, hclauses.take _⟩

/-- A document that was replaced, in an index with a deleted one: one of its terms occurs in every
document that there is. -/
theorem wellBoosted_like_replaced :
    let d (id : String) (texts : List String) : Document :=
      ⟨id, .ofList [("f", .list (texts.map .text))]⟩
    let cs : List Command := [.add (d "1" ["c"]), .add (d "2" ["b"]), .add (d "3" ["a"]),
      .delete "3", .add (d "1" ["a", "b", "a"])]
    let ix := ((Index.create (some .keyword) []).run cs).2
    let m : Miner ℝ :=
      { similarity := .classic, analyzer := some .keyword
        criteria := { boostFactor := 2, boost := true, minTermFreq := 0, minDocFreq := 0 } }
    ix.numDocs = 2 ∧ ix.docFreq ⟨"f", "a"⟩ = 1 ∧ ix.docFreq ⟨"f", "b"⟩ = 2 ∧
    ∃ l q, drained (m.shortlist ix.corpus (.document "1")).answer = .ok l ∧ l ≠ [] ∧
      (∀ a ∈ l, ix.Backs a) ∧ (m.like ix.corpus (.document "1")).answer = .ok q ∧
      WellBoosted 2 q.clauses := by
  intro d cs ix m
  have hfreq : ix.docFreq ⟨"f", "a"⟩ = 1 := by decide +kernel
  have hcount : ((m.tally ix.corpus (m.criteriaFor ix.corpus (.document "1")).1
      (.document "1")).toOption.bind fun t => t.count? ⟨"f", "a"⟩) = some 2 := by decide +kernel
  cases ht : m.tally ix.corpus (m.criteriaFor ix.corpus (.document "1")).1 (.document "1") with
  | error f =>
    rw [ht] at hcount
    cases hcount
  | ok t =>
    have hfactor : (0 : ℝ) < 2 := two_pos
    obtain ⟨-, hmined⟩ := wellBoosted_like (some .keyword) [] cs m (.document "1") (Or.inl rfl) rfl
      hfactor
    obtain ⟨l, q, hl, hbacks, hq, hboosts⟩ := hmined t ht
    have hrealizes := ((Index.realizes_create (some .keyword) []).run cs).2
    have hadmits : Admits ix.corpus (m.criteriaFor ix.corpus (.document "1")).1 ⟨"f", "a"⟩ 2 := by
      refine ⟨Or.inl le_rfl, ?_, Or.inl le_rfl, nofun⟩
      change (ix.docFreq ⟨"f", "a"⟩ : Int) ≠ 0
      rw [hfreq]
      decide
    rw [ht] at hcount
    have hne := drained_ne_nil hrealizes (Or.inl rfl) ht hcount hadmits (show 0 < 25 by decide) hl
    exact ⟨by decide +kernel, hfreq, by decide +kernel, l, q, hl, hne, hbacks, hq, hboosts⟩

end Miner
end TermMining
