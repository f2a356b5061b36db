import TermMining.Proofs.Miner.Forms
import TermMining.Proofs.Weight.Partial

/-! Nothing that is computed on the way to a query is undefined, even if a term occurs in more
documents than there are, or there are none at all. -/
namespace TermMining

def Boosting.IsDefined : Boosting (Option ℝ) → Prop
  | off => True
  | relative factor => factor.isSome = true

def Shortlist.IsDefined (s : Shortlist (Option ℝ)) : Prop := ∀ a ∈ s.heap, a.score.isSome = true

def Group.IsDefined (g : Group (Query (Option ℝ)) (Option ℝ)) : Prop :=
  ∀ c ∈ g.clauses, c.2.boost.isSome = true

/-- The best score is divided by only where it is not zero. -/
theorem Boosting.IsDefined.isSome_apply {b : Boosting (Option ℝ)} (hb : b.IsDefined)
    {best score : Option ℝ} (hbest : best.isSome = true) (hscore : score.isSome = true) :
    (b.apply best score).isSome = true := by
  obtain ⟨x, rfl⟩ := Option.isSome_iff_exists.1 hbest
  obtain ⟨y, rfl⟩ := Option.isSome_iff_exists.1 hscore
  cases b with
  | off => rfl
  | relative factor =>
    obtain ⟨z, rfl⟩ := Option.isSome_iff_exists.1 hb
    unfold apply
    dsimp only
    split
    · rfl
    · next hsame =>
      have hx : x ≠ 0 := fun h => hsame (Weight.same_some_zero_iff.2 h)
      have hdiv : Weight.div (Weight.mul (some z) (some y)) (some x) = some (z * y / x) :=
        Weight.div_eq_some_iff.2 ⟨_, _, rfl, rfl, hx, rfl⟩
      rw [hdiv]
      rfl

/-- Whatever is in a shortlist, its terms can be weighed. -/
theorem Shortlist.IsDefined.disjunction {s : Shortlist (Option ℝ)} (hs : s.IsDefined)
    {b : Boosting (Option ℝ)} (hb : b.IsDefined) (maxClauses : Int) :
    (Query.disjunction maxClauses b s).IsDefined := by
  have hscores : ∀ a ∈ s.drain.1, a.score.isSome = true :=
    fun a ha => hs a (mem_of_mem_drain ha)
  have hbest : (Query.bestScore s.drain.1).isSome = true := by
    cases hranked : s.drain.1 with
    | nil => rfl
    | cons best rest => exact hscores best (hranked ▸ List.mem_cons_self)
  intro c hc
  unfold Query.disjunction Query.extend at hc
  dsimp only at hc
  rw [Group.addAll_eq, Query.shouldClauses_eq] at hc
  obtain ⟨a, ha, rfl⟩ := List.mem_map.1 (List.mem_of_mem_take hc)
  exact hb.isSome_apply hbest (hscores a ha)

namespace Selection

variable {corpus : Corpus} {sim : Similarity (Option ℝ)} {c : Criteria (Option ℝ)}

theorem exists_select_isDefined
    (hidf : ∀ term n, Admits corpus c term n →
      ∃ x, sim.idf (corpus.docFreq term) corpus.numDocs = .ok (some x)) (t : Tally) :
    ∃ s, select corpus sim c t = .ok s ∧ s.IsDefined := by
  have hcandidates : ∀ e ∈ t.terms, ∃ o, candidate? corpus sim c e.1 e.2 = .ok o := by
    intro e _
    apply exists_candidate?
    intro hadmits
    obtain ⟨x, hx⟩ := hidf e.1 e.2 hadmits
    exact ⟨⟨_, hx⟩, _, rfl⟩
  have hs := select_eq_ok hcandidates
  refine ⟨_, hs, fun a ha => ?_⟩
  obtain ⟨-, hadmits, hscoring⟩ := scored_of_mem_select hs ha
  obtain ⟨x, hx⟩ := hidf a.term a.termFreq hadmits
  rw [← hscoring.docFreq, hscoring.idf] at hx
  have hx : a.idf = some x := Except.ok.inj hx
  obtain ⟨w, hw, hscore⟩ := hscoring.score
  obtain rfl : some (a.termFreq : ℝ) = w := Except.ok.inj hw
  rw [hscore, hx]
  rfl

end Selection

namespace Miner

/-- Over counts that are not negative, every idf that is asked for is a number, and so are all
scores and all boosts of what is mined. A query can be made of any shortlist of numbers. -/
theorem arithmetic_isDefined {m : Miner (Option ℝ)}
    (hsim : m.similarity = .classic ∨ m.similarity = .bm25)
    (hfactor : m.criteria.boostFactor.isSome = true) {corpus : Corpus} (hdocs : 0 ≤ corpus.numDocs)
    (hfreq : ∀ term, 0 ≤ corpus.docFreq term) (source : Source) :
    let c := (m.criteriaFor corpus source).1
    (∀ term n, Selection.Admits corpus c term n →
      ∃ x, m.similarity.idf (corpus.docFreq term) corpus.numDocs = .ok (some x)) ∧
    (∀ t, m.tally corpus c source = .ok t → ∃ s q,
      (m.shortlist corpus source).answer = .ok s ∧ s.IsDefined ∧
      (m.like corpus source).answer = .ok q ∧ q.IsDefined) ∧
    ∀ (maxClauses : Int) (b : Boosting (Option ℝ)) (s : Shortlist (Option ℝ)),
      b.IsDefined → s.IsDefined → (Query.disjunction maxClauses b s).IsDefined := by
  intro c
  have hidf : ∀ term n, Selection.Admits corpus c term n →
      ∃ x, m.similarity.idf (corpus.docFreq term) corpus.numDocs = .ok (some x) :=
    fun term _ _ => Similarity.exists_idf hsim (hfreq term) hdocs
  have hboosting : m.boosting.IsDefined := by
    unfold boosting
    split
    · exact hfactor
    · trivial
  refine ⟨hidf, ?_, fun maxClauses b s hb hs => hs.disjunction hb maxClauses⟩
  intro t ht
  obtain ⟨s, hs, hdefined⟩ := Selection.exists_select_isDefined hidf t
  have hshortlist : (m.shortlist corpus source).answer = .ok s := by
    change (m.tally corpus c source).bind (Selection.select corpus m.similarity c) = _
    rw [ht]
    exact hs
  have hlike : (m.like corpus source).answer =
      .ok (Query.disjunction m.maxClauses m.boosting s) := by
    change (m.shortlist corpus source).answer.map _ = _
    rw [hshortlist]
    rfl
  exact ⟨s, _, hshortlist, hdefined, hlike, hdefined.disjunction hboosting m.maxClauses⟩

/-- Three documents are counted for every term though none is left, so the only term that is mined
scores below zero. -/
theorem arithmetic_isDefined_stale :
    let corpus : Corpus :=
      { numDocs := 0, docFreq := fun _ => 3, vector := fun _ _ => .ok none
        document := fun id => .error (.documentNotFound id), fieldNames := fun _ => ∅ }
    let m : Miner (Option ℝ) :=
      { similarity := .bm25, analyzer := some .keyword
        criteria := { boostFactor := some 2, boost := true, minTermFreq := 0, minDocFreq := 0 } }
    let source : Source := .texts "f" ["a"]
    (∃ x < 0, m.similarity.idf (corpus.docFreq ⟨"f", "a"⟩) corpus.numDocs = .ok (some x)) ∧
    ∃ t, m.tally corpus m.criteria source = .ok t ∧ t.terms = [(⟨"f", "a"⟩, 1)] ∧ ∃ s q,
      (m.shortlist corpus source).answer = .ok s ∧ s.IsDefined ∧
      (m.like corpus source).answer = .ok q ∧ q.IsDefined := by
  intro corpus m source
  have hidf := Similarity.bm25_idf (show (0 : Int) ≤ 3 by decide) (le_refl (0 : Int))
  have hneg : Real.log (1 + (((0 - 3 : Int) : ℝ) + 1 / 2) / ((3 : Int) + 1 / 2)) < 0 := by
    apply Real.log_neg
    · norm_num
    · norm_num
  obtain ⟨-, hmined, -⟩ := arithmetic_isDefined (m := m) (Or.inr rfl) rfl
    (show 0 ≤ corpus.numDocs from le_rfl) (fun _ => show (0 : Int) ≤ 3 by decide) source
  have hterms : (Tally.ofLists [("f", [("a", 1)])]).terms = [(⟨"f", "a"⟩, 1)] := by decide
  have htally : m.tally corpus m.criteria source = .ok (.ofLists [("f", [("a", 1)])]) := by rfl
  exact ⟨⟨_, hneg, hidf⟩, _, htally, hterms, hmined _ htally⟩

end Miner
end TermMining
