import TermMining.Proofs.Miner.Forms
import TermMining.Proofs.Miner.Provenance
import TermMining.Proofs.Miner.Ranking
import TermMining.Proofs.Query.Tree

/-! A limit given in percent of the documents. Rounded down to a number of documents, it still lets
through just the terms that the exact percentage lets through. -/
namespace TermMining

variable {ω : Type} {corpus : Corpus}

namespace Selection

/-- Rounding the limit down does not move it across any number of documents. -/
theorem admits_limit_iff {c : Criteria ω} {p : Int} {term : Term} {n : Int} :
    Admits corpus { c with maxDocFreq := some (Int.fdiv (p * corpus.numDocs) 100) } term n ↔
      Admits corpus { c with maxDocFreq := none } term n ∧
        100 * corpus.docFreq term ≤ p * corpus.numDocs := by
  have hround : corpus.docFreq term ≤ Int.fdiv (p * corpus.numDocs) 100 ↔
      100 * corpus.docFreq term ≤ p * corpus.numDocs := by
    rw [Int.fdiv_eq_ediv_of_nonneg _ (by decide), Int.le_ediv_iff_mul_le (by decide), mul_comm]
  constructor
  · rintro ⟨htf, hoccurs, hmin, hmax⟩
    exact ⟨⟨htf, hoccurs, hmin, nofun⟩, hround.1 (hmax _ rfl)⟩
  · rintro ⟨⟨htf, hoccurs, hmin, -⟩, hle⟩
    refine ⟨htf, hoccurs, hmin, ?_⟩
    rintro limit ⟨rfl⟩
    exact hround.2 hle

variable [Weight ω] {sim : Similarity ω} {c : Criteria ω} {t : Tally}

theorem mem_drained_iff {l : List (Candidate ω)} (hroom : t.size ≤ c.maxQueryTerms)
    (hl : drained (select corpus sim c t) = .ok l) {a : Candidate ω} :
    a ∈ l ↔ t.count? a.term = some a.termFreq ∧ Admits corpus c a.term a.termFreq ∧
      IsScoring corpus sim a := by
  cases hs : select corpus sim c t with
  | error f =>
    rw [hs] at hl
    cases hl
  | ok s =>
    rw [hs] at hl
    obtain rfl := Except.ok.inj hl
    obtain rfl := Except.ok.inj (hs.symm.trans (select_eq_ok (exists_ok_of_select hs)))
    let cs := t.terms.filterMap (scored? corpus sim c)
    have hlen : cs.length ≤ t.size := by
      rw [← t.length_terms]
      exact List.length_filterMap_le _ _
    have hall : ((Shortlist.ofCapacity (min c.maxQueryTerms t.size)).offerAll cs).heap.toList.Perm
        (cs ++ []) := by
      apply Shortlist.offerAll_perm
      change 0 + cs.length ≤ (min c.maxQueryTerms t.size).toNat
      omega
    rw [List.append_nil] at hall
    -- with nothing passed over it does not matter how the scores compare, or if they do
    exact ((Shortlist.drain_perm_heap _).trans hall).mem_iff.trans mem_filterMap_scored?_iff

/-- Some count that the criteria let through is too large for a double. -/
def Overflows (corpus : Corpus) (c : Criteria Float) (t : Tally) : Prop :=
  ∃ term n, t.count? term = some n ∧ Admits corpus c term n ∧ Number.ofInt? n = none

variable {sim : Similarity Float} {c : Criteria Float}

theorem drained_of_overflows
    (hidf : ∀ term, ∃ x, sim.idf (corpus.docFreq term) corpus.numDocs = .ok x)
    (h : Overflows corpus c t) :
    drained (select corpus sim c t) = .error (.arithmetic .integerTooLarge) := by
  obtain ⟨term, n, hcount, hadmits, hlarge⟩ := h
  have hfails : ∃ e ∈ t.terms, ∃ g, candidate? corpus sim c e.1 e.2 = .error g := by
    obtain ⟨x, hx⟩ := hidf term
    have hw : (Weight.ofInt n : Except ArithFault Float) = .error .integerTooLarge := by
      rw [Number.weight_ofInt, hlarge]
      rfl
    exact ⟨(term, n), Tally.mem_terms_iff.2 hcount, _, candidate?_of_ofInt_error hadmits hx hw⟩
  have halike : ∀ e ∈ t.terms, ∀ g, candidate? corpus sim c e.1 e.2 = .error g →
      g = .arithmetic .integerTooLarge := by
    intro e _ g hg
    obtain ⟨x, hx⟩ := hidf e.1
    exact candidate?_error hx hg
  rw [select_eq_error halike hfails]
  rfl

theorem exists_isScoring (hidf : ∀ term, ∃ x, sim.idf (corpus.docFreq term) corpus.numDocs = .ok x)
    (h : ¬Overflows corpus c t) {term : Term} {n : Int} (hcount : t.count? term = some n)
    (hadmits : Admits corpus c term n) :
    ∃ a : Candidate Float, a.term = term ∧ a.termFreq = n ∧ IsScoring corpus sim a := by
  have hconverts : Number.ofInt? n ≠ none := fun hnone => h ⟨term, n, hcount, hadmits, hnone⟩
  obtain ⟨w, hw⟩ := Option.ne_none_iff_exists'.1 hconverts
  obtain ⟨x, hx⟩ := hidf term
  exact ⟨⟨term, Weight.mul w x, x, corpus.docFreq term, n⟩, rfl, rfl, rfl, hx, w,
    Number.ofInt_eq_ok_iff.2 hw, rfl⟩

theorem exists_drained (hidf : ∀ term, ∃ x, sim.idf (corpus.docFreq term) corpus.numDocs = .ok x)
    (h : ¬Overflows corpus c t) : ∃ l, drained (select corpus sim c t) = .ok l := by
  have hok : ∀ e ∈ t.terms, ∃ o, candidate? corpus sim c e.1 e.2 = .ok o := by
    rintro ⟨term, n⟩ he
    by_cases hadmits : Admits corpus c term n
    · obtain ⟨a, ha⟩ := exists_isScoring hidf h (Tally.mem_terms_iff.1 he) hadmits
      exact ⟨some a, candidate?_eq_some_iff.2 ⟨hadmits, ha⟩⟩
    · exact ⟨none, candidate?_of_not_admits hadmits⟩
  rw [select_eq_ok hok]
  exact ⟨_, rfl⟩

end Selection

namespace Miner

open Selection (Admits Overflows drained)

/-- The term is among those drained for the source. -/
def Picks [Weight ω] (m : Miner ω) (corpus : Corpus) (source : Source) (term : Term) : Prop :=
  ∃ l, drained (m.shortlist corpus source).answer = .ok l ∧ ∃ a ∈ l, a.term = term

theorem criteriaFor_limitDocFreq (m : Miner ω) (corpus : Corpus) (p : Int) (source : Source) :
    ((m.limitDocFreq corpus p).criteriaFor corpus source).1 =
      { (m.criteriaFor corpus source).1 with
        maxDocFreq := some (Int.fdiv (p * corpus.numDocs) 100) } := by
  cases source with
  | texts field texts => rfl
  | document id =>
    unfold criteriaFor limitDocFreq
    dsimp only
    split <;> rfl

/-- Of the terms that all other criteria let through a limit in percent lets through those that are
in no more than so many percent of the documents. -/
theorem admits_limitDocFreq_iff {m : Miner ω} {p : Int} {source : Source} {term : Term} {n : Int} :
    let c := ((m.limitDocFreq corpus p).criteriaFor corpus source).1
    Admits corpus c term n ↔
      Admits corpus { c with maxDocFreq := none } term n ∧
        100 * corpus.docFreq term ≤ p * corpus.numDocs := by
  rw [criteriaFor_limitDocFreq]
  exact Selection.admits_limit_iff

variable [Weight ω] {m : Miner ω} {source : Source}

theorem drained_shortlist_of_tally {t : Tally}
    (ht : m.tally corpus (m.criteriaFor corpus source).1 source = .ok t) :
    drained (m.shortlist corpus source).answer =
      drained (Selection.select corpus m.similarity (m.criteriaFor corpus source).1 t) := by
  unfold shortlist
  dsimp only
  rw [ht]
  rfl

theorem le_of_picks {p : Int} {term : Term}
    (h : (m.limitDocFreq corpus p).Picks corpus source term) :
    100 * corpus.docFreq term ≤ p * corpus.numDocs := by
  obtain ⟨l, hl, a, ha, rfl⟩ := h
  obtain ⟨t, -, -, hadmits, -⟩ := scored_of_mem_drained hl ha
  exact (admits_limitDocFreq_iff.1 hadmits).2

theorem picks_iff_of_ok {l : List (Candidate ω)}
    (hl : drained (m.shortlist corpus source).answer = .ok l) {term : Term} :
    m.Picks corpus source term ↔ ∃ a ∈ l, a.term = term := by
  constructor
  · rintro ⟨l', hl', h⟩
    rwa [Except.ok.inj (hl.symm.trans hl')]
  · exact fun h => ⟨l, hl, h⟩

theorem picks_of_mem_like {q : Group (Query ω) ω} (hq : (m.like corpus source).answer = .ok q)
    {term : Term} (h : term ∈ Query.clauseTerms q.clauses) : m.Picks corpus source term := by
  rw [like_def] at hq
  cases hl : drained (m.shortlist corpus source).answer with
  | error f =>
    rw [hl] at hq
    cases hq
  | ok l =>
    rw [hl] at hq
    obtain rfl := Except.ok.inj hq
    dsimp only at h
    rw [Group.addAll_eq, Query.shouldClauses_eq, List.nil_append, Query.clauseTerms_eq,
      List.mem_flatMap] at h
    obtain ⟨clause, hclause, hterm⟩ := h
    obtain ⟨a, ha, rfl⟩ := List.mem_map.1 (List.mem_of_mem_take hclause)
    exact ⟨l, hl, a, ha, (List.mem_singleton.1 hterm).symm⟩

theorem mem_words_iff {ws : List String} (hws : (m.words corpus source).answer = .ok ws)
    {w : String} : w ∈ ws ↔ ∃ term, m.Picks corpus source term ∧ term.text = w := by
  rw [words_def] at hws
  cases hl : drained (m.shortlist corpus source).answer with
  | error f =>
    rw [hl] at hws
    cases hws
  | ok l =>
    rw [hl] at hws
    obtain rfl := Except.ok.inj hws
    simp only [List.mem_map, picks_iff_of_ok hl, exists_exists_and_eq_and]

/-- A limit in percent, set while the corpus is as it is mined, is exact. Whatever is handed out in
any form is in no more than so many percent of the documents. Mining fails if a count that all
criteria let through is too large for a double, and else, with room for every term counted, those
terms are picked of all that the other criteria let through that are in no more than so many percent
of the documents. -/
theorem limitDocFreq_exact (m : Miner Float) (corpus : Corpus) (p : Int) (source : Source)
    (hidf : ∀ term, ∃ x, m.similarity.idf (corpus.docFreq term) corpus.numDocs = .ok x) :
    let limited := m.limitDocFreq corpus p
    let c := (limited.criteriaFor corpus source).1
    let answer := drained (limited.shortlist corpus source).answer
    (∀ term, limited.Picks corpus source term →
      100 * corpus.docFreq term ≤ p * corpus.numDocs) ∧
    (∀ q, (limited.like corpus source).answer = .ok q →
      ∀ term ∈ Query.clauseTerms q.clauses, limited.Picks corpus source term) ∧
    (∀ ws, (limited.words corpus source).answer = .ok ws →
      ∀ w, w ∈ ws ↔ ∃ term, limited.Picks corpus source term ∧ term.text = w) ∧
    ∀ t, limited.tally corpus c source = .ok t →
      (Overflows corpus c t → answer = .error (.arithmetic .integerTooLarge)) ∧
      (¬Overflows corpus c t → (∃ l, answer = .ok l) ∧
        (t.size ≤ c.maxQueryTerms → ∀ term n, t.count? term = some n →
          Admits corpus { c with maxDocFreq := none } term n →
          (limited.Picks corpus source term ↔
            100 * corpus.docFreq term ≤ p * corpus.numDocs))) := by
  intro limited c answer
  refine ⟨fun _ => le_of_picks, fun q hq _ => picks_of_mem_like hq,
    fun ws hws w => mem_words_iff hws, ?_⟩
  intro t ht
  have hanswer : answer = drained (Selection.select corpus m.similarity c t) :=
    drained_shortlist_of_tally ht
  constructor
  · intro hover
    rw [hanswer]
    exact Selection.drained_of_overflows hidf hover
  · intro hover
    obtain ⟨l, hl⟩ := Selection.exists_drained hidf hover
    refine ⟨⟨l, hanswer.trans hl⟩, ?_⟩
    intro hroom term n hcount hothers
    refine ⟨le_of_picks, fun hle => ?_⟩
    have hadmits : Admits corpus c term n := admits_limitDocFreq_iff.2 ⟨hothers, hle⟩
    obtain ⟨a, rfl, rfl, hscoring⟩ := Selection.exists_isScoring hidf hover hcount hadmits
    exact ⟨l, hanswer.trans hl, a,
      (Selection.mem_drained_iff hroom hl).2 ⟨hcount, hadmits, hscoring⟩, rfl⟩

/-- Of seven documents 30 percent are 2.1, so two of them are within the limit and three are not. -/
theorem limitDocFreq_exact_fraction :
    let m := impartial 2 ["f"]
    let corpus : Corpus :=
      { counted fun _ => [("a", 1), ("b", 1)] with
        numDocs := 7
        docFreq := fun term => if term.text = "a" then 2 else 3 }
    let limited := m.limitDocFreq corpus 30
    (∀ term, ∃ x, m.similarity.idf (corpus.docFreq term) corpus.numDocs = .ok x) ∧
      limited.Picks corpus (.document "1") ⟨"f", "a"⟩ ∧
      ¬limited.Picks corpus (.document "1") ⟨"f", "b"⟩ := by
  intro m corpus limited
  have hidf : ∀ term, ∃ x, m.similarity.idf (corpus.docFreq term) corpus.numDocs = .ok x :=
    fun _ => ⟨2, rfl⟩
  obtain ⟨hwithin, -, -, htally⟩ := limitDocFreq_exact m corpus 30 (.document "1") hidf
  let t : Tally := .ofLists [("f", [("a", 1), ("b", 1)])]
  have honce : ∀ e ∈ t.terms, e.2 = 1 := by decide
  have hover : ¬Overflows corpus (limited.criteriaFor corpus (.document "1")).1 t := by
    rintro ⟨term, n, hcount, -, hnone⟩
    obtain rfl : n = 1 := honce _ (Tally.mem_terms_iff.2 hcount)
    revert hnone
    decide
  obtain ⟨-, hexact⟩ := (htally t rfl).2 hover
  refine ⟨hidf, ?_, fun hb => absurd (hwithin _ hb) (by decide)⟩
  have hothers : Admits corpus
      { (limited.criteriaFor corpus (.document "1")).1 with maxDocFreq := none } ⟨"f", "a"⟩ 1 :=
    ⟨Or.inl (by decide), by decide, Or.inl (by decide), nofun⟩
  exact (hexact (by decide) ⟨"f", "a"⟩ 1 rfl hothers).2 (by decide)

/-- One count too large for a double is enough for nothing to be picked. -/
theorem not_forall_limitDocFreq_exact :
    ¬∀ (m : Miner Float) (corpus : Corpus) (p : Int) (source : Source),
      (∀ docFreq numDocs, ∃ x, m.similarity.idf docFreq numDocs = .ok x ∧ x.isNaN = false) →
      let limited := m.limitDocFreq corpus p
      let c := (limited.criteriaFor corpus source).1
      ∀ t, limited.tally corpus c source = .ok t → t.size ≤ c.maxQueryTerms →
        ∀ term n, t.count? term = some n → Admits corpus { c with maxDocFreq := none } term n →
          (limited.Picks corpus source term ↔
            100 * corpus.docFreq term ≤ p * corpus.numDocs) := by
  intro h
  let m := impartial 0 ["f"]
  let corpus (n : Int) := counted fun _ => [("a", n), ("b", 1)]
  let limited (n : Int) := m.limitDocFreq (corpus n) 100
  let c (n : Int) := ((limited n).criteriaFor (corpus n) (.document "1")).1
  let t (n : Int) : Tally := .ofLists [("f", [("a", n), ("b", 1)])]
  have htally : ∀ n, (limited n).tally (corpus n) (c n) (.document "1") = .ok (t (0 + n)) :=
    fun _ => rfl
  have hcount : ∀ n, (t n).count? ⟨"f", "a"⟩ = some n := fun _ => rfl
  have hothers : ∀ n term k, Admits (corpus n) { c n with maxDocFreq := none } term k :=
    fun _ _ _ => ⟨Or.inl (Int.le_refl 0), Int.one_ne_zero, Or.inl (Int.le_refl 0), nofun⟩
  have hlarge : Overflows (corpus (10 ^ 400)) (c (10 ^ 400)) (t (0 + 10 ^ 400)) := by
    refine ⟨⟨"f", "a"⟩, _, hcount _, ?_, by decide +kernel⟩
    exact admits_limitDocFreq_iff.2 ⟨hothers _ _ _, by decide⟩
  obtain ⟨l, hl, -⟩ := (h m (corpus (10 ^ 400)) 100 (.document "1")
    (fun _ _ => ⟨0, rfl, by decide⟩) (t _) (htally _) (by decide) ⟨"f", "b"⟩ 1 rfl
    (hothers _ _ _)).2 (by decide)
  rw [drained_shortlist_of_tally (htally _),
    Selection.drained_of_overflows (fun _ => ⟨0, rfl⟩) hlarge] at hl
  cases hl

end Miner
end TermMining
