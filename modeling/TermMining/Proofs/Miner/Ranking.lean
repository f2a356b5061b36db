import TermMining.Proofs.Miner.Forms
import TermMining.Proofs.Tally.Rows

/-! All results of a miner are cut off one ranking, which depends on no bound. -/
namespace TermMining

variable {ω : Type}

def Miner.bounded (m : Miner ω) (terms clauses : Int) : Miner ω :=
  { m with criteria.maxQueryTerms := terms, maxClauses := clauses }

@[simp] theorem Miner.maxQueryTerms_bounded (m : Miner ω) (k c : Int) :
    (m.bounded k c).criteria.maxQueryTerms = k := rfl

@[simp] theorem Miner.maxClauses_bounded (m : Miner ω) (k c : Int) :
    (m.bounded k c).maxClauses = c := rfl

@[simp] theorem Miner.boosting_bounded (m : Miner ω) (k c : Int) :
    (m.bounded k c).boosting = m.boosting := rfl

theorem Miner.criteriaFor_bounded (m : Miner ω) (corpus : Corpus) (source : Source) (k c : Int) :
    (m.bounded k c).criteriaFor corpus source =
      ({ (m.criteriaFor corpus source).1 with maxQueryTerms := k },
        (m.criteriaFor corpus source).2) := by
  cases source with
  | texts field texts => rfl
  | document id =>
    cases hopen : m.criteria.fieldNames.isEmpty <;>
      simp [criteriaFor, bounded, Criteria.withFieldNames, hopen]

theorem Miner.tally_bounded (m : Miner ω) (corpus : Corpus) (source : Source) (k c : Int) :
    (m.bounded k c).tally corpus ((m.bounded k c).criteriaFor corpus source).1 source =
      m.tally corpus (m.criteriaFor corpus source).1 source := by
  rw [criteriaFor_bounded]
  have hlike : Tally.CountsLike { (m.criteriaFor corpus source).1 with maxQueryTerms := k }
      (m.criteriaFor corpus source).1 := ⟨fun _ => rfl, rfl⟩
  cases source with
  | texts field texts => exact hlike.ofTexts_eq m.analyzer field texts
  | document id => exact hlike.ofDocument_eq m.analyzer corpus id _

variable [Weight ω]

theorem Query.length_shouldClauses (b : Boosting ω) (ranked : List (Candidate ω)) :
    (shouldClauses b ranked).length = ranked.length := by
  rw [shouldClauses_eq, List.length_map]

/-- The clauses of the first terms are the first clauses, since the score that all are weighed by
is that of the very first. -/
theorem Query.shouldClauses_take (b : Boosting ω) (ranked : List (Candidate ω)) (n : Nat) :
    shouldClauses b (ranked.take n) = (shouldClauses b ranked).take n := by
  cases n with
  | zero => rfl
  | succ n =>
    cases ranked with
    | nil => rfl
    | cons best rest =>
      have hbest : bestScore ((best :: rest).take (n + 1)) = bestScore (best :: rest) := rfl
      rw [shouldClauses_eq, shouldClauses_eq, hbest, List.map_take]

namespace Miner

open Selection (drained IsScorable ZerosScored)

variable {m : Miner ω} {corpus : Corpus} {source : Source}

/-- All that can be mined of a source, best first. -/
def ranking (m : Miner ω) (corpus : Corpus) (source : Source) : Except Fault (List (Candidate ω)) :=
  let c := (m.criteriaFor corpus source).1
  (m.tally corpus c source).bind (Selection.ranking corpus m.similarity c)

theorem ranking_bounded (m : Miner ω) (corpus : Corpus) (source : Source) (k c : Int) :
    (m.bounded k c).ranking corpus source = m.ranking corpus source := by
  unfold ranking
  dsimp only
  rw [tally_bounded, criteriaFor_bounded]
  rfl

theorem warnings_bounded (m : Miner ω) (corpus : Corpus) (source : Source) (k c : Int) :
    ((m.bounded k c).shortlist corpus source).warnings = (m.shortlist corpus source).warnings := by
  unfold shortlist
  rw [criteriaFor_bounded]

theorem length_le_of_ranking {r : List (Candidate ω)} (h : m.ranking corpus source = .ok r) :
    ∃ t, m.tally corpus (m.criteriaFor corpus source).1 source = .ok t ∧ r.length ≤ t.size := by
  unfold ranking at h
  dsimp only at h
  cases ht : m.tally corpus (m.criteriaFor corpus source).1 source with
  | error f =>
    rw [ht] at h
    cases h
  | ok t =>
    rw [ht] at h
    exact ⟨t, rfl, Selection.length_le_of_ranking h⟩

variable [PlacedWeight ω]

/-- Whatever is counted of the source is scored by numbers. -/
def Scores (m : Miner ω) (corpus : Corpus) (source : Source) : Prop :=
  ∀ t, m.tally corpus (m.criteriaFor corpus source).1 source = .ok t →
    IsScorable corpus m.similarity (m.criteriaFor corpus source).1 t

theorem Scores.bounded (h : m.Scores corpus source) (k c : Int) :
    (m.bounded k c).Scores corpus source := by
  intro t ht a hcount hadmits hscoring
  rw [tally_bounded] at ht
  rw [criteriaFor_bounded] at hadmits
  exact h t ht a hcount
    ⟨hadmits.termFreq, hadmits.occurs, hadmits.minDocFreq, hadmits.maxDocFreq⟩ hscoring

theorem drained_shortlist (h : m.Scores corpus source) :
    drained (m.shortlist corpus source).answer =
      (m.ranking corpus source).map fun r => r.take m.criteria.maxQueryTerms.toNat := by
  unfold ranking shortlist
  dsimp only
  cases ht : m.tally corpus (m.criteriaFor corpus source).1 source with
  | error f => rfl
  | ok t =>
    have hdrained := Selection.drained_select (h t ht)
    rw [maxQueryTerms_criteriaFor] at hdrained
    exact hdrained

theorem like_eq_take (h : m.Scores corpus source) :
    m.like corpus source =
      ⟨(m.ranking corpus source).map fun r =>
        { clauses := (Query.shouldClauses m.boosting r).take
            (min m.maxClauses.toNat m.criteria.maxQueryTerms.toNat)
          boost := Weight.one
          maxClauses := m.maxClauses }, (m.shortlist corpus source).warnings⟩ := by
  rw [like_def, drained_shortlist h]
  cases m.ranking corpus source with
  | error f => rfl
  | ok r =>
    simp only [Except.map]
    rw [Group.addAll_eq, Query.shouldClauses_take, List.nil_append, List.length_nil,
      Int.natCast_zero, Int.sub_zero, List.take_take]

/-- Bounds on the terms and the clauses take a front of the query that is not bounded. -/
theorem like_bounded (h : m.Scores corpus source) {k c K C : Int}
    (hbounds : ∀ t, m.tally corpus (m.criteriaFor corpus source).1 source = .ok t →
      t.size ≤ K ∧ t.size ≤ C) :
    let whole := (m.bounded K C).like corpus source
    (m.bounded k c).like corpus source =
      ⟨whole.answer.map fun q =>
        { q with clauses := q.clauses.take (min k.toNat c.toNat), maxClauses := c },
        whole.warnings⟩ := by
  dsimp only
  rw [like_eq_take (h.bounded k c), like_eq_take (h.bounded K C), ranking_bounded,
    ranking_bounded, warnings_bounded, warnings_bounded]
  cases hr : m.ranking corpus source with
  | error f => rfl
  | ok r =>
    obtain ⟨t, ht, hlen⟩ := length_le_of_ranking hr
    obtain ⟨hK, hC⟩ := hbounds t ht
    have hall : (Query.shouldClauses m.boosting r).take (min C.toNat K.toNat) =
        Query.shouldClauses m.boosting r := by
      apply List.take_of_length_le
      rw [Query.length_shouldClauses]
      omega
    have hfront : (Query.shouldClauses m.boosting r).take (min c.toNat k.toNat) =
        ((Query.shouldClauses m.boosting r).take (min C.toNat K.toNat)).take
          (min k.toNat c.toNat) := by
      rw [hall, Nat.min_comm]
    simp only [Except.map, maxQueryTerms_bounded, maxClauses_bounded, boosting_bounded]
    rw [hfront]

/-- With doubles the bounds take a front of the whole query if no idf is NaN and no count of zero
makes it of an infinite one. -/
theorem like_bounded_double (m : Miner Float) (corpus : Corpus) (source : Source)
    (k c K C : Int)
    (hidf : ∀ term x, m.similarity.idf (corpus.docFreq term) corpus.numDocs = .ok x →
      x.isNaN = false)
    (hzero : ∀ t, m.tally corpus (m.criteriaFor corpus source).1 source = .ok t →
      ZerosScored corpus m.similarity (m.criteriaFor corpus source).1 t)
    (hbounds : ∀ t, m.tally corpus (m.criteriaFor corpus source).1 source = .ok t →
      t.size ≤ K ∧ t.size ≤ C) :
    let whole := (m.bounded K C).like corpus source
    (m.bounded k c).like corpus source =
      ⟨whole.answer.map fun q =>
        { q with clauses := q.clauses.take (min k.toNat c.toNat), maxClauses := c },
        whole.warnings⟩ := by
  have hscores : m.Scores corpus source := by
    intro t ht
    exact Selection.isScorable_double hidf (hzero t ht)
  exact like_bounded hscores hbounds

/-- Documents that count so many of each term in each field, where every term is worth the same. -/
def counted (rows : String → List (String × Int)) : Corpus :=
  { Selection.everywhere with
    vector := fun _ field => .ok (some ⟨field, rows field⟩)
    document := fun id => .ok ⟨id, .empty⟩ }

/-- Rules no term out of the fields given, and scores it by its count and the idf given. -/
def impartial (idf : Float) (fields : List String) : Miner Float where
  similarity := Selection.constantly idf
  analyzer := some .keyword
  criteria := { Selection.lenient with boost := true, fieldNames := fields }

def asked (r : Remarked (Group (Query Float) Float)) : Option (List Term) :=
  r.answer.toOption.map fun q => Query.clauseTerms q.clauses

/-- Three terms in a field, of which the bound on the terms leaves two. -/
theorem like_bounded_double_cut :
    let m := impartial 2 ["f"]
    let corpus := counted fun _ => [("a", 1), ("b", 3), ("c", 2)]
    let whole := (m.bounded 3 3).like corpus (.document "1")
    asked whole = some [⟨"f", "b"⟩, ⟨"f", "c"⟩, ⟨"f", "a"⟩] ∧
    asked ((m.bounded 2 7).like corpus (.document "1")) = some [⟨"f", "b"⟩, ⟨"f", "c"⟩] ∧
    (m.bounded 2 7).like corpus (.document "1") =
      ⟨whole.answer.map fun q => { q with clauses := q.clauses.take 2, maxClauses := 7 },
        whole.warnings⟩ := by
  intro m corpus whole
  have htally : ∀ t, m.tally corpus (m.criteriaFor corpus (.document "1")).1 (.document "1") =
      .ok t → t = .ofLists [("f", [("a", 1), ("b", 3), ("c", 2)])] := by
    intro t ht
    exact (Except.ok.inj ht).symm
  refine ⟨by decide +kernel, by decide +kernel, ?_⟩
  apply like_bounded_double m corpus (.document "1") 2 7 3 3
  · intro term x hx
    obtain rfl : 2 = x := Except.ok.inj hx
    decide
  · intro t ht term hcount
    have hpositive : ∀ e ∈ (Tally.ofLists [("f", [("a", 1), ("b", 3), ("c", 2)])]).terms,
        e.2 ≠ 0 := by decide
    rw [htally t ht] at hcount
    exact absurd rfl (hpositive _ (Tally.mem_terms_iff.2 hcount))
  · intro t ht
    rw [htally t ht]
    decide

/-- Without the condition on counts of zero a bound may keep what is not the front of the whole
query. -/
theorem not_forall_like_bounded :
    ¬∀ (m : Miner Float) (corpus : Corpus) (source : Source) (k c K C : Int),
      (∀ docFreq numDocs, ∃ x, m.similarity.idf docFreq numDocs = .ok x ∧ x.isNaN = false) →
      (∀ t, m.tally corpus (m.criteriaFor corpus source).1 source = .ok t →
        t.size ≤ K ∧ t.size ≤ C) →
      let whole := (m.bounded K C).like corpus source
      (m.bounded k c).like corpus source =
        ⟨whole.answer.map fun q =>
          { q with clauses := q.clauses.take (min k.toNat c.toNat), maxClauses := c },
          whole.warnings⟩ := by
  intro h
  let m := impartial (1 / 0) ["f"]
  let corpus := counted fun _ => [("a", 0), ("b", 1)]
  have hbounds : ∀ t, m.tally corpus (m.criteriaFor corpus (.document "1")).1 (.document "1") =
      .ok t → t.size ≤ (2 : Int) ∧ t.size ≤ (2 : Int) := by
    intro t ht
    obtain rfl : Tally.ofLists [("f", [("a", 0), ("b", 1)])] = t := Except.ok.inj ht
    decide
  have hcut := congrArg asked (h m corpus (.document "1") 1 2 2 2
    (fun _ _ => ⟨1 / 0, rfl, by decide⟩) hbounds)
  revert hcut
  decide +kernel

end Miner
end TermMining
