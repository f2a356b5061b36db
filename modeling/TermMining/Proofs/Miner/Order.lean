import TermMining.Proofs.Miner.Ranking

/-! Fields and texts that come in another order are counted alike, so they are ranked alike. -/
namespace TermMining

variable {ω : Type}

namespace Miner

open Selection (drained IsScorable ZerosScored)

def overFields (m : Miner ω) (names : List String) : Miner ω :=
  { m with criteria.fieldNames := names }

theorem criteriaFor_overFields (m : Miner ω) {names : List String} (hne : names ≠ [])
    (corpus : Corpus) (id : String) :
    (m.overFields names).criteriaFor corpus (.document id) =
      ({ m.criteria with fieldNames := names }, []) := by
  have hopen : names.isEmpty = false := List.isEmpty_eq_false_iff.2 hne
  unfold criteriaFor overFields
  dsimp only
  rw [hopen]
  rfl

theorem tally_overFields (m : Miner ω) {names : List String} (hne : names ≠ [])
    (corpus : Corpus) (id : String) :
    (m.overFields names).tally corpus
        ((m.overFields names).criteriaFor corpus (.document id)).1 (.document id) =
      Tally.ofDocument m.criteria m.analyzer corpus id names := by
  have hlike : Tally.CountsLike { m.criteria with fieldNames := names } m.criteria :=
    ⟨fun _ => rfl, rfl⟩
  rw [criteriaFor_overFields m hne]
  exact hlike.ofDocument_eq m.analyzer corpus id names

variable [Weight ω]

/-- Two miners get the same out of their sources. -/
structure MinesAlike (m m' : Miner ω) (corpus : Corpus) (source source' : Source) : Prop where
  drained : drained (m.shortlist corpus source).answer =
    drained (m'.shortlist corpus source').answer
  like : m.like corpus source = m'.like corpus source'
  words : m.words corpus source = m'.words corpus source'

theorem MinesAlike.refl (m : Miner ω) (corpus : Corpus) (source : Source) :
    MinesAlike m m corpus source source := ⟨rfl, rfl, rfl⟩

variable {m m' : Miner ω} {corpus : Corpus} {source source' : Source}

theorem MinesAlike.of_drained (hcap : m.maxClauses = m'.maxClauses)
    (hboosting : m.boosting = m'.boosting)
    (hd : Selection.drained (m.shortlist corpus source).answer =
      Selection.drained (m'.shortlist corpus source').answer)
    (hw : (m.shortlist corpus source).warnings = (m'.shortlist corpus source').warnings) :
    MinesAlike m m' corpus source source' := by
  constructor
  · exact hd
  · rw [like_def, like_def, hd, hw, hcap, hboosting]
  · rw [words_def, words_def, hd, hw]

variable [PlacedWeight ω] {names names' : List String}

theorem drained_overFields (hne : names ≠ []) {id : String} {t : Tally}
    (ht : Tally.ofDocument m.criteria m.analyzer corpus id names = .ok t)
    (hscores : IsScorable corpus m.similarity m.criteria t) :
    Selection.drained ((m.overFields names).shortlist corpus (.document id)).answer =
      (Selection.ranking corpus m.similarity m.criteria t).map fun r =>
        r.take m.criteria.maxQueryTerms.toNat := by
  have htally := (m.tally_overFields hne corpus id).trans ht
  have hcriteria := congrArg Prod.fst (m.criteriaFor_overFields hne corpus id)
  have hall : (m.overFields names).Scores corpus (.document id) := by
    intro u hu a hcount hadmits
    obtain rfl : t = u := Except.ok.inj (htally.symm.trans hu)
    rw [hcriteria] at hadmits
    exact hscores a hcount ⟨hadmits.termFreq, hadmits.occurs, hadmits.minDocFreq, hadmits.maxDocFreq⟩
  rw [drained_shortlist hall]
  unfold ranking
  dsimp only
  rw [htally, hcriteria]
  rfl

theorem MinesAlike.of_terms_perm (hne : names ≠ []) (hne' : names' ≠ [])
    (hidf : ∀ term, ∃ x, m.similarity.idf (corpus.docFreq term) corpus.numDocs = .ok x)
    {id : String} {t u : Tally}
    (ht : Tally.ofDocument m.criteria m.analyzer corpus id names = .ok t)
    (hu : Tally.ofDocument m.criteria m.analyzer corpus id names' = .ok u)
    (hterms : t.terms.Perm u.terms) (hscores : IsScorable corpus m.similarity m.criteria t) :
    MinesAlike (m.overFields names) (m.overFields names') corpus (.document id) (.document id) := by
  refine MinesAlike.of_drained rfl rfl ?_ ?_
  · rw [drained_overFields hne ht hscores, drained_overFields hne' hu (hscores.of_perm hterms),
      Selection.ranking_congr hidf hscores hterms]
  · unfold shortlist
    rw [criteriaFor_overFields m hne, criteriaFor_overFields m hne']

theorem minesAlike_fields {a : Analyzer} (ha : m.analyzer = some a)
    (hidf : ∀ term, ∃ x, m.similarity.idf (corpus.docFreq term) corpus.numDocs = .ok x)
    (hp : names.Perm names') {id : String} (hlive : corpus.IsLive id)
    (hscores : ∀ t, Tally.ofDocument m.criteria m.analyzer corpus id names = .ok t →
      IsScorable corpus m.similarity m.criteria t) :
    MinesAlike (m.overFields names) (m.overFields names') corpus (.document id) (.document id) := by
  by_cases hne : names = []
  · -- with no field chosen all are mined, in an order that is not the caller's
    obtain rfl : names' = [] := (hne ▸ hp).nil_eq.symm
    rw [hne]
    exact MinesAlike.refl _ corpus (.document id)
  · have hne' : names' ≠ [] := fun h => hne (h ▸ hp).eq_nil
    have hrow : ∀ f ∈ names, ∃ l, Tally.row m.criteria m.analyzer corpus id f = .ok l := by
      intro f _
      rw [ha]
      exact Tally.exists_row_of_isLive m.criteria hlive a f
    obtain ⟨t, u, ht, hu, hterms⟩ := Tally.exists_terms_perm_ofDocument m.criteria hp hrow
    exact MinesAlike.of_terms_perm hne hne' hidf ht hu hterms (hscores t ht)

/-- Texts in another order are drained alike if all of their tokens are read. -/
theorem minesAlike_texts {a : Analyzer} (ha : m.analyzer = some a)
    (hidf : ∀ term, ∃ x, m.similarity.idf (corpus.docFreq term) corpus.numDocs = .ok x ∧
      PlacedWeight.place x ≠ ⊥)
    {field : String} {texts texts' : List String} (hp : texts.Perm texts')
    (htokens : (texts.flatMap (a.fieldTerms field)).length ≤ m.criteria.maxTokens) :
    MinesAlike m m corpus (.texts field texts) (.texts field texts') := by
  have hwords := hp.flatMap_right (a.fieldTerms field)
  have htokens' : (texts'.flatMap (a.fieldTerms field)).length ≤ m.criteria.maxTokens := by
    rwa [← hwords.length_eq]
  apply MinesAlike.of_drained rfl rfl
  · rw [shortlist_texts, shortlist_texts, ha, Tally.ofTexts_eq m.criteria field a htokens,
      Tally.ofTexts_eq m.criteria field a htokens']
    have hne : ∀ e ∈ (Tally.ofWords m.criteria field (texts.flatMap (a.fieldTerms field))).terms,
        e.2 ≠ 0 := by
      intro e he
      have hpos := (Tally.count_bounds_ofWords m.criteria field he).1
      omega
    exact Selection.drain_select_congr hidf hne (Tally.terms_ofWords_perm m.criteria field hwords)
  · rfl

/-- The order of the fields of a document makes no difference, and neither does that of texts whose
tokens are all read: the same terms are drained, and the same query and the same words come of
them. -/
theorem minesAlike_reordered (m : Miner Float) (corpus : Corpus) {a : Analyzer}
    (ha : m.analyzer = some a)
    (hidf : ∀ term, ∃ x, m.similarity.idf (corpus.docFreq term) corpus.numDocs = .ok x ∧
      x.isNaN = false) :
    (∀ id names names', names.Perm names' → corpus.IsLive id →
      (∀ t, Tally.ofDocument m.criteria m.analyzer corpus id names = .ok t →
        ZerosScored corpus m.similarity m.criteria t) →
      MinesAlike (m.overFields names) (m.overFields names') corpus (.document id)
        (.document id)) ∧
    ∀ field texts texts', texts.Perm texts' →
      (texts.flatMap (a.fieldTerms field)).length ≤ m.criteria.maxTokens →
      MinesAlike m m corpus (.texts field texts) (.texts field texts') := by
  constructor
  · intro id names names' hp hlive hzero
    have hok : ∀ term, ∃ x, m.similarity.idf (corpus.docFreq term) corpus.numDocs = .ok x :=
      fun term => (hidf term).imp fun _ hx => hx.1
    have hnumber : ∀ term x, m.similarity.idf (corpus.docFreq term) corpus.numDocs = .ok x →
        x.isNaN = false := fun _ _ => Selection.of_idf_eq_ok hidf
    exact minesAlike_fields ha hok hp hlive fun t ht =>
      Selection.isScorable_double hnumber (hzero t ht)
  · intro field texts texts' hp htokens
    have hplace : ∀ term, ∃ x, m.similarity.idf (corpus.docFreq term) corpus.numDocs = .ok x ∧
        PlacedWeight.place x ≠ ⊥ := by
      intro term
      obtain ⟨x, hx, hnan⟩ := hidf term
      exact ⟨x, hx, (Number.place_ne_bot_iff x).2 hnan⟩
    exact minesAlike_texts ha hplace hp htokens

theorem isLive_counted (rows : String → List (String × Int)) (id : String) :
    (counted rows).IsLive id := ⟨⟨_, rfl⟩, fun _ => ⟨_, rfl⟩⟩

/-- Two fields with terms of equal scores, and two texts of which the later one has the better
term. -/
theorem minesAlike_reordered_tied :
    let m := impartial 2 []
    let corpus := counted fun field => if field = "f" then [("b", 1), ("a", 2)] else [("b", 2)]
    asked ((m.overFields ["g", "f"]).like corpus (.document "1")) =
      some [⟨"f", "a"⟩, ⟨"g", "b"⟩, ⟨"f", "b"⟩] ∧
    MinesAlike (m.overFields ["f", "g"]) (m.overFields ["g", "f"]) corpus (.document "1")
      (.document "1") ∧
    asked (m.like corpus (.texts "f" ["b", "a", "a"])) = some [⟨"f", "a"⟩, ⟨"f", "b"⟩] ∧
    MinesAlike m m corpus (.texts "f" ["b", "a", "a"]) (.texts "f" ["a", "b", "a"]) := by
  intro m corpus
  obtain ⟨hfields, htexts⟩ := minesAlike_reordered m corpus rfl fun _ => ⟨2, rfl, by decide⟩
  have hzero : ∀ t, Tally.ofDocument m.criteria m.analyzer corpus "1" ["f", "g"] = .ok t →
      ZerosScored corpus m.similarity m.criteria t := by
    intro t ht term hcount
    obtain rfl : Tally.ofLists [("f", [("b", 1), ("a", 2)]), ("g", [("b", 2)])] = t :=
      Except.ok.inj ht
    have hpositive : ∀ e ∈ (Tally.ofLists [("f", [("b", 1), ("a", 2)]), ("g", [("b", 2)])]).terms,
        e.2 ≠ 0 := by decide
    exact absurd rfl (hpositive _ (Tally.mem_terms_iff.2 hcount))
  constructor
  · decide +kernel
  constructor
  · exact hfields "1" ["f", "g"] ["g", "f"] (List.Perm.swap _ _ _) (isLive_counted _ "1") hzero
  constructor
  · decide +kernel
  · exact htexts "f" ["b", "a", "a"] ["a", "b", "a"] (List.Perm.swap _ _ _) (by decide)

/-- Without the condition on counts of zero the order of the fields shows. -/
theorem not_forall_minesAlike :
    ¬∀ (m : Miner Float) (corpus : Corpus) (a : Analyzer) (id : String) (names names' : List String),
      m.analyzer = some a →
      (∀ docFreq numDocs, ∃ x, m.similarity.idf docFreq numDocs = .ok x ∧ x.isNaN = false) →
      names.Nodup → names.Perm names' → corpus.IsLive id →
      MinesAlike (m.overFields names) (m.overFields names') corpus (.document id)
        (.document id) := by
  intro h
  let rows : String → List (String × Int) := fun field =>
    if field = "f" then [("a", 0)] else [("b", 1)]
  have halike := h (impartial (1 / 0) []) (counted rows) .keyword "1" ["f", "g"] ["g", "f"] rfl
    (fun _ _ => ⟨1 / 0, rfl, by decide⟩) (by decide) (List.Perm.swap _ _ _)
    (isLive_counted rows "1")
  have hwords := congrArg (fun r => r.answer.toOption) halike.words
  revert hwords
  decide +kernel

end Miner
end TermMining
