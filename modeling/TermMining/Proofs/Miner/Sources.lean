import TermMining.Miner
import TermMining.Proofs.Index.Versions
import TermMining.Proofs.Selection.Agreement
import TermMining.Proofs.Tally.Counting

/-! A document and its stored texts are mined alike. Vectors hold the counts of the texts in another
order, and the order of counting makes no difference to what is selected. -/
namespace TermMining

namespace Tally

variable {ω : Type} {c : Criteria ω} {analyzer : Option Analyzer} {corpus : Corpus}
  {id field : String}

theorem ofDocument_singleton :
    ofDocument c analyzer corpus id [field] = addField c analyzer corpus id .empty field := by
  unfold ofDocument
  rw [List.foldlM_cons]
  cases addField c analyzer corpus id .empty field <;> rfl

theorem addField_of_no_vector {d : StoredDocument} (hv : corpus.vector id field = .ok none)
    (hd : corpus.document id = .ok d) (t : Tally) :
    addField c analyzer corpus id t field = addTexts c analyzer t field (d.values field) := by
  unfold addField
  rw [hv, hd]
  rfl

theorem addField_of_vector {v : TermVector} (hv : corpus.vector id field = .ok (some v))
    (t : Tally) : addField c analyzer corpus id t field = .ok (t.addVector c field v) := by
  unfold addField
  rw [hv]
  rfl

end Tally

namespace Miner

open Selection (drained)

variable {ω : Type} [Weight ω] {m : Miner ω} {corpus : Corpus} {id field : String}

theorem shortlist_texts (texts : List String) :
    m.shortlist corpus (.texts field texts) =
      ⟨(Tally.ofTexts m.criteria m.analyzer field texts).bind
        (Selection.select corpus m.similarity m.criteria), []⟩ := rfl

theorem shortlist_document (hf : m.criteria.fieldNames = [field]) :
    m.shortlist corpus (.document id) =
      ⟨(Tally.addField m.criteria m.analyzer corpus id .empty field).bind
        (Selection.select corpus m.similarity m.criteria), []⟩ := by
  have hcriteria : m.criteriaFor corpus (.document id) = (m.criteria, []) := by
    unfold criteriaFor
    rw [hf]
    rfl
  unfold shortlist tally
  rw [hcriteria]
  dsimp only
  rw [hf, Tally.ofDocument_singleton]
  rfl

theorem shortlist_texts_congr {other : Corpus} (hn : corpus.numDocs = other.numDocs)
    (hdf : ∀ t, corpus.docFreq t = other.docFreq t) (texts : List String) :
    m.shortlist corpus (.texts field texts) = m.shortlist other (.texts field texts) := by
  have hselect : Selection.select corpus m.similarity m.criteria =
      Selection.select other m.similarity m.criteria :=
    funext (Selection.select_congr_corpus hn hdf)
  rw [shortlist_texts, shortlist_texts, hselect]

theorem like_def (m : Miner ω) (corpus : Corpus) (s : Source) :
    m.like corpus s =
      ⟨(drained (m.shortlist corpus s).answer).map fun ranked =>
        Group.addAll { boost := Weight.one, maxClauses := m.maxClauses }
          (Query.shouldClauses m.boosting ranked), (m.shortlist corpus s).warnings⟩ := by
  unfold like drained
  dsimp only
  cases (m.shortlist corpus s).answer <;> rfl

theorem like_congr {other : Corpus} {s u : Source}
    (hw : (m.shortlist corpus s).warnings = (m.shortlist other u).warnings)
    (hd : drained (m.shortlist corpus s).answer = drained (m.shortlist other u).answer) :
    m.like corpus s = m.like other u := by
  rw [like_def, like_def, hw, hd]

variable [PlacedWeight ω]

/-- A vector with the counts of the texts stands for them. -/
theorem drained_document {a : Analyzer} {d : StoredDocument} (ha : m.analyzer = some a)
    (hf : m.criteria.fieldNames = [field])
    (hidf : ∀ term, ∃ x, m.similarity.idf (corpus.docFreq term) corpus.numDocs = .ok x ∧
      PlacedWeight.place x ≠ ⊥)
    (hd : corpus.document id = .ok d)
    (hv : corpus.vector id field = .ok none ∨ corpus.vector id field =
      .ok (some (.ofTerms field ((d.values field).flatMap (a.fieldTerms field)))))
    (htokens : ((d.values field).flatMap (a.fieldTerms field)).length ≤ m.criteria.maxTokens) :
    drained (m.shortlist corpus (.document id)).answer =
      drained (m.shortlist corpus (.texts field (d.values field))).answer := by
  rw [shortlist_document hf, shortlist_texts]
  rcases hv with hv | hv
  · rw [Tally.addField_of_no_vector hv hd]
    rfl
  · let words := (d.values field).flatMap (a.fieldTerms field)
    have hp := Tally.terms_addVector_perm m.criteria field words
    have hne : ∀ e ∈ (Tally.addVector m.criteria .empty field (.ofTerms field words)).terms,
        e.2 ≠ 0 := by
      intro e he
      have hpos := (Tally.count_bounds_ofWords m.criteria field (hp.mem_iff.1 he)).1
      omega
    rw [Tally.addField_of_vector hv, ha, Tally.ofTexts_eq m.criteria field a htokens]
    exact Selection.drain_select_congr hidf hne hp

/-- A live document with a stored field is mined like the texts read back of it. -/
theorem drained_live {a : Analyzer} {ix : Index} {k : Catalog} {v : Version} (h : ix.Realizes k)
    (hk : k.IsSound (some a)) (ha : m.analyzer = some a) (hf : m.criteria.fieldNames = [field])
    (hidf : ∀ term, ∃ x, m.similarity.idf (ix.corpus.docFreq term) ix.corpus.numDocs = .ok x ∧
      PlacedWeight.place x ≠ ⊥)
    (hv : k.live.find? id = some v) (hs : v.IsStored field)
    (htokens : ((v.values field).flatMap (a.fieldTerms field)).length ≤ m.criteria.maxTokens) :
    (∃ d, ix.document id = .ok d ∧ d.values field = v.values field) ∧
    drained (m.shortlist ix.corpus (.document id)).answer =
      drained (m.shortlist ix.corpus (.texts field (v.values field))).answer := by
  have hvector := h.vector_of_live hv field
  obtain ⟨d, hd, hall⟩ := h.document_of_live hv
  have hvalues := hall field
  constructor
  · exact ⟨d, hd, hvalues⟩
  · rw [← hvalues] at htokens ⊢
    apply drained_document ha hf hidf hd _ htokens
    rw [hvalues]
    rcases hk.vector_cases hv hs with hnone | hsome
    · exact Or.inl (hvector.trans (congrArg Except.ok hnone))
    · exact Or.inr (hvector.trans (congrArg Except.ok hsome))

/-- The terms of texts are drained if none is counted beyond the range of doubles. -/
theorem exists_drained_texts {m : Miner Float} {a : Analyzer} {texts : List String}
    (ha : m.analyzer = some a)
    (hidf : ∀ term, ∃ x, m.similarity.idf (corpus.docFreq term) corpus.numDocs = .ok x)
    (htokens : (texts.flatMap (a.fieldTerms field)).length ≤ m.criteria.maxTokens)
    (hlt : ((texts.flatMap (a.fieldTerms field)).length : Int) < 2 ^ 1023) :
    ∃ l, drained (m.shortlist corpus (.texts field texts)).answer = .ok l := by
  let t := Tally.ofWords m.criteria field (texts.flatMap (a.fieldTerms field))
  have hcandidates : ∀ e ∈ t.terms, ∃ o,
      Selection.candidate? corpus m.similarity m.criteria e.1 e.2 = .ok o := by
    intro e he
    obtain ⟨hpos, hle⟩ := Tally.count_bounds_ofWords m.criteria field he
    obtain ⟨w, hw⟩ := Number.exists_ofInt? hpos (by omega)
    exact Selection.exists_candidate? fun _ => ⟨hidf e.1, w, Number.ofInt_eq_ok_iff.2 hw⟩
  have hselect := Selection.select_eq_ok hcandidates
  rw [shortlist_texts, ha, Tally.ofTexts_eq m.criteria field a htokens]
  exact ⟨_, congrArg drained hselect⟩

/-- In an index with the analyzer of the miner, a live document is mined like the stored texts of
the one field asked for: the same terms are drained and the same query comes of both. Nothing fails
unless there are more tokens than doubles reach, and whether vectors are kept changes nothing. -/
theorem like_document_eq_like_texts {a : Analyzer} {mappings : List FieldMapping}
    {cs : List Command} {m : Miner Float} {v : Version}
    (ha : m.analyzer = some a) (hf : m.criteria.fieldNames = [field])
    (hv : ((Catalog.create (some a) mappings).run cs).2.live.find? id = some v)
    (hs : v.IsStored field)
    (htokens : ((v.values field).flatMap (a.fieldTerms field)).length ≤ m.criteria.maxTokens)
    (hidf : let corpus := ((Index.create (some a) mappings).run cs).2.corpus
      ∀ term, ∃ x, m.similarity.idf (corpus.docFreq term) corpus.numDocs = .ok x ∧
        x.isNaN = false) :
    let corpus := ((Index.create (some a) mappings).run cs).2.corpus
    (∃ d, corpus.document id = .ok d ∧ d.values field = v.values field) ∧
    drained (m.shortlist corpus (.document id)).answer =
      drained (m.shortlist corpus (.texts field (v.values field))).answer ∧
    m.like corpus (.document id) = m.like corpus (.texts field (v.values field)) ∧
    (((v.values field).flatMap (a.fieldTerms field)).length < 2 ^ 1023 →
      ∃ l, drained (m.shortlist corpus (.document id)).answer = .ok l) ∧
    ∀ mappings' cs',
      mappings.map FieldMapping.withoutVectors = mappings'.map FieldMapping.withoutVectors →
      cs.map Command.withoutVectors = cs'.map Command.withoutVectors →
      let corpus' := ((Index.create (some a) mappings').run cs').2.corpus
      drained (m.shortlist corpus' (.document id)).answer =
        drained (m.shortlist corpus (.document id)).answer ∧
      m.like corpus' (.document id) = m.like corpus (.document id) := by
  intro corpus
  have hplace : ∀ term, ∃ x, m.similarity.idf (corpus.docFreq term) corpus.numDocs = .ok x ∧
      PlacedWeight.place x ≠ ⊥ := by
    intro term
    obtain ⟨x, hx, hnan⟩ := hidf term
    exact ⟨x, hx, (Number.place_ne_bot_iff x).2 hnan⟩
  have hwarnings : ∀ other : Corpus, (m.shortlist other (.document id)).warnings = [] := by
    intro other
    rw [shortlist_document hf]
  have hrealizes := ((Index.realizes_create (some a) mappings).run cs).2
  have hsound := Catalog.isSound_run (some a) mappings cs
  obtain ⟨hdocument, hdrained⟩ := drained_live hrealizes hsound ha hf hplace hv hs htokens
  constructor
  · exact hdocument
  constructor
  · exact hdrained
  constructor
  · exact like_congr (hwarnings corpus) hdrained
  constructor
  · intro hlt
    have hok : ∀ term, ∃ x, m.similarity.idf (corpus.docFreq term) corpus.numDocs = .ok x := by
      intro term
      obtain ⟨x, hx, -⟩ := hidf term
      exact ⟨x, hx⟩
    obtain ⟨l, hl⟩ := exists_drained_texts ha hok htokens (by omega)
    exact ⟨l, hdrained.trans hl⟩
  · intro mappings' cs' hmappings hcs corpus'
    have halike := Catalog.alike_run (some a) hmappings hcs
    have hrealizes' := ((Index.realizes_create (some a) mappings').run cs').2
    obtain ⟨hn, hdf⟩ := halike.figures_eq hrealizes hrealizes'
    obtain ⟨w, hw, hsw, hvalues⟩ := halike.live_cases hv hs
    rw [← hvalues] at htokens hdrained
    have hplace' : ∀ term, ∃ x, m.similarity.idf (corpus'.docFreq term) corpus'.numDocs = .ok x ∧
        PlacedWeight.place x ≠ ⊥ := by
      intro term
      rw [← hn, ← hdf]
      exact hplace term
    have hdrained' := (drained_live hrealizes' (Catalog.isSound_run (some a) mappings' cs') ha hf
      hplace' hw hsw htokens).2
    rw [← shortlist_texts_congr hn hdf, ← hdrained] at hdrained'
    constructor
    · exact hdrained'
    · exact like_congr ((hwarnings corpus').trans (hwarnings corpus).symm) hdrained'

/-- A document whose vector lists its terms in another order than its texts do, and the same
document without a vector. -/
theorem like_document_eq_like_texts_reordered :
    let m : Miner Float :=
      { similarity := Selection.constantly 2, analyzer := some .keyword
        criteria := { Selection.lenient with fieldNames := ["f"] } }
    let d : Document := ⟨"1", .ofList [("f", .list [.text "b", .text "a", .text "b"])]⟩
    let keeping : List FieldMapping := [{ name := "f", termVectors := true }]
    let corpus := ((Index.create (some .keyword) keeping).run [.add d]).2.corpus
    let corpus' := ((Index.create (some .keyword) [{ name := "f" }]).run [.add d]).2.corpus
    corpus.vector "1" "f" = .ok (some ⟨"f", [("a", 1), ("b", 2)]⟩) ∧
    corpus'.vector "1" "f" = .ok none ∧
    m.like corpus (.document "1") = m.like corpus (.texts "f" ["b", "a", "b"]) ∧
    (∃ l, Selection.drained (m.shortlist corpus (.document "1")).answer = .ok l) ∧
    m.like corpus' (.document "1") = m.like corpus (.document "1") := by
  intro m d keeping corpus corpus'
  let k := Catalog.create (some .keyword) keeping
  have hv : (k.run [.add d]).2.live.find? "1" = some (k.version d) := rfl
  have hs : (k.version d).IsStored "f" := by
    rintro e he
    obtain rfl := Option.some.inj he
    rfl
  have hvector := ((Index.realizes_create (some .keyword) keeping).run [.add d]).2.vector_eq "1" "f"
  rw [hv] at hvector
  obtain ⟨-, -, hlike, hok, hother⟩ :=
    like_document_eq_like_texts (m := m) rfl rfl hv hs (by decide) fun _ => ⟨2, rfl, by decide⟩
  have hdrained := hok (show 3 < 2 ^ 1023 by decide +kernel)
  have hwithout := (hother [{ name := "f" }] [.add d] rfl rfl).2
  exact ⟨hvector.trans rfl, rfl, hlike, hdrained, hwithout⟩

end Miner
end TermMining
