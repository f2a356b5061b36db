import TermMining.Proofs.Index.Refinement

/-! Documents with the same rows of terms leave the same postings and the same vectors, though not
the same stored texts. -/
namespace TermMining.Index

/-- Documents in which the index finds the same terms, field by field. -/
structure ReadsAlike (ix : Index) (d e : Document) : Prop where
  id : d.id = e.id
  keys : d.fields.keys = e.fields.keys
  isEmpty : ∀ f, (d.texts f).isEmpty = (e.texts f).isEmpty
  terms : ∀ f, (ix.mapping f).1.terms ix.analyzer (d.texts f) =
    (ix.mapping f).1.terms ix.analyzer (e.texts f)

/-- What is found depends on the analyzer and the mappings alone. -/
theorem ReadsAlike.congr {ix ix' : Index} {d e : Document} (h : ix.ReadsAlike d e)
    (ha : ix'.analyzer = ix.analyzer) (hm : ∀ f, (ix'.mapping f).1 = (ix.mapping f).1) :
    ix'.ReadsAlike d e := by
  refine ⟨h.id, h.keys, h.isEmpty, ?_⟩
  intro f
  rw [ha, hm]
  exact h.terms f

theorem ReadsAlike.remove {ix : Index} {d e : Document} (h : ix.ReadsAlike d e) (id : String) :
    (ix.remove id).ReadsAlike d e := by
  have hmapping : ∀ f, ((ix.remove id).mapping f).1 = (ix.mapping f).1 := by
    intro f
    rw [mapping_eq, mapping_eq]
    rfl
  exact h.congr rfl hmapping

namespace Intake

def storing (s : Intake) (stored : OrderedMap String (List String)) : Intake := { s with stored }

variable {s : Intake} (doc : String) {field : String} {m : FieldMapping} {texts texts' : List String}

theorem indexField_storing (h : m.terms s.index.analyzer texts = m.terms s.index.analyzer texts')
    (stored : OrderedMap String (List String)) :
    (s.storing stored).indexField doc m texts = (s.indexField doc m texts').storing stored := by
  have hterms : texts.flatMap ((s.index.analyzerFor m).1.fieldTerms m.name) =
      texts'.flatMap ((s.index.analyzerFor m).1.fieldTerms m.name) := by
    rw [analyzerFor_fst]
    exact h
  unfold indexField storing
  dsimp only
  rw [hterms]

theorem exists_takeField_storing (he : texts.isEmpty = texts'.isEmpty)
    (h : (s.index.mapping field).1.terms s.index.analyzer texts =
      (s.index.mapping field).1.terms s.index.analyzer texts')
    (stored : OrderedMap String (List String)) :
    ∃ stored', (s.storing stored).takeField doc field texts =
      (s.takeField doc field texts').storing stored' := by
  cases hempty : texts'.isEmpty with
  | true =>
    rw [hempty] at he
    refine ⟨stored, ?_⟩
    unfold takeField
    rw [he, hempty]
    rfl
  | false =>
    rw [hempty] at he
    rw [mapping_eq] at h
    let m := (s.index.mappings.find? field).getD { name := field }
    let opened : Intake := { s with
      index := { s.index with mappings := s.index.mappings.ensure field { name := field } } }
    refine ⟨if m.stored then stored.insert field texts else stored, ?_⟩
    rw [takeField_eq (s := s.storing stored) (m := m) he rfl, takeField_eq (m := m) hempty rfl]
    dsimp only
    by_cases hi : m.indexed = true
    · rw [if_pos hi, if_pos hi]
      exact indexField_storing (s := opened) doc h _
    · rw [if_neg hi, if_neg hi]
      rfl

theorem readsAlike_takeField {d e : Document} (h : s.index.ReadsAlike d e) (field : String)
    (texts : List String) : (s.takeField doc field texts).index.ReadsAlike d e := by
  cases he : texts.isEmpty with
  | true =>
    have hs : s.takeField doc field texts = s := if_pos he
    rw [hs]
    exact h
  | false =>
    apply h.congr (analyzer_takeField he rfl)
    intro f
    rw [mapping_eq, mapping_eq, mappings_takeField he rfl, OrderedMap.find?_ensure]
    split
    · next hf => rw [hf, Option.getD_some]
    · rfl

variable {d e : Document}

theorem exists_foldl_takeField_storing (h : s.index.ReadsAlike d e) (fields : List String)
    (stored : OrderedMap String (List String)) :
    ∃ stored', fields.foldl (fun s f => s.takeField doc f (d.texts f)) (s.storing stored) =
      (fields.foldl (fun s f => s.takeField doc f (e.texts f)) s).storing stored' := by
  induction fields generalizing s stored with
  | nil => exact ⟨stored, rfl⟩
  | cons f fields ih =>
    obtain ⟨next, hnext⟩ := exists_takeField_storing doc (h.isEmpty f) (h.terms f) stored
    rw [List.foldl_cons, List.foldl_cons, hnext]
    exact ih (readsAlike_takeField doc h f (e.texts f)) next

end Intake

theorem vector_close_storing (s : Intake) (stored : OrderedMap String (List String))
    (id j f : String) : (close (s.storing stored) id).vector j f = (close s id).vector j f := by
  unfold vector record close Intake.storing
  dsimp only
  rw [OrderedMap.find?_insert, OrderedMap.find?_insert]
  by_cases hj : j = id
  · rw [if_pos hj, if_pos hj]
    rfl
  · rw [if_neg hj, if_neg hj]

/-- What is added of documents with the same terms is the same, apart from the texts to read
back. -/
theorem add_congr {ix : Index} {d e : Document} (h : ix.ReadsAlike d e) :
    (ix.add d).1.postings = (ix.add e).1.postings ∧
      (ix.add d).1.mappings = (ix.add e).1.mappings ∧
      ∀ id f, (ix.add d).1.vector id f = (ix.add e).1.vector id f := by
  let start : Intake := { index := if ix.docs.contains e.id then ix.remove e.id else ix }
  have hstart : start.index.ReadsAlike d e := by
    change (if ix.docs.contains e.id then ix.remove e.id else ix).ReadsAlike d e
    split
    · exact h.remove e.id
    · exact h
  -- both intakes start with nothing stored, and differ in nothing else from then on
  obtain ⟨stored, hfold⟩ := Intake.exists_foldl_takeField_storing e.id hstart e.fields.keys .empty
  change e.fields.keys.foldl _ start = _ at hfold
  rw [add_eq_close, add_eq_close, h.id, h.keys, hfold]
  exact ⟨rfl, rfl, fun id f => vector_close_storing _ stored e.id id f⟩

end TermMining.Index
