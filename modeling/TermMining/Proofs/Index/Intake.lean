import TermMining.Proofs.Index.Catalog
import TermMining.Proofs.Index.Postings

/-! Taking in a document field by field. After every field the intake has what the version of the
document says of the fields so far, and nothing else has changed. -/
namespace TermMining

namespace Catalog

theorem mapping_define (k : Catalog) (m : FieldMapping) (f : String) :
    (k.define m).mapping f = if f = m.name then m else k.mapping f := by
  unfold mapping define
  rw [OrderedMap.find?_insert]
  split <;> rfl

theorem named_define {k : Catalog} (h : ∀ f, (k.mapping f).name = f) (m : FieldMapping)
    (f : String) : ((k.define m).mapping f).name = f := by
  rw [mapping_define]
  split
  · next hf => exact hf.symm
  · exact h f

/-- Opening fields does not change how any field is treated. -/
theorem mapping_openField (k : Catalog) (g f : String) :
    (k.openField g).mapping f = k.mapping f := by
  unfold mapping openField
  rw [OrderedMap.find?_ensure]
  split
  · next h => rw [h, Option.getD_some]
  · rfl

theorem mapping_foldl_openField (k : Catalog) (gs : List String) (f : String) :
    (gs.foldl openField k).mapping f = k.mapping f := by
  induction gs generalizing k with
  | nil => rfl
  | cons g gs ih => rw [List.foldl_cons, ih, mapping_openField]

theorem analyzer_foldl_openField (k : Catalog) (gs : List String) :
    (gs.foldl openField k).analyzer = k.analyzer := by
  induction gs generalizing k with
  | nil => rfl
  | cons g gs ih => exact ih (k.openField g)

theorem version_eq_none {k : Catalog} {d : Document} {f : String} (h : (d.texts f).isEmpty = true) :
    k.version d f = none := if_pos h

theorem version_eq_some {k : Catalog} {d : Document} {f : String}
    (h : (d.texts f).isEmpty = false) :
    k.version d f = some (.of k.analyzer (k.mapping f) (d.texts f)) := by
  unfold version
  rw [h]
  rfl

end Catalog

namespace Index

theorem mapping_eq (ix : Index) (field : String) :
    ix.mapping field = ((ix.mappings.find? field).getD { name := field },
      { ix with mappings := ix.mappings.ensure field { name := field } }) := by
  unfold mapping OrderedMap.ensure
  rw [OrderedMap.contains_eq_isSome]
  cases ix.mappings.find? field <;> rfl

theorem analyzerFor_fst (ix : Index) (m : FieldMapping) :
    (ix.analyzerFor m).1 =
      ix.analyzer.getD ((m.analyzer.bind Analyzer.named?).getD .standard) := by
  unfold analyzerFor
  cases ix.analyzer <;> cases m.analyzer.bind Analyzer.named? <;> rfl

namespace Intake

theorem vectors_indexField (s : Intake) (doc : String) (m : FieldMapping) (texts : List String)
    (f : String) :
    (s.indexField doc m texts).vectors.find? f =
      if f = m.name ∧ m.termVectors = true then
        some (.ofTerms m.name (m.terms s.index.analyzer texts))
      else s.vectors.find? f := by
  have hvector : TermVector.ofCounts m.name ((occurrences (m.terms s.index.analyzer texts)).map
      fun l => (l.length : Int)) = .ofTerms m.name (m.terms s.index.analyzer texts) := by
    apply TermVector.ofCounts_eq_ofTerms
    intro t
    rw [OrderedMap.find?_map, find?_occurrences]
    split
    · rw [Option.map_some, length_placesOf]
    · rfl
  have hv : (s.indexField doc m texts).vectors =
      if m.termVectors then
        s.vectors.insert m.name (.ofTerms m.name (m.terms s.index.analyzer texts))
      else s.vectors := by
    rw [← hvector, FieldMapping.terms, ← analyzerFor_fst]
    rfl
  rw [hv]
  by_cases hm : m.termVectors = true
  · rw [if_pos hm, OrderedMap.find?_insert]
    simp [hm]
  · rw [if_neg hm, if_neg fun h => hm h.2]

theorem posting?_indexField {s : Intake} {doc : String} {m : FieldMapping}
    (hnew : ∀ t, s.index.posting? ⟨m.name, t⟩ doc = none) (texts : List String) (t : Term)
    (id : String) :
    (s.indexField doc m texts).index.posting? t id =
      if t.field = m.name ∧ id = doc then Posting.of? (m.terms s.index.analyzer texts) t.text
      else s.index.posting? t id := by
  have hpostings : (s.indexField doc m texts).index.postings =
      s.index.postings.insert m.name (addOccurrences ((s.index.postings.find? m.name).getD .empty)
        doc (occurrences (m.terms s.index.analyzer texts))) := by
    rw [FieldMapping.terms, ← analyzerFor_fst]
    rfl
  have hfield : ∀ u id, inField? ((s.index.postings.find? m.name).getD .empty) u id =
      s.index.posting? ⟨m.name, u⟩ id := by
    intro u id
    rw [posting?_eq]
    cases s.index.postings.find? m.name <;> rfl
  rw [posting?_eq, hpostings, OrderedMap.find?_insert]
  by_cases hf : t.field = m.name
  · have ht : t = ⟨m.name, t.text⟩ := by rw [← hf]
    have hadded := inField?_addOccurrences (fun u => (hfield u doc).trans (hnew u))
      (m.terms s.index.analyzer texts) t.text id
    rw [if_pos hf, Option.bind_some, hadded, hfield, ← ht]
    simp [hf]
  · rw [if_neg hf, if_neg fun h => hf h.1, posting?_eq]

section takeField

variable {s : Intake} {doc field : String} {m : FieldMapping} {texts : List String}

theorem takeField_eq (he : texts.isEmpty = false)
    (hm : (s.index.mappings.find? field).getD { name := field } = m) :
    s.takeField doc field texts =
      let opened : Intake := { s with
        index := { s.index with mappings := s.index.mappings.ensure field { name := field } }
        stored := if m.stored then s.stored.insert field texts else s.stored }
      if m.indexed then opened.indexField doc m texts else opened := by
  unfold takeField
  rw [mapping_eq, he, hm]
  rfl

variable (he : texts.isEmpty = false)
  (hm : (s.index.mappings.find? field).getD { name := field } = m)
include he hm

theorem analyzer_takeField :
    (s.takeField doc field texts).index.analyzer = s.index.analyzer := by
  rw [takeField_eq he hm]
  cases m.indexed <;> rfl

theorem docs_takeField : (s.takeField doc field texts).index.docs = s.index.docs := by
  rw [takeField_eq he hm]
  cases m.indexed <;> rfl

theorem mappings_takeField : (s.takeField doc field texts).index.mappings =
    s.index.mappings.ensure field { name := field } := by
  rw [takeField_eq he hm]
  cases m.indexed <;> rfl

theorem stored_takeField (f : String) : (s.takeField doc field texts).stored.find? f =
    if f = field ∧ m.stored = true then some texts else s.stored.find? f := by
  have hstored : (s.takeField doc field texts).stored =
      if m.stored then s.stored.insert field texts else s.stored := by
    rw [takeField_eq he hm]
    cases m.indexed <;> rfl
  rw [hstored]
  by_cases hst : m.stored = true
  · rw [if_pos hst, OrderedMap.find?_insert]
    simp [hst]
  · rw [if_neg hst, if_neg fun h => hst h.2]

theorem vectors_takeField (f : String) : (s.takeField doc field texts).vectors.find? f =
    if f = m.name ∧ (m.indexed && m.termVectors) = true then
      some (.ofTerms m.name (m.terms s.index.analyzer texts))
    else s.vectors.find? f := by
  rw [takeField_eq he hm]
  by_cases hi : m.indexed = true
  · rw [if_pos hi, vectors_indexField, hi, Bool.true_and]
  · have hno : ¬(f = m.name ∧ (m.indexed && m.termVectors) = true) := fun h =>
      hi (Bool.and_eq_true_iff.1 h.2).1
    rw [if_neg hno, if_neg hi]

theorem posting?_takeField (hnew : ∀ t, s.index.posting? ⟨m.name, t⟩ doc = none) (t : Term)
    (id : String) : (s.takeField doc field texts).index.posting? t id =
      if t.field = m.name ∧ id = doc then
        Posting.of? (if m.indexed then m.terms s.index.analyzer texts else []) t.text
      else s.index.posting? t id := by
  rw [takeField_eq he hm]
  by_cases hi : m.indexed = true
  · rw [if_pos hi, if_pos hi]
    exact posting?_indexField hnew texts t id
  · rw [if_neg hi, if_neg hi]
    by_cases ht : t.field = m.name ∧ id = doc
    · have hn := hnew t.text
      rw [← ht.1, ← ht.2] at hn
      rw [if_pos ht]
      exact hn.trans (if_neg List.not_mem_nil).symm
    · rw [if_neg ht]
      rfl

end takeField

/-- What an intake has of a document that was not in the index `start`, after the fields `done`. -/
structure HasTaken (start : Index) (k : Catalog) (d : Document) (done : List String)
    (s : Intake) : Prop where
  analyzer : s.index.analyzer = k.analyzer
  docs : s.index.docs = start.docs
  mappings : s.index.mappings =
    ((done.filter fun f => !(d.texts f).isEmpty).foldl Catalog.openField k).mappings
  stored : ∀ f, s.stored.find? f = if f ∈ done then (k.version d).stored f else none
  vectors : ∀ f, s.vectors.find? f = if f ∈ done then (k.version d).vector f else none
  posting : ∀ t id, s.index.posting? t id =
    if id = d.id ∧ t.field ∈ done then Posting.of? ((k.version d).terms t.field) t.text
    else start.posting? t id

variable {start : Index} {k : Catalog} {d : Document} {done : List String} {s : Intake}
  {field : String}

theorem HasTaken.takeField_of_isEmpty (h : s.HasTaken start k d done)
    (hnew : ∀ t, start.posting? t d.id = none) (he : (d.texts field).isEmpty = true) :
    (s.takeField d.id field (d.texts field)).HasTaken start k d (done ++ [field]) := by
  have hv := Catalog.version_eq_none (k := k) he
  have hs : s.takeField d.id field (d.texts field) = s := if_pos he
  rw [hs]
  constructor
  · exact h.analyzer
  · exact h.docs
  · rw [h.mappings, List.filter_append, List.filter_cons_of_neg (by simp [he]), List.filter_nil,
      List.append_nil]
  · intro f
    rw [h.stored]
    by_cases hf : f = field
    · simp [hf, Version.stored, hv]
    · simp [hf]
  · intro f
    rw [h.vectors]
    by_cases hf : f = field
    · simp [hf, Version.vector, hv]
    · simp [hf]
  · intro t id
    rw [h.posting]
    by_cases hf : t.field = field
    · by_cases hid : id = d.id
      · subst hid
        simp [hf, Version.terms, hv, Posting.of?, hnew]
      · simp [hid]
    · simp [hf]

theorem HasTaken.takeField_of_not_isEmpty (h : s.HasTaken start k d done)
    (hnew : ∀ t, start.posting? t d.id = none) (hname : (k.mapping field).name = field)
    (hd : field ∉ done) (he : (d.texts field).isEmpty = false) :
    (s.takeField d.id field (d.texts field)).HasTaken start k d (done ++ [field]) := by
  have hv := Catalog.version_eq_some (k := k) he
  have hopened : (done ++ [field]).filter (fun f => !(d.texts f).isEmpty) =
      (done.filter fun f => !(d.texts f).isEmpty) ++ [field] := by
    rw [List.filter_append, List.filter_cons_of_pos (by simp [he]), List.filter_nil]
  have hm : (s.index.mappings.find? field).getD { name := field } = k.mapping field := by
    rw [h.mappings]
    exact Catalog.mapping_foldl_openField k _ field
  have hnone : ∀ t, s.index.posting? ⟨(k.mapping field).name, t⟩ d.id = none := by
    intro t
    rw [h.posting, hname, if_neg fun hmem => hd hmem.2]
    exact hnew _
  constructor
  · rw [analyzer_takeField he hm, h.analyzer]
  · rw [docs_takeField he hm, h.docs]
  · rw [mappings_takeField he hm, hopened, List.foldl_append, h.mappings]
    rfl
  · intro f
    rw [stored_takeField he hm, h.stored]
    by_cases hf : f = field
    · subst hf
      simp [hd, Version.stored, hv, Entry.of]
    · simp [hf]
  · intro f
    rw [vectors_takeField he hm, h.vectors, h.analyzer, hname]
    by_cases hf : f = field
    · subst hf
      cases hi : (k.mapping f).indexed <;> simp [hd, Version.vector, hv, Entry.of, hi]
    · simp [hf]
  · intro t id
    rw [posting?_takeField he hm hnone, h.posting, h.analyzer, hname]
    by_cases hf : t.field = field
    · subst hf
      simp [hd, Version.terms, hv, Entry.of]
    · simp [hf]

theorem HasTaken.foldl_takeField (h : s.HasTaken start k d done)
    (hname : ∀ f, (k.mapping f).name = f) (hnew : ∀ t, start.posting? t d.id = none)
    {rest : List String} (hnodup : (done ++ rest).Nodup) :
    (rest.foldl (fun s f => s.takeField d.id f (d.texts f)) s).HasTaken start k d
      (done ++ rest) := by
  induction rest generalizing s done with
  | nil =>
    rw [List.append_nil]
    exact h
  | cons f rest ih =>
    have hd : f ∉ done := fun hmem =>
      (List.nodup_append.1 hnodup).2.2 f hmem f List.mem_cons_self rfl
    rw [List.append_cons] at hnodup ⊢
    have hnext : (s.takeField d.id f (d.texts f)).HasTaken start k d (done ++ [f]) := by
      cases he : (d.texts f).isEmpty with
      | true => exact h.takeField_of_isEmpty hnew he
      | false => exact h.takeField_of_not_isEmpty hnew (hname f) hd he
    exact ih hnext hnodup

theorem hasTaken_foldl_takeField (hanalyzer : start.analyzer = k.analyzer)
    (hmappings : start.mappings = k.mappings) (hname : ∀ f, (k.mapping f).name = f)
    (hnew : ∀ t, start.posting? t d.id = none) :
    HasTaken start k d d.fields.keys (d.fields.keys.foldl
      (fun s f => s.takeField d.id f (d.texts f)) { index := start }) := by
  have hempty : HasTaken start k d [] { index := start } := by
    constructor
    · exact hanalyzer
    · rfl
    · exact hmappings
    · intro f
      rw [if_neg List.not_mem_nil]
      rfl
    · intro f
      rw [if_neg List.not_mem_nil]
      rfl
    · intro t id
      rw [if_neg fun h => List.not_mem_nil h.2]
  exact hempty.foldl_takeField hname hnew d.fields.keys_nodup

end Intake
end Index
end TermMining
