import Mathlib.Data.List.Nodup
import TermMining.Proofs.Index.Refinement

/-! How the parts of an index fit together after any commands: postings, records and vectors speak
of the same documents, and the postings of a document place each of its tokens once. -/
namespace TermMining

/-- The terms that were taken in of a field of a document when it was last added: those of all its
texts if the field was indexed then, else none. -/
def Catalog.terms (k : Catalog) (id field : String) : List String :=
  ((k.held? id).map fun h => h.2.terms field).getD []

namespace Index

def postingsIn (ix : Index) (id field : String) : List (String × Posting) :=
  ((ix.postings.find? field).getD .empty).entries.filterMap fun e =>
    (e.2.find? id).map fun p => (e.1, p)

/-- The parts of an index fit together. Of its fields `deleted` holds by the form of an index; the
others are invariants of the commands. `tokens` says how many tokens of a document were taken in of
a field. -/
structure IsIntact (ix : Index) (tokens : String → String → Nat) : Prop where
  deleted : ∀ id ∈ ix.deletedIds, ix.docs.contains id = true
  known : ∀ t id p, ix.posting? t id = some p → ix.docs.contains id = true
  /-- A term that occurs in no document has no postings, not even an empty row of them. -/
  occupied : ∀ t ps, ix.postingsOf? t = some ps → ps.size ≠ 0
  counted : ∀ t id p, ix.posting? t id = some p →
    p.frequency = p.positions.length ∧ 1 ≤ p.frequency ∧ p.positions.Pairwise (· < ·)
  /-- Every token stands at one place, in the posting of one term. -/
  positions : ∀ id f, ((ix.postingsIn id f).flatMap fun e => e.2.positions).Perm
    ((List.range (tokens id f)).map fun i : Nat => (i : Int))
  vectors : ∀ id r f v, ix.docs.find? id = some r → r.vectors.find? f = some v →
    v.entries.Perm ((ix.postingsIn id f).map fun e => (e.1, e.2.frequency))

section postingsIn

variable {ix : Index} {id field : String}

theorem mem_postingsIn {e : String × Posting} :
    e ∈ ix.postingsIn id field ↔ ix.posting? ⟨field, e.1⟩ id = some e.2 := by
  have hfield : ix.posting? ⟨field, e.1⟩ id =
      (((ix.postings.find? field).getD .empty).find? e.1).bind fun ps => ps.find? id := by
    rw [posting?_eq]
    cases ix.postings.find? field <;> rfl
  unfold postingsIn
  rw [hfield, List.mem_filterMap, Option.bind_eq_some_iff]
  constructor
  · rintro ⟨d, hd, he⟩
    obtain ⟨p, hp, rfl⟩ := Option.map_eq_some_iff.1 he
    exact ⟨d.2, (OrderedMap.find?_eq_some_iff _).2 hd, hp⟩
  · rintro ⟨ps, hps, hp⟩
    have hmap : (ps.find? id).map (fun p => (e.1, p)) = some e := by rw [hp, Option.map_some]
    exact ⟨(e.1, ps), (OrderedMap.find?_eq_some_iff _).1 hps, hmap⟩

theorem postingsIn_pairwise_ne (ix : Index) (id field : String) :
    (ix.postingsIn id field).Pairwise fun d e => d.1 ≠ e.1 := by
  have hterms := List.pairwise_map.1 ((ix.postings.find? field).getD .empty).keys_nodup
  unfold postingsIn
  rw [List.pairwise_filterMap]
  apply hterms.imp
  intro a b hne d hd e he
  obtain ⟨-, -, rfl⟩ := Option.map_eq_some_iff.1 hd
  obtain ⟨-, -, rfl⟩ := Option.map_eq_some_iff.1 he
  exact hne

variable {terms : List String} (h : ∀ t, ix.posting? ⟨field, t⟩ id = Posting.of? terms t)
include h

/-- The places of the terms of a row are the places of the row. -/
theorem flatMap_positions_perm :
    ((ix.postingsIn id field).flatMap fun e => e.2.positions).Perm
      ((List.range terms.length).map fun i : Nat => (i : Int)) := by
  have hmem : ∀ e, e ∈ ix.postingsIn id field → e.2.positions = placesOf terms e.1 := by
    intro e he
    have hp := mem_postingsIn.1 he
    rw [h, Posting.of?_eq_some_iff] at hp
    rw [hp.2]
  have hleft : ((ix.postingsIn id field).flatMap fun e => e.2.positions).Nodup := by
    rw [List.nodup_flatMap]
    constructor
    · intro e he
      rw [hmem e he]
      exact (ascending_placesOf terms e.1).imp Int.ne_of_lt
    · apply (postingsIn_pairwise_ne ix id field).imp_of_mem
      intro d e hd he hne i hi hj
      dsimp only at hi hj
      rw [hmem d hd, mem_placesOf] at hi
      rw [hmem e he, mem_placesOf] at hj
      obtain ⟨m, hm, rfl⟩ := hi
      obtain ⟨n, hn, heq⟩ := hj
      obtain rfl : n = m := by omega
      exact hne (Option.some.inj (hm.symm.trans hn))
  have hright : ((List.range terms.length).map fun i : Nat => (i : Int)).Nodup :=
    List.nodup_range.map fun _ _ => Int.ofNat.inj
  rw [List.perm_ext_iff_of_nodup hleft hright]
  intro i
  rw [List.mem_flatMap, List.mem_map]
  constructor
  · rintro ⟨e, he, hi⟩
    rw [hmem e he, mem_placesOf] at hi
    obtain ⟨j, hj, rfl⟩ := hi
    exact ⟨j, List.mem_range.2 (List.getElem?_eq_some_iff.1 hj).1, rfl⟩
  · rintro ⟨j, hj, rfl⟩
    have hlt : j < terms.length := List.mem_range.1 hj
    have hp : ix.posting? ⟨field, terms[j]⟩ id =
        some ⟨terms.count terms[j], placesOf terms terms[j]⟩ := by
      rw [h, Posting.of?_eq_some_iff]
      exact ⟨List.getElem_mem hlt, rfl⟩
    exact ⟨(terms[j], ⟨terms.count terms[j], placesOf terms terms[j]⟩), mem_postingsIn.2 hp,
      mem_placesOf.2 ⟨j, List.getElem?_eq_getElem hlt, rfl⟩⟩

theorem entries_ofTerms_perm :
    (TermVector.ofTerms field terms).entries.Perm
      ((ix.postingsIn id field).map fun e => (e.1, e.2.frequency)) := by
  have hright : ((ix.postingsIn id field).map fun e => (e.1, e.2.frequency)).Nodup := by
    apply List.pairwise_map.2
    apply (postingsIn_pairwise_ne ix id field).imp
    intro d e hne heq
    exact hne (Prod.mk.inj heq).1
  rw [List.perm_ext_iff_of_nodup (TermVector.nodup_entries_ofTerms field terms) hright]
  intro e
  rw [TermVector.mem_entries_ofTerms, List.mem_map]
  constructor
  · rintro ⟨ht, hn⟩
    have hp : ix.posting? ⟨field, e.1⟩ id = some ⟨terms.count e.1, placesOf terms e.1⟩ := by
      rw [h, Posting.of?_eq_some_iff]
      exact ⟨ht, rfl⟩
    exact ⟨(e.1, ⟨terms.count e.1, placesOf terms e.1⟩), mem_postingsIn.2 hp, Prod.ext rfl hn.symm⟩
  · rintro ⟨d, hd, rfl⟩
    have hp := mem_postingsIn.1 hd
    rw [h, Posting.of?_eq_some_iff] at hp
    exact ⟨hp.1, by rw [hp.2]⟩

end postingsIn

/-- A term that has postings has some. -/
def IsOccupied (ix : Index) : Prop := ∀ t ps, ix.postingsOf? t = some ps → ps.size ≠ 0

theorem size_add_ne_zero (ps : Postings) (doc : String) (p : Posting) :
    (ps.add doc p).size ≠ 0 := by
  unfold Postings.add
  rw [OrderedMap.size_ne_zero_iff]
  exact ⟨doc, _, (ps.find?_update doc _ doc).trans (if_pos rfl)⟩

theorem size_addOccurrences_ne_zero {field : OrderedMap String Postings}
    (h : ∀ t ps, field.find? t = some ps → ps.size ≠ 0) (doc : String)
    (places : OrderedMap String (List Int)) {t : String} {ps : Postings}
    (hps : (addOccurrences field doc places).find? t = some ps) : ps.size ≠ 0 := by
  unfold addOccurrences at hps
  generalize places.entries = l at hps
  induction l generalizing field with
  | nil => exact h t ps hps
  | cons e l ih =>
    rw [List.foldl_cons] at hps
    refine ih ?_ hps
    intro u qs hqs
    rw [OrderedMap.find?_update] at hqs
    split at hqs
    · rw [← Option.some.inj hqs]
      exact size_add_ne_zero _ doc _
    · exact h u qs hqs

variable {ix : Index}

theorem IsOccupied.indexField {s : Intake} (h : s.index.IsOccupied) (doc : String)
    (m : FieldMapping) (texts : List String) : (s.indexField doc m texts).index.IsOccupied := by
  intro t ps hps
  let field := (s.index.postings.find? m.name).getD .empty
  let places := occurrences (texts.flatMap ((s.index.analyzerFor m).1.fieldTerms m.name))
  have hpostings : (s.indexField doc m texts).index.postings =
      s.index.postings.insert m.name (addOccurrences field doc places) := rfl
  have hfield : ∀ u qs, field.find? u = some qs → qs.size ≠ 0 := by
    intro u qs hqs
    apply h ⟨m.name, u⟩ qs
    unfold postingsOf?
    cases hf : s.index.postings.find? m.name with
    | none => simp [field, hf] at hqs
    | some g => simpa [field, hf] using hqs
  unfold postingsOf? at hps
  rw [hpostings, OrderedMap.find?_insert] at hps
  split at hps
  · exact size_addOccurrences_ne_zero hfield doc places hps
  · exact h t ps hps

theorem IsOccupied.takeField {s : Intake} (h : s.index.IsOccupied) (doc field : String)
    (texts : List String) : (s.takeField doc field texts).index.IsOccupied := by
  cases he : texts.isEmpty with
  | true =>
    have hs : s.takeField doc field texts = s := if_pos he
    rwa [hs]
  | false =>
    rw [Intake.takeField_eq he rfl]
    dsimp only
    split
    · refine IsOccupied.indexField ?_ doc _ texts
      exact h
    · exact h

theorem IsOccupied.foldl_takeField {s : Intake} (h : s.index.IsOccupied) (d : Document)
    (fields : List String) :
    (fields.foldl (fun s f => s.takeField d.id f (d.texts f)) s).index.IsOccupied := by
  induction fields generalizing s with
  | nil => exact h
  | cons f fields ih => exact ih (h.takeField d.id f (d.texts f))

theorem isOccupied_remove (ix : Index) (id : String) : (ix.remove id).IsOccupied := by
  intro t ps hps
  unfold postingsOf? remove at hps
  obtain ⟨field, hfield, hps⟩ := Option.bind_eq_some_iff.1 hps
  rw [OrderedMap.find?_map] at hfield
  obtain ⟨g, -, rfl⟩ := Option.map_eq_some_iff.1 hfield
  rw [OrderedMap.find?_filter] at hps
  simpa using (Option.filter_eq_some_iff.1 hps).2

theorem IsOccupied.foldl_remove (h : ix.IsOccupied) (ids : List String) :
    (ids.foldl remove ix).IsOccupied := by
  induction ids generalizing ix with
  | nil => exact h
  | cons id ids ih => exact ih (isOccupied_remove ix id)

theorem IsOccupied.add (h : ix.IsOccupied) (d : Document) : (ix.add d).1.IsOccupied := by
  have hstart : (if ix.docs.contains d.id then ix.remove d.id else ix).IsOccupied := by
    split
    · exact isOccupied_remove ix d.id
    · exact h
  rw [add_eq_close]
  generalize (if ix.docs.contains d.id then ix.remove d.id else ix) = start at hstart ⊢
  exact IsOccupied.foldl_takeField (s := { index := start }) hstart d d.fields.keys

theorem IsOccupied.foldl_add (h : ix.IsOccupied) (ds : List Document) :
    (ds.foldl (fun ix d => (ix.add d).1) ix).IsOccupied := by
  induction ds generalizing ix with
  | nil => exact h
  | cons d ds ih => exact ih (h.add d)

theorem postings_delete (ix : Index) (id : String) : (ix.delete id).2.postings = ix.postings := by
  unfold delete
  split
  · split <;> rfl
  · rfl

theorem IsOccupied.step (h : ix.IsOccupied) (c : Command) : (ix.step c).2.IsOccupied := by
  cases c with
  | define m => exact h
  | mapping field =>
    dsimp only [Index.step]
    rw [mapping_eq]
    exact h
  | add d => exact h.add d
  | addAll ds => exact h.foldl_add ds
  | delete id =>
    intro t ps hps
    dsimp only [Index.step, postingsOf?] at hps
    rw [postings_delete] at hps
    exact h t ps hps
  | purge => exact h.foldl_remove ix.deletedIds

theorem IsOccupied.run (h : ix.IsOccupied) (cs : List Command) : (ix.run cs).2.IsOccupied := by
  induction cs generalizing ix with
  | nil => exact h
  | cons c cs ih => exact ih (h.step c)

theorem postings_foldl_define (ms : List FieldMapping) (ix : Index) :
    (ms.foldl define ix).postings = ix.postings := by
  induction ms generalizing ix with
  | nil => rfl
  | cons m ms ih => exact ih (ix.define m)

theorem isOccupied_run (analyzer : Option Analyzer) (mappings : List FieldMapping)
    (cs : List Command) : ((create analyzer mappings).run cs).2.IsOccupied := by
  apply IsOccupied.run
  intro t ps hps
  rw [postingsOf?, create, postings_foldl_define] at hps
  cases hps

theorem Realizes.posting?_eq_terms {k : Catalog} (h : ix.Realizes k) (id field t : String) :
    ix.posting? ⟨field, t⟩ id = Posting.of? (k.terms id field) t := by
  rw [h.posting, Catalog.terms]
  cases k.held? id <;> rfl

theorem Realizes.contains_docs_iff {k : Catalog} (h : ix.Realizes k) (id : String) :
    ix.docs.contains id = (k.held? id).isSome := by
  have hdocs := h.docs id
  rw [OrderedMap.contains_eq_isSome]
  generalize ix.docs.find? id = r at hdocs ⊢
  generalize k.held? id = v at hdocs ⊢
  cases hdocs <;> rfl

theorem Realizes.vector_of_record {k : Catalog} (h : ix.Realizes k) {id f : String}
    {r : DocumentRecord} {v : TermVector} (hr : ix.docs.find? id = some r)
    (hv : r.vectors.find? f = some v) : v = .ofTerms f (k.terms id f) := by
  have hdocs := h.docs id
  rw [hr] at hdocs
  unfold Catalog.terms
  generalize k.held? id = w at hdocs ⊢
  cases hdocs with
  | some hk =>
    have hvector := hk.vectors f
    rw [hv] at hvector
    obtain ⟨e, he, hkept⟩ := Option.bind_eq_some_iff.1 hvector.symm
    split at hkept
    · rw [Option.map_some, Option.getD_some, Version.terms, he, ← Option.some.inj hkept]
      rfl
    · cases hkept

theorem Realizes.isIntact {k : Catalog} (h : ix.Realizes k) (hoccupied : ix.IsOccupied) :
    ix.IsIntact fun id f => (k.terms id f).length := by
  have hof : ∀ {t id p}, ix.posting? t id = some p →
      Posting.of? (k.terms id t.field) t.text = some p :=
    fun hp => (h.posting?_eq_terms _ _ _).symm.trans hp
  constructor
  · intro id hid
    unfold deletedIds at hid
    rw [OrderedMap.mem_keys_iff, OrderedMap.find?_filter] at hid
    rw [OrderedMap.contains_eq_isSome]
    exact Option.isSome_of_isSome_filter _ _ hid
  · intro t id p hp
    rw [h.contains_docs_iff]
    rw [h.posting] at hp
    exact Option.isSome_of_isSome_bind (Option.isSome_of_mem hp)
  · exact hoccupied
  · intro t id p hp
    obtain ⟨ht, rfl⟩ := Posting.of?_eq_some_iff.1 (hof hp)
    have hcount : 1 ≤ ((k.terms id t.field).count t.text : Int) :=
      Int.ofNat_le.2 (List.count_pos_iff.2 ht)
    have hlength := length_placesOf (k.terms id t.field) t.text
    exact ⟨congrArg Int.ofNat hlength.symm, hcount, ascending_placesOf _ _⟩
  · exact fun id f => flatMap_positions_perm fun t => h.posting?_eq_terms id f t
  · intro id r f v hr hv
    rw [h.vector_of_record hr hv]
    exact entries_ofTerms_perm fun t => h.posting?_eq_terms id f t

/-- Whatever was done to an index, its parts fit together, and each document has as many places in a
field as tokens of it were taken in when it was last added. -/
theorem isIntact_run (analyzer : Option Analyzer) (mappings : List FieldMapping)
    (cs : List Command) :
    ((create analyzer mappings).run cs).2.IsIntact fun id f =>
      (((Catalog.create analyzer mappings).run cs).2.terms id f).length :=
  ((realizes_create analyzer mappings).run cs).2.isIntact (isOccupied_run analyzer mappings cs)

end Index
end TermMining
