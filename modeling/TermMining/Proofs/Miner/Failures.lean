import TermMining.Proofs.Miner.Provenance
import TermMining.Weight.Double

/-! What goes wrong when a document of an index is mined: it may not be live, and without an
analyzer a field cannot be read that has no vector. -/
namespace TermMining

def Remarked.fault? {α : Type} (r : Remarked α) : Option Fault :=
  match r.answer with
  | .error f => some f
  | .ok _ => none

theorem Remarked.fault?_eq_some_iff {α : Type} {r : Remarked α} {x : Fault} :
    r.fault? = some x ↔ r.answer = .error x := by
  unfold fault?
  cases r.answer <;> simp

theorem Remarked.fault?_map {α β : Type} (r : Remarked α) (f : α → β) (warnings : List Warning) :
    (⟨r.answer.map f, warnings⟩ : Remarked β).fault? = r.fault? := by
  unfold fault?
  cases r.answer <;> rfl

namespace Catalog

variable {k : Catalog} {f : String}

/-- Where vectors are kept of a field, a document has one unless it has no text there. -/
theorem vector_version_eq_none_iff (hk : (k.mapping f).isOf .termVector = true) (d : Document) :
    (k.version d).vector f = none ↔ d.texts f = [] := by
  unfold Version.vector
  cases hd : (d.texts f).isEmpty with
  | false =>
    have hne : d.texts f ≠ [] := List.isEmpty_eq_false_iff.1 hd
    have hkept : (Entry.of k.analyzer (k.mapping f) (d.texts f)).keepsVector = true := hk
    rw [version_eq_some hd, Option.bind_some, hkept]
    simp [hne]
  | true =>
    rw [version_eq_none hd]
    simp [List.isEmpty_iff.1 hd]

end Catalog

namespace Index

variable {ω : Type} {ix : Index} {k : Catalog} {v : Version} {id f : String} {c : Criteria ω}

theorem Realizes.row_eq_error_iff (h : ix.Realizes k) (hv : k.live.find? id = some v)
    (own : Option Analyzer) {x : Fault} :
    Tally.row c own ix.corpus id f = .error x ↔
      own = none ∧ v.vector f = none ∧ x = .analyzerRequired "" := by
  have hvector := h.vector_of_live hv f
  rcases h.row_cases (c := c) hv own f with ⟨hnone, hrow⟩ | ⟨⟨u, hu⟩, hrow⟩
  · have hv' : v.vector f = none := Except.ok.inj (hvector.symm.trans hnone)
    rw [hrow]
    cases own with
    | none => simp [Tally.textRow, hv', eq_comm]
    | some a => simp [Tally.textRow]
  · have hv' : v.vector f = some u := Except.ok.inj (hvector.symm.trans hu)
    rw [hrow]
    simp [hv']

end Index

namespace Miner

variable {ω : Type} {m : Miner ω}

/-- Some field is mined if one is chosen, or else if one is indexed. -/
theorem fieldNames_ne_nil_iff (m : Miner ω) (corpus : Corpus) (id : String) :
    (m.criteriaFor corpus (.document id)).1.fieldNames ≠ [] ↔
      m.criteria.fieldNames ≠ [] ∨ ∃ f, f ∈ corpus.fieldNames .indexed := by
  by_cases hf : m.criteria.fieldNames = []
  · rw [criteriaFor_open hf]
    have hperm : (m.criteria.withFieldNames (corpus.fieldNames .indexed).members).fieldNames.Perm
        (corpus.fieldNames .indexed).members := List.mergeSort_perm _ _
    rw [← List.isEmpty_eq_false_iff, hperm.isEmpty_eq, List.isEmpty_eq_false_iff_exists_mem]
    exact (or_iff_right (not_not_intro hf)).symm
  · have hchosen : m.criteria.fieldNames.isEmpty = false := List.isEmpty_eq_false_iff.2 hf
    have hcriteria : (m.criteriaFor corpus (.document id)).1 = m.criteria := by
      unfold criteriaFor
      dsimp only
      rw [hchosen]
      rfl
    rw [hcriteria]
    exact (or_iff_left_of_imp fun _ => hf).symm

section Document

variable {ix : Index} {k : Catalog} (h : ix.Realizes k) {id : String} {c : Criteria ω} {x : Fault}
include h

theorem tally_eq_error_iff_of_not_live (hv : k.live.find? id = none) :
    m.tally ix.corpus c (.document id) = .error x ↔
      x = .documentNotFound id ∧ c.fieldNames ≠ [] := by
  have hrow := h.row_of_not_live (c := c) hv m.analyzer
  have hfail : ∀ f ∈ c.fieldNames, ∀ y,
      Tally.row c m.analyzer ix.corpus id f = .error y → y = .documentNotFound id := by
    intro f _ y hy
    exact (Except.error.inj ((hrow f).symm.trans hy)).symm
  unfold tally
  rw [Tally.ofDocument_eq_error_iff c hfail, ← List.isEmpty_eq_false_iff,
    List.isEmpty_eq_false_iff_exists_mem]
  simp only [hrow, and_true]

theorem tally_eq_error_iff_of_live {v : Version} (hv : k.live.find? id = some v) :
    m.tally ix.corpus c (.document id) = .error x ↔ x = .analyzerRequired "" ∧
      m.analyzer = none ∧ ∃ f ∈ c.fieldNames, v.vector f = none := by
  have hfail : ∀ f ∈ c.fieldNames, ∀ y,
      Tally.row c m.analyzer ix.corpus id f = .error y → y = .analyzerRequired "" := by
    intro f _ y hy
    exact ((h.row_eq_error_iff hv m.analyzer).1 hy).2.2
  unfold tally
  rw [Tally.ofDocument_eq_error_iff c hfail]
  simp only [h.row_eq_error_iff hv]
  grind

end Document

variable [Weight ω] {corpus : Corpus} {source : Source}

/-- What goes wrong with a source in each form of its result. -/
def faults (m : Miner ω) (corpus : Corpus) (source : Source) : List (Option Fault) :=
  [(m.shortlist corpus source).fault?, (m.like corpus source).fault?,
    (m.words corpus source).fault?]

/-- The forms of a result fail alike. -/
theorem eq_of_mem_faults {x : Option Fault} (hx : x ∈ m.faults corpus source) :
    x = (m.shortlist corpus source).fault? := by
  have hlike : (m.like corpus source).fault? = (m.shortlist corpus source).fault? :=
    Remarked.fault?_map _ _ _
  have hwords : (m.words corpus source).fault? = (m.shortlist corpus source).fault? :=
    Remarked.fault?_map _ _ _
  unfold faults at hx
  rw [hlike, hwords] at hx
  simpa using hx

/-- Apart from arithmetic, only the tally of a source can fail. -/
theorem fault?_shortlist_eq_some_iff {x : Fault} (hx : ∀ g, x ≠ .arithmetic g) :
    (m.shortlist corpus source).fault? = some x ↔
      m.tally corpus (m.criteriaFor corpus source).1 source = .error x := by
  rw [Remarked.fault?_eq_some_iff]
  change (m.tally corpus (m.criteriaFor corpus source).1 source).bind
    (Selection.select corpus m.similarity (m.criteriaFor corpus source).1) = .error x ↔ _
  cases m.tally corpus (m.criteriaFor corpus source).1 source with
  | error f => simp [Except.bind]
  | ok t =>
    simp only [Except.bind, reduceCtorEq, iff_false]
    intro hs
    obtain ⟨g, rfl⟩ := Selection.arithmetic_of_select hs
    exact hx g rfl

/-- A document of an index is not found exactly if it is not live and there is any field to mine. -/
theorem documentNotFound_iff (own : Option Analyzer) (mappings : List FieldMapping)
    (cs : List Command) (m : Miner ω) (id : String) :
    let ix := ((Index.create own mappings).run cs).2
    ∀ x ∈ m.faults ix.corpus (.document id), ∀ j,
      x = some (.documentNotFound j) ↔ j = id ∧ (Command.survivors cs).find? id = none ∧
        (m.criteria.fieldNames ≠ [] ∨ ∃ f, f ∈ ix.fieldNames .indexed) := by
  intro ix x hx j
  let k := ((Catalog.create own mappings).run cs).2
  have hrealizes : ix.Realizes k := ((Index.realizes_create own mappings).run cs).2
  have hother : ∀ g, Fault.documentNotFound j ≠ .arithmetic g := by
    intro g hg
    cases hg
  rw [eq_of_mem_faults hx, fault?_shortlist_eq_some_iff hother,
    ← (Catalog.sameIds_survivors own mappings cs).find?_eq_none_iff id]
  change _ ↔ j = id ∧ k.live.find? id = none ∧ (_ ∨ ∃ f, f ∈ ix.corpus.fieldNames .indexed)
  rw [← fieldNames_ne_nil_iff m ix.corpus id]
  cases hv : k.live.find? id with
  | none =>
    rw [tally_eq_error_iff_of_not_live hrealizes hv]
    simp
  | some v =>
    rw [tally_eq_error_iff_of_live hrealizes hv]
    simp

/-- Of two documents in an index with one field, the one that was deleted is not found. -/
theorem documentNotFound_iff_deleted :
    let d (id : String) : Document := ⟨id, .ofList [("f", .text "a")]⟩
    let cs : List Command := [.add (d "1"), .add (d "2"), .delete "1"]
    let ix := ((Index.create (some .keyword) []).run cs).2
    let m : Miner Float :=
      { similarity := .classic, analyzer := some .keyword, criteria := .standard }
    (∀ x ∈ m.faults ix.corpus (.document "1"), x = some (.documentNotFound "1")) ∧
    ∀ x ∈ m.faults ix.corpus (.document "2"), ∀ j, x ≠ some (.documentNotFound j) := by
  intro d cs ix m
  have hindexed : "f" ∈ ix.fieldNames .indexed := by decide +kernel
  constructor
  · intro x hx
    have hgone : (Command.survivors cs).find? "1" = none := rfl
    exact (documentNotFound_iff (some .keyword) [] cs m "1" x hx "1").2
      ⟨rfl, hgone, Or.inr ⟨"f", hindexed⟩⟩
  · intro x hx j hj
    have hlive : (Command.survivors cs).find? "2" = some (d "2") := rfl
    obtain ⟨-, hgone, -⟩ := (documentNotFound_iff (some .keyword) [] cs m "2" x hx j).1 hj
    rw [hlive] at hgone
    cases hgone

/-- Where no field is indexed and none is chosen, no document is looked up. -/
theorem not_forall_documentNotFound :
    ¬∀ (own : Option Analyzer) (mappings : List FieldMapping) (cs : List Command) (m : Miner Float)
      (id : String), m.analyzer.isSome = true →
      (∀ docFreq numDocs, ∃ w, m.similarity.idf docFreq numDocs = .ok w) →
      ∀ x ∈ m.faults ((Index.create own mappings).run cs).2.corpus (.document id),
        (∃ j, x = some (.documentNotFound j)) ↔ (Command.survivors cs).find? id = none := by
  intro h
  let m : Miner Float :=
    { similarity := .ofFunction fun _ _ => .ok 1, analyzer := some .keyword
      criteria := .standard }
  let corpus := (Index.create (some .keyword) []).corpus
  have hmined : (m.shortlist corpus (.document "1")).fault?.isNone = true := by decide +kernel
  obtain ⟨j, hj⟩ := (h (some .keyword) [] [] m "1" rfl (fun _ _ => ⟨1, rfl⟩)
    (m.shortlist corpus (.document "1")).fault? List.mem_cons_self).2 rfl
  rw [hj] at hmined
  cases hmined

/-- Without an analyzer, and with vectors kept of every field that is mined, a live document cannot
be mined exactly if it has no text in one of them. -/
theorem analyzerRequired_iff (own : Option Analyzer) (mappings : List FieldMapping)
    {cs : List Command} (hcs : Command.IsSettled cs) {m : Miner ω} (ha : m.analyzer = none)
    {id : String} {d : Document} (hd : (Command.survivors cs).find? id = some d) :
    let ix := ((Index.create own mappings).run cs).2
    let fields := (m.criteriaFor ix.corpus (.document id)).1.fieldNames
    (∀ f ∈ fields, f ∈ ix.fieldNames .termVector) →
    ∀ x ∈ m.faults ix.corpus (.document id),
      (∃ note, x = some (.analyzerRequired note)) ↔ ∃ f ∈ fields, d.texts f = [] := by
  intro ix fields hkept x hx
  let k := ((Catalog.create own mappings).run cs).2
  have hrealizes : ix.Realizes k := ((Index.realizes_create own mappings).run cs).2
  have hv : k.live.find? id = some (k.version d) := by
    have hlive := Catalog.live_eq_survivors own mappings hcs id
    rwa [hd] at hlive
  have hvector : ∀ f ∈ fields, ((k.version d).vector f = none ↔ d.texts f = []) := by
    intro f hf
    obtain ⟨g, hg, hg'⟩ := (hrealizes.mem_fieldNames_iff .termVector f).1 (hkept f hf)
    have hof : (k.mapping f).isOf .termVector = true := by
      rw [Catalog.mapping, hg]
      exact hg'
    exact Catalog.vector_version_eq_none_iff hof d
  have hfault : ∀ note, x = some (.analyzerRequired note) ↔
      note = "" ∧ ∃ f ∈ fields, d.texts f = [] := by
    intro note
    have hother : ∀ g, Fault.analyzerRequired note ≠ .arithmetic g := by
      intro g hg
      cases hg
    rw [eq_of_mem_faults hx, fault?_shortlist_eq_some_iff hother,
      tally_eq_error_iff_of_live hrealizes hv, Fault.analyzerRequired.injEq]
    exact and_congr_right fun _ => (and_iff_right ha).trans
      (exists_congr fun f => and_congr_right fun hf => hvector f hf)
  simp only [hfault, exists_eq_left]

/-- Of two documents that are live, only the one without a text in a field that is mined asks for an
analyzer. -/
theorem analyzerRequired_iff_lacking :
    let whole : Document := ⟨"1", .ofList [("f", .text "a"), ("g", .text "b")]⟩
    let lacking : Document := ⟨"2", .ofList [("f", .text "a"), ("g", .list [.null])]⟩
    let cs : List Command := [.add whole, .add lacking]
    let mappings : List FieldMapping :=
      [{ name := "f", termVectors := true }, { name := "g", termVectors := true }]
    let ix := ((Index.create (some .keyword) mappings).run cs).2
    let m : Miner Float :=
      { similarity := .classic, analyzer := none
        criteria := { boostFactor := 1, fieldNames := ["f", "g"] } }
    (∀ x ∈ m.faults ix.corpus (.document "1"), ∀ note, x ≠ some (.analyzerRequired note)) ∧
    ∀ x ∈ m.faults ix.corpus (.document "2"), ∃ note, x = some (.analyzerRequired note) := by
  intro whole lacking cs mappings ix m
  have hcs : Command.IsSettled cs := by
    simp [cs, Command.IsSettled, Command.adds, Command.defines]
  have hkept : ∀ f ∈ ["f", "g"], f ∈ ix.fieldNames .termVector := by decide +kernel
  constructor
  · intro x hx note hnote
    have htexts : ∀ f ∈ ["f", "g"], whole.texts f ≠ [] := by decide +kernel
    have hlive : (Command.survivors cs).find? "1" = some whole := rfl
    obtain ⟨f, hf, hempty⟩ :=
      (analyzerRequired_iff (some .keyword) mappings hcs (m := m) rfl hlive hkept x hx).1
        ⟨note, hnote⟩
    exact htexts f hf hempty
  · intro x hx
    have htexts : lacking.texts "g" = [] := by decide +kernel
    have hlive : (Command.survivors cs).find? "2" = some lacking := rfl
    exact (analyzerRequired_iff (some .keyword) mappings hcs (m := m) rfl hlive hkept x hx).2
      ⟨"g", by decide, htexts⟩

/-- Vectors do not make up for an analyzer where a document has no text. -/
theorem not_forall_ne_analyzerRequired :
    ¬∀ (own : Option Analyzer) (mappings : List FieldMapping) (cs : List Command),
      Command.IsSettled cs → ∀ m : Miner Float, m.analyzer = none →
      ∀ id, ((Command.survivors cs).find? id).isSome = true →
      let ix := ((Index.create own mappings).run cs).2
      (∀ f ∈ (m.criteriaFor ix.corpus (.document id)).1.fieldNames,
        f ∈ ix.fieldNames .termVector) →
      ∀ x ∈ m.faults ix.corpus (.document id), ∀ note, x ≠ some (.analyzerRequired note) := by
  intro h
  let cs : List Command := [.add ⟨"1", .ofList [("f", .text "a")]⟩]
  let mappings : List FieldMapping :=
    [{ name := "f", termVectors := true }, { name := "g", termVectors := true }]
  let m : Miner Float :=
    { similarity := .classic, analyzer := none
      criteria := { boostFactor := 1, fieldNames := ["f", "g"] } }
  have hcs : Command.IsSettled cs := List.pairwise_singleton _ _
  exact h (some .keyword) mappings cs hcs m rfl "1" rfl (by decide +kernel)
    (some (.analyzerRequired "")) List.mem_cons_self "" rfl

end Miner
end TermMining
