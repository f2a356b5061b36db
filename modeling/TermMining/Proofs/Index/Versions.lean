import TermMining.Proofs.Index.Refinement

/-! The versions of a catalog are taken in by its own analyzer, and whether vectors are kept makes
no difference to anything else. -/
namespace TermMining

/-- Every live version is what some mapping makes of some texts. -/
structure Catalog.IsSound (own : Option Analyzer) (k : Catalog) : Prop where
  analyzer : k.analyzer = own
  named : ∀ f, (k.mapping f).name = f
  taken : ∀ id v, k.live.find? id = some v → ∀ f e, v f = some e →
    ∃ m texts, m.name = f ∧ e = .of own m texts

def FieldMapping.withoutVectors (m : FieldMapping) : FieldMapping := { m with termVectors := false }

def Entry.withoutVectors (e : Entry) : Entry := { e with keepsVector := false }

def Version.withoutVectors (v : Version) : Version := fun f => (v f).map Entry.withoutVectors

def Command.withoutVectors : Command → Command
  | .define m => .define m.withoutVectors
  | c => c

/-- The catalogs differ at most in what they keep vectors of. -/
structure Catalog.Alike (k l : Catalog) : Prop where
  analyzer : k.analyzer = l.analyzer
  mapping : ∀ f, (k.mapping f).withoutVectors = (l.mapping f).withoutVectors
  live : ∀ id, (k.live.find? id).map Version.withoutVectors =
    (l.live.find? id).map Version.withoutVectors

namespace Catalog

variable {own : Option Analyzer} {k l : Catalog}

theorem live_delete (k : Catalog) (id j : String) :
    (k.delete id).2.live.find? j = if j = id then none else k.live.find? j := by
  cases hl : k.live.find? id with
  | some v =>
    rw [delete_of_live hl]
    exact k.live.find?_erase id j
  | none =>
    rw [delete_of_not_live hl]
    split
    · next hj => rw [hj, hl]
    · rfl

theorem analyzer_delete (k : Catalog) (id : String) : (k.delete id).2.analyzer = k.analyzer := by
  cases hl : k.live.find? id with
  | some v => rw [delete_of_live hl]
  | none => rw [delete_of_not_live hl]

theorem mappings_delete (k : Catalog) (id : String) : (k.delete id).2.mappings = k.mappings := by
  cases hl : k.live.find? id with
  | some v => rw [delete_of_live hl]
  | none => rw [delete_of_not_live hl]

theorem mapping_delete (k : Catalog) (id f : String) :
    (k.delete id).2.mapping f = k.mapping f := by
  unfold mapping
  rw [mappings_delete]

theorem live_add (k : Catalog) (d : Document) (id : String) :
    (k.add d).live.find? id = if id = d.id then some (k.version d) else k.live.find? id :=
  k.live.find?_insert d.id _ id

theorem analyzer_add (k : Catalog) (d : Document) : (k.add d).analyzer = k.analyzer :=
  k.analyzer_foldl_openField _

theorem mapping_add (k : Catalog) (d : Document) (f : String) :
    (k.add d).mapping f = k.mapping f :=
  k.mapping_foldl_openField _ f

theorem IsSound.add (h : k.IsSound own) (d : Document) : (k.add d).IsSound own where
  analyzer := (k.analyzer_add d).trans h.analyzer
  named f := by rw [mapping_add, h.named]
  taken id v hv f e he := by
    rw [live_add] at hv
    split at hv
    · obtain rfl := Option.some.inj hv
      cases hd : (d.texts f).isEmpty with
      | true =>
        rw [version_eq_none hd] at he
        cases he
      | false =>
        rw [version_eq_some hd, h.analyzer] at he
        exact ⟨k.mapping f, d.texts f, h.named f, (Option.some.inj he).symm⟩
    · exact h.taken id v hv f e he

theorem IsSound.foldl_add (h : k.IsSound own) (ds : List Document) :
    (ds.foldl Catalog.add k).IsSound own := by
  induction ds generalizing k with
  | nil => exact h
  | cons d ds ih => exact ih (h.add d)

theorem IsSound.define (h : k.IsSound own) (m : FieldMapping) : (k.define m).IsSound own where
  analyzer := h.analyzer
  named := named_define h.named m
  taken := h.taken

theorem IsSound.foldl_define (h : k.IsSound own) (ms : List FieldMapping) :
    (ms.foldl Catalog.define k).IsSound own := by
  induction ms generalizing k with
  | nil => exact h
  | cons m ms ih => exact ih (h.define m)

theorem IsSound.step (h : k.IsSound own) (c : Command) : (k.step c).2.IsSound own := by
  cases c with
  | define m => exact h.define m
  | mapping field =>
    have hnamed : ∀ f, ((k.openField field).mapping f).name = f := by
      intro f
      rw [mapping_openField, h.named]
    exact ⟨h.analyzer, hnamed, h.taken⟩
  | add d => exact h.add d
  | addAll ds => exact h.foldl_add ds
  | delete id =>
    have hanalyzer : (k.delete id).2.analyzer = own := by rw [analyzer_delete, h.analyzer]
    have hnamed : ∀ f, ((k.delete id).2.mapping f).name = f := by
      intro f
      rw [mapping_delete, h.named]
    have htaken : ∀ j v, (k.delete id).2.live.find? j = some v → k.live.find? j = some v := by
      intro j v hv
      rw [live_delete] at hv
      split at hv
      · cases hv
      · exact hv
    exact ⟨hanalyzer, hnamed, fun j v hv => h.taken j v (htaken j v hv)⟩
  | purge => exact ⟨h.analyzer, h.named, h.taken⟩

theorem IsSound.run (h : k.IsSound own) (cs : List Command) : (k.run cs).2.IsSound own := by
  induction cs generalizing k with
  | nil => exact h
  | cons c cs ih => exact ih (h.step c)

theorem isSound_run (own : Option Analyzer) (mappings : List FieldMapping) (cs : List Command) :
    ((create own mappings).run cs).2.IsSound own := by
  have hempty : IsSound own ⟨own, .empty, .empty, .empty⟩ := by
    constructor
    · rfl
    · exact fun _ => rfl
    · intro id v hv
      cases hv
  exact (hempty.foldl_define mappings).run cs

/-- A vector that is kept of a stored field is that of the terms of the stored texts. -/
theorem IsSound.vector_cases {a : Analyzer} (h : k.IsSound (some a)) {id : String} {v : Version}
    (hv : k.live.find? id = some v) {f : String} (hs : v.IsStored f) :
    v.vector f = none ∨
      v.vector f = some (.ofTerms f ((v.values f).flatMap (a.fieldTerms f))) := by
  unfold Version.vector Version.values Version.stored
  cases he : v f with
  | none => exact Or.inl rfl
  | some e =>
    obtain ⟨m, texts, rfl, rfl⟩ := h.taken id v hv f e he
    rw [Option.bind_some, Option.bind_some]
    cases hk : (Entry.of (some a) m texts).keepsVector with
    | false => exact Or.inl rfl
    | true =>
      have hi : m.indexed = true := (Bool.and_eq_true_iff.1 hk).1
      have hterms : (Entry.of (some a) m texts).terms = texts.flatMap (a.fieldTerms m.name) :=
        if_pos hi
      have hstored : (Entry.of (some a) m texts).stored = some texts := by
        have hsome := hs _ he
        unfold Entry.of at hsome ⊢
        dsimp only at hsome ⊢
        split
        · rfl
        · next hm =>
          rw [if_neg hm] at hsome
          cases hsome
      rw [hterms, hstored]
      exact Or.inr rfl

theorem terms_withoutVectors (v : Version) (f : String) : v.withoutVectors.terms f = v.terms f := by
  unfold Version.terms Version.withoutVectors
  cases v f <;> rfl

theorem values_withoutVectors (v : Version) (f : String) :
    v.withoutVectors.values f = v.values f := by
  unfold Version.values Version.stored Version.withoutVectors
  cases v f <;> rfl

theorem isStored_withoutVectors (v : Version) (f : String) :
    v.withoutVectors.IsStored f ↔ v.IsStored f := by
  unfold Version.IsStored Version.withoutVectors
  cases v f <;> simp [Entry.withoutVectors]

theorem Alike.define (h : k.Alike l) {m n : FieldMapping}
    (hm : m.withoutVectors = n.withoutVectors) : (k.define m).Alike (l.define n) where
  analyzer := h.analyzer
  mapping f := by
    have hname : m.name = n.name :=
      show m.withoutVectors.name = n.withoutVectors.name from congrArg _ hm
    rw [mapping_define, mapping_define, hname]
    split
    · exact hm
    · exact h.mapping f
  live := h.live

theorem Alike.version (h : k.Alike l) (d : Document) :
    (k.version d).withoutVectors = (l.version d).withoutVectors := by
  have hof : ∀ m texts, (Entry.of k.analyzer m texts).withoutVectors =
      (Entry.of k.analyzer m.withoutVectors texts).withoutVectors := by
    intro m texts
    unfold Entry.withoutVectors Entry.of
    rfl
  funext f
  unfold Version.withoutVectors
  cases hd : (d.texts f).isEmpty with
  | true => rw [version_eq_none hd, version_eq_none hd]
  | false =>
    rw [version_eq_some hd, version_eq_some hd, Option.map_some, Option.map_some, ← h.analyzer,
      hof, h.mapping, ← hof]

theorem Alike.add (h : k.Alike l) (d : Document) : (k.add d).Alike (l.add d) where
  analyzer := by rw [analyzer_add, analyzer_add, h.analyzer]
  mapping f := by rw [mapping_add, mapping_add, h.mapping]
  live id := by
    rw [live_add, live_add]
    split
    · exact congrArg some (h.version d)
    · exact h.live id

theorem Alike.foldl_add (h : k.Alike l) (ds : List Document) :
    (ds.foldl Catalog.add k).Alike (ds.foldl Catalog.add l) := by
  induction ds generalizing k l with
  | nil => exact h
  | cons d ds ih => exact ih (h.add d)

theorem Alike.foldl_define (h : k.Alike l) {ms ns : List FieldMapping}
    (hm : ms.map FieldMapping.withoutVectors = ns.map FieldMapping.withoutVectors) :
    (ms.foldl Catalog.define k).Alike (ns.foldl Catalog.define l) := by
  induction ms generalizing k l ns with
  | nil =>
    obtain rfl : ns = [] := by simpa using hm.symm
    exact h
  | cons m ms ih =>
    cases ns with
    | nil => simp at hm
    | cons n ns =>
      simp only [List.map_cons, List.cons.injEq] at hm
      exact ih (h.define hm.1) hm.2

theorem withoutVectors_eq {c e : Command} (h : c.withoutVectors = e.withoutVectors) :
    c = e ∨ ∃ m n, c = .define m ∧ e = .define n ∧ m.withoutVectors = n.withoutVectors := by
  cases c <;> cases e <;> simp_all [Command.withoutVectors]

theorem Alike.step (h : k.Alike l) {c e : Command} (hc : c.withoutVectors = e.withoutVectors) :
    (k.step c).2.Alike (l.step e).2 := by
  obtain rfl | ⟨m, n, rfl, rfl, hm⟩ := withoutVectors_eq hc
  · cases c with
    | define m => exact h.define rfl
    | mapping field =>
      dsimp only [Catalog.step]
      constructor
      · exact h.analyzer
      · intro f
        rw [mapping_openField, mapping_openField, h.mapping]
      · exact h.live
    | add d => exact h.add d
    | addAll ds => exact h.foldl_add ds
    | delete id =>
      dsimp only [Catalog.step]
      constructor
      · rw [analyzer_delete, analyzer_delete, h.analyzer]
      · intro f
        rw [mapping_delete, mapping_delete, h.mapping]
      · intro j
        rw [live_delete, live_delete]
        split
        · rfl
        · exact h.live j
    | purge => exact ⟨h.analyzer, h.mapping, h.live⟩
  · exact h.define hm

theorem Alike.run (h : k.Alike l) {cs es : List Command}
    (hc : cs.map Command.withoutVectors = es.map Command.withoutVectors) :
    (k.run cs).2.Alike (l.run es).2 := by
  induction cs generalizing k l es with
  | nil =>
    obtain rfl : es = [] := by simpa using hc.symm
    exact h
  | cons c cs ih =>
    cases es with
    | nil => simp at hc
    | cons e es =>
      simp only [List.map_cons, List.cons.injEq] at hc
      exact ih (h.step hc.1) hc.2

/-- Commands that differ only in the fields to keep vectors of lead to catalogs that differ only in
the vectors kept. -/
theorem alike_run (own : Option Analyzer) {ms ns : List FieldMapping} {cs es : List Command}
    (hm : ms.map FieldMapping.withoutVectors = ns.map FieldMapping.withoutVectors)
    (hc : cs.map Command.withoutVectors = es.map Command.withoutVectors) :
    ((create own ms).run cs).2.Alike ((create own ns).run es).2 := by
  have hempty : Alike ⟨own, .empty, .empty, .empty⟩ ⟨own, .empty, .empty, .empty⟩ :=
    ⟨rfl, fun _ => rfl, fun _ => rfl⟩
  exact (hempty.foldl_define hm).run hc

theorem Alike.live_cases (h : k.Alike l) {id : String} {v : Version}
    (hv : k.live.find? id = some v) {f : String} (hs : v.IsStored f) :
    ∃ w, l.live.find? id = some w ∧ w.IsStored f ∧ w.values f = v.values f := by
  have hl := h.live id
  rw [hv] at hl
  obtain ⟨w, hw, hvw⟩ := Option.map_eq_some_iff.1 hl.symm
  have hsw : w.IsStored f := by rwa [← isStored_withoutVectors, hvw, isStored_withoutVectors]
  have hvalues : w.values f = v.values f := by
    rw [← values_withoutVectors, hvw, values_withoutVectors]
  exact ⟨w, hw, hsw, hvalues⟩

theorem Alike.size_eq (h : k.Alike l) : k.live.size = l.live.size := by
  apply OrderedMap.size_eq
  intro id
  have hl := congrArg Option.isSome (h.live id)
  rwa [Option.isSome_map, Option.isSome_map] at hl

theorem Alike.docFreq_eq (h : k.Alike l) (t : Term) : k.docFreq t = l.docFreq t := by
  apply OrderedMap.size_eq
  intro id
  have hl := h.live id
  rw [OrderedMap.find?_filter, OrderedMap.find?_filter]
  cases hk : k.live.find? id with
  | none =>
    rw [hk] at hl
    have hnone : l.live.find? id = none := by simpa using hl.symm
    rw [hnone]
  | some v =>
    rw [hk] at hl
    obtain ⟨w, hw, hvw⟩ := Option.map_eq_some_iff.1 hl.symm
    have hterms : v.terms t.field = w.terms t.field := by
      rw [← terms_withoutVectors v, ← terms_withoutVectors w, hvw]
    rw [hw, Option.filter_some, Option.filter_some, hterms]
    split <;> rfl

theorem Alike.figures_eq (h : k.Alike l) {ix jx : Index} (hk : ix.Realizes k) (hl : jx.Realizes l) :
    ix.corpus.numDocs = jx.corpus.numDocs ∧
      ∀ t, ix.corpus.docFreq t = jx.corpus.docFreq t := by
  constructor
  · exact congrArg Int.ofNat (hk.numDocs_eq.trans (h.size_eq.trans hl.numDocs_eq.symm))
  · intro t
    have hfreq := (hk.docFreq_eq t).trans ((h.docFreq_eq t).trans (hl.docFreq_eq t).symm)
    exact congrArg Int.ofNat hfreq

end Catalog
end TermMining
