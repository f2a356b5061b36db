import TermMining.Proofs.Index.Intake

/-! An index answers like its catalog, after every command and to every question. -/
namespace TermMining

/-- What a catalog has of a document: whether it is live, and its last version. -/
def Catalog.held? (k : Catalog) (id : String) : Option (Bool × Version) :=
  match k.live.find? id with
  | some v => some (true, v)
  | none => (k.marked.find? id).map fun v => (false, v)

theorem Catalog.delete_of_live {k : Catalog} {id : String} {v : Version}
    (hv : k.live.find? id = some v) :
    k.delete id = (true, { k with live := k.live.erase id, marked := k.marked.insert id v }) := by
  unfold delete
  rw [hv]

theorem Catalog.delete_of_not_live {k : Catalog} {id : String} (hv : k.live.find? id = none) :
    k.delete id = (false, k) := by
  unfold delete
  rw [hv]

/-- A record has the stored texts and the vectors of a version. -/
structure DocumentRecord.Keeps (r : DocumentRecord) (h : Bool × Version) : Prop where
  live : r.live = h.1
  stored : ∀ f, r.stored.find? f = h.2.stored f
  vectors : ∀ f, r.vectors.find? f = h.2.vector f

namespace Index

structure Realizes (ix : Index) (k : Catalog) : Prop where
  analyzer : ix.analyzer = k.analyzer
  mappings : ix.mappings = k.mappings
  named : ∀ f, (k.mapping f).name = f
  apart : ∀ id, (k.live.find? id).isSome → k.marked.find? id = none
  docs : ∀ id, Option.Rel DocumentRecord.Keeps (ix.docs.find? id) (k.held? id)
  posting : ∀ t id, ix.posting? t id =
    (k.held? id).bind fun h => Posting.of? (h.2.terms t.field) t.text

variable {ix : Index} {k : Catalog}

theorem Realizes.define (h : ix.Realizes k) (m : FieldMapping) :
    (ix.define m).Realizes (k.define m) where
  analyzer := h.analyzer
  mappings := congrArg (fun ms => OrderedMap.insert ms m.name m) h.mappings
  named := Catalog.named_define h.named m
  apart := h.apart
  docs := h.docs
  posting := h.posting

theorem Realizes.openField (h : ix.Realizes k) (field : String) :
    (ix.mapping field).1 = k.mapping field ∧ (ix.mapping field).2.Realizes (k.openField field) := by
  have hm := ix.mapping_eq field
  have hnamed : ∀ f, ((k.openField field).mapping f).name = f := by
    intro f
    rw [Catalog.mapping_openField, h.named]
  rw [h.mappings] at hm
  rw [hm]
  exact ⟨rfl, h.analyzer, rfl, hnamed, h.apart, h.docs, h.posting⟩

theorem held?_add (k : Catalog) (d : Document) (id : String) :
    (k.add d).held? id = if id = d.id then some (true, k.version d) else k.held? id := by
  have hlive : (k.add d).live = k.live.insert d.id (k.version d) := rfl
  have hmarked : (k.add d).marked = k.marked.erase d.id := rfl
  unfold Catalog.held?
  rw [hlive, hmarked, OrderedMap.find?_insert, OrderedMap.find?_erase]
  by_cases hid : id = d.id
  · rw [if_pos hid, if_pos hid, if_pos hid]
  · rw [if_neg hid, if_neg hid, if_neg hid]

theorem Realizes.docs_cases (h : ix.Realizes k) (id : String) :
    (ix.docs.find? id = none ∧ k.live.find? id = none ∧ k.marked.find? id = none) ∨
    (∃ r v, ix.docs.find? id = some r ∧ k.live.find? id = some v ∧ k.marked.find? id = none ∧
      r.Keeps (true, v)) ∨
    ∃ r v, ix.docs.find? id = some r ∧ k.live.find? id = none ∧ k.marked.find? id = some v ∧
      r.Keeps (false, v) := by
  have hd := h.docs id
  have ha := h.apart id
  unfold Catalog.held? at hd
  cases hl : k.live.find? id with
  | some v =>
    rw [hl] at hd ha
    cases hr : ix.docs.find? id with
    | none =>
      rw [hr] at hd
      cases hd
    | some r =>
      rw [hr] at hd
      cases hd with
      | some hk => exact Or.inr (Or.inl ⟨r, v, rfl, rfl, ha rfl, hk⟩)
  | none =>
    rw [hl] at hd
    cases hm : k.marked.find? id with
    | none =>
      rw [hm] at hd
      cases hr : ix.docs.find? id with
      | none => exact Or.inl ⟨rfl, rfl, rfl⟩
      | some r =>
        rw [hr] at hd
        cases hd
    | some v =>
      rw [hm] at hd
      cases hr : ix.docs.find? id with
      | none =>
        rw [hr] at hd
        cases hd
      | some r =>
        rw [hr] at hd
        cases hd with
        | some hk => exact Or.inr (Or.inr ⟨r, v, rfl, rfl, rfl, hk⟩)

/-- Taken out first, a document leaves nothing behind in the index it is added to. -/
theorem Realizes.start (h : ix.Realizes k) (id : String) :
    ∃ start : Index, (if ix.docs.contains id then ix.remove id else ix) = start ∧
      start.analyzer = ix.analyzer ∧ start.mappings = ix.mappings ∧
      (∀ j, j ≠ id → start.docs.find? j = ix.docs.find? j) ∧
      ∀ t j, start.posting? t j = if j = id then none else ix.posting? t j := by
  refine ⟨_, rfl, ?_⟩
  by_cases hc : ix.docs.contains id = true
  · rw [if_pos hc]
    exact ⟨rfl, rfl, fun j hj => ix.docs.find?_erase_of_ne hj, fun t j => posting?_remove ix id t j⟩
  · rw [if_neg hc]
    have hnone : ∀ t, ix.posting? t id = none := by
      intro t
      rw [OrderedMap.contains_eq_isSome] at hc
      rcases h.docs_cases id with ⟨-, hl, hm⟩ | ⟨r, v, hr, -⟩ | ⟨r, v, hr, -⟩
      · rw [h.posting, Catalog.held?, hl, hm]
        rfl
      · simp [hr] at hc
      · simp [hr] at hc
    have hposting : ∀ t j, ix.posting? t j = if j = id then none else ix.posting? t j := by
      intro t j
      split
      · next hj => rw [hj, hnone]
      · rfl
    exact ⟨rfl, rfl, fun _ _ => rfl, hposting⟩

theorem texts_eq_nil {d : Document} {f : String} (h : f ∉ d.fields.keys) : d.texts f = [] := by
  rw [OrderedMap.mem_keys_iff, Bool.not_eq_true, Option.isSome_eq_false_iff,
    Option.isNone_iff_eq_none] at h
  unfold Document.texts
  rw [h]
  rfl

def close (s : Intake) (id : String) : Index :=
  { s.index with docs := s.index.docs.insert id ⟨s.stored, s.vectors, true⟩ }

theorem add_eq_close (ix : Index) (d : Document) :
    (ix.add d).1 = close (d.fields.keys.foldl (fun s f => s.takeField d.id f (d.texts f))
      { index := if ix.docs.contains d.id then ix.remove d.id else ix }) d.id := rfl

theorem Realizes.add (h : ix.Realizes k) (d : Document) : (ix.add d).1.Realizes (k.add d) := by
  obtain ⟨start, hstart, hanalyzer, hmappings, hdocs, hposting⟩ := h.start d.id
  have ht := Intake.hasTaken_foldl_takeField (d := d) (hanalyzer.trans h.analyzer)
    (hmappings.trans h.mappings) h.named fun t => (hposting t d.id).trans (if_pos rfl)
  have hversion : ∀ f, f ∉ d.fields.keys → k.version d f = none := fun f hf =>
    Catalog.version_eq_none (List.isEmpty_iff.2 (texts_eq_nil hf))
  have hstored : ∀ f, f ∉ d.fields.keys → (k.version d).stored f = none := fun f hf => by
    rw [Version.stored, hversion f hf, Option.bind_none]
  have hvector : ∀ f, f ∉ d.fields.keys → (k.version d).vector f = none := fun f hf => by
    rw [Version.vector, hversion f hf, Option.bind_none]
  have hterms : ∀ f, f ∉ d.fields.keys → (k.version d).terms f = [] := fun f hf => by
    rw [Version.terms, hversion f hf, Option.map_none, Option.getD_none]
  rw [add_eq_close, hstart]
  generalize d.fields.keys.foldl (fun s f => Intake.takeField s d.id f (d.texts f))
    { index := start } = s at ht
  constructor
  · exact ht.analyzer.trans (k.analyzer_foldl_openField _).symm
  · exact ht.mappings
  · exact fun f => (congrArg _ (k.mapping_foldl_openField _ f)).trans (h.named f)
  · intro id hlive
    have hlive' : (k.live.insert d.id (k.version d)).find? id ≠ none :=
      Option.isSome_iff_ne_none.1 hlive
    change (k.marked.erase d.id).find? id = none
    rw [OrderedMap.find?_insert] at hlive'
    rw [OrderedMap.find?_erase]
    split
    · rfl
    · next hid =>
      rw [if_neg hid] at hlive'
      exact h.apart id (Option.isSome_iff_ne_none.2 hlive')
  · intro id
    change Option.Rel _ ((s.index.docs.insert d.id ⟨s.stored, s.vectors, true⟩).find? id) _
    rw [held?_add, OrderedMap.find?_insert]
    by_cases hid : id = d.id
    · rw [if_pos hid, if_pos hid]
      have hs : ∀ f, s.stored.find? f = (k.version d).stored f := by
        intro f
        rw [ht.stored]
        split
        · rfl
        · next hf => exact (hstored f hf).symm
      have hv : ∀ f, s.vectors.find? f = (k.version d).vector f := by
        intro f
        rw [ht.vectors]
        split
        · rfl
        · next hf => exact (hvector f hf).symm
      exact Option.Rel.some ⟨rfl, hs, hv⟩
    · rw [if_neg hid, if_neg hid, ht.docs, hdocs id hid]
      exact h.docs id
  · intro t id
    change s.index.posting? t id = _
    rw [ht.posting, held?_add, hposting]
    by_cases hid : id = d.id
    · rw [if_pos hid, if_pos hid, Option.bind_some]
      by_cases hf : t.field ∈ d.fields.keys
      · rw [if_pos ⟨hid, hf⟩]
      · rw [if_neg fun hc => hf hc.2, hterms t.field hf]
        rfl
    · rw [if_neg fun hc => hid hc.1, if_neg hid, if_neg hid, h.posting]

theorem held?_delete {v : Version} {id : String} (hv : k.live.find? id = some v) (j : String) :
    (k.delete id).2.held? j = if j = id then some (false, v) else k.held? j := by
  rw [Catalog.delete_of_live hv, Catalog.held?, Catalog.held?, OrderedMap.find?_erase,
    OrderedMap.find?_insert]
  by_cases hj : j = id
  · rw [if_pos hj, if_pos hj, if_pos hj]
    rfl
  · rw [if_neg hj, if_neg hj, if_neg hj]

theorem Realizes.delete (h : ix.Realizes k) (id : String) :
    (ix.delete id).1 = (k.delete id).1 ∧ (ix.delete id).2.Realizes (k.delete id).2 := by
  rcases h.docs_cases id with ⟨hr, hl, -⟩ | ⟨r, v, hr, hl, -, hk⟩ | ⟨r, v, hr, hl, -, hk⟩
  · rw [Catalog.delete_of_not_live hl, Index.delete, hr]
    exact ⟨rfl, h⟩
  · have hix : ix.delete id =
        (true, { ix with docs := ix.docs.insert id { r with live := false } }) := by
      unfold Index.delete
      rw [hr]
      exact if_pos hk.live
    have hheld := held?_delete hl
    rw [Catalog.delete_of_live hl] at hheld ⊢
    rw [hix]
    have hapart : ∀ j, ((k.live.erase id).find? j).isSome →
        (k.marked.insert id v).find? j = none := by
      intro j hj
      rw [OrderedMap.find?_erase] at hj
      rw [OrderedMap.find?_insert]
      by_cases hji : j = id
      · rw [if_pos hji] at hj
        cases hj
      · rw [if_neg hji] at hj ⊢
        exact h.apart j hj
    constructor
    · rfl
    · constructor
      · exact h.analyzer
      · exact h.mappings
      · exact h.named
      · exact hapart
      · intro j
        rw [hheld]
        dsimp only
        rw [OrderedMap.find?_insert]
        split
        · exact Option.Rel.some ⟨rfl, hk.stored, hk.vectors⟩
        · exact h.docs j
      · intro t j
        have hposting := h.posting t j
        rw [hheld]
        split
        · next hj =>
          rw [hj, Catalog.held?, hl] at hposting
          rw [hj]
          exact hposting
        · exact hposting
  · rw [Catalog.delete_of_not_live hl, Index.delete, hr]
    dsimp only
    rw [hk.live]
    exact ⟨rfl, h⟩

theorem foldl_remove (ids : List String) (ix : Index) :
    (ids.foldl remove ix).analyzer = ix.analyzer ∧ (ids.foldl remove ix).mappings = ix.mappings ∧
    (∀ id, (ids.foldl remove ix).docs.find? id = if id ∈ ids then none else ix.docs.find? id) ∧
    ∀ t id, (ids.foldl remove ix).posting? t id =
      if id ∈ ids then none else ix.posting? t id := by
  induction ids generalizing ix with
  | nil => exact ⟨rfl, rfl, fun _ => rfl, fun _ _ => rfl⟩
  | cons doc ids ih =>
    obtain ⟨hanalyzer, hmappings, hdocs, hposting⟩ := ih (ix.remove doc)
    constructor
    · exact hanalyzer
    constructor
    · exact hmappings
    constructor
    · intro id
      have hone : (ix.remove doc).docs.find? id = if id = doc then none else ix.docs.find? id :=
        ix.docs.find?_erase doc id
      rw [List.foldl_cons, hdocs, hone]
      by_cases hid : id = doc <;> simp [hid]
    · intro t id
      rw [List.foldl_cons, hposting, posting?_remove]
      by_cases hid : id = doc <;> simp [hid]

theorem Realizes.mem_deletedIds_iff (h : ix.Realizes k) (id : String) :
    id ∈ ix.deletedIds ↔ (k.marked.find? id).isSome := by
  unfold deletedIds
  rw [OrderedMap.mem_keys_iff, OrderedMap.find?_filter]
  rcases h.docs_cases id with ⟨hr, -, hm⟩ | ⟨r, v, hr, -, hm, hk⟩ | ⟨r, v, hr, -, hm, hk⟩
  · rw [hr, hm]
    rfl
  · have hlive : r.live = true := hk.live
    rw [hr, hm]
    simp [hlive]
  · have hlive : r.live = false := hk.live
    rw [hr, hm]
    simp [hlive]

theorem Realizes.purge (h : ix.Realizes k) :
    ix.purge.1 = k.purge.1 ∧ ix.purge.2.Realizes k.purge.2 := by
  obtain ⟨hanalyzer, hmappings, hdocs, hposting⟩ := foldl_remove ix.deletedIds ix
  have hheld : ∀ id, k.purge.2.held? id = if id ∈ ix.deletedIds then none else k.held? id := by
    intro id
    have hd := h.mem_deletedIds_iff id
    unfold Catalog.held? Catalog.purge
    rcases h.docs_cases id with ⟨-, hl, hm⟩ | ⟨r, v, -, hl, hm, -⟩ | ⟨r, v, -, hl, hm, -⟩ <;>
      simp [hd, hl, hm]
  constructor
  · have hlen : ix.deletedIds.length = (ix.docs.filter fun _ r => !r.live).size := List.length_map _
    have hsize : (ix.docs.filter fun _ r => !r.live).size = k.marked.size := by
      apply OrderedMap.size_eq
      intro id
      rw [Bool.eq_iff_iff, ← h.mem_deletedIds_iff, ← OrderedMap.mem_keys_iff]
      rfl
    exact hlen.trans hsize
  · constructor
    · exact hanalyzer.trans h.analyzer
    · exact hmappings.trans h.mappings
    · exact h.named
    · exact fun _ _ => rfl
    · intro id
      rw [hheld]
      change Option.Rel _ ((ix.deletedIds.foldl remove ix).docs.find? id) _
      rw [hdocs]
      split
      · exact Option.Rel.none
      · exact h.docs id
    · intro t id
      change (ix.deletedIds.foldl remove ix).posting? t id = _
      rw [hheld, hposting]
      split
      · rfl
      · exact h.posting t id

theorem Realizes.foldl_define (h : ix.Realizes k) (ms : List FieldMapping) :
    (ms.foldl Index.define ix).Realizes (ms.foldl Catalog.define k) := by
  induction ms generalizing ix k with
  | nil => exact h
  | cons m ms ih => exact ih (h.define m)

theorem Realizes.foldl_add (h : ix.Realizes k) (ds : List Document) :
    (ds.foldl (fun ix d => (ix.add d).1) ix).Realizes (ds.foldl Catalog.add k) := by
  induction ds generalizing ix k with
  | nil => exact h
  | cons d ds ih => exact ih (h.add d)

/-- One command is answered by both alike and leaves the index holding what the catalog says. -/
theorem Realizes.step (h : ix.Realizes k) (c : Command) :
    (ix.step c).1 = (k.step c).1 ∧ (ix.step c).2.Realizes (k.step c).2 := by
  cases c with
  | define m => exact ⟨rfl, h.define m⟩
  | mapping field => exact ⟨congrArg Reply.mapping (h.openField field).1, (h.openField field).2⟩
  | add d => exact ⟨rfl, h.add d⟩
  | addAll ds => exact ⟨rfl, h.foldl_add ds⟩
  | delete id => exact ⟨congrArg Reply.deleted (h.delete id).1, (h.delete id).2⟩
  | purge => exact ⟨congrArg Reply.purged h.purge.1, h.purge.2⟩

theorem Realizes.run (h : ix.Realizes k) (cs : List Command) :
    (ix.run cs).1 = (k.run cs).1 ∧ (ix.run cs).2.Realizes (k.run cs).2 := by
  induction cs generalizing ix k with
  | nil => exact ⟨rfl, h⟩
  | cons c cs ih =>
    obtain ⟨hreply, hnext⟩ := h.step c
    obtain ⟨hreplies, hend⟩ := ih hnext
    constructor
    · dsimp only [Index.run, Catalog.run]
      rw [hreply, hreplies]
    · exact hend

theorem realizes_create (analyzer : Option Analyzer) (mappings : List FieldMapping) :
    (create analyzer mappings).Realizes (Catalog.create analyzer mappings) := by
  have hempty : (empty analyzer).Realizes ⟨analyzer, .empty, .empty, .empty⟩ := by
    constructor
    · rfl
    · rfl
    · exact fun _ => rfl
    · exact fun _ _ => rfl
    · exact fun _ => Option.Rel.none
    · exact fun _ _ => rfl
  exact hempty.foldl_define mappings

theorem Realizes.isLive_iff (h : ix.Realizes k) (id : String) :
    ix.isLive id = (k.live.find? id).isSome := by
  unfold isLive
  rcases h.docs_cases id with ⟨hr, hl, -⟩ | ⟨r, v, hr, hl, -, hk⟩ | ⟨r, v, hr, hl, -, hk⟩
  · rw [hr, hl]
    rfl
  · rw [hr, hl]
    exact hk.live
  · rw [hr, hl]
    exact hk.live

theorem Realizes.numDocs_eq (h : ix.Realizes k) : ix.numDocs = k.live.size := by
  apply OrderedMap.size_eq
  intro id
  rw [OrderedMap.find?_filter]
  rcases h.docs_cases id with ⟨hr, hl, -⟩ | ⟨r, v, hr, hl, -, hk⟩ | ⟨r, v, hr, hl, -, hk⟩
  · rw [hr, hl]
    rfl
  · have hlive : r.live = true := hk.live
    rw [hr, hl]
    simp [hlive]
  · have hlive : r.live = false := hk.live
    rw [hr, hl]
    simp [hlive]

theorem Realizes.docFreq_eq (h : ix.Realizes k) (t : Term) : ix.docFreq t = k.docFreq t := by
  have hfreq : ix.docFreq t =
      (((ix.postingsOf? t).getD .empty).filter fun id _ => ix.isLive id).size := by
    unfold docFreq
    cases ix.postingsOf? t <;> rfl
  have hposting : ∀ id, ((ix.postingsOf? t).getD .empty).find? id = ix.posting? t id := by
    intro id
    unfold posting?
    cases ix.postingsOf? t <;> rfl
  rw [hfreq]
  apply OrderedMap.size_eq
  intro id
  rw [OrderedMap.find?_filter, OrderedMap.find?_filter, hposting, h.posting, h.isLive_iff,
    Catalog.held?]
  cases hl : k.live.find? id with
  | none => simp
  | some v =>
    by_cases ht : t.text ∈ v.terms t.field <;> simp [Posting.of?, ht]

theorem Realizes.record_cases (h : ix.Realizes k) (id : String) :
    (k.live.find? id = none ∧ ix.record id = .error (.documentNotFound id)) ∨
      ∃ r v, k.live.find? id = some v ∧ ix.record id = .ok r ∧ r.Keeps (true, v) := by
  unfold record
  rcases h.docs_cases id with ⟨hr, hl, -⟩ | ⟨r, v, hr, hl, -, hk⟩ | ⟨r, v, hr, hl, -, hk⟩
  · rw [hr]
    exact Or.inl ⟨hl, rfl⟩
  · rw [hr]
    exact Or.inr ⟨r, v, hl, if_pos hk.live, hk⟩
  · have hlive : r.live = false := hk.live
    rw [hr]
    dsimp only
    rw [hlive]
    exact Or.inl ⟨hl, rfl⟩

theorem Realizes.vector_eq (h : ix.Realizes k) (id f : String) :
    ix.vector id f = match k.live.find? id with
      | some v => .ok (v.vector f)
      | none => .error (.documentNotFound id) := by
  unfold vector
  rcases h.record_cases id with ⟨hl, hr⟩ | ⟨r, v, hl, hr, hk⟩
  · rw [hl, hr]
    rfl
  · rw [hl, hr]
    exact congrArg Except.ok (hk.vectors f)

theorem Realizes.document_spec (h : ix.Realizes k) (id : String) :
    match k.live.find? id with
    | some v => ∃ d, ix.document id = .ok d ∧ d.id = id ∧ ∀ f, d.content.find? f = v.stored f
    | none => ix.document id = .error (.documentNotFound id) := by
  unfold document
  rcases h.record_cases id with ⟨hl, hr⟩ | ⟨r, v, hl, hr, hk⟩
  · rw [hl, hr]
    rfl
  · rw [hl, hr]
    exact ⟨⟨id, r.stored⟩, rfl, rfl, hk.stored⟩

theorem Realizes.vector_of_live (h : ix.Realizes k) {id : String} {v : Version}
    (hv : k.live.find? id = some v) (f : String) : ix.vector id f = .ok (v.vector f) := by
  rw [h.vector_eq, hv]

theorem Realizes.document_of_live (h : ix.Realizes k) {id : String} {v : Version}
    (hv : k.live.find? id = some v) :
    ∃ d, ix.document id = .ok d ∧ ∀ f, d.values f = v.values f := by
  have hd := h.document_spec id
  rw [hv] at hd
  obtain ⟨d, hdoc, -, hcontent⟩ := hd
  exact ⟨d, hdoc, fun f => congrArg (Option.getD · []) (hcontent f)⟩

theorem Realizes.values_eq (h : ix.Realizes k) (id f : String) :
    (ix.document id).map (·.values f) = match k.live.find? id with
      | some v => .ok (v.values f)
      | none => .error (.documentNotFound id) := by
  cases hl : k.live.find? id with
  | none =>
    have hd := h.document_spec id
    rw [hl] at hd
    rw [hd]
    rfl
  | some v =>
    obtain ⟨d, hdoc, hvalues⟩ := h.document_of_live hl
    rw [hdoc]
    exact congrArg Except.ok (hvalues f)

theorem Realizes.mem_fieldNames_iff (h : ix.Realizes k) (kind : FieldKind) (f : String) :
    f ∈ ix.fieldNames kind ↔ ∃ m, k.mappings.find? f = some m ∧ m.isOf kind = true := by
  have hname : ∀ {f m}, k.mappings.find? f = some m → m.name = f := by
    intro f m hm
    have hn := h.named f
    rwa [Catalog.mapping, hm] at hn
  have hnames : ix.fieldNames kind =
      .ofList ((ix.mappings.values.filter fun m => m.isOf kind).map (·.name)) := by
    cases kind <;> rfl
  rw [hnames, StringSet.mem_ofList, h.mappings]
  constructor
  · intro hmem
    obtain ⟨m, hm, rfl⟩ := List.mem_map.1 hmem
    obtain ⟨hval, hof⟩ := List.mem_filter.1 hm
    obtain ⟨e, he, rfl⟩ := List.mem_map.1 hval
    have hfind : k.mappings.find? e.1 = some e.2 := k.mappings.find?_eq_some_iff.2 he
    rw [hname hfind]
    exact ⟨e.2, hfind, hof⟩
  · rintro ⟨m, hm, hof⟩
    have hval : m ∈ k.mappings.values :=
      List.mem_map.2 ⟨_, k.mappings.find?_eq_some_iff.1 hm, rfl⟩
    rw [← hname hm]
    exact List.mem_map_of_mem (List.mem_filter.2 ⟨hval, hof⟩)

/-- An index replies to any commands as its catalog does, and reads as the catalog says: the number
of documents is that of the live ones, a term is in as many documents as have it in their last
version, vectors and stored texts are those of that version, and a document that is not live is not
found. -/
theorem run_refines (analyzer : Option Analyzer) (mappings : List FieldMapping)
    (cs : List Command) :
    let r := (create analyzer mappings).run cs
    let k := ((Catalog.create analyzer mappings).run cs).2
    r.1 = ((Catalog.create analyzer mappings).run cs).1 ∧
    r.2.numDocs = k.live.size ∧
    (∀ t, r.2.docFreq t = (k.live.filter fun _ v => (v.terms t.field).contains t.text).size) ∧
    (∀ id f, r.2.vector id f = match k.live.find? id with
      | some v => .ok (v.vector f)
      | none => .error (.documentNotFound id)) ∧
    (∀ id, match k.live.find? id with
      | some v => ∃ d, r.2.document id = .ok d ∧ d.id = id ∧ ∀ f, d.content.find? f = v.stored f
      | none => r.2.document id = .error (.documentNotFound id)) ∧
    ∀ kind f, f ∈ r.2.fieldNames kind ↔
      ∃ m, k.mappings.find? f = some m ∧ m.isOf kind = true := by
  obtain ⟨hreplies, h⟩ := (realizes_create analyzer mappings).run cs
  exact ⟨hreplies, h.numDocs_eq, h.docFreq_eq, h.vector_eq, h.document_spec, h.mem_fieldNames_iff⟩

end Index
end TermMining
