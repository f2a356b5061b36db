import TermMining.Miner
import TermMining.Proofs.Index.Contents
import TermMining.Proofs.Index.Survivors
import TermMining.Proofs.Selection.Agreement

/-! The past of an index leaves no residue: after a purge it is as if only the surviving documents
had been added. -/
namespace TermMining

/-- The corpora answer alike, up to the order in which the fields of a stored document come. The
fields that they know may differ. -/
structure Corpus.Agrees (c d : Corpus) : Prop where
  numDocs : c.numDocs = d.numDocs
  docFreq : ∀ t, c.docFreq t = d.docFreq t
  vector : ∀ id f, c.vector id f = d.vector id f
  values : ∀ id f, (c.document id).map (·.values f) = (d.document id).map (·.values f)

section Agrees

variable {ω : Type} {corpus other : Corpus} (h : corpus.Agrees other)
include h

theorem Tally.addField_congr (c : Criteria ω) (analyzer : Option Analyzer) (id : String)
    (t : Tally) (field : String) :
    addField c analyzer corpus id t field = addField c analyzer other id t field := by
  have hread : ∀ document : Except Fault StoredDocument,
      (do let d ← document; t.addTexts c analyzer field (d.values field)) =
        (document.map (·.values field)).bind (t.addTexts c analyzer field) := by
    intro document
    cases document <;> rfl
  unfold addField
  rw [h.vector]
  simp only [hread, h.values]

theorem Tally.ofDocument_congr (c : Criteria ω) (analyzer : Option Analyzer) (id : String)
    (fields : List String) :
    ofDocument c analyzer corpus id fields = ofDocument c analyzer other id fields := by
  have hstep : addField c analyzer corpus id = addField c analyzer other id :=
    funext fun t => funext fun field => addField_congr h c analyzer id t field
  unfold ofDocument
  rw [hstep]

namespace Miner

variable [Weight ω] (m : Miner ω)

theorem shortlist_congr (hf : m.criteria.fieldNames ≠ []) (s : Source) :
    m.shortlist corpus s = m.shortlist other s := by
  have hcriteria : ∀ c : Corpus, m.criteriaFor c s = (m.criteria, []) := by
    intro c
    cases s with
    | texts field texts => rfl
    | document id => exact if_neg (by simpa using hf)
  have htally : m.tally corpus m.criteria s = m.tally other m.criteria s := by
    cases s with
    | texts field texts => rfl
    | document id => exact Tally.ofDocument_congr h m.criteria m.analyzer id _
  have hselect : Selection.select corpus m.similarity m.criteria =
      Selection.select other m.similarity m.criteria :=
    funext (Selection.select_congr_corpus h.numDocs h.docFreq)
  unfold shortlist
  rw [hcriteria, hcriteria]
  dsimp only
  rw [htally, hselect]

end Miner
end Agrees

theorem Index.corpus_agrees {ix jx : Index} {k l : Catalog} (h : ix.Realizes k)
    (hj : jx.Realizes l) (hlive : ∀ id, k.live.find? id = l.live.find? id) :
    ix.corpus.Agrees jx.corpus := by
  constructor
  · have hsize : k.live.size = l.live.size := by
      apply OrderedMap.size_eq
      intro id
      rw [hlive]
    exact congrArg Int.ofNat (h.numDocs_eq.trans (hsize.trans hj.numDocs_eq.symm))
  · intro t
    have hfreq : k.docFreq t = l.docFreq t := by
      apply OrderedMap.size_eq
      intro id
      rw [OrderedMap.find?_filter, OrderedMap.find?_filter, hlive]
    exact congrArg Int.ofNat ((h.docFreq_eq t).trans (hfreq.trans (hj.docFreq_eq t).symm))
  · intro id f
    change ix.vector id f = jx.vector id f
    rw [h.vector_eq, hj.vector_eq, hlive]
  · intro id f
    change (ix.document id).map _ = (jx.document id).map _
    rw [h.values_eq, hj.values_eq, hlive]

namespace Miner

variable {ω : Type} [Weight ω]

/-- A purged index holds what one holds to which only the surviving documents were added, in any
order and with their fields in any order. It counts the terms that occur and no others, and unless
the fields to mine are left open, whatever is mined of the two is the same. -/
theorem replay_survivors (analyzer : Option Analyzer) (mappings : List FieldMapping)
    {cs : List Command} {ds es : List Document} (hcs : ∀ c ∈ cs, c.defines = false)
    (hes : es.Perm (Command.survivors cs).values) (hds : List.Forall₂ Document.Reorders ds es) :
    let ix := ((Index.create analyzer mappings).run (cs ++ [.purge])).2
    let jx := ((Index.create analyzer mappings).run (ds.map .add)).2
    ix.SameContents jx ∧
    ix.stats.deleted = 0 ∧
    {t | 0 < ix.docFreq t}.encard = ix.stats.terms ∧
    ∀ m : Miner ω,
      (∀ percent, m.limitDocFreq ix.corpus percent = m.limitDocFreq jx.corpus percent) ∧
      (m.criteria.fieldNames ≠ [] → ∀ source,
        m.shortlist ix.corpus source = m.shortlist jx.corpus source ∧
        m.like ix.corpus source = m.like jx.corpus source ∧
        m.words ix.corpus source = m.words jx.corpus source) := by
  intro ix jx
  have hix := ((Index.realizes_create analyzer mappings).run (cs ++ [.purge])).2
  have hjx := ((Index.realizes_create analyzer mappings).run (ds.map .add)).2
  have hoccupied := Index.isOccupied_run analyzer mappings
  have hdeleted : ix.deletedIds = [] := by
    rw [List.eq_nil_iff_forall_not_mem]
    intro id hid
    rw [hix.mem_deletedIds_iff, Catalog.run_concat] at hid
    cases hid
  have hagrees : ix.corpus.Agrees jx.corpus :=
    Index.corpus_agrees hix hjx (Catalog.live_replay analyzer mappings hcs hes hds)
  constructor
  · exact Index.sameContents_of_realizes hix hjx (hoccupied _) (hoccupied _)
      (Catalog.held?_replay analyzer mappings hcs hes hds)
  constructor
  · exact congrArg List.length hdeleted
  constructor
  · exact (hix.isIntact (hoccupied _)).encard_occurring hdeleted
  · intro m
    constructor
    · intro percent
      unfold limitDocFreq
      rw [hagrees.numDocs]
    · intro hf source
      have hshortlist := shortlist_congr hagrees m hf source
      unfold like words
      rw [hshortlist]
      exact ⟨rfl, rfl, rfl⟩

/-- A document that lost one field and got another, one that was deleted, and one that stayed: the
two survivors come back in another order, the one with its fields turned round. -/
theorem replay_survivors_turned :
    let lost : Document := ⟨"1", .ofList [("f", .text "a"), ("g", .text "b")]⟩
    let gone : Document := ⟨"2", .ofList [("f", .text "a")]⟩
    let kept : Document := ⟨"3", .ofList [("f", .text "a")]⟩
    let late : Document := ⟨"1", .ofList [("f", .text "c"), ("h", .list [.text "a", .text "a"])]⟩
    let turned : Document := ⟨"1", .ofList [("h", .list [.text "a", .text "a"]), ("f", .text "c")]⟩
    let cs : List Command := [.add lost, .add gone, .delete "2", .add kept, .purge, .add late]
    let ix := ((Index.create (some .keyword) []).run (cs ++ [.purge])).2
    let jx := ((Index.create (some .keyword) []).run [.add kept, .add turned]).2
    let m : Miner Float :=
      { similarity := Selection.constantly 2, analyzer := some .keyword
        criteria := { Selection.lenient with fieldNames := ["h"] } }
    (∀ c ∈ cs, c.defines = false) ∧ (Command.survivors cs).values = [late, kept] ∧
    late.fields.entries ≠ turned.fields.entries ∧
    ix.SameContents jx ∧ {t | 0 < ix.docFreq t}.encard = 3 ∧
    m.like ix.corpus (.document "1") = m.like jx.corpus (.document "1") := by
  intro lost gone kept late turned cs ix jx m
  have hcs : ∀ c ∈ cs, c.defines = false := by simp [cs, Command.defines]
  have hvalues : (Command.survivors cs).values = [late, kept] := rfl
  have hes : [kept, late].Perm (Command.survivors cs).values := by
    rw [hvalues]
    exact List.Perm.swap late kept []
  have hturned : turned.Reorders late := ⟨rfl, List.Perm.swap _ _ []⟩
  have hds : List.Forall₂ Document.Reorders [kept, turned] [kept, late] :=
    .cons ⟨rfl, List.Perm.refl _⟩ (.cons hturned .nil)
  obtain ⟨hsame, -, hterms, hmined⟩ :=
    replay_survivors (ω := Float) (some .keyword) [] hcs hes hds
  have hcount : ix.stats.terms = 3 := by decide +kernel
  have hreordered : late.fields.entries ≠ turned.fields.entries := fun heq =>
    absurd (congrArg (fun l => l.map Prod.fst) heq) (by decide)
  have hlike := ((hmined m).2 (by simp [m]) (.document "1")).2.1
  rw [hcount] at hterms
  exact ⟨hcs, hvalues, hreordered, hsame, hterms, hlike⟩

end Miner
end TermMining
