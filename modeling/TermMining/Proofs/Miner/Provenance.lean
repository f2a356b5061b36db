import TermMining.Miner
import TermMining.Proofs.Index.Integrity
import TermMining.Proofs.Index.Settled
import TermMining.Proofs.Selection.Agreement
import TermMining.Proofs.Tally.Rows

/-! Where the terms of a document come from: none is mined that is not posted in it, and none more
often than it is posted. -/
namespace TermMining

/-- A term counted `n` times in a document is posted in it, as often at least, and just as often if
its field has a vector or no more tokens than are read. -/
def Index.Accounts (ix : Index) (v : Version) (limit : Int) (id : String) (term : Term) (n : Int) :
    Prop :=
  ∃ p, ix.posting? term id = some p ∧ n ≤ p.frequency ∧
    ((∃ u, ix.vector id term.field = .ok (some u)) ∨ (v.terms term.field).length ≤ limit →
      n = p.frequency)

namespace Index

variable {ω : Type} {ix : Index} {k : Catalog} {v : Version} {id f : String} {c : Criteria ω}
  {own : Option Analyzer}

theorem Realizes.isLive (h : ix.Realizes k) (hv : k.live.find? id = some v) :
    ix.corpus.IsLive id where
  document := by
    obtain ⟨d, hd, -⟩ := h.document_of_live hv
    exact ⟨d, hd⟩
  vector f := ⟨v.vector f, h.vector_of_live hv f⟩

theorem Realizes.exists_row (h : ix.Realizes k) (hv : k.live.find? id = some v) (a : Analyzer)
    (f : String) : ∃ l, Tally.row c (some a) ix.corpus id f = .ok l :=
  Tally.exists_row_of_isLive c (h.isLive hv) a f

/-- Of a document that is not live no field can be read. -/
theorem Realizes.row_of_not_live (h : ix.Realizes k) (hv : k.live.find? id = none)
    (own : Option Analyzer) (f : String) :
    Tally.row c own ix.corpus id f = .error (.documentNotFound id) := by
  have hvector : ix.corpus.vector id f = .error (.documentNotFound id) := by
    have heq := h.vector_eq id f
    rwa [hv] at heq
  unfold Tally.row
  rw [hvector]
  rfl

theorem Realizes.row_cases (h : ix.Realizes k) (hv : k.live.find? id = some v)
    (own : Option Analyzer) (f : String) :
    (ix.vector id f = .ok none ∧
      Tally.row c own ix.corpus id f = Tally.textRow c own f (v.values f)) ∨
    (∃ u, ix.vector id f = .ok (some u)) ∧
      Tally.row c own ix.corpus id f = .ok (TermVector.ofTerms f (v.terms f)).entries := by
  have hvector : ix.corpus.vector id f = .ok (v.vector f) := h.vector_of_live hv f
  obtain ⟨d, hd, hvalues⟩ := h.document_of_live hv
  rcases v.vector_cases f with hnone | hkept
  · rw [hnone] at hvector
    rw [Tally.row_of_no_vector c hvector hd, hvalues]
    exact Or.inl ⟨hvector, rfl⟩
  · rw [hkept] at hvector
    exact Or.inr ⟨⟨_, hvector⟩, Tally.row_of_vector c hvector⟩

theorem Realizes.total_of_row (h : ix.Realizes k) (hv : k.live.find? id = some v)
    (hread : ∀ a, own = some a →
      v.values f = [] ∨ (v.values f).flatMap (a.fieldTerms f) = v.terms f)
    {l : List (String × Int)} (hl : Tally.row c own ix.corpus id f = .ok l) {word : String}
    (hw : word ∈ l.map Prod.fst) :
    word ∈ v.terms f ∧ Tally.total l word ≤ (v.terms f).count word ∧
      ((∃ u, ix.vector id f = .ok (some u)) ∨ (v.terms f).length ≤ c.maxTokens →
        Tally.total l word = (v.terms f).count word) := by
  rcases h.row_cases (c := c) hv own f with ⟨hnone, hrow⟩ | ⟨-, hrow⟩
  · rw [hrow] at hl
    cases own with
    | none => cases hl
    | some a =>
      obtain rfl := Except.ok.inj hl
      rw [Tally.map_fst_ones] at hw
      rw [Tally.total_ones]
      have hsub := List.take_sublist c.maxTokens.toNat ((v.values f).flatMap (a.fieldTerms f))
      have hterms : (v.values f).flatMap (a.fieldTerms f) = v.terms f := by
        rcases hread a rfl with hnil | hall
        · rw [hnil, List.flatMap_nil, List.take_nil] at hw
          cases hw
        · exact hall
      rw [hterms] at hw hsub ⊢
      constructor
      · exact hsub.mem hw
      constructor
      · exact Int.ofNat_le.2 (hsub.count_le word)
      · rintro (⟨u, hu⟩ | hlen)
        · have hno := hnone.symm.trans hu
          cases hno
        · rw [List.take_of_length_le (by omega)]
  · rw [hrow] at hl
    obtain rfl := Except.ok.inj hl
    have htotal := Tally.total_ofTerms f (v.terms f) word
    have hmem := TermVector.mem_terms_ofTerms.1 hw
    exact ⟨hmem, htotal.le, fun _ => htotal⟩

theorem Realizes.posting?_of_live (h : ix.Realizes k) (hv : k.live.find? id = some v) {term : Term}
    (hmem : term.text ∈ v.terms term.field) :
    ∃ p, ix.posting? term id = some p ∧ p.frequency = (v.terms term.field).count term.text := by
  have hterms : k.terms id term.field = v.terms term.field := by
    unfold Catalog.terms Catalog.held?
    rw [hv]
    rfl
  have hposting := h.posting?_eq_terms id term.field term.text
  rw [hterms] at hposting
  exact ⟨_, hposting.trans (Posting.of?_eq_some_iff.2 ⟨hmem, rfl⟩), rfl⟩

theorem Realizes.docFreq_pos_of_live (h : ix.Realizes k) (hv : k.live.find? id = some v)
    {term : Term} (hmem : term.text ∈ v.terms term.field) : 1 ≤ ix.docFreq term := by
  have hfind : (k.live.filter fun _ v => (v.terms term.field).contains term.text).find? id =
      some v := by
    rw [OrderedMap.find?_filter, hv, Option.filter_some, if_pos (List.contains_iff_mem.2 hmem)]
  have hsize := OrderedMap.size_ne_zero_iff.2 ⟨id, v, hfind⟩
  rw [h.docFreq_eq]
  exact Nat.one_le_iff_ne_zero.2 hsize

/-- The terms counted in fields that are read as they were taken in are posted in the document. -/
theorem Realizes.accounts_of_count (h : ix.Realizes k) (hv : k.live.find? id = some v)
    {fields : List String} (hnodup : fields.Nodup)
    (hread : ∀ f ∈ fields, ∀ a, own = some a →
      v.values f = [] ∨ (v.values f).flatMap (a.fieldTerms f) = v.terms f)
    {t : Tally} (ht : Tally.ofDocument c own ix.corpus id fields = .ok t) {term : Term} {n : Int}
    (hn : t.count? term = some n) :
    1 ≤ ix.docFreq term ∧ ix.Accounts v c.maxTokens id term n := by
  obtain ⟨-, hfield, l, hl, hw, rfl⟩ := (Tally.count?_ofDocument_eq_some_iff c ht).1 hn
  obtain ⟨hmem, hle, hwhole⟩ := h.total_of_row hv (hread _ hfield) hl hw
  obtain ⟨p, hp, hfreq⟩ := h.posting?_of_live hv hmem
  rw [List.count_eq_one_of_mem hnodup hfield, Int.natCast_one, Int.one_mul]
  rw [← hfreq] at hle hwhole
  exact ⟨h.docFreq_pos_of_live hv hmem, p, hp, hle, hwhole⟩

end Index

namespace Miner

open Selection (drained)

variable {ω : Type} {m : Miner ω}

theorem criteriaFor_open (hf : m.criteria.fieldNames = []) (corpus : Corpus) (id : String) :
    (m.criteriaFor corpus (.document id)).1 =
      m.criteria.withFieldNames (corpus.fieldNames .indexed).members := by
  unfold criteriaFor
  rw [hf]
  rfl

/-- Left open, the fields to mine are the indexed ones, each of them once. -/
theorem fieldNames_open (hf : m.criteria.fieldNames = []) (corpus : Corpus) (id : String) :
    (m.criteriaFor corpus (.document id)).1.fieldNames.Nodup ∧
      ∀ f ∈ (m.criteriaFor corpus (.document id)).1.fieldNames, f ∈ corpus.fieldNames .indexed := by
  have hperm : (m.criteriaFor corpus (.document id)).1.fieldNames.Perm
      (corpus.fieldNames .indexed).members := by
    rw [criteriaFor_open hf]
    exact List.mergeSort_perm _ _
  exact ⟨hperm.nodup_iff.2 (StringSet.nodup_members _), fun f hmem => hperm.mem_iff.1 hmem⟩

/-- Drained terms are terms of the tally that the criteria let through. -/
theorem scored_of_mem_drained [Weight ω] {corpus : Corpus} {source : Source}
    {l : List (Candidate ω)} (hl : drained (m.shortlist corpus source).answer = .ok l)
    {a : Candidate ω} (ha : a ∈ l) :
    ∃ t, m.tally corpus (m.criteriaFor corpus source).1 source = .ok t ∧
      t.count? a.term = some a.termFreq ∧
      Selection.Admits corpus (m.criteriaFor corpus source).1 a.term a.termFreq ∧
      Selection.IsScoring corpus m.similarity a := by
  unfold shortlist at hl
  dsimp only at hl
  cases ht : m.tally corpus (m.criteriaFor corpus source).1 source with
  | error f =>
    rw [ht] at hl
    cases hl
  | ok t =>
    rw [ht] at hl
    change drained (Selection.select corpus m.similarity _ t) = _ at hl
    cases hs : Selection.select corpus m.similarity (m.criteriaFor corpus source).1 t with
    | error f =>
      rw [hs] at hl
      cases hl
    | ok s =>
      rw [hs] at hl
      obtain rfl := Except.ok.inj hl
      exact ⟨t, rfl, Selection.scored_of_mem_select hs (Shortlist.mem_of_mem_drain ha)⟩

theorem count?_of_mem_drained [Weight ω] {corpus : Corpus} {source : Source}
    {l : List (Candidate ω)} (hl : drained (m.shortlist corpus source).answer = .ok l)
    {a : Candidate ω} (ha : a ∈ l) :
    ∃ t, m.tally corpus (m.criteriaFor corpus source).1 source = .ok t ∧
      t.count? a.term = some a.termFreq := by
  obtain ⟨t, ht, hcount, -, -⟩ := scored_of_mem_drained hl ha
  exact ⟨t, ht, hcount⟩

variable {own : Option Analyzer} {mappings : List FieldMapping} {cs : List Command} {v : Version}
  {id : String}

/-- In an index whose fields were all defined before its first document, and with its own analyzer
and no fields chosen, every term mined of a live document is posted in it. So the document frequency
of no such term is zero. -/
theorem accounts_of_live [Weight ω] (hcs : Command.IsSettled cs) (ha : m.analyzer = own)
    (hf : m.criteria.fieldNames = [])
    (hv : ((Catalog.create own mappings).run cs).2.live.find? id = some v) :
    let ix := ((Index.create own mappings).run cs).2
    let c := (m.criteriaFor ix.corpus (.document id)).1
    (own.isSome = true → ∃ t, m.tally ix.corpus c (.document id) = .ok t) ∧
    (∀ t, m.tally ix.corpus c (.document id) = .ok t → ∀ term n, t.count? term = some n →
      1 ≤ ix.docFreq term ∧ ix.Accounts v m.criteria.maxTokens id term n) ∧
    ∀ l, drained (m.shortlist ix.corpus (.document id)).answer = .ok l →
      ∀ a ∈ l, ix.Accounts v m.criteria.maxTokens id a.term a.termFreq := by
  intro ix c
  let k := ((Catalog.create own mappings).run cs).2
  have hrealizes : ix.Realizes k := ((Index.realizes_create own mappings).run cs).2
  have hsound : k.IsSound own := Catalog.isSound_run own mappings cs
  obtain ⟨hnodup, hindexed⟩ := fieldNames_open hf ix.corpus id
  have hread : ∀ f ∈ c.fieldNames, ∀ a, own = some a →
      v.values f = [] ∨ (v.values f).flatMap (a.fieldTerms f) = v.terms f := by
    intro f hmem a hown
    obtain ⟨d, rfl⟩ := Catalog.exists_version_eq own mappings hcs hv
    have hmapping : (k.mapping f).indexed = true := by
      obtain ⟨fm, hfind, hof⟩ := (hrealizes.mem_fieldNames_iff .indexed f).1 (hindexed f hmem)
      unfold Catalog.mapping
      rw [hfind]
      exact hof
    exact Catalog.values_version_cases (hsound.analyzer.trans hown) (hsound.named f) hmapping d
  have hlimit : c.maxTokens = m.criteria.maxTokens := by
    have hc : c = _ := criteriaFor_open hf ix.corpus id
    rw [hc]
    rfl
  have htally : ∀ t, m.tally ix.corpus c (.document id) = .ok t → ∀ term n,
      t.count? term = some n →
      1 ≤ ix.docFreq term ∧ ix.Accounts v m.criteria.maxTokens id term n := by
    intro t ht term n hn
    unfold tally at ht
    rw [ha] at ht
    rw [← hlimit]
    exact hrealizes.accounts_of_count hv hnodup hread ht hn
  constructor
  · intro hsome
    obtain ⟨a, hown⟩ := Option.isSome_iff_exists.1 hsome
    unfold tally
    rw [ha, hown]
    exact Tally.exists_ofDocument_eq_ok c fun f _ => hrealizes.exists_row hv a f
  constructor
  · exact htally
  · intro l hl a hmem
    obtain ⟨t, ht, hcount⟩ := count?_of_mem_drained hl hmem
    exact (htally t ht a.term a.termFreq hcount).2

/-- A document that was added anew, with more tokens than are read: one of its terms is counted less
often than it is posted. -/
theorem accounts_of_live_cut :
    let old : Document := ⟨"1", .ofList [("f", .text "c")]⟩
    let d : Document := ⟨"1", .ofList [("f", .list [.text "a", .text "b", .text "a"])]⟩
    let cs : List Command := [.define { name := "f" }, .add old, .add d]
    let ix := ((Index.create (some .keyword) []).run cs).2
    let v := ((Catalog.create (some .keyword) [{ name := "f" }]).add old).version d
    let m : Miner Float :=
      { similarity := Selection.constantly 2, analyzer := some .keyword
        criteria := { Selection.lenient with maxTokens := 2 } }
    Command.IsSettled cs ∧ m.criteria.fieldNames = [] ∧
    1 ≤ ix.docFreq ⟨"f", "a"⟩ ∧ ix.Accounts v 2 "1" ⟨"f", "a"⟩ 1 ∧
    ix.posting? ⟨"f", "a"⟩ "1" = some ⟨2, [0, 2]⟩ ∧
    ∃ l, drained (m.shortlist ix.corpus (.document "1")).answer = .ok l ∧
      l.map (fun a => (a.term.text, a.termFreq)) = [("a", 1), ("b", 1)] ∧
      ∀ a ∈ l, ix.Accounts v 2 "1" a.term a.termFreq := by
  intro old d cs ix v m
  have hcs : Command.IsSettled cs := by
    simp [cs, Command.IsSettled, Command.adds, Command.defines]
  have hv : ((Catalog.create (some .keyword) []).run cs).2.live.find? "1" = some v := rfl
  obtain ⟨hok, htally, hdrained⟩ := accounts_of_live (m := m) hcs rfl rfl hv
  obtain ⟨t, ht⟩ := hok rfl
  have hcount : t.count? ⟨"f", "a"⟩ = some 1 := by
    have hcounted : ((m.tally ix.corpus (m.criteriaFor ix.corpus (.document "1")).1
        (.document "1")).toOption.bind fun t => t.count? ⟨"f", "a"⟩) = some 1 := by decide +kernel
    rwa [ht] at hcounted
  have hshortlist : (drained (m.shortlist ix.corpus (.document "1")).answer).toOption.map
      (fun l => l.map fun a => (a.term.text, a.termFreq)) = some [("a", 1), ("b", 1)] := by
    decide +kernel
  have hposting : ix.posting? ⟨"f", "a"⟩ "1" = some ⟨2, [0, 2]⟩ := by decide +kernel
  obtain ⟨hfreq, haccounts⟩ := htally t ht ⟨"f", "a"⟩ 1 hcount
  cases hl : drained (m.shortlist ix.corpus (.document "1")).answer with
  | error f =>
    rw [hl] at hshortlist
    cases hshortlist
  | ok l =>
    rw [hl] at hshortlist
    exact ⟨hcs, rfl, hfreq, haccounts, hposting, l, rfl, Option.some.inj hshortlist,
      hdrained l hl⟩

end Miner
end TermMining
