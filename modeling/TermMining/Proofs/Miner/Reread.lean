import TermMining.Proofs.Analyzer.Reread
import TermMining.Proofs.Miner.Forms
import TermMining.Proofs.Miner.Joined
import TermMining.Proofs.Miner.Provenance

/-! Mined words read again as a text. Every one was read from some text by the analyzer of the
index. -/
namespace TermMining

variable {ω : Type} {a : Analyzer} {w : String}

theorem Catalog.IsSound.exists_text_of_mem_terms {k : Catalog} (h : k.IsSound (some a))
    {id : String} {v : Version} (hv : k.live.find? id = some v) {field : String}
    (hw : w ∈ v.terms field) :
    ∃ text, w ∈ a.fieldTerms field text := by
  unfold Version.terms at hw
  cases he : v field with
  | none => simp [he] at hw
  | some e =>
    obtain ⟨m, texts, rfl, rfl⟩ := h.taken id v hv field e he
    rw [he, Option.map_some, Option.getD_some] at hw
    unfold Entry.of at hw
    dsimp only at hw
    split at hw
    · obtain ⟨text, -, hmem⟩ := List.mem_flatMap.mp hw
      exact ⟨text, hmem⟩
    · cases hw

theorem Tally.exists_text_of_mem_textRow {c : Criteria ω} {field : String} {texts : List String}
    {l : List (String × Int)} (hl : textRow c (some a) field texts = .ok l)
    (hw : w ∈ l.map Prod.fst) : ∃ text, w ∈ a.fieldTerms field text := by
  obtain rfl := Except.ok.inj hl
  rw [map_fst_ones] at hw
  obtain ⟨text, -, hmem⟩ := List.mem_flatMap.mp (List.mem_of_mem_take hw)
  exact ⟨text, hmem⟩

theorem Index.Realizes.exists_text_of_row {ix : Index} {k : Catalog} (h : ix.Realizes k)
    (hk : k.IsSound (some a)) {c : Criteria ω} {id field : String} {l : List (String × Int)}
    (hl : Tally.row c (some a) ix.corpus id field = .ok l) (hw : w ∈ l.map Prod.fst) :
    ∃ text, w ∈ a.fieldTerms field text := by
  cases hv : k.live.find? id with
  | none =>
    rw [h.row_of_not_live hv] at hl
    cases hl
  | some v =>
    rcases h.row_cases (c := c) hv (some a) field with ⟨-, hrow⟩ | ⟨-, hrow⟩
    · exact Tally.exists_text_of_mem_textRow (hrow.symm.trans hl) hw
    · obtain rfl := Except.ok.inj (hrow.symm.trans hl)
      exact hk.exists_text_of_mem_terms hv (TermVector.mem_terms_ofTerms.mp hw)

namespace Miner

open Selection (drained)

variable [Weight ω] {m : Miner ω} {mappings : List FieldMapping} {cs : List Command}
  {source : Source} {ws : List String}

/-- With the analyzer of the index every word mined was read from a text of some field. -/
theorem exists_text_of_mem_words (ha : m.analyzer = some a)
    (hws : (m.words ((Index.create (some a) mappings).run cs).2.corpus source).answer = .ok ws) :
    ∀ w ∈ ws, ∃ field text, w ∈ a.fieldTerms field text := by
  have hrealizes := ((Index.realizes_create (some a) mappings).run cs).2
  have hsound := Catalog.isSound_run (some a) mappings cs
  let corpus := ((Index.create (some a) mappings).run cs).2.corpus
  rw [words_def] at hws
  cases hl : drained (m.shortlist corpus source).answer with
  | error f =>
    rw [hl] at hws
    cases hws
  | ok l =>
    rw [hl] at hws
    obtain rfl := Except.ok.inj hws
    intro w hw
    obtain ⟨b, hb, rfl⟩ := List.mem_map.mp hw
    obtain ⟨t, ht, hcount⟩ := count?_of_mem_drained hl hb
    refine ⟨b.term.field, ?_⟩
    unfold tally at ht
    rw [ha] at ht
    cases source with
    | texts field texts =>
      obtain ⟨-, rfl, row, hrow, hmem, -⟩ := (Tally.count?_ofTexts_eq_some_iff _ ht).mp hcount
      exact Tally.exists_text_of_mem_textRow hrow hmem
    | document id =>
      obtain ⟨-, -, row, hrow, hmem, -⟩ := (Tally.count?_ofDocument_eq_some_iff _ ht).mp hcount
      exact hrealizes.exists_text_of_row hsound hrow hmem

end Miner

namespace Analyzer

/-- The standard analyzer reads the terms of a text, joined by spaces, as they are exactly if no
token of the text has a capital I with a dot; and words mined with it from an index of its own
exactly if none of them has the dot. -/
theorem standard_terms_reread :
    (∀ text, standard.terms (joined (standard.terms text)) = standard.terms text ↔
      ∀ t ∈ Tokenizer.standard.tokens text, 'İ' ∉ t.text.toList) ∧
    ∀ (ω : Type) [Weight ω] (m : Miner ω) mappings cs source ws, m.analyzer = some standard →
      (m.words ((Index.create (some standard) mappings).run cs).2.corpus source).answer = .ok ws →
      ∀ field, standard.fieldTerms field (joined ws) = ws ↔ ∀ w ∈ ws, '\u0307' ∉ w.toList := by
  have hfield : ∀ field, standard.fieldTerms field = standard.terms :=
    fieldTerms_chain_eq_terms (some .standard) [.lowercase, .stopWords]
  constructor
  · intro text
    rw [← notMem_dot_terms_iff]
    exact terms_join_eq_iff fun x hx => ⟨text, hx⟩
  · intro ω _ m mappings cs source ws ha hws field
    rw [hfield]
    apply terms_join_eq_iff
    intro w hw
    obtain ⟨f, text, hmem⟩ := Miner.exists_text_of_mem_words ha hws w hw
    rw [hfield] at hmem
    exact ⟨text, hmem⟩

/-- A contraction, a number and a final sigma, mined from a document. -/
theorem standard_terms_reread_words :
    let d : Document := ⟨"1", .ofList [("f", .text "The ΟΔΟΣ: don't, 3.14")]⟩
    let corpus := ((Index.create (some standard) []).run [.add d]).2.corpus
    let m : Miner Float :=
      { similarity := Selection.constantly 2, analyzer := some standard
        criteria := Selection.lenient }
    let ws := ["3.14", "don't", "οδος"]
    (m.words corpus (.document "1")).answer = .ok ws ∧
      standard.fieldTerms "f" (joined ws) = ws := by
  intro d corpus m ws
  have hwords : (m.words corpus (.document "1")).answer.toOption = some ws := by decide +kernel
  have hok : (m.words corpus (.document "1")).answer = .ok ws := by
    cases hanswer : (m.words corpus (.document "1")).answer with
    | error f => simp [hanswer, Except.toOption] at hwords
    | ok l =>
      rw [hanswer] at hwords
      rw [Option.some.inj hwords]
  obtain ⟨-, hmined⟩ := standard_terms_reread
  exact ⟨hok, (hmined Float m [] [.add d] (.document "1") ws rfl hok "f").mpr (by decide)⟩

/-- The lower form of a capital I with a dot falls apart where the dot is. -/
theorem standard_terms_reread_dotted :
    standard.terms "İx" = ["i\u0307x"] ∧ standard.terms (joined ["i\u0307x"]) = ["i", "x"] ∧
      ¬∀ text, standard.terms (joined (standard.terms text)) = standard.terms text := by
  have hread : standard.terms "İx" = ["i\u0307x"] := by decide +kernel
  have hreread : standard.terms (joined ["i\u0307x"]) = ["i", "x"] := by decide +kernel
  refine ⟨hread, hreread, fun h => ?_⟩
  have hsame := h "İx"
  rw [hread, hreread] at hsame
  revert hsame
  decide

end Analyzer

end TermMining
