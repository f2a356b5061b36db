import Mathlib.Data.List.Dedup
import TermMining.Proofs.Miner.Order
import TermMining.Proofs.Miner.Provenance

/-! Fields that are named repeatedly. A field is counted as often as it is named, and the multiplied
counts are held against the least one and weighed. -/
namespace TermMining

variable {ω : Type}

namespace Tally

/-- The terms are the same, and a term is counted as often as its field is named. -/
def Multiplies (t u : Tally) (names : List String) : Prop :=
  ∀ term, t.count? term = (u.count? term).map fun n : Int => names.count term.field * n

theorem multiplies_ofDocument (c : Criteria ω) {analyzer : Option Analyzer} {corpus : Corpus}
    {id : String} {names once : List String} {t u : Tally}
    (ht : ofDocument c analyzer corpus id names = .ok t)
    (hu : ofDocument c analyzer corpus id once = .ok u) (honce : once.Nodup)
    (hmem : ∀ f, f ∈ once ↔ f ∈ names) : t.Multiplies u names := by
  intro term
  apply Option.ext
  intro n
  rw [Option.map_eq_some_iff, count?_ofDocument_eq_some_iff c ht]
  constructor
  · rintro ⟨hnoise, hfield, l, hl, hw, rfl⟩
    have hfield' := (hmem _).2 hfield
    refine ⟨total l term.text, (count?_ofDocument_eq_some_iff c hu).2 ?_, rfl⟩
    refine ⟨hnoise, hfield', l, hl, hw, ?_⟩
    rw [List.count_eq_one_of_mem honce hfield', Int.natCast_one, Int.one_mul]
  · rintro ⟨k, hk, rfl⟩
    obtain ⟨hnoise, hfield, l, hl, hw, rfl⟩ := (count?_ofDocument_eq_some_iff c hu).1 hk
    refine ⟨hnoise, (hmem _).1 hfield, l, hl, hw, ?_⟩
    rw [List.count_eq_one_of_mem honce hfield, Int.natCast_one, Int.one_mul]

/-- Nothing is multiplied if the fields with terms that occur are named once. -/
theorem Multiplies.terms_perm {t u : Tally} {names : List String} (h : t.Multiplies u names)
    (hsingle : ∀ term n, u.count? term = some n → n = 0 ∨ names.count term.field = 1) :
    t.terms.Perm u.terms := by
  apply Tally.terms_perm
  intro term
  rw [h term]
  cases hn : u.count? term with
  | none => rfl
  | some n =>
    rcases hsingle term n hn with rfl | hone
    · exact congrArg some (Int.mul_zero _)
    · rw [Option.map_some, hone, Int.natCast_one, Int.one_mul]

end Tally

namespace Miner

open Selection (drained Admits IsScoring ZerosScored)

variable {corpus : Corpus} {id : String} {names once : List String}

/-- Every drained term is admitted and scored by a multiple of its count. -/
theorem multiple_of_mem_drained [Weight ω] {m : Miner ω} (hne : names ≠ []) {t u : Tally}
    (ht : Tally.ofDocument m.criteria m.analyzer corpus id names = .ok t)
    (h : t.Multiplies u names) {l : List (Candidate ω)}
    (hl : drained ((m.overFields names).shortlist corpus (.document id)).answer = .ok l)
    {a : Candidate ω} (ha : a ∈ l) :
    ∃ n, u.count? a.term = some n ∧ a.termFreq = names.count a.term.field * n ∧
      Admits corpus m.criteria a.term a.termFreq ∧ IsScoring corpus m.similarity a := by
  obtain ⟨t', ht', hcount, hadmits, hscoring⟩ := scored_of_mem_drained hl ha
  rw [tally_overFields m hne, ht] at ht'
  obtain rfl := Except.ok.inj ht'
  rw [criteriaFor_overFields m hne] at hadmits
  rw [h a.term] at hcount
  obtain ⟨n, hn, hmultiple⟩ := Option.map_eq_some_iff.1 hcount
  exact ⟨n, hn, hmultiple.symm,
    ⟨hadmits.termFreq, hadmits.occurs, hadmits.minDocFreq, hadmits.maxDocFreq⟩, hscoring⟩

/-- A document is counted in each field as often as the field is named. So the terms of a field named
repeatedly are admitted and scored by multiples of their counts, and the outcome is that of the same
fields named once each if no term of such a field occurs. -/
theorem mines_multiplied (m : Miner Float) (corpus : Corpus) {a : Analyzer}
    (ha : m.analyzer = some a)
    (hidf : ∀ term, ∃ x, m.similarity.idf (corpus.docFreq term) corpus.numDocs = .ok x ∧
      x.isNaN = false)
    (hlive : corpus.IsLive id) (honce : once.Nodup) (hmem : ∀ f, f ∈ once ↔ f ∈ names) :
    ∃ t u, Tally.ofDocument m.criteria m.analyzer corpus id names = .ok t ∧
      Tally.ofDocument m.criteria m.analyzer corpus id once = .ok u ∧
      t.Multiplies u names ∧
      (∀ l, names ≠ [] →
        drained ((m.overFields names).shortlist corpus (.document id)).answer = .ok l →
        ∀ c ∈ l, ∃ n, u.count? c.term = some n ∧ c.termFreq = names.count c.term.field * n ∧
          Admits corpus m.criteria c.term c.termFreq ∧ IsScoring corpus m.similarity c) ∧
      (ZerosScored corpus m.similarity m.criteria u →
        (∀ term n, u.count? term = some n → n = 0 ∨ names.count term.field = 1) →
        MinesAlike (m.overFields names) (m.overFields once) corpus (.document id)
          (.document id)) := by
  have hrow : ∀ f, ∃ l, Tally.row m.criteria m.analyzer corpus id f = .ok l := by
    intro f
    rw [ha]
    exact Tally.exists_row_of_isLive m.criteria hlive a f
  obtain ⟨t, ht⟩ := Tally.exists_ofDocument_eq_ok m.criteria fun f (_ : f ∈ names) => hrow f
  obtain ⟨u, hu⟩ := Tally.exists_ofDocument_eq_ok m.criteria fun f (_ : f ∈ once) => hrow f
  have hmultiplies := Tally.multiplies_ofDocument m.criteria ht hu honce hmem
  refine ⟨t, u, ht, hu, hmultiplies, ?_, ?_⟩
  · intro l hne hl c hc
    exact multiple_of_mem_drained hne ht hmultiplies hl hc
  · intro hzero hsingle
    by_cases hne : names = []
    · -- with no field chosen all are mined, each of them once
      have hnone : once = [] := by
        rw [List.eq_nil_iff_forall_not_mem]
        intro f hf
        rw [hmem, hne] at hf
        cases hf
      rw [hne, hnone]
      exact MinesAlike.refl _ corpus (.document id)
    · have hne' : once ≠ [] := by
        obtain ⟨f, hf⟩ := List.exists_mem_of_ne_nil names hne
        exact List.ne_nil_of_mem ((hmem f).2 hf)
      have hok : ∀ term, ∃ x, m.similarity.idf (corpus.docFreq term) corpus.numDocs = .ok x :=
        fun term => (hidf term).imp fun _ hx => hx.1
      have hnumber : ∀ term x, m.similarity.idf (corpus.docFreq term) corpus.numDocs = .ok x →
          x.isNaN = false := fun _ _ => Selection.of_idf_eq_ok hidf
      have hterms := hmultiplies.terms_perm hsingle
      have hscores := (Selection.isScorable_double hnumber hzero).of_perm hterms.symm
      exact MinesAlike.of_terms_perm hne hne' hok ht hu hterms hscores

/-- One field named twice: a term of it is counted twice as often as it occurs, and so outranks one
of another field that occurs more often. It makes no difference for a field without terms. -/
theorem mines_multiplied_twice :
    let m := impartial 2 []
    let corpus := counted fun field =>
      if field = "f" then [("a", 2)] else if field = "g" then [("b", 3)] else []
    let names := ["f", "g", "f"]
    let once := ["f", "g"]
    once.Nodup ∧ (∀ f, f ∈ once ↔ f ∈ names) ∧
    (∃ t u, Tally.ofDocument m.criteria m.analyzer corpus "1" names = .ok t ∧
      Tally.ofDocument m.criteria m.analyzer corpus "1" once = .ok u ∧ t.Multiplies u names) ∧
    asked ((m.overFields once).like corpus (.document "1")) = some [⟨"g", "b"⟩, ⟨"f", "a"⟩] ∧
    asked ((m.overFields names).like corpus (.document "1")) = some [⟨"f", "a"⟩, ⟨"g", "b"⟩] ∧
    MinesAlike (m.overFields ["f", "e", "e"]) (m.overFields ["f", "e"]) corpus (.document "1")
      (.document "1") := by
  intro m corpus names once
  have hidf : ∀ term, ∃ x, m.similarity.idf (corpus.docFreq term) corpus.numDocs = .ok x ∧
      x.isNaN = false := fun _ => ⟨2, rfl, by decide⟩
  have hmem : ∀ f, f ∈ once ↔ f ∈ names := by
    intro f
    simp only [once, names, List.mem_cons, List.not_mem_nil, or_false]
    tauto
  have hmem' : ∀ f, f ∈ ["f", "e"] ↔ f ∈ ["f", "e", "e"] := by
    intro f
    simp only [List.mem_cons, List.not_mem_nil, or_false, or_self]
  obtain ⟨t, u, ht, hu, hmultiplies, -, -⟩ := mines_multiplied m corpus rfl hidf
    (isLive_counted _ "1") (by decide : once.Nodup) hmem
  obtain ⟨-, v, -, hv, -, -, halike⟩ := mines_multiplied m corpus rfl hidf
    (isLive_counted _ "1") (by decide : ["f", "e"].Nodup) hmem'
  obtain rfl : Tally.ofLists [("f", [("a", 2)]), ("e", [])] = v := Except.ok.inj hv
  have hterms : ∀ e ∈ (Tally.ofLists [("f", [("a", 2)]), ("e", [])]).terms,
      e.2 ≠ 0 ∧ ["f", "e", "e"].count e.1.field = 1 := by decide
  have hzero : ZerosScored corpus m.similarity m.criteria
      (Tally.ofLists [("f", [("a", 2)]), ("e", [])]) := fun term hcount =>
    absurd rfl (hterms _ (Tally.mem_terms_iff.2 hcount)).1
  have hsame := halike hzero fun term n hn =>
    Or.inr (hterms (term, n) (Tally.mem_terms_iff.2 hn)).2
  exact ⟨by decide, hmem, ⟨t, u, ht, hu, hmultiplies⟩, by decide +kernel, by decide +kernel, hsame⟩

/-- A repeated name lets a term through that does not occur often enough. -/
theorem not_forall_minesAlike_dedup :
    ¬∀ (m : Miner Float) (corpus : Corpus) (a : Analyzer) (id : String) (names : List String),
      m.analyzer = some a →
      (∀ docFreq numDocs, ∃ x, m.similarity.idf docFreq numDocs = .ok x ∧ x.isNaN = false) →
      corpus.IsLive id →
      MinesAlike (m.overFields names) (m.overFields names.dedup) corpus (.document id)
        (.document id) := by
  intro h
  let m : Miner Float := { impartial 2 [] with criteria.minTermFreq := 2 }
  let rows : String → List (String × Int) := fun _ => [("a", 1)]
  have halike := h m (counted rows) .keyword "1" ["f", "f"] rfl (fun _ _ => ⟨2, rfl, by decide⟩)
    (isLive_counted rows "1")
  have hwords := congrArg (fun r => r.answer.toOption) halike.words
  revert hwords
  decide +kernel

end Miner
end TermMining
