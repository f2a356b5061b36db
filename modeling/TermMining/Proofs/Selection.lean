import TermMining.Proofs.Shortlist.Holdings
import TermMining.Proofs.Shortlist.Offers
import TermMining.Proofs.Tally
import TermMining.Selection

/-! Selection is filtering, ranking and cutting off. -/
namespace TermMining.Selection

theorem mapM_eq_ok {α β ε : Type} {f : α → Except ε β} {g : α → β} {l : List α}
    (h : ∀ a ∈ l, f a = .ok (g a)) : l.mapM f = .ok (l.map g) := by
  induction l with
  | nil => rfl
  | cons a l ih =>
    have hrest := ih fun b hb => h b (List.mem_cons_of_mem _ hb)
    rw [List.mapM_cons, h a List.mem_cons_self, hrest]
    rfl

/-- If all that fail do so alike, the whole row fails with them. -/
theorem mapM_eq_error {α β ε : Type} {f : α → Except ε β} {x : ε} {l : List α}
    (hx : ∀ a ∈ l, ∀ y, f a = .error y → y = x) (h : ∃ a ∈ l, ∃ y, f a = .error y) :
    l.mapM f = .error x := by
  induction l with
  | nil => simp at h
  | cons a l ih =>
    rw [List.mapM_cons]
    cases ha : f a with
    | error y =>
      rw [hx a List.mem_cons_self y ha]
      rfl
    | ok b =>
      have hrest : ∃ a ∈ l, ∃ y, f a = .error y := by simpa [ha] using h
      rw [ih (fun a hmem => hx a (List.mem_cons_of_mem _ hmem)) hrest]
      rfl

theorem exists_ok_of_mapM {α β ε : Type} {f : α → Except ε β} {l : List α} {bs : List β}
    (h : l.mapM f = .ok bs) : ∀ a ∈ l, ∃ b, f a = .ok b := by
  induction l generalizing bs with
  | nil => simp
  | cons a l ih =>
    rw [List.mapM_cons] at h
    cases ha : f a with
    | error y =>
      rw [ha] at h
      cases h
    | ok b =>
      rw [ha] at h
      cases hl : l.mapM f with
      | error y =>
        rw [hl] at h
        cases h
      | ok bs => exact List.forall_mem_cons.2 ⟨⟨b, ha⟩, ih hl⟩

theorem exists_error_of_mapM {α β ε : Type} {f : α → Except ε β} {l : List α} {x : ε}
    (h : l.mapM f = .error x) : ∃ a ∈ l, f a = .error x := by
  induction l with
  | nil => cases h
  | cons a l ih =>
    rw [List.mapM_cons] at h
    cases ha : f a with
    | error y =>
      rw [ha] at h
      obtain rfl : y = x := Except.error.inj h
      exact ⟨a, List.mem_cons_self, ha⟩
    | ok b =>
      rw [ha] at h
      cases hl : l.mapM f with
      | error y =>
        rw [hl] at h
        obtain rfl : y = x := Except.error.inj h
        obtain ⟨c, hc, hx⟩ := ih hl
        exact ⟨c, List.mem_cons_of_mem a hc, hx⟩
      | ok bs =>
        rw [hl] at h
        cases h

variable {ω : Type}

/-- The criteria let a term through that occurs `termFreq` times in the source. -/
structure Admits (corpus : Corpus) (c : Criteria ω) (term : Term) (termFreq : Int) : Prop where
  termFreq : c.minTermFreq ≤ 0 ∨ c.minTermFreq ≤ termFreq
  occurs : corpus.docFreq term ≠ 0
  minDocFreq : c.minDocFreq ≤ 0 ∨ c.minDocFreq ≤ corpus.docFreq term
  maxDocFreq : ∀ limit, c.maxDocFreq = some limit → corpus.docFreq term ≤ limit

variable {corpus : Corpus} {c : Criteria ω} {term : Term} {n : Int}

theorem admits_iff :
    Admits corpus c term n ↔
      c.admitsTermFreq n = true ∧ c.admitsDocFreq (corpus.docFreq term) = true := by
  unfold Criteria.admitsTermFreq Criteria.admitsDocFreq
  constructor
  · rintro ⟨htf, hne, hmin, hmax⟩
    constructor
    · simpa using htf
    cases hm : c.maxDocFreq with
    | none => simp [hne, hmin]
    | some limit => simp [hne, hmin, hmax limit hm]
  · rintro ⟨htf, hdf⟩
    cases hm : c.maxDocFreq with
    | none =>
      simp only [hm, Option.all_none, Bool.and_true, Bool.and_eq_true, bne_iff_ne, ne_eq,
        Bool.or_eq_true, decide_eq_true_eq] at hdf
      exact ⟨by simpa using htf, hdf.1, hdf.2, by simp [hm]⟩
    | some limit =>
      simp only [hm, Option.all_some, Bool.and_eq_true, bne_iff_ne, ne_eq,
        Bool.or_eq_true, decide_eq_true_eq] at hdf
      exact ⟨by simpa using htf, hdf.1.1, hdf.1.2, by simp [hm, hdf.2]⟩

variable [Weight ω]

/-- The figures of a candidate are those of its term. -/
structure IsScoring (corpus : Corpus) (sim : Similarity ω) (a : Candidate ω) : Prop where
  docFreq : a.docFreq = corpus.docFreq a.term
  idf : sim.idf a.docFreq corpus.numDocs = .ok a.idf
  score : ∃ w, Weight.ofInt a.termFreq = .ok w ∧ a.score = Weight.mul w a.idf

variable {sim : Similarity ω}

theorem candidate?_of_not_admits (h : ¬Admits corpus c term n) :
    candidate? corpus sim c term n = .ok none := by
  rw [admits_iff, not_and_or] at h
  unfold candidate?
  rcases h with h | h
  · simp [h, pure, Except.pure]
  · by_cases htf : c.admitsTermFreq n = true
    · simp [h, htf, pure, Except.pure]
    · simp [htf, pure, Except.pure]

theorem candidate?_of_admits (h : Admits corpus c term n) {idf w : ω}
    (hidf : sim.idf (corpus.docFreq term) corpus.numDocs = .ok idf)
    (hw : Weight.ofInt n = .ok w) :
    candidate? corpus sim c term n =
      .ok (some ⟨term, Weight.mul w idf, idf, corpus.docFreq term, n⟩) := by
  obtain ⟨htf, hdf⟩ := admits_iff.1 h
  simp [candidate?, htf, hdf, hidf, hw, bind, Except.bind, pure, Except.pure, Except.mapError,
    Functor.map, Except.map]

theorem candidate?_of_idf_error (h : Admits corpus c term n) {f : ArithFault}
    (hidf : sim.idf (corpus.docFreq term) corpus.numDocs = .error f) :
    candidate? corpus sim c term n = .error (.arithmetic f) := by
  obtain ⟨htf, hdf⟩ := admits_iff.1 h
  simp [candidate?, htf, hdf, hidf, bind, Except.bind, Except.mapError, Functor.map, Except.map]

theorem candidate?_of_ofInt_error (h : Admits corpus c term n) {idf : ω}
    (hidf : sim.idf (corpus.docFreq term) corpus.numDocs = .ok idf) {f : ArithFault}
    (hw : (Weight.ofInt n : Except ArithFault ω) = .error f) :
    candidate? corpus sim c term n = .error (.arithmetic f) := by
  obtain ⟨htf, hdf⟩ := admits_iff.1 h
  simp [candidate?, htf, hdf, hidf, hw, bind, Except.bind, Except.mapError, Functor.map, Except.map]

/-- Nothing fails if a term that the criteria let through has an idf and its count is a weight. -/
theorem exists_candidate? (h : Admits corpus c term n →
    (∃ x, sim.idf (corpus.docFreq term) corpus.numDocs = .ok x) ∧
      ∃ w, (Weight.ofInt n : Except ArithFault ω) = .ok w) :
    ∃ o, candidate? corpus sim c term n = .ok o := by
  by_cases hadmits : Admits corpus c term n
  · obtain ⟨⟨x, hx⟩, w, hw⟩ := h hadmits
    exact ⟨_, candidate?_of_admits hadmits hx hw⟩
  · exact ⟨none, candidate?_of_not_admits hadmits⟩

/-- Nothing but arithmetic can go wrong with a term. -/
theorem arithmetic_of_candidate? {f : Fault} (h : candidate? corpus sim c term n = .error f) :
    ∃ g, f = .arithmetic g := by
  by_cases hadmits : Admits corpus c term n
  · cases hidf : sim.idf (corpus.docFreq term) corpus.numDocs with
    | error g =>
      rw [candidate?_of_idf_error hadmits hidf] at h
      exact ⟨g, (Except.error.inj h).symm⟩
    | ok idf =>
      cases hw : (Weight.ofInt n : Except ArithFault ω) with
      | error g =>
        rw [candidate?_of_ofInt_error hadmits hidf hw] at h
        exact ⟨g, (Except.error.inj h).symm⟩
      | ok w =>
        rw [candidate?_of_admits hadmits hidf hw] at h
        cases h
  · rw [candidate?_of_not_admits hadmits] at h
    cases h

theorem candidate?_eq_some_iff {a : Candidate ω} :
    candidate? corpus sim c term n = .ok (some a) ↔
      Admits corpus c term n ∧ a.term = term ∧ a.termFreq = n ∧ IsScoring corpus sim a := by
  constructor
  · intro ha
    by_cases h : Admits corpus c term n
    · cases hidf : sim.idf (corpus.docFreq term) corpus.numDocs with
      | error f =>
        rw [candidate?_of_idf_error h hidf] at ha
        cases ha
      | ok idf =>
        cases hw : (Weight.ofInt n : Except ArithFault ω) with
        | error f =>
          rw [candidate?_of_ofInt_error h hidf hw] at ha
          cases ha
        | ok w =>
          rw [candidate?_of_admits h hidf hw] at ha
          obtain rfl := Option.some.inj (Except.ok.inj ha)
          exact ⟨h, rfl, rfl, rfl, hidf, w, hw, rfl⟩
    · rw [candidate?_of_not_admits h] at ha
      simp at ha
  · rintro ⟨h, rfl, rfl, hdf, hidf, w, hw, hscore⟩
    rw [hdf] at hidf
    rw [candidate?_of_admits h hidf hw, ← hscore, ← hdf]

/-- The scored form of an entry, if the criteria let it through and nothing fails. -/
def scored? (corpus : Corpus) (sim : Similarity ω) (c : Criteria ω) (e : Term × Int) :
    Option (Candidate ω) :=
  (candidate? corpus sim c e.1 e.2).toOption.join

theorem scored?_eq_some_iff {e : Term × Int} {a : Candidate ω} :
    scored? corpus sim c e = some a ↔ candidate? corpus sim c e.1 e.2 = .ok (some a) := by
  unfold scored?
  cases candidate? corpus sim c e.1 e.2 <;> simp [Except.toOption]

theorem candidates_eq_ok {t : Tally}
    (h : ∀ e ∈ t.terms, ∃ o, candidate? corpus sim c e.1 e.2 = .ok o) :
    candidates corpus sim c t = .ok (t.terms.filterMap (scored? corpus sim c)) := by
  have hall : ∀ e ∈ t.terms, candidate? corpus sim c e.1 e.2 = .ok (scored? corpus sim c e) := by
    intro e he
    obtain ⟨o, ho⟩ := h e he
    simp [scored?, ho, Except.toOption]
  unfold candidates
  rw [mapM_eq_ok hall]
  simp [bind, Except.bind, pure, Except.pure, List.filterMap_map]

theorem candidates_eq_error {t : Tally} {f : Fault}
    (hf : ∀ e ∈ t.terms, ∀ g, candidate? corpus sim c e.1 e.2 = .error g → g = f)
    (h : ∃ e ∈ t.terms, ∃ g, candidate? corpus sim c e.1 e.2 = .error g) :
    candidates corpus sim c t = .error f := by
  unfold candidates
  rw [mapM_eq_error hf h]
  rfl

/-- If all terms that fail do so alike, the selection fails with them. -/
theorem select_eq_error {t : Tally} {f : Fault}
    (hf : ∀ e ∈ t.terms, ∀ g, candidate? corpus sim c e.1 e.2 = .error g → g = f)
    (h : ∃ e ∈ t.terms, ∃ g, candidate? corpus sim c e.1 e.2 = .error g) :
    select corpus sim c t = .error f := by
  unfold select
  rw [candidates_eq_error hf h]
  rfl

theorem select_eq_ok {t : Tally} (h : ∀ e ∈ t.terms, ∃ o, candidate? corpus sim c e.1 e.2 = .ok o) :
    select corpus sim c t = .ok ((Shortlist.ofCapacity (min c.maxQueryTerms t.size)).offerAll
      (t.terms.filterMap (scored? corpus sim c))) := by
  unfold select
  rw [candidates_eq_ok h]
  rfl

theorem arithmetic_of_select {t : Tally} {f : Fault} (h : select corpus sim c t = .error f) :
    ∃ g, f = .arithmetic g := by
  unfold select candidates at h
  cases hm : t.terms.mapM fun e => candidate? corpus sim c e.1 e.2 with
  | error x =>
    rw [hm] at h
    obtain rfl : x = f := Except.error.inj h
    obtain ⟨e, -, he⟩ := exists_error_of_mapM hm
    exact arithmetic_of_candidate? he
  | ok found =>
    rw [hm] at h
    cases h

theorem exists_ok_of_select {t : Tally} {s : Shortlist ω} (h : select corpus sim c t = .ok s) :
    ∀ e ∈ t.terms, ∃ o, candidate? corpus sim c e.1 e.2 = .ok o := by
  unfold select candidates at h
  cases hm : t.terms.mapM fun e => candidate? corpus sim c e.1 e.2 with
  | error f =>
    rw [hm] at h
    cases h
  | ok found => exact exists_ok_of_mapM hm

theorem map_term_sublist (corpus : Corpus) (sim : Similarity ω) (c : Criteria ω)
    (l : List (Term × Int)) :
    ((l.filterMap (scored? corpus sim c)).map (·.term)).Sublist (l.map Prod.fst) := by
  induction l with
  | nil => exact List.Sublist.refl _
  | cons e l ih =>
    cases ha : scored? corpus sim c e with
    | none =>
      rw [List.filterMap_cons_none ha, List.map_cons]
      exact ih.cons e.1
    | some a =>
      have hterm := (candidate?_eq_some_iff.1 (scored?_eq_some_iff.1 ha)).2.1
      rw [List.filterMap_cons_some ha, List.map_cons, List.map_cons, hterm]
      exact ih.cons_cons e.1

theorem mem_filterMap_scored?_iff {t : Tally} {a : Candidate ω} :
    a ∈ t.terms.filterMap (scored? corpus sim c) ↔
      t.count? a.term = some a.termFreq ∧ Admits corpus c a.term a.termFreq ∧
        IsScoring corpus sim a := by
  rw [List.mem_filterMap]
  constructor
  · rintro ⟨⟨term, n⟩, he, ha⟩
    obtain ⟨hadmits, rfl, rfl, hscoring⟩ := candidate?_eq_some_iff.1 (scored?_eq_some_iff.1 ha)
    exact ⟨Tally.mem_terms_iff.1 he, hadmits, hscoring⟩
  · rintro ⟨he, hadmits, hscoring⟩
    have hscored : scored? corpus sim c (a.term, a.termFreq) = some a :=
      scored?_eq_some_iff.2 (candidate?_eq_some_iff.2 ⟨hadmits, rfl, rfl, hscoring⟩)
    exact ⟨(a.term, a.termFreq), Tally.mem_terms_iff.2 he, hscored⟩

theorem size_le_of_select {t : Tally} {s : Shortlist ω} (h : select corpus sim c t = .ok s) :
    s.size ≤ c.maxQueryTerms.toNat := by
  have hs := h.symm.trans (select_eq_ok (exists_ok_of_select h))
  obtain rfl := Except.ok.inj hs
  have hsize := Shortlist.size_offerAll_ofCapacity (min c.maxQueryTerms t.size)
    (t.terms.filterMap (scored? corpus sim c))
  omega

theorem scored_of_mem_select {t : Tally} {s : Shortlist ω} (h : select corpus sim c t = .ok s)
    {a : Candidate ω} (ha : a ∈ s.heap) :
    t.count? a.term = some a.termFreq ∧ Admits corpus c a.term a.termFreq ∧
      IsScoring corpus sim a := by
  have hs := h.symm.trans (select_eq_ok (exists_ok_of_select h))
  obtain rfl := Except.ok.inj hs
  rcases Shortlist.mem_of_mem_offerAll ha with hcs | hempty
  · exact mem_filterMap_scored?_iff.1 hcs
  · exact absurd hempty (Array.not_mem_empty a)

/-- Draining the selection hands out the front of the ranking of all terms that the criteria let
through. -/
def DrainsBest (corpus : Corpus) (sim : Similarity ω) (c : Criteria ω) (t : Tally) : Prop :=
  ∃ r s, IsStrictlyRanked r ∧
    (∀ a, a ∈ r ↔ t.count? a.term = some a.termFreq ∧ Admits corpus c a.term a.termFreq ∧
      IsScoring corpus sim a) ∧
    select corpus sim c t = .ok s ∧ s.drain.1 = r.take c.maxQueryTerms.toNat

variable [PlacedWeight ω]

/-- A term that occurs is scored by a number if its idf is one. -/
theorem IsScoring.isScored {a : Candidate ω} (h : IsScoring corpus sim a) (hn : a.termFreq ≠ 0)
    (hidf : PlacedWeight.place a.idf ≠ ⊥) : a.IsScored := by
  obtain ⟨w, hw, hscore⟩ := h.score
  rw [Candidate.IsScored, hscore]
  exact PlacedWeight.place_mul_ofInt hn hw hidf

theorem drainsBest {t : Tally} (h : ∀ e ∈ t.terms, ∃ o, candidate? corpus sim c e.1 e.2 = .ok o)
    (hs : ∀ a ∈ t.terms.filterMap (scored? corpus sim c), a.IsScored) :
    DrainsBest corpus sim c t := by
  obtain ⟨r, hr, hranked, hdrain⟩ := Shortlist.drain_offerAll (min c.maxQueryTerms t.size) hs
  have hterms := t.nodup_terms.sublist (map_term_sublist corpus sim c t.terms)
  have hnodup : (r.map (·.term)).Nodup := (hr.map _).nodup_iff.2 hterms
  have hstrict := hranked.isStrictlyRanked (fun a ha => hs a (hr.mem_iff.1 ha)) hnodup
  -- there are never more candidates than terms, so the second bound cuts nothing off
  have hle : r.length ≤ t.size := by
    rw [hr.length_eq, ← t.length_terms]
    exact List.length_filterMap_le _ _
  have htake : r.take (min c.maxQueryTerms t.size).toNat = r.take c.maxQueryTerms.toNat := by
    rcases le_total c.maxQueryTerms t.size with hmin | hmin
    · rw [min_eq_left hmin]
    · rw [min_eq_right hmin, List.take_of_length_le (by omega), List.take_of_length_le (by omega)]
  exact ⟨r, _, hstrict, fun a => hr.mem_iff.trans mem_filterMap_scored?_iff, select_eq_ok h,
    hdrain.trans htake⟩

/-- The selection of doubles drains the best terms if every admitted count converts to a double and
no count of zero meets an idf that makes no number of it. -/
theorem drainsBest_double (corpus : Corpus) (sim : Similarity Float) (c : Criteria Float)
    (t : Tally)
    (hidf : ∀ term, ∃ x, sim.idf (corpus.docFreq term) corpus.numDocs = .ok x ∧ x.isNaN = false)
    (hcount : ∀ term n, t.count? term = some n → Admits corpus c term n →
      ∃ w, Number.ofInt? n = some w)
    (hzero : ∀ term, t.count? term = some 0 → Admits corpus c term 0 →
      ∀ x, sim.idf (corpus.docFreq term) corpus.numDocs = .ok x → (0 * x).isNaN = false) :
    DrainsBest corpus sim c t := by
  apply drainsBest
  · rintro ⟨term, n⟩ he
    by_cases h : Admits corpus c term n
    · obtain ⟨x, hx, -⟩ := hidf term
      obtain ⟨w, hw⟩ := hcount term n (Tally.mem_terms_iff.1 he) h
      exact ⟨_, candidate?_of_admits h hx (Number.ofInt_eq_ok_iff.2 hw)⟩
    · exact ⟨_, candidate?_of_not_admits h⟩
  · intro a ha
    obtain ⟨he, h, hscoring⟩ := mem_filterMap_scored?_iff.1 ha
    have hidfa := hscoring.idf
    obtain ⟨w, hw, hscore⟩ := hscoring.score
    by_cases hn : a.termFreq = 0
    · rw [hn] at he h hw
      rw [hscoring.docFreq] at hidfa
      obtain rfl : 0 = w := Except.ok.inj hw
      rw [Candidate.IsScored, hscore]
      exact (Number.place_ne_bot_iff _).2 (hzero a.term he h a.idf hidfa)
    · obtain ⟨x, hx, hnan⟩ := hidf a.term
      rw [← hscoring.docFreq] at hx
      obtain rfl : a.idf = x := Except.ok.inj (hidfa.symm.trans hx)
      exact hscoring.isScored hn ((Number.place_ne_bot_iff a.idf).2 hnan)

/-- One document in which every term occurs. -/
def everywhere : Corpus where
  numDocs := 1
  docFreq _ := 1
  vector _ _ := .ok none
  document id := .error (.documentNotFound id)
  fieldNames _ := ∅

def constantly (x : Float) : Similarity Float := .ofFunction fun _ _ => .ok x

def lenient : Criteria Float := { boostFactor := 1, minTermFreq := 0, minDocFreq := 0 }

theorem admits_lenient (term : Term) (n : Int) : Admits everywhere lenient term n where
  termFreq := Or.inl (Int.le_refl 0)
  occurs := Int.one_ne_zero
  minDocFreq := Or.inl (Int.le_refl 0)
  maxDocFreq := nofun

/-- Three terms of which two rank by their texts alone and one is cut off. -/
theorem drainsBest_double_tied :
    let c : Criteria Float := { lenient with maxQueryTerms := 2 }
    let t : Tally := .ofLists [("f", [("c", 1), ("b", 2), ("a", 2)])]
    (∀ term, ∃ x, (constantly 3).idf (everywhere.docFreq term) everywhere.numDocs = .ok x ∧
        x.isNaN = false) ∧
      (∀ e ∈ t.terms, 0 < e.2 ∧ e.2 < 2 ^ 1023) ∧
      DrainsBest everywhere (constantly 3) c t := by
  intro c t
  have hidf : ∀ term, ∃ x,
      (constantly 3).idf (everywhere.docFreq term) everywhere.numDocs = .ok x ∧ x.isNaN = false :=
    fun _ => ⟨3, rfl, by decide⟩
  have hcounts : ∀ e ∈ t.terms, 0 < e.2 ∧ e.2 < 2 ^ 1023 := by decide +kernel
  have hconverts : ∀ term n, t.count? term = some n → ∃ w, Number.ofInt? n = some w := by
    intro term n hn
    obtain ⟨hpos, hlt⟩ := hcounts _ (Tally.mem_terms_iff.2 hn)
    exact Number.exists_ofInt? hpos hlt
  have hnozero : ∀ term, t.count? term ≠ some 0 := by
    intro term hn
    exact absurd (hcounts _ (Tally.mem_terms_iff.2 hn)).1 (Int.lt_irrefl 0)
  exact ⟨hidf, hcounts, drainsBest_double _ _ c t hidf (fun term n hn _ => hconverts term n hn)
    fun term hn => absurd hn (hnozero term)⟩

theorem select_integerTooLarge :
    select everywhere (constantly 0) lenient (.ofLists [("f", [("a", 10 ^ 400)])]) =
      .error (.arithmetic .integerTooLarge) := by
  have hterms : ∀ n, (Tally.ofLists [("f", [("a", n)])]).terms = [(⟨"f", "a"⟩, n)] := fun _ => rfl
  have hlarge : (Weight.ofInt (10 ^ 400) : Except ArithFault Float) = .error .integerTooLarge := by
    have hnone : Number.ofInt? (10 ^ 400) = none := by decide +kernel
    rw [Number.weight_ofInt, hnone]
    rfl
  have hfails := candidate?_of_ofInt_error (admits_lenient ⟨"f", "a"⟩ _)
    (show (constantly 0).idf _ _ = .ok 0 from rfl) hlarge
  apply select_eq_error
  · intro e he g hg
    rw [hterms, List.mem_singleton] at he
    rw [he, hfails] at hg
    exact (Except.error.inj hg).symm
  · have hmem : (⟨"f", "a"⟩, 10 ^ 400) ∈ (Tally.ofLists [("f", [("a", 10 ^ 400)])]).terms := by
      rw [hterms]
      exact List.mem_singleton_self _
    exact ⟨(⟨"f", "a"⟩, 10 ^ 400), hmem, _, hfails⟩

/-- A score that is no number has no place in a ranking. -/
theorem not_drainsBest_of_nan :
    ¬DrainsBest everywhere (constantly (1 / 0)) lenient
      (.ofLists [("f", [("a", 0), ("b", 1)])]) := by
  rintro ⟨r, s, hr, hmem, -, -⟩
  let a : Candidate Float := ⟨⟨"f", "a"⟩, 0 * (1 / 0), 1 / 0, 1, 0⟩
  let b : Candidate Float := ⟨⟨"f", "b"⟩, 1 * (1 / 0), 1 / 0, 1, 1⟩
  have hzero : (Weight.ofInt 0 : Except ArithFault Float) = .ok 0 := rfl
  have hone : (Weight.ofInt 1 : Except ArithFault Float) = .ok 1 := rfl
  have ha : a ∈ r := (hmem a).2 ⟨by decide, admits_lenient _ _, rfl, rfl, 0, hzero, rfl⟩
  have hb : b ∈ r := (hmem b).2 ⟨by decide, admits_lenient _ _, rfl, rfl, 1, hone, rfl⟩
  have hab : a.outranks b = false := by decide
  have hba : b.outranks a = false := by decide
  obtain ⟨i, hi, hia⟩ := List.getElem_of_mem ha
  obtain ⟨j, hj, hjb⟩ := List.getElem_of_mem hb
  rcases lt_trichotomy i j with hlt | rfl | hlt
  · have hout := List.pairwise_iff_getElem.1 hr i j hi hj hlt
    rw [hia, hjb, hab] at hout
    cases hout
  · have hterm := congrArg (·.term.text) (hia.symm.trans hjb)
    revert hterm
    decide
  · have hout := List.pairwise_iff_getElem.1 hr j i hj hi hlt
    rw [hia, hjb, hba] at hout
    cases hout

/-- Neither condition can be left out: a count may be too large for a double, and a count of zero
makes no number of an infinite idf. -/
theorem not_forall_drainsBest :
    (¬∀ (corpus : Corpus) (sim : Similarity Float) (c : Criteria Float) (t : Tally),
      (∀ docFreq, ∃ x, sim.idf docFreq corpus.numDocs = .ok x ∧ x.isNaN = false) →
      DrainsBest corpus sim c t) ∧
    ¬∀ (corpus : Corpus) (sim : Similarity Float) (c : Criteria Float) (t : Tally),
      (∀ docFreq, ∃ x, sim.idf docFreq corpus.numDocs = .ok x ∧ x.isNaN = false) →
      (∀ term n, t.count? term = some n → ∃ w, Number.ofInt? n = some w) →
      DrainsBest corpus sim c t := by
  constructor
  · intro h
    obtain ⟨r, s, -, -, hok, -⟩ := h everywhere (constantly 0) lenient
      (.ofLists [("f", [("a", 10 ^ 400)])]) fun _ => ⟨0, rfl, by decide⟩
    rw [select_integerTooLarge] at hok
    cases hok
  · intro h
    have hcounts : ∀ e ∈ (Tally.ofLists [("f", [("a", 0), ("b", 1)])]).terms,
        e.2 = 0 ∨ e.2 = 1 := by decide
    have hconverts : ∀ term n, (Tally.ofLists [("f", [("a", 0), ("b", 1)])]).count? term = some n →
        ∃ w, Number.ofInt? n = some w := by
      intro term n hn
      obtain rfl | rfl := hcounts _ (Tally.mem_terms_iff.2 hn)
      · exact ⟨0, rfl⟩
      · exact ⟨1, rfl⟩
    exact not_drainsBest_of_nan (h everywhere (constantly (1 / 0)) lenient _
      (fun _ => ⟨1 / 0, rfl, by decide⟩) hconverts)

end TermMining.Selection
