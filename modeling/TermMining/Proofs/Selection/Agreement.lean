import TermMining.Proofs.Selection

/-! What a selection depends on: of a corpus the number of documents and the document frequencies,
of a tally the terms in any order. -/
namespace TermMining.Selection

variable {ω : Type} {corpus : Corpus} {sim : Similarity ω}

/-- Each term has one idf, so what holds of some holds of any. -/
theorem of_idf_eq_ok {p : ω → Prop}
    (h : ∀ term, ∃ x, sim.idf (corpus.docFreq term) corpus.numDocs = .ok x ∧ p x) {term : Term}
    {x : ω} (hx : sim.idf (corpus.docFreq term) corpus.numDocs = .ok x) : p x := by
  obtain ⟨y, hy, hp⟩ := h term
  rwa [Except.ok.inj (hx.symm.trans hy)]

variable [Weight ω] {c : Criteria ω}

def drained (answer : Except Fault (Shortlist ω)) : Except Fault (List (Candidate ω)) :=
  answer.map fun s => s.drain.1

def ranking (corpus : Corpus) (sim : Similarity ω) (c : Criteria ω) (t : Tally) :
    Except Fault (List (Candidate ω)) :=
  (candidates corpus sim c t).map (Order.sortDescending Candidate.before)

theorem select_congr_corpus {corpus' : Corpus} (hn : corpus.numDocs = corpus'.numDocs)
    (hdf : ∀ t, corpus.docFreq t = corpus'.docFreq t) (t : Tally) :
    select corpus sim c t = select corpus' sim c t := by
  have hcandidate : ∀ term n, candidate? corpus sim c term n = candidate? corpus' sim c term n := by
    intro term n
    unfold candidate?
    rw [hn, hdf]
  unfold select candidates
  simp only [hcandidate]

theorem ranking_eq_ok {t : Tally}
    (h : ∀ e ∈ t.terms, ∃ o, candidate? corpus sim c e.1 e.2 = .ok o) :
    ranking corpus sim c t =
      .ok (Order.sortDescending Candidate.before (t.terms.filterMap (scored? corpus sim c))) := by
  unfold ranking
  rw [candidates_eq_ok h]
  rfl

theorem ranking_cases (corpus : Corpus) (sim : Similarity ω) (c : Criteria ω) (t : Tally) :
    (∃ f, ranking corpus sim c t = .error f ∧ select corpus sim c t = .error f) ∨
      ∀ e ∈ t.terms, ∃ o, candidate? corpus sim c e.1 e.2 = .ok o := by
  cases hcs : candidates corpus sim c t with
  | error f =>
    left
    unfold ranking select
    rw [hcs]
    exact ⟨f, rfl, rfl⟩
  | ok cs =>
    right
    have hselect : ∃ s, select corpus sim c t = .ok s := by
      unfold select
      rw [hcs]
      exact ⟨_, rfl⟩
    obtain ⟨s, hs⟩ := hselect
    exact exists_ok_of_select hs

theorem eq_of_ranking_eq_ok {t : Tally} {r : List (Candidate ω)}
    (h : ranking corpus sim c t = .ok r) :
    r = Order.sortDescending Candidate.before (t.terms.filterMap (scored? corpus sim c)) := by
  rcases ranking_cases corpus sim c t with ⟨f, hf, -⟩ | hok
  · rw [hf] at h
    cases h
  · exact Except.ok.inj (h.symm.trans (ranking_eq_ok hok))

theorem length_le_of_ranking {t : Tally} {r : List (Candidate ω)}
    (h : ranking corpus sim c t = .ok r) : r.length ≤ t.size := by
  rw [eq_of_ranking_eq_ok h, (Order.sortDescending_perm _ _).length_eq, ← t.length_terms]
  exact List.length_filterMap_le _ _

theorem mem_ranking_iff {t : Tally} {r : List (Candidate ω)} (h : ranking corpus sim c t = .ok r)
    {a : Candidate ω} :
    a ∈ r ↔ t.count? a.term = some a.termFreq ∧ Admits corpus c a.term a.termFreq ∧
      IsScoring corpus sim a := by
  rw [eq_of_ranking_eq_ok h, (Order.sortDescending_perm _ _).mem_iff, mem_filterMap_scored?_iff]

variable [PlacedWeight ω]

/-- Every term that the criteria let through is scored by a number. -/
def IsScorable (corpus : Corpus) (sim : Similarity ω) (c : Criteria ω) (t : Tally) : Prop :=
  ∀ a : Candidate ω, t.count? a.term = some a.termFreq → Admits corpus c a.term a.termFreq →
    IsScoring corpus sim a → a.IsScored

theorem IsScorable.forall_mem {t : Tally} (h : IsScorable corpus sim c t) :
    ∀ a ∈ t.terms.filterMap (scored? corpus sim c), a.IsScored := by
  intro a ha
  obtain ⟨hcount, hadmits, hscoring⟩ := mem_filterMap_scored?_iff.1 ha
  exact h a hcount hadmits hscoring

theorem IsScorable.of_perm {t u : Tally} (h : IsScorable corpus sim c t)
    (hp : t.terms.Perm u.terms) : IsScorable corpus sim c u := by
  intro a hcount
  exact h a (Tally.mem_terms_iff.1 (hp.mem_iff.2 (Tally.mem_terms_iff.2 hcount)))

/-- Terms that occur are scored by numbers if their idfs are numbers. -/
theorem isScorable_of_ne_zero
    (hidf : ∀ term x, sim.idf (corpus.docFreq term) corpus.numDocs = .ok x →
      PlacedWeight.place x ≠ ⊥) {t : Tally} (hne : ∀ e ∈ t.terms, e.2 ≠ 0) :
    IsScorable corpus sim c t := by
  intro a hcount _ hscoring
  have hx := hscoring.idf
  rw [hscoring.docFreq] at hx
  exact hscoring.isScored (hne _ (Tally.mem_terms_iff.2 hcount)) (hidf a.term a.idf hx)

/-- No count of zero that the criteria let through meets an idf that makes no number of it. -/
def ZerosScored (corpus : Corpus) (sim : Similarity Float) (c : Criteria Float) (t : Tally) :
    Prop :=
  ∀ term, t.count? term = some 0 → Admits corpus c term 0 →
    ∀ x, sim.idf (corpus.docFreq term) corpus.numDocs = .ok x → (0 * x).isNaN = false

theorem isScorable_double {sim : Similarity Float} {c : Criteria Float} {t : Tally}
    (hidf : ∀ term x, sim.idf (corpus.docFreq term) corpus.numDocs = .ok x → x.isNaN = false)
    (hzero : ZerosScored corpus sim c t) : IsScorable corpus sim c t := by
  intro a hcount hadmits hscoring
  have hx := hscoring.idf
  rw [hscoring.docFreq] at hx
  by_cases hn : a.termFreq = 0
  · obtain ⟨w, hw, hscore⟩ := hscoring.score
    rw [hn] at hcount hadmits hw
    obtain rfl : 0 = w := Except.ok.inj hw
    rw [Candidate.IsScored, hscore]
    exact (Number.place_ne_bot_iff _).2 (hzero a.term hcount hadmits a.idf hx)
  · exact hscoring.isScored hn ((Number.place_ne_bot_iff a.idf).2 (hidf a.term a.idf hx))

theorem isScored_of_mem_ranking {t : Tally} (h : IsScorable corpus sim c t)
    {r : List (Candidate ω)} (hr : ranking corpus sim c t = .ok r) : ∀ a ∈ r, a.IsScored := by
  intro a ha
  obtain ⟨hcount, hadmits, hscoring⟩ := (mem_ranking_iff hr).1 ha
  exact h a hcount hadmits hscoring

theorem isStrictlyRanked_ranking {t : Tally} (h : IsScorable corpus sim c t)
    {r : List (Candidate ω)} (hr : ranking corpus sim c t = .ok r) : IsStrictlyRanked r := by
  rcases ranking_cases corpus sim c t with ⟨f, hf, -⟩ | hok
  · rw [hf] at hr
    cases hr
  · obtain rfl := Except.ok.inj ((ranking_eq_ok hok).symm.trans hr)
    exact isStrictlyRanked_sortDescending h.forall_mem
      (t.nodup_terms.sublist (map_term_sublist corpus sim c t.terms))

theorem drained_select {t : Tally} (h : IsScorable corpus sim c t) :
    drained (select corpus sim c t) =
      (ranking corpus sim c t).map fun r => r.take c.maxQueryTerms.toNat := by
  rcases ranking_cases corpus sim c t with ⟨f, hranking, hselect⟩ | hok
  · rw [hranking, hselect]
    rfl
  · obtain ⟨r, s, hr, hmem, hs, hdrain⟩ := drainsBest hok h.forall_mem
    have hranking := ranking_eq_ok hok
    have hscored := isScored_of_mem_ranking h hranking
    have heq := (isStrictlyRanked_ranking h hranking).eq_of_mem_iff hr hscored fun a => by
      rw [hmem, mem_ranking_iff hranking]
    rw [hranking, hs, heq]
    exact congrArg Except.ok hdrain

theorem candidate?_error {term : Term} {x : ω}
    (hx : sim.idf (corpus.docFreq term) corpus.numDocs = .ok x) {n : Int} {f : Fault}
    (h : candidate? corpus sim c term n = .error f) : f = .arithmetic .integerTooLarge := by
  by_cases hadmits : Admits corpus c term n
  · cases hw : (Weight.ofInt n : Except ArithFault ω) with
    | ok w =>
      rw [candidate?_of_admits hadmits hx hw] at h
      cases h
    | error g =>
      rw [candidate?_of_ofInt_error hadmits hx hw] at h
      rw [← Except.error.inj h, PlacedWeight.ofInt_error hw]
  · rw [candidate?_of_not_admits hadmits] at h
    cases h

theorem ranking_congr
    (hidf : ∀ term, ∃ x, sim.idf (corpus.docFreq term) corpus.numDocs = .ok x) {t u : Tally}
    (ht : IsScorable corpus sim c t) (hp : t.terms.Perm u.terms) :
    ranking corpus sim c t = ranking corpus sim c u := by
  by_cases h : ∀ e ∈ t.terms, ∃ o, candidate? corpus sim c e.1 e.2 = .ok o
  · have hu : ∀ e ∈ u.terms, ∃ o, candidate? corpus sim c e.1 e.2 = .ok o := fun e he =>
      h e (hp.mem_iff.2 he)
    have hcs : (t.terms.filterMap (scored? corpus sim c)).Perm
        (u.terms.filterMap (scored? corpus sim c)) := hp.filterMap _
    have hscored := ht.forall_mem
    have hnodup := t.nodup_terms.sublist (map_term_sublist corpus sim c t.terms)
    have hsorted := isStrictlyRanked_sortDescending hscored hnodup
    have hsorted' := isStrictlyRanked_sortDescending (fun a ha => hscored a (hcs.mem_iff.2 ha))
      ((hcs.map _).nodup_iff.1 hnodup)
    have hperm := (Order.sortDescending_perm Candidate.before _).trans
      (hcs.trans (Order.sortDescending_perm Candidate.before _).symm)
    rw [ranking_eq_ok h, ranking_eq_ok hu]
    exact congrArg Except.ok (hsorted.eq_of_perm hsorted'
      (fun a ha => hscored a ((Order.sortDescending_perm _ _).mem_iff.1 ha)) hperm)
  · -- whatever cannot be scored fails in the same way, so it does not show which came first
    have hfail : ∃ e ∈ t.terms, ∃ g, candidate? corpus sim c e.1 e.2 = .error g := by
      by_contra hno
      apply h
      intro e he
      cases hc : candidate? corpus sim c e.1 e.2 with
      | ok o => exact ⟨o, rfl⟩
      | error g => exact absurd ⟨e, he, g, hc⟩ hno
    have hfail' : ∃ e ∈ u.terms, ∃ g, candidate? corpus sim c e.1 e.2 = .error g := by
      obtain ⟨e, he, hg⟩ := hfail
      exact ⟨e, hp.mem_iff.1 he, hg⟩
    have herr : ∀ e : Term × Int, ∀ g, candidate? corpus sim c e.1 e.2 = .error g →
        g = .arithmetic .integerTooLarge := by
      intro e g hg
      obtain ⟨x, hx⟩ := hidf e.1
      exact candidate?_error hx hg
    unfold ranking
    rw [candidates_eq_error (fun e _ => herr e) hfail,
      candidates_eq_error (fun e _ => herr e) hfail']

/-- Terms that occur are selected alike in whatever order they are counted. -/
theorem drain_select_congr
    (hidf : ∀ term, ∃ x, sim.idf (corpus.docFreq term) corpus.numDocs = .ok x ∧
      PlacedWeight.place x ≠ ⊥) {t u : Tally}
    (hne : ∀ e ∈ t.terms, e.2 ≠ 0) (hp : t.terms.Perm u.terms) :
    drained (select corpus sim c t) = drained (select corpus sim c u) := by
  have hok : ∀ term, ∃ x, sim.idf (corpus.docFreq term) corpus.numDocs = .ok x :=
    fun term => (hidf term).imp fun _ hx => hx.1
  have hplace : ∀ term x, sim.idf (corpus.docFreq term) corpus.numDocs = .ok x →
      PlacedWeight.place x ≠ ⊥ := fun _ _ => of_idf_eq_ok hidf
  have ht := isScorable_of_ne_zero (c := c) hplace hne
  have hu := isScorable_of_ne_zero (c := c) hplace fun e he => hne e (hp.mem_iff.2 he)
  rw [drained_select ht, drained_select hu, ranking_congr hok ht hp]

end TermMining.Selection
