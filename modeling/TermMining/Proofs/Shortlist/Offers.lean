import TermMining.Proofs.Shortlist

/-! What a shortlist holds after a row of offers: the best of all that were offered. -/
namespace TermMining

variable {ω : Type} [Weight ω] [PlacedWeight ω]

def IsStrictlyRanked (l : List (Candidate ω)) : Prop := l.Pairwise fun a b => a.outranks b = true

theorem IsRanked.isStrictlyRanked {l : List (Candidate ω)} (h : IsRanked l)
    (hs : ∀ c ∈ l, c.IsScored) (ht : (l.map (·.term)).Nodup) : IsStrictlyRanked l := by
  have ht : l.Pairwise fun a b => a.term ≠ b.term := List.pairwise_map.1 ht
  apply (List.Pairwise.and h ht).imp_of_mem
  intro a b ha hb hab
  rcases Candidate.outranks_or_outranks (hs a ha) (hs b hb) hab.2 with hout | hout
  · exact hout
  · have hlt := ((Candidate.outranks_iff (hs b hb)).1 hout).2
    exact absurd hab.1 (not_le.2 hlt)

theorem IsStrictlyRanked.eq_of_perm {l m : List (Candidate ω)} (hl : IsStrictlyRanked l)
    (hm : IsStrictlyRanked m) (hs : ∀ c ∈ l, c.IsScored) (hp : l.Perm m) : l = m := by
  apply List.Perm.eq_of_pairwise _ hl hm hp
  intro a b ha hb hab hba
  have hlt := ((Candidate.outranks_iff (hs a ha)).1 hab).2
  have hgt := ((Candidate.outranks_iff (hs b (hp.mem_iff.2 hb))).1 hba).2
  exact absurd hlt hgt.not_gt

theorem IsStrictlyRanked.nodup {l : List (Candidate ω)} (hl : IsStrictlyRanked l)
    (hs : ∀ c ∈ l, c.IsScored) : l.Nodup := by
  apply hl.imp_of_mem
  rintro a _ ha - hout rfl
  exact lt_irrefl _ ((Candidate.outranks_iff (hs a ha)).1 hout).2

/-- There is one way to rank given candidates of which no two rank alike. -/
theorem IsStrictlyRanked.eq_of_mem_iff {l m : List (Candidate ω)} (hl : IsStrictlyRanked l)
    (hm : IsStrictlyRanked m) (hs : ∀ c ∈ l, c.IsScored) (h : ∀ c, c ∈ l ↔ c ∈ m) : l = m := by
  have hsm : ∀ c ∈ m, c.IsScored := fun c hc => hs c ((h c).2 hc)
  exact hl.eq_of_perm hm hs ((List.perm_ext_iff_of_nodup (hl.nodup hs) (hm.nodup hsm)).2 h)

/-- Sorting ranks, and candidates with different terms strictly. -/
theorem isStrictlyRanked_sortDescending {l : List (Candidate ω)} (hs : ∀ c ∈ l, c.IsScored)
    (ht : (l.map (·.term)).Nodup) :
    IsStrictlyRanked (Order.sortDescending Candidate.before l) := by
  have hp := Order.sortDescending_perm Candidate.before l
  have hranked : IsRanked (Order.sortDescending Candidate.before l) :=
    isRanked_reverse (Order.isSorted_sort Candidate.isWeakOrder_before
      fun c hc => hs c (List.mem_reverse.1 hc))
  exact hranked.isStrictlyRanked (fun c hc => hs c (hp.mem_iff.1 hc))
    ((hp.map _).nodup_iff.2 ht)

theorem exists_isRanked_perm (l : List (Candidate ω)) (hs : ∀ c ∈ l, c.IsScored) :
    ∃ r, r.Perm l ∧ IsRanked r :=
  ⟨Order.sortDescending Candidate.before l, Order.sortDescending_perm _ _,
    isRanked_reverse (Order.isSorted_sort Candidate.isWeakOrder_before
      fun c hc => hs c (List.mem_reverse.1 hc))⟩

namespace Shortlist

/-- Of the candidates offered so far, the ones that `s` does not hold are no better than the ones
it holds, and there are such ones only if it is full. -/
structure HasBest (s : Shortlist ω) (offered passed : List (Candidate ω)) : Prop where
  valid : s.IsValid
  perm : (s.heap.toList ++ passed).Perm offered
  passed_le : ∀ a ∈ passed, ∀ b ∈ s.heap, a.rank ≤ b.rank
  full : passed ≠ [] → s.size = s.capacity

variable {s : Shortlist ω} {offered passed : List (Candidate ω)}

theorem hasBest_ofCapacity (n : Int) : (ofCapacity n : Shortlist ω).HasBest [] [] where
  valid := isValid_ofCapacity n
  perm := List.Perm.refl _
  passed_le := by simp
  full := by simp

theorem HasBest.offer (h : s.HasBest offered passed) {c : Candidate ω} (hc : c.IsScored) :
    ∃ passed, (s.offer c).2.HasBest (c :: offered) passed := by
  have hvalid := h.valid.offer hc
  have hcap := s.capacity_offer c
  have hle := h.valid.size_le
  rcases h.valid.offer_cases hc with ⟨hroom, -, hp⟩ | ⟨hfull, w, hw, hlt, -, hp⟩ |
    ⟨hfull, hworst, hkept⟩
  · have hnil : passed = [] := by
      by_contra hne
      exact absurd (h.full hne) hroom.ne
    subst hnil
    have hoffered := h.perm
    rw [List.append_nil] at hoffered
    have hall : ((s.offer c).2.heap.toList ++ []).Perm (c :: offered) := by
      rw [List.append_nil]
      exact hp.trans (hoffered.cons c)
    exact ⟨[], hvalid, hall, by simp, by simp⟩
  · have hwle := h.valid.worst_le hw
    have hheld : ∀ b ∈ (s.offer c).2.heap, w.rank ≤ b.rank := by
      intro b hb
      have hmem := hp.mem_iff.1 (List.mem_cons_of_mem w (Array.mem_toList_iff.2 hb))
      rcases List.mem_cons.1 hmem with rfl | hmem
      · exact hlt.le
      · exact hwle b (Array.mem_toList_iff.1 hmem)
    have hall : ((s.offer c).2.heap.toList ++ w :: passed).Perm (c :: offered) :=
      List.perm_middle.trans ((hp.append_right passed).trans (h.perm.cons c))
    have hpassed : ∀ a ∈ w :: passed, ∀ b ∈ (s.offer c).2.heap, a.rank ≤ b.rank := by
      intro a ha b hb
      rcases List.mem_cons.1 ha with rfl | ha
      · exact hheld b hb
      · exact (h.passed_le a ha w (mem_of_worst? hw)).trans (hheld b hb)
    have hsize : (s.offer c).2.size = (s.offer c).2.capacity := by
      have hlen := hp.length_eq
      simp only [List.length_cons, Array.length_toList, size] at hlen hfull ⊢
      omega
    exact ⟨w :: passed, hvalid, hall, hpassed, fun _ => hsize⟩
  · rw [hkept]
    have hall : (s.heap.toList ++ c :: passed).Perm (c :: offered) :=
      List.perm_middle.trans (h.perm.cons c)
    have hpassed : ∀ a ∈ c :: passed, ∀ b ∈ s.heap, a.rank ≤ b.rank := by
      intro a ha b hb
      rcases List.mem_cons.1 ha with rfl | ha
      · cases hw : s.worst? with
        | none =>
          have hsize : s.size ≤ 0 := Array.getElem?_eq_none_iff.1 hw
          rw [Array.size_eq_zero_iff.1 (Nat.le_zero.1 hsize)] at hb
          exact absurd hb (Array.not_mem_empty b)
        | some w => exact (hworst w hw).trans (h.valid.worst_le hw b hb)
      · exact h.passed_le a ha b hb
    exact ⟨c :: passed, h.valid, hall, hpassed, fun _ => le_antisymm hle hfull⟩

theorem HasBest.offerAll (h : s.HasBest offered passed) {cs : List (Candidate ω)}
    (hs : ∀ c ∈ cs, c.IsScored) :
    ∃ passed, (s.offerAll cs).HasBest (cs.reverse ++ offered) passed := by
  induction cs generalizing s offered passed with
  | nil => exact ⟨passed, h⟩
  | cons c cs ih =>
    obtain ⟨passed, hc⟩ := h.offer (hs c List.mem_cons_self)
    have hcs := ih hc fun a ha => hs a (List.mem_cons_of_mem _ ha)
    rwa [List.reverse_cons, List.append_assoc]

/-- Offered in any order, the best of a row are drained in their ranking. -/
theorem drain_offerAll (n : Int) {cs : List (Candidate ω)} (hs : ∀ c ∈ cs, c.IsScored) :
    ∃ r, r.Perm cs ∧ IsRanked r ∧ ((ofCapacity n).offerAll cs).drain.1 = r.take n.toNat := by
  obtain ⟨passed, h⟩ := (hasBest_ofCapacity n).offerAll hs
  have hcap := capacity_offerAll (ofCapacity n) cs
  generalize (ofCapacity n).offerAll cs = s at h hcap
  obtain ⟨hdrain, hranked⟩ := drain_perm h.valid
  have hall : (s.heap.toList ++ passed).Perm cs := by
    have hp := h.perm
    rw [List.append_nil] at hp
    exact hp.trans cs.reverse_perm
  obtain ⟨rest, hrest, hrestRanked⟩ := exists_isRanked_perm passed fun c hc =>
    hs c (hall.mem_iff.1 (List.mem_append_right _ hc))
  have hrow : IsRanked (s.drain.1 ++ rest) := by
    apply List.pairwise_append.2
    constructor
    · exact hranked
    constructor
    · exact hrestRanked
    · intro a ha b hb
      exact h.passed_le b (hrest.mem_iff.1 hb) a (Array.mem_toList_iff.1 (hdrain.mem_iff.1 ha))
  have hfront : s.drain.1 = (s.drain.1 ++ rest).take n.toNat := by
    have hlen : s.drain.1.length = s.size := by
      rw [hdrain.length_eq, Array.length_toList, size]
    have hn : s.capacity = n.toNat := hcap
    by_cases hnil : passed = []
    · rw [hnil] at hrest
      rw [hrest.eq_nil, List.append_nil, List.take_of_length_le]
      rw [hlen, ← hn]
      exact h.valid.size_le
    · rw [List.take_left']
      rw [hlen, h.full hnil, hn]
  exact ⟨s.drain.1 ++ rest, (hdrain.append hrest).trans hall, hrow, hfront⟩

theorem drain_offerAll_of_room {n : Int} {cs : List (Candidate ω)} (hroom : cs.length ≤ n)
    (hs : ∀ c ∈ cs, c.IsScored) :
    ∃ r, r.Perm cs ∧ IsRanked r ∧ ((ofCapacity n).offerAll cs).drain.1 = r := by
  obtain ⟨r, hr, hranked, hdrain⟩ := drain_offerAll n hs
  have hall : r.take n.toNat = r := by
    apply List.take_of_length_le
    rw [hr.length_eq]
    omega
  exact ⟨r, hr, hranked, hdrain.trans hall⟩

/-- The order of the offers does not show in what is drained, if all terms are different. -/
theorem drain_offerAll_congr (n : Int) {cs ds : List (Candidate ω)} (hp : cs.Perm ds)
    (hs : ∀ c ∈ cs, c.IsScored) (ht : (cs.map (·.term)).Nodup) :
    ((ofCapacity n).offerAll cs).drain.1 = ((ofCapacity n).offerAll ds).drain.1 := by
  obtain ⟨r, hr, hranked, hdrain⟩ := drain_offerAll n hs
  obtain ⟨r', hr', hranked', hdrain'⟩ := drain_offerAll n fun c hc => hs c (hp.mem_iff.2 hc)
  have hs' : ∀ c ∈ r, c.IsScored := fun c hc => hs c (hr.mem_iff.1 hc)
  have hperm : r.Perm r' := hr.trans (hp.trans hr'.symm)
  have hnodup : (r.map (·.term)).Nodup := (hr.map _).nodup_iff.2 ht
  have hstrict := hranked.isStrictlyRanked hs' hnodup
  have hstrict' := hranked'.isStrictlyRanked (fun c hc => hs' c (hperm.mem_iff.2 hc))
    ((hperm.map _).nodup_iff.1 hnodup)
  rw [hdrain, hdrain', hstrict.eq_of_perm hstrict' hs' hperm]

end Shortlist
end TermMining
