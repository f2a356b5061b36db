import TermMining.Proofs.Shortlist

/-! What goes into a shortlist and comes out of it, whatever the scores are, be they no numbers. -/
namespace TermMining.Shortlist

variable {ω : Type} [Weight ω]

omit [Weight ω] in
theorem worst?_eq_head? (s : Shortlist ω) : s.worst? = s.heap.toList.head? := by
  rw [List.head?_eq_getElem?, Array.getElem?_toList]
  rfl

theorem offer_of_full {s : Shortlist ω} {c : Candidate ω} (hfull : s.capacity ≤ s.size)
    (hworst : ∀ w, s.worst? = some w → c.outranks w = false) : s.offer c = (false, s) := by
  rcases s.offer_cases c with ⟨hroom, -, -⟩ | ⟨-, w, hw, hout, -, -⟩ | ⟨-, -, hkept⟩
  · exact absurd hroom (Nat.not_lt.2 hfull)
  · rw [hworst w hw] at hout
    cases hout
  · exact hkept

theorem size_offer (s : Shortlist ω) (c : Candidate ω) :
    (s.offer c).2.size = max s.size (min s.capacity (s.size + 1)) := by
  rcases s.offer_cases c with ⟨hroom, -, hp⟩ | ⟨hfull, w, -, -, -, hp⟩ | ⟨hfull, -, hkept⟩
  · have hlen : (s.offer c).2.size = s.size + 1 := hp.length_eq
    omega
  · have hlen : (s.offer c).2.size + 1 = s.size + 1 := hp.length_eq
    omega
  · rw [hkept]
    change s.size = _
    omega

theorem size_offerAll (s : Shortlist ω) (cs : List (Candidate ω)) :
    (s.offerAll cs).size = max s.size (min s.capacity (s.size + cs.length)) := by
  induction cs generalizing s with
  | nil =>
    change s.size = _
    rw [List.length_nil]
    omega
  | cons c cs ih =>
    change ((s.offer c).2.offerAll cs).size = _
    rw [ih, capacity_offer, size_offer, List.length_cons]
    omega

theorem size_offerAll_ofCapacity (n : Int) (cs : List (Candidate ω)) :
    ((ofCapacity n).offerAll cs).size = min n.toNat cs.length := by
  have hsize := size_offerAll (ofCapacity n) cs
  have hnone : (ofCapacity n : Shortlist ω).size = 0 := rfl
  have hcap : (ofCapacity n : Shortlist ω).capacity = n.toNat := rfl
  omega

theorem offerAll_append (s : Shortlist ω) (cs ds : List (Candidate ω)) :
    s.offerAll (cs ++ ds) = (s.offerAll cs).offerAll ds := List.foldl_append

theorem mem_of_mem_offer {s : Shortlist ω} {a c : Candidate ω} (ha : a ∈ (s.offer c).2.heap) :
    a = c ∨ a ∈ s.heap := by
  rw [← Array.mem_toList_iff] at ha
  rcases s.offer_cases c with ⟨-, -, hp⟩ | ⟨-, w, -, -, -, hp⟩ | ⟨-, -, hkept⟩
  · simpa using hp.mem_iff.1 ha
  · simpa using hp.mem_iff.1 (List.mem_cons_of_mem w ha)
  · rw [hkept] at ha
    exact Or.inr (Array.mem_toList_iff.1 ha)

theorem mem_of_mem_offerAll {s : Shortlist ω} {a : Candidate ω} {cs : List (Candidate ω)}
    (ha : a ∈ (s.offerAll cs).heap) : a ∈ cs ∨ a ∈ s.heap := by
  induction cs generalizing s with
  | nil => exact Or.inr ha
  | cons c cs ih =>
    rcases ih ha with hcs | hs
    · exact Or.inl (List.mem_cons_of_mem c hcs)
    · rcases mem_of_mem_offer hs with rfl | hs
      · exact Or.inl List.mem_cons_self
      · exact Or.inr hs

theorem pop_perm_cases (s : Shortlist ω) :
    (s.size = 0 ∧ s.pop.1 = none) ∨
    ∃ b, s.pop.1 = some b ∧ (b :: s.pop.2.heap.toList).Perm s.heap.toList := by
  have hp := s.arranged_perm
  rcases s.pop_cases with ⟨hnil, hnone, -⟩ | ⟨front, b, hfront, hb, hrest⟩
  · rw [hnil] at hp
    exact Or.inl ⟨hp.length_eq.symm, hnone⟩
  · rw [hfront] at hp
    rw [hrest]
    exact Or.inr ⟨b, hb, (List.perm_append_singleton b front).symm.trans hp⟩

theorem popMany_perm (s : Shortlist ω) (n : Nat) :
    ((s.popMany n).1 ++ (s.popMany n).2.heap.toList).Perm s.heap.toList := by
  induction n generalizing s with
  | zero => exact List.Perm.refl _
  | succ n ih =>
    rcases s.pop_perm_cases with ⟨-, hnone⟩ | ⟨b, hb, hp⟩
    · rw [popMany_of_pop_none hnone]
      exact List.Perm.refl _
    · rw [popMany_of_pop_some hb]
      exact ((ih s.pop.2).cons b).trans hp

theorem mem_of_mem_drain {s : Shortlist ω} {a : Candidate ω} (ha : a ∈ s.drain.1) : a ∈ s.heap :=
  Array.mem_toList_iff.1 ((s.popMany_perm s.size).mem_iff.1 (List.mem_append_left _ ha))

/-- Asking for more than there is takes out what there is. -/
theorem popMany_eq_drain {s : Shortlist ω} {n : Nat} (h : s.size ≤ n) : s.popMany n = s.drain := by
  unfold drain
  induction n generalizing s with
  | zero => rw [Nat.le_zero.1 h]
  | succ n ih =>
    rcases s.pop_perm_cases with ⟨hzero, hnone⟩ | ⟨b, hb, hp⟩
    · rw [hzero, popMany_of_pop_none hnone, popMany]
    · have hsize : s.size = s.pop.2.size + 1 := by
        have hlen := hp.length_eq
        simp only [List.length_cons, Array.length_toList] at hlen
        exact hlen.symm
      rw [hsize, popMany_of_pop_some hb, popMany_of_pop_some hb, ih (by omega)]

theorem popMany_eq_take (s : Shortlist ω) (n : Nat) :
    (s.popMany n).1 = s.arranged.heap.toList.reverse.take n := by
  induction n generalizing s with
  | zero => rfl
  | succ n ih =>
    rcases s.pop_cases with ⟨hnil, hnone, -⟩ | ⟨front, b, hfront, hb, hrest⟩
    · rw [popMany_of_pop_none hnone, hnil, List.reverse_nil, List.take_nil]
    · have hsorted : s.pop.2.arranged = s.pop.2 := if_pos s.sorted_arranged
      rw [popMany_of_pop_some hb, ih, hsorted, hrest, hfront, List.reverse_concat,
        List.take_succ_cons]

theorem drain_eq_reverse (s : Shortlist ω) : s.drain.1 = s.arranged.heap.toList.reverse := by
  have hlen := s.arranged_perm.length_eq
  unfold drain
  rw [popMany_eq_take]
  apply List.take_of_length_le
  rw [List.length_reverse, hlen]
  exact le_rfl

theorem heap_drain (s : Shortlist ω) : s.drain.2.heap = #[] := by
  have hall : s.drain.1.length + s.drain.2.heap.size = s.size := by
    have hlen := (s.popMany_perm s.size).length_eq
    rwa [List.length_append, Array.length_toList, Array.length_toList] at hlen
  have hout : s.drain.1.length = s.size := by
    rw [drain_eq_reverse, List.length_reverse, s.arranged_perm.length_eq]
    rfl
  exact Array.size_eq_zero_iff.1 (by omega)

theorem drain_perm_heap (s : Shortlist ω) : s.drain.1.Perm s.heap.toList := by
  have hp := s.popMany_perm s.size
  change (s.drain.1 ++ s.drain.2.heap.toList).Perm _ at hp
  rwa [heap_drain, List.append_nil] at hp

theorem offerAll_perm {s : Shortlist ω} {cs : List (Candidate ω)}
    (hroom : s.size + cs.length ≤ s.capacity) :
    (s.offerAll cs).heap.toList.Perm (cs ++ s.heap.toList) := by
  induction cs generalizing s with
  | nil => exact List.Perm.refl _
  | cons c cs ih =>
    rw [List.length_cons] at hroom
    rcases s.offer_cases c with ⟨-, -, hp⟩ | ⟨hfull, -⟩ | ⟨hfull, -⟩
    · have hlen : (s.offer c).2.size = s.size + 1 := hp.length_eq
      have hrest := ih (s := (s.offer c).2) (by rw [capacity_offer]; omega)
      exact hrest.trans ((hp.append_left cs).trans List.perm_middle)
    · omega
    · omega

theorem drain_offerAll_of_nonpos {n : Int} (hn : n ≤ 0) (cs : List (Candidate ω)) :
    ((ofCapacity n).offerAll cs).drain.1 = [] := by
  have hsize := size_offerAll_ofCapacity n cs
  unfold drain
  rw [hsize, Int.toNat_of_nonpos hn, Nat.zero_min]
  rfl

end TermMining.Shortlist
