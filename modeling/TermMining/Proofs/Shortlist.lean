import TermMining.Proofs.Heap
import TermMining.Proofs.Rank
import TermMining.Order.Sort.Sorted
import TermMining.Shortlist

/-! What the operations of a shortlist do to the candidates it holds. Each keeps the heap a heap of
ranks, and its answer is the best or the worst of what is held. -/
namespace TermMining

variable {ω : Type}

theorem Shortlist.mem_of_worst? {s : Shortlist ω} {w : Candidate ω} (hw : s.worst? = some w) :
    w ∈ s.heap := by
  obtain ⟨hpos, rfl⟩ := Array.getElem?_eq_some_iff.1 hw
  exact Array.getElem_mem hpos

variable [Weight ω]

namespace Shortlist

theorem capacity_offer (s : Shortlist ω) (c : Candidate ω) :
    (s.offer c).2.capacity = s.capacity := by
  unfold offer
  split
  · rfl
  · split <;> rfl

theorem capacity_offerAll (s : Shortlist ω) (cs : List (Candidate ω)) :
    (s.offerAll cs).capacity = s.capacity := by
  induction cs generalizing s with
  | nil => rfl
  | cons c cs ih => exact (ih _).trans (s.capacity_offer c)

theorem capacity_arranged (s : Shortlist ω) : s.arranged.capacity = s.capacity := by
  unfold arranged
  split <;> rfl

theorem arranged_perm (s : Shortlist ω) : s.arranged.heap.toList.Perm s.heap.toList := by
  unfold arranged
  split
  · exact List.Perm.refl _
  · exact Order.sort_perm _ _

theorem sorted_arranged (s : Shortlist ω) : s.arranged.sorted = true := by
  unfold arranged
  split
  · assumption
  · rfl

theorem toList_perm (s : Shortlist ω) : s.toList.Perm s.heap.toList :=
  Order.sortDescending_perm _ _

theorem offer_cases (s : Shortlist ω) (c : Candidate ω) :
    (s.size < s.capacity ∧ (s.offer c).1 = true ∧
      ((s.offer c).2.heap.toList).Perm (c :: s.heap.toList)) ∨
    (s.capacity ≤ s.size ∧ ∃ w, s.worst? = some w ∧ c.outranks w = true ∧ (s.offer c).1 = true ∧
      (w :: (s.offer c).2.heap.toList).Perm (c :: s.heap.toList)) ∨
    (s.capacity ≤ s.size ∧ (∀ w, s.worst? = some w → c.outranks w = false) ∧
      s.offer c = (false, s)) := by
  by_cases hroom : s.heap.size < s.capacity
  · have hoff : s.offer c =
        (true, { s with heap := Order.Heap.push Candidate.before s.heap c, sorted := false }) :=
      if_pos hroom
    left
    rw [hoff]
    exact ⟨hroom, rfl, Order.Heap.push_perm _ _ _⟩
  · have hfull : s.capacity ≤ s.size := Nat.not_lt.1 hroom
    right
    cases hw : s.worst? with
    | none =>
      have hoff : s.offer c = (false, s) := by simp [offer, hroom, hw]
      exact Or.inr ⟨hfull, by simp, hoff⟩
    | some w =>
      obtain ⟨hpos, hw0⟩ := Array.getElem?_eq_some_iff.1 hw
      cases hout : c.outranks w with
      | true =>
        have hoff : s.offer c =
            (true, { s with
              heap := Order.Heap.replaceFirst Candidate.before s.heap c, sorted := false }) := by
          simp [offer, hroom, hw, hout]
        have hp := Order.Heap.replaceFirst_perm Candidate.before hpos c
        rw [hw0] at hp
        left
        rw [hoff]
        exact ⟨hfull, w, rfl, hout, rfl, hp⟩
      | false =>
        have hoff : s.offer c = (false, s) := by simp [offer, hroom, hw, hout]
        have hworst : ∀ v, some w = some v → c.outranks v = false := by
          intro v hv
          rwa [← Option.some.inj hv]
        exact Or.inr ⟨hfull, hworst, hoff⟩

theorem pop_cases (s : Shortlist ω) :
    (s.arranged.heap.toList = [] ∧ s.pop.1 = none ∧ s.pop.2.heap.toList = []) ∨
    ∃ front b, s.arranged.heap.toList = front ++ [b] ∧ s.pop.1 = some b ∧
      s.pop.2.heap.toList = front := by
  have hpop : s.pop = (s.arranged.heap.back?, { s.arranged with heap := s.arranged.heap.pop }) :=
    rfl
  rw [hpop]
  dsimp only
  cases hb : s.arranged.heap.back? with
  | none =>
    have hnil : s.arranged.heap = #[] := by simpa using hb
    rw [hnil]
    exact Or.inl ⟨rfl, rfl, rfl⟩
  | some b =>
    have hlast : s.arranged.heap.toList.getLast? = some b := by simpa using hb
    obtain ⟨front, hfront⟩ := List.getLast?_eq_some_iff.1 hlast
    rw [Array.toList_pop, hfront, List.dropLast_concat]
    exact Or.inr ⟨front, b, rfl, rfl, rfl⟩

theorem popMany_of_pop_none {s : Shortlist ω} (h : s.pop.1 = none) (n : Nat) :
    s.popMany (n + 1) = ([], s) := by
  rw [popMany]
  split
  · rfl
  · next hsome => simp [hsome] at h

theorem popMany_of_pop_some {s : Shortlist ω} {b : Candidate ω} (h : s.pop.1 = some b) (n : Nat) :
    s.popMany (n + 1) = (b :: (s.pop.2.popMany n).1, (s.pop.2.popMany n).2) := by
  rw [popMany]
  split
  · next hnone => simp [hnone] at h
  · next c rest hsome =>
    rw [hsome] at h ⊢
    rw [Option.some.inj h]

end Shortlist

variable [PlacedWeight ω]

/-- Best first; candidates that rank alike may stand either way round. -/
def IsRanked (l : List (Candidate ω)) : Prop := l.Pairwise fun a b => b.rank ≤ a.rank

theorem isRanked_reverse {l : List (Candidate ω)}
    (h : Order.IsSorted Candidate.before Candidate.IsScored l) : IsRanked l.reverse := by
  apply List.pairwise_reverse.2
  apply h.pairwise.imp_of_mem
  intro a b ha hb hab
  exact (Candidate.before_eq_false_iff (h.mem b hb) (h.mem a ha)).1 hab

/-- A ranked row is determined by what it ranks, up to candidates that rank alike. -/
theorem IsRanked.map_rank_eq {l₁ l₂ : List (Candidate ω)} (h₁ : IsRanked l₁) (h₂ : IsRanked l₂)
    (hp : (l₁.map Candidate.rank).Perm (l₂.map Candidate.rank)) :
    l₁.map Candidate.rank = l₂.map Candidate.rank := by
  have h₁ : (l₁.map Candidate.rank).Pairwise fun a b => b ≤ a := List.pairwise_map.2 h₁
  have h₂ : (l₂.map Candidate.rank).Pairwise fun a b => b ≤ a := List.pairwise_map.2 h₂
  exact List.Perm.eq_of_pairwise (fun a b _ _ hab hba => le_antisymm hba hab) h₁ h₂ hp

namespace Shortlist

structure IsValid (s : Shortlist ω) : Prop where
  scored : ∀ c ∈ s.heap, c.IsScored
  heap : Order.Heap.IsHeap Candidate.before s.heap.toVector
  sorted : s.sorted = true → Order.IsSorted Candidate.before Candidate.IsScored s.heap.toList
  size_le : s.heap.size ≤ s.capacity

theorem isValid_ofCapacity (n : Int) : (ofCapacity n : Shortlist ω).IsValid := by
  constructor
  · intro c hc
    simp [ofCapacity] at hc
  · intro i hi
    simp [ofCapacity] at hi
  · exact fun _ => ⟨by simp [ofCapacity], by simp [ofCapacity]⟩
  · simp [ofCapacity]

variable {s : Shortlist ω}

theorem IsValid.worst_le (h : s.IsValid) {w : Candidate ω} (hw : s.worst? = some w) :
    ∀ c ∈ s.heap, w.rank ≤ c.rank := by
  intro c hc
  obtain ⟨hpos, rfl⟩ := Array.getElem?_eq_some_iff.1 hw
  obtain ⟨i, hi, rfl⟩ := Array.mem_iff_getElem.1 hc
  have hS : ∀ x ∈ s.heap.toVector, x.IsScored := fun x hx => h.scored x (by simpa using hx)
  have hb := h.heap.first_least Candidate.isWeakOrder_before hS i hi
  exact (Candidate.before_eq_false_iff (h.scored _ hc) (h.scored _ (by simp))).1 hb

theorem IsValid.offer_cases (h : s.IsValid) {c : Candidate ω} (hc : c.IsScored) :
    (s.size < s.capacity ∧ (s.offer c).1 = true ∧
      ((s.offer c).2.heap.toList).Perm (c :: s.heap.toList)) ∨
    (s.capacity ≤ s.size ∧ ∃ w, s.worst? = some w ∧ w.rank < c.rank ∧ (s.offer c).1 = true ∧
      (w :: (s.offer c).2.heap.toList).Perm (c :: s.heap.toList)) ∨
    (s.capacity ≤ s.size ∧ (∀ w, s.worst? = some w → c.rank ≤ w.rank) ∧
      s.offer c = (false, s)) := by
  rcases s.offer_cases c with hroom | ⟨hfull, w, hw, hout, htaken, hp⟩ | ⟨hfull, hworst, hkept⟩
  · exact Or.inl hroom
  · have hlt := ((Candidate.outranks_iff hc).1 hout).2
    exact Or.inr (Or.inl ⟨hfull, w, hw, hlt, htaken, hp⟩)
  · have hle : ∀ w, s.worst? = some w → c.rank ≤ w.rank := by
      intro w hw
      have hout := hworst w hw
      rw [Bool.eq_false_iff, Ne, Candidate.outranks_iff hc] at hout
      exact not_lt.1 fun hlt => hout ⟨h.scored w (mem_of_worst? hw), hlt⟩
    exact Or.inr (Or.inr ⟨hfull, hle, hkept⟩)

theorem IsValid.of_heap (h : s.IsValid) {c : Candidate ω} (hc : c.IsScored)
    {heap : Array (Candidate ω)} (hmem : ∀ a ∈ heap.toList, a ∈ c :: s.heap.toList)
    (hheap : Order.Heap.IsHeap Candidate.before heap.toVector) (hle : heap.size ≤ s.capacity) :
    ({ s with heap, sorted := false } : Shortlist ω).IsValid := by
  constructor
  · intro a ha
    rcases List.mem_cons.1 (hmem a (Array.mem_toList_iff.2 ha)) with rfl | ha
    · exact hc
    · exact h.scored a (Array.mem_toList_iff.1 ha)
  · exact hheap
  · intro hs
    cases hs
  · exact hle

theorem IsValid.offer (h : s.IsValid) {c : Candidate ω} (hc : c.IsScored) :
    (s.offer c).2.IsValid := by
  have ho := (Candidate.isWeakOrder_before :
    Order.IsWeakOrder (Candidate.before : Candidate ω → Candidate ω → Bool) _)
  unfold Shortlist.offer
  split
  · next hroom =>
    have hp := Order.Heap.push_perm Candidate.before s.heap c
    have hsize : (Order.Heap.push Candidate.before s.heap c).size ≤ s.capacity := by
      have hlen := hp.length_eq
      simp only [Array.length_toList, List.length_cons] at hlen
      omega
    exact h.of_heap hc (fun a ha => hp.mem_iff.1 ha)
      (Order.Heap.isHeap_push ho h.scored hc h.heap) hsize
  · split
    · next hany =>
      have hpos : 0 < s.heap.size := by
        by_contra hz
        simp [worst?, Nat.eq_zero_of_not_pos hz] at hany
      have hp := Order.Heap.replaceFirst_perm Candidate.before hpos c
      have hsize : (Order.Heap.replaceFirst Candidate.before s.heap c).size ≤ s.capacity := by
        have hlen := hp.length_eq
        have hle := h.size_le
        simp only [Array.length_toList, List.length_cons] at hlen
        omega
      exact h.of_heap hc (fun a ha => hp.mem_iff.1 (List.mem_cons_of_mem _ ha))
        (Order.Heap.isHeap_replaceFirst ho hpos h.scored hc h.heap) hsize
    · exact h

theorem IsValid.isSorted_arranged (h : s.IsValid) :
    Order.IsSorted Candidate.before Candidate.IsScored s.arranged.heap.toList := by
  unfold arranged
  split
  · next hs => exact h.sorted hs
  · exact Order.isSorted_sort Candidate.isWeakOrder_before fun c hc =>
      h.scored c (Array.mem_toList_iff.1 hc)

theorem isValid_of_isSorted (hs : Order.IsSorted Candidate.before Candidate.IsScored s.heap.toList)
    (hle : s.heap.size ≤ s.capacity) : s.IsValid where
  scored c hc := hs.mem c (Array.mem_toList_iff.2 hc)
  heap := Order.Heap.isHeap_of_isSorted hs
  sorted _ := hs
  size_le := hle

/-- The best candidate goes out and the others stay. Nothing goes out of an empty shortlist. -/
theorem IsValid.pop_cases (h : s.IsValid) :
    (s.heap.toList = [] ∧ s.pop.1 = none ∧ s.pop.2.heap.toList = []) ∨
    ∃ b, s.pop.1 = some b ∧ (b :: s.pop.2.heap.toList).Perm s.heap.toList ∧
      ∀ c ∈ s.heap, c.rank ≤ b.rank := by
  have hp := s.arranged_perm
  have hs := h.isSorted_arranged
  rcases s.pop_cases with ⟨hnil, hnone, hrest⟩ | ⟨front, b, hfront, hb, hrest⟩
  · rw [hnil] at hp
    exact Or.inl ⟨hp.symm.eq_nil, hnone, hrest⟩
  · rw [hfront] at hp hs
    have hbest : ∀ c ∈ s.heap, c.rank ≤ b.rank := by
      intro c hc
      have hc : c ∈ front ++ [b] := hp.mem_iff.2 (Array.mem_toList_iff.2 hc)
      have hlast : (front ++ [b]).getLast? = some b := List.getLast?_concat
      have hbefore := hs.forall_of_getLast Candidate.isWeakOrder_before hlast c hc
      exact (Candidate.before_eq_false_iff (hs.mem b (by simp)) (hs.mem c hc)).1 hbefore
    rw [hrest]
    exact Or.inr ⟨b, hb, (List.perm_append_singleton b front).symm.trans hp, hbest⟩

theorem IsValid.pop (h : s.IsValid) : s.pop.2.IsValid := by
  have hs := h.isSorted_arranged
  have hlen := s.arranged_perm.length_eq
  have hle := h.size_le
  apply isValid_of_isSorted
  · change Order.IsSorted _ _ s.arranged.heap.pop.toList
    rw [Array.toList_pop]
    exact hs.sublist (List.dropLast_sublist _)
  · change s.arranged.heap.pop.size ≤ s.arranged.capacity
    simp only [Array.length_toList, Array.size_pop, capacity_arranged] at hlen ⊢
    omega

/-- The `n` best candidates of `s`, or all if there are fewer, went out and left `rest`. -/
structure TakesOut (s : Shortlist ω) (n : Nat) (best : List (Candidate ω))
    (rest : Shortlist ω) : Prop where
  perm : (best ++ rest.heap.toList).Perm s.heap.toList
  ranked : IsRanked best
  rest_le : ∀ a ∈ best, ∀ b ∈ rest.heap, b.rank ≤ a.rank
  length : best.length = min n s.size
  valid : rest.IsValid
  capacity : rest.capacity = s.capacity

theorem takesOut_popMany (h : s.IsValid) (n : Nat) :
    s.TakesOut n (s.popMany n).1 (s.popMany n).2 := by
  induction n generalizing s with
  | zero =>
    exact ⟨List.Perm.refl _, List.Pairwise.nil, by simp [popMany], by simp [popMany], h, rfl⟩
  | succ n ih =>
    have hcap : s.pop.2.capacity = s.capacity := s.capacity_arranged
    rcases h.pop_cases with ⟨hnil, hnone, -⟩ | ⟨b, hb, hp, hle⟩
    · have hsize : s.size = 0 := by simpa [size] using congrArg List.length hnil
      rw [popMany_of_pop_none hnone]
      exact ⟨List.Perm.refl _, List.Pairwise.nil, by simp, by simp [hsize], h, rfl⟩
    · have ht := ih h.pop
      have hbest : ∀ c ∈ s.pop.2.heap.toList, c.rank ≤ b.rank := fun c hc =>
        hle c (Array.mem_toList_iff.1 (hp.mem_iff.1 (List.mem_cons_of_mem _ hc)))
      rw [popMany_of_pop_some hb]
      constructor
      · exact (ht.perm.cons b).trans hp
      · apply List.pairwise_cons.2
        constructor
        · exact fun c hc => hbest c (ht.perm.mem_iff.1 (List.mem_append_left _ hc))
        · exact ht.ranked
      · intro a ha c hc
        rcases List.mem_cons.1 ha with rfl | ha
        · exact hbest c (ht.perm.mem_iff.1 (List.mem_append_right _ (Array.mem_toList_iff.2 hc)))
        · exact ht.rest_le a ha c hc
      · have hlen := hp.length_eq
        have hl := ht.length
        simp only [List.length_cons, Array.length_toList, size] at hlen hl ⊢
        omega
      · exact ht.valid
      · exact ht.capacity.trans hcap

theorem drain_perm (h : s.IsValid) : s.drain.1.Perm s.heap.toList ∧ IsRanked s.drain.1 := by
  have ht := takesOut_popMany h s.size
  have hlen := ht.perm.length_eq
  have hl := ht.length
  have hrest : (s.popMany s.size).2.heap.toList = [] := by
    rw [← List.length_eq_zero_iff]
    simp only [List.length_append, Array.length_toList, size] at hlen hl ⊢
    omega
  have hp := ht.perm
  rw [hrest, List.append_nil] at hp
  exact ⟨hp, ht.ranked⟩

theorem isRanked_toList (h : s.IsValid) : IsRanked s.toList := by
  have hs := Order.isSorted_sort (l := s.heap.toList.reverse) Candidate.isWeakOrder_before
    fun c hc => h.scored c (by simpa using hc)
  exact isRanked_reverse hs

end Shortlist
end TermMining
