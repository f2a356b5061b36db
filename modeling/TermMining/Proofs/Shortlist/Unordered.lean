import Mathlib.Data.List.Sort
import TermMining.Proofs.Shortlist.Holdings
import TermMining.Proofs.Shortlist.Offers

/-! Offers whose scores are not all numbers. A candidate with such a score outranks no other and is
outranked by none, so it keeps the place that the order of the offers gave it. -/
namespace TermMining

variable {ω : Type} [Weight ω] [PlacedWeight ω]

open PlacedWeight

namespace Candidate

variable {a b : Candidate ω}

theorem outranks_eq_false_of_not_isScored_left (h : ¬a.IsScored) (b : Candidate ω) :
    a.outranks b = false := by
  have hbot : place a.score = ⊥ := not_not.1 h
  have hsame : Weight.same a.score b.score ≠ true := fun hs => h ((same_iff _ _).1 hs).1
  unfold outranks
  rw [if_neg hsame, Bool.eq_false_iff]
  intro hless
  have hlt := ((less_iff _ _).1 hless).2
  exact not_lt_bot (hlt.trans_eq hbot)

theorem outranks_eq_false_of_not_isScored_right (a : Candidate ω) (h : ¬b.IsScored) :
    a.outranks b = false := by
  by_cases ha : a.IsScored
  · exact Bool.eq_false_iff.2 fun hout => h ((outranks_iff ha).1 hout).1
  · exact outranks_eq_false_of_not_isScored_left ha b

theorem outranks_eq_false_of_rank_le (h : a.rank ≤ b.rank) : a.outranks b = false := by
  by_cases ha : a.IsScored
  · exact Bool.eq_false_iff.2 fun hout => not_lt.2 h ((outranks_iff ha).1 hout).2
  · exact outranks_eq_false_of_not_isScored_left ha b

end Candidate

def Ascends (l : List (Candidate ω)) : Prop := l.Pairwise fun a b => a.outranks b = false

omit [PlacedWeight ω] in
theorem Ascends.take {l : List (Candidate ω)} (h : Ascends l) (n : Nat) : Ascends (l.take n) :=
  h.sublist (List.take_sublist n l)

theorem Ascends.cons {l : List (Candidate ω)} (h : Ascends l) {x : Candidate ω}
    (hx : ¬x.IsScored) : Ascends (x :: l) :=
  List.pairwise_cons.2 ⟨fun b _ => Candidate.outranks_eq_false_of_not_isScored_left hx b, h⟩

theorem Ascends.concat {l : List (Candidate ω)} (h : Ascends l) {x : Candidate ω}
    (hx : ¬x.IsScored) : Ascends (l ++ [x]) := by
  apply List.pairwise_append.2
  refine ⟨h, List.pairwise_singleton _ _, ?_⟩
  intro a _ b hb
  rw [List.mem_singleton.1 hb]
  exact Candidate.outranks_eq_false_of_not_isScored_right a hx

/-- Any candidates can be put in an ascending row, be they scored or not. -/
theorem exists_ascends_perm (l : List (Candidate ω)) : ∃ r, r.Perm l ∧ Ascends r := by
  refine ⟨l.insertionSort fun a b => a.rank ≤ b.rank, List.perm_insertionSort _ l, ?_⟩
  have hsorted := List.pairwise_insertionSort (fun a b : Candidate ω => a.rank ≤ b.rank) l
  exact hsorted.imp Candidate.outranks_eq_false_of_rank_le

namespace Shortlist

variable {s : Shortlist ω} {c : Candidate ω} {cs : List (Candidate ω)}

section

omit [PlacedWeight ω]

/-- Offered in an ascending row, candidates line up in it as long as there is room. -/
theorem toList_offerAll_of_ascends (hroom : s.size + cs.length ≤ s.capacity)
    (h : Ascends (s.heap.toList ++ cs)) : (s.offerAll cs).heap.toList = s.heap.toList ++ cs := by
  induction cs generalizing s with
  | nil => exact (List.append_nil _).symm
  | cons c cs ih =>
    rw [List.length_cons] at hroom
    have hlast : ∀ a ∈ s.heap, c.before a = false := fun a ha =>
      (List.pairwise_append.1 h).2.2 a (Array.mem_toList_iff.2 ha) c List.mem_cons_self
    have hoffer : (s.offer c).2 = { s with heap := s.heap.push c, sorted := false } := by
      unfold offer
      rw [if_pos (show s.heap.size < s.capacity by unfold size at hroom; omega),
        Order.Heap.push_of_not_before hlast]
    have hpushed : (s.offer c).2.heap.toList = s.heap.toList ++ [c] := by
      rw [hoffer, Array.toList_push]
    have hsize : (s.offer c).2.size = s.size + 1 := by
      rw [hoffer]
      exact Array.size_push _
    have hcap := s.capacity_offer c
    have hrest := ih (s := (s.offer c).2) (by omega) (by rwa [hpushed, List.append_assoc])
    rw [hpushed, List.append_assoc] at hrest
    exact hrest

theorem drain_of_ascends (h : Ascends s.heap.toList) : s.drain.1 = s.heap.toList.reverse := by
  have harranged : s.arranged.heap.toList = s.heap.toList := by
    unfold arranged
    split
    · rfl
    · exact Order.sort_of_pairwise h
  rw [drain_eq_reverse, harranged]

end

/-- A candidate without a number for a score finds no place in a full shortlist. -/
theorem offer_of_not_isScored (hfull : s.capacity ≤ s.size) (hc : ¬c.IsScored) :
    s.offer c = (false, s) :=
  offer_of_full hfull fun w _ => Candidate.outranks_eq_false_of_not_isScored_left hc w

/-- A full shortlist with such a candidate on top takes in nothing any more. -/
theorem offerAll_of_worst_not_isScored (hfull : s.capacity ≤ s.size)
    (hworst : ∀ w, s.worst? = some w → ¬w.IsScored) (cs : List (Candidate ω)) :
    s.offerAll cs = s := by
  induction cs with
  | nil => rfl
  | cons c cs ih =>
    have hkept : s.offer c = (false, s) := offer_of_full hfull fun w hw =>
      Candidate.outranks_eq_false_of_not_isScored_right c (hworst w hw)
    change (s.offer c).2.offerAll cs = s
    rw [hkept]
    exact ih

/-- Of an ascending row the front is drained, from its end, if there is room for all or if the first
one, which stays on top, has no number for a score. -/
theorem drain_offerAll_of_ascends (n : Int) (h : Ascends cs)
    (hfirst : cs.length ≤ n.toNat ∨ ∀ a, cs.head? = some a → ¬a.IsScored) :
    ((ofCapacity n).offerAll cs).drain.1 = (cs.take n.toNat).reverse := by
  let front := (ofCapacity n : Shortlist ω).offerAll (cs.take n.toNat)
  have hfront : front.heap.toList = cs.take n.toNat := by
    apply toList_offerAll_of_ascends
    · change 0 + (cs.take n.toNat).length ≤ n.toNat
      rw [Nat.zero_add]
      exact List.length_take_le _ _
    · exact h.take _
  have hrest : (ofCapacity n).offerAll cs = front := by
    by_cases hall : cs.length ≤ n.toNat
    · exact congrArg _ (List.take_of_length_le hall).symm
    · have hsize : front.size = n.toNat := by
        rw [size, ← Array.length_toList, hfront, List.length_take]
        omega
      have hcap : front.capacity = n.toNat := capacity_offerAll _ _
      have hworst : ∀ w, front.worst? = some w → ¬w.IsScored := by
        intro w hw
        rw [worst?_eq_head?, hfront, List.head?_take] at hw
        split at hw
        · cases hw
        · exact hfirst.resolve_left hall w hw
      have hkept := offerAll_of_worst_not_isScored (hcap.trans hsize.symm).le hworst
        (cs.drop n.toNat)
      rwa [← offerAll_append, List.take_append_drop] at hkept
  rw [hrest, drain_of_ascends (hfront.symm ▸ h.take _), hfront]

/-- Offered last, a candidate without a number for a score gets in only where there is room. -/
theorem not_mem_drain_offerAll_concat {n : Int} (hfull : n.toNat ≤ cs.length) (hnew : c ∉ cs)
    (hc : ¬c.IsScored) : c ∉ ((ofCapacity n).offerAll (cs ++ [c])).drain.1 := by
  intro hmem
  have hroom : ((ofCapacity n).offerAll cs).capacity ≤ ((ofCapacity n).offerAll cs).size := by
    have hsize := size_offerAll_ofCapacity n cs
    have hcap := capacity_offerAll (ofCapacity n) cs
    have hn : (ofCapacity n : Shortlist ω).capacity = n.toNat := rfl
    omega
  have hkept : (ofCapacity n).offerAll (cs ++ [c]) = (ofCapacity n).offerAll cs := by
    rw [offerAll_append]
    exact congrArg Prod.snd (offer_of_not_isScored hroom hc)
  rw [hkept] at hmem
  rcases mem_of_mem_offerAll (mem_of_mem_drain hmem) with hmem | hmem
  · exact hnew hmem
  · exact Array.not_mem_empty c hmem

/-- Offered first, a candidate without a number for a score goes out last; offered last, it goes out
first or does not get in. -/
theorem exists_drain_offerAll_ne {n : Int} (hn : 0 < n) (hnodup : cs.Nodup) (hlen : 1 < cs.length)
    {x : Candidate ω} (hx : x ∈ cs) (hscore : ¬x.IsScored) :
    ∃ ds es, ds.Perm cs ∧ es.Perm cs ∧
      ((ofCapacity n).offerAll ds).drain.1 ≠ ((ofCapacity n).offerAll es).drain.1 := by
  obtain ⟨front, back, rfl⟩ := List.append_of_mem hx
  obtain ⟨r, hr, hascends⟩ := exists_ascends_perm (front ++ back)
  have hfirst : (x :: r).Perm (front ++ x :: back) := (hr.cons x).trans List.perm_middle.symm
  have hlast : (r ++ [x]).Perm (front ++ x :: back) :=
    (List.perm_append_singleton x r).trans hfirst
  have hnew : x ∉ r := (List.nodup_cons.1 (hfirst.nodup_iff.2 hnodup)).1
  have hhead : ∀ a, (x :: r).head? = some a → ¬a.IsScored := by
    intro a ha
    obtain rfl := Option.some.inj ha
    exact hscore
  have hdrain := drain_offerAll_of_ascends n (hascends.cons hscore) (Or.inr hhead)
  refine ⟨x :: r, r ++ [x], hfirst, hlast, ?_⟩
  rw [hdrain]
  intro heq
  by_cases hroom : (r ++ [x]).length ≤ n.toNat
  · have hroom' : (x :: r).length ≤ n.toNat :=
      (List.perm_append_singleton x r).length_eq.symm.trans_le hroom
    rw [drain_offerAll_of_ascends n (hascends.concat hscore) (Or.inl hroom),
      List.take_of_length_le hroom, List.take_of_length_le hroom'] at heq
    have heq := List.reverse_injective heq
    cases r with
    | nil => exact absurd hfirst.length_eq hlen.ne
    | cons y r => exact hnew (List.mem_cons.2 (Or.inl (List.cons.inj heq).1))
  · have hheld : x ∈ ((x :: r).take n.toNat).reverse := by
      obtain ⟨k, hk⟩ := Nat.exists_eq_succ_of_ne_zero (show n.toNat ≠ 0 by omega)
      rw [hk, List.take_succ_cons, List.mem_reverse]
      exact List.mem_cons_self
    rw [heq] at hheld
    have hfull : n.toNat ≤ r.length := by
      rw [List.length_append, List.length_singleton] at hroom
      omega
    exact not_mem_drain_offerAll_concat hfull hnew hscore hheld

/-- Given different terms, what is drained is the same for any two orders of the offers exactly if
there is no room, or nothing to order, or a number for every score. Infinite scores are numbers. -/
theorem drain_offerAll_perm_iff (n : Int) {cs : List (Candidate Float)}
    (ht : (cs.map (·.term)).Nodup) :
    (∀ ds es, ds.Perm cs → es.Perm cs →
      ((ofCapacity n).offerAll ds).drain.1 = ((ofCapacity n).offerAll es).drain.1) ↔
    n ≤ 0 ∨ cs.length ≤ 1 ∨ ∀ c ∈ cs, c.score.isNaN = false := by
  constructor
  · intro h
    by_contra hno
    obtain ⟨hn, hno⟩ := not_or.1 hno
    obtain ⟨hlen, hno⟩ := not_or.1 hno
    obtain ⟨x, hno⟩ := not_forall.1 hno
    obtain ⟨hx, hnan⟩ := Classical.not_imp.1 hno
    have hscore : ¬x.IsScored := fun hs => hnan ((Number.place_ne_bot_iff x.score).1 hs)
    obtain ⟨ds, es, hds, hes, hne⟩ := exists_drain_offerAll_ne (not_le.1 hn) (ht.of_map _)
      (not_le.1 hlen) hx hscore
    exact hne (h ds es hds hes)
  · rintro (hn | hlen | hs) ds es hds hes
    · rw [drain_offerAll_of_nonpos hn, drain_offerAll_of_nonpos hn]
    · have heq : ds = es := by
        cases cs with
        | nil => rw [hds.eq_nil, hes.eq_nil]
        | cons c cs =>
          obtain rfl : cs = [] := List.length_eq_zero_iff.1 (by simpa using hlen)
          rw [hds.eq_singleton, hes.eq_singleton]
      rw [heq]
    · have hds_scored : ∀ c ∈ ds, c.IsScored := fun c hc =>
        (Number.place_ne_bot_iff c.score).2 (hs c (hds.mem_iff.1 hc))
      exact drain_offerAll_congr n (hds.trans hes.symm) hds_scored
        ((hds.map _).nodup_iff.2 ht)

/-- Infinite scores of either sign, of which two are level. -/
theorem drain_offerAll_perm_iff_infinite :
    let candidate (text : String) (score : Float) : Candidate Float := ⟨⟨"f", text⟩, score, 1, 1, 1⟩
    let cs := [candidate "c" (1 / 0), candidate "a" (-1 / 0), candidate "b" (1 / 0)]
    (cs.map (·.term)).Nodup ∧ ∀ ds es, ds.Perm cs → es.Perm cs →
      ((ofCapacity 2).offerAll ds).drain.1 = ((ofCapacity 2).offerAll es).drain.1 := by
  intro candidate cs
  have ht : (cs.map (·.term)).Nodup := by decide
  have hs : ∀ c ∈ cs, c.score.isNaN = false := by
    intro c hc
    simp only [cs, List.mem_cons, List.not_mem_nil, or_false] at hc
    rcases hc with rfl | rfl | rfl <;> decide
  exact ⟨ht, (drain_offerAll_perm_iff 2 ht).2 (Or.inr (Or.inr hs))⟩

/-- Offered first a candidate without a number for a score keeps out a better one, offered last it is
kept out. -/
theorem not_forall_drain_offerAll_perm :
    ¬∀ (n : Int) (cs ds es : List (Candidate Float)), (cs.map (·.term)).Nodup →
      ds.Perm cs → es.Perm cs →
      ((ofCapacity n).offerAll ds).drain.1 = ((ofCapacity n).offerAll es).drain.1 := by
  intro h
  let one : Candidate Float := ⟨⟨"f", "b"⟩, 1, 1, 1, 1⟩
  let nan : Candidate Float := ⟨⟨"f", "a"⟩, 0 / 0, 1, 1, 1⟩
  have hscore : ¬nan.IsScored := by
    intro hs
    have hnan : nan.score.isNaN = true := by decide
    exact absurd ((Number.place_ne_bot_iff nan.score).1 hs) (by rw [hnan]; decide)
  have hascends : Ascends [nan, one] := by
    apply Ascends.cons _ hscore
    exact List.pairwise_singleton _ _
  have hhead : ∀ a, [nan, one].head? = some a → ¬a.IsScored := by
    intro a ha
    obtain rfl := Option.some.inj ha
    exact hscore
  have hfirst := drain_offerAll_of_ascends 1 hascends (Or.inr hhead)
  have hnew : nan ∉ [one] := by
    intro hmem
    have hterm := congrArg Candidate.term (List.mem_singleton.1 hmem)
    exact absurd hterm (by decide)
  have hlast : nan ∉ ((ofCapacity 1).offerAll [one, nan]).drain.1 :=
    not_mem_drain_offerAll_concat le_rfl hnew hscore
  have heq := h 1 [nan, one] [nan, one] [one, nan] (by decide) (List.Perm.refl _)
    (List.Perm.swap _ _ _)
  rw [← heq, hfirst] at hlast
  exact hlast List.mem_cons_self

end Shortlist
end TermMining
