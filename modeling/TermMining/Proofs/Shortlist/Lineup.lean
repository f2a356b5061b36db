import TermMining.Proofs.Shortlist

/-! A shortlist answers like a plain row of candidates kept best first, up to candidates that rank
alike. -/
namespace TermMining

/-- A row of candidates, best first. -/
structure Lineup (ω : Type) where
  capacity : Nat
  best : List (Candidate ω) := []

namespace Lineup

variable {ω : Type}

def ofCapacity (n : Int) : Lineup ω := { capacity := n.toNat }

def worst? (l : Lineup ω) : Option (Candidate ω) := l.best.getLast?

def pop (l : Lineup ω) : Option (Candidate ω) × Lineup ω :=
  (l.best.head?, { l with best := l.best.tail })

def popMany (l : Lineup ω) (n : Nat) : List (Candidate ω) × Lineup ω :=
  (l.best.take n, { l with best := l.best.drop n })

variable [Weight ω]

/-- Puts a candidate in front of the first one that it outranks. -/
def enter (c : Candidate ω) : List (Candidate ω) → List (Candidate ω)
  | [] => [c]
  | a :: l => if c.outranks a then c :: a :: l else a :: enter c l

def offer (l : Lineup ω) (c : Candidate ω) : Bool × Lineup ω :=
  if l.best.length < l.capacity then (true, { l with best := enter c l.best })
  else if l.worst?.any c.outranks then (true, { l with best := enter c l.best.dropLast })
  else (false, l)

end Lineup

inductive Request (ω : Type) where
  | offer (c : Candidate ω)
  | pop
  | popMany (n : Nat)
  | drain
  | worst
  | minScore
  | toList
  | size

inductive Answer (ω : Type) where
  | taken (b : Bool)
  | candidate (c : Option (Candidate ω))
  | candidates (l : List (Candidate ω))
  | score (x : Option ω)
  | size (n : Nat)

variable {ω : Type} [Weight ω]

/-- Candidates may stand for others that rank alike, all else is the same. -/
inductive Answer.Level : Answer ω → Answer ω → Prop where
  | taken (b : Bool) : Level (.taken b) (.taken b)
  | candidate {c d : Option (Candidate ω)} (h : Option.Rel Candidate.Level c d) :
      Level (.candidate c) (.candidate d)
  | candidates {l m : List (Candidate ω)} (h : List.Forall₂ Candidate.Level l m) :
      Level (.candidates l) (.candidates m)
  | score {x y : Option ω} (h : Option.Rel (fun x y => Weight.same x y = true) x y) :
      Level (.score x) (.score y)
  | size (n : Nat) : Level (.size n) (.size n)

def Shortlist.serve (s : Shortlist ω) : Request ω → Answer ω × Shortlist ω
  | .offer c => (.taken (s.offer c).1, (s.offer c).2)
  | .pop => (.candidate s.pop.1, s.pop.2)
  | .popMany n => (.candidates (s.popMany n).1, (s.popMany n).2)
  | .drain => (.candidates s.drain.1, s.drain.2)
  | .worst => (.candidate s.worst?, s)
  | .minScore => (.score (s.worst?.map (·.score)), s)
  | .toList => (.candidates s.toList, s)
  | .size => (.size s.size, s)

def Lineup.serve (l : Lineup ω) : Request ω → Answer ω × Lineup ω
  | .offer c => (.taken (l.offer c).1, (l.offer c).2)
  | .pop => (.candidate l.pop.1, l.pop.2)
  | .popMany n => (.candidates (l.popMany n).1, (l.popMany n).2)
  | .drain => (.candidates l.best, { l with best := [] })
  | .worst => (.candidate l.worst?, l)
  | .minScore => (.score (l.worst?.map (·.score)), l)
  | .toList => (.candidates l.best, l)
  | .size => (.size l.best.length, l)

def Shortlist.serveAll (s : Shortlist ω) : List (Request ω) → List (Answer ω) × Shortlist ω
  | [] => ([], s)
  | r :: rs =>
    let later := (s.serve r).2.serveAll rs
    ((s.serve r).1 :: later.1, later.2)

def Lineup.serveAll (l : Lineup ω) : List (Request ω) → List (Answer ω) × Lineup ω
  | [] => ([], l)
  | r :: rs =>
    let later := (l.serve r).2.serveAll rs
    ((l.serve r).1 :: later.1, later.2)

namespace Lineup

theorem enter_perm (c : Candidate ω) (l : List (Candidate ω)) : (enter c l).Perm (c :: l) := by
  induction l with
  | nil => exact List.Perm.refl _
  | cons a l ih =>
    unfold enter
    split
    · exact List.Perm.refl _
    · exact (ih.cons a).trans (List.Perm.swap c a l)

variable [PlacedWeight ω]

theorem isRanked_enter {c : Candidate ω} (hc : c.IsScored) {l : List (Candidate ω)}
    (hs : ∀ a ∈ l, a.IsScored) (h : IsRanked l) : IsRanked (enter c l) := by
  induction l with
  | nil => exact List.pairwise_singleton _ _
  | cons a l ih =>
    obtain ⟨hal, hl⟩ := List.pairwise_cons.1 h
    unfold enter
    split
    · next hout =>
      have hlt := ((Candidate.outranks_iff hc).1 hout).2
      have hbest : ∀ b ∈ a :: l, b.rank ≤ c.rank := by
        intro b hb
        rcases List.mem_cons.1 hb with rfl | hb
        · exact hlt.le
        · exact (hal b hb).trans hlt.le
      exact List.pairwise_cons.2 ⟨hbest, h⟩
    · next hout =>
      have hle : c.rank ≤ a.rank := by
        rw [Candidate.outranks_iff hc, not_and] at hout
        exact not_lt.1 (hout (hs a List.mem_cons_self))
      have hbest : ∀ b ∈ enter c l, b.rank ≤ a.rank := by
        intro b hb
        rcases List.mem_cons.1 ((enter_perm c l).mem_iff.1 hb) with rfl | hb
        · exact hle
        · exact hal b hb
      have hrest := ih (fun b hb => hs b (List.mem_cons_of_mem _ hb)) hl
      exact List.pairwise_cons.2 ⟨hbest, hrest⟩

theorem worst_le {l : Lineup ω} (h : IsRanked l.best) {w : Candidate ω}
    (hw : l.worst? = some w) : ∀ c ∈ l.best, w.rank ≤ c.rank := by
  obtain ⟨front, hfront⟩ := List.getLast?_eq_some_iff.1 hw
  rw [hfront] at h ⊢
  intro c hc
  rcases List.mem_append.1 hc with hc | hc
  · exact (List.pairwise_append.1 h).2.2 c hc w (by simp)
  · rw [List.mem_singleton.1 hc]

end Lineup

variable [PlacedWeight ω]

theorem forall₂_level {l m : List (Candidate ω)} (hl : ∀ c ∈ l, c.IsScored)
    (h : l.map Candidate.rank = m.map Candidate.rank) : List.Forall₂ Candidate.Level l m := by
  induction l generalizing m with
  | nil =>
    obtain rfl : m = [] := by simpa using h
    exact List.Forall₂.nil
  | cons a l ih =>
    cases m with
    | nil => simp at h
    | cons b m =>
      simp only [List.map_cons, List.cons.injEq] at h
      have hhead := (Candidate.rank_eq_iff (hl a List.mem_cons_self)).1 h.1
      have htail := ih (fun c hc => hl c (List.mem_cons_of_mem _ hc)) h.2
      exact List.Forall₂.cons hhead htail

/-- A shortlist and a row hold candidates of the same ranks. -/
structure Shortlist.Matches (s : Shortlist ω) (l : Lineup ω) : Prop where
  valid : s.IsValid
  capacity : s.capacity = l.capacity
  ranked : IsRanked l.best
  scored : ∀ c ∈ l.best, c.IsScored
  ranks : (s.heap.toList.map Candidate.rank).Perm (l.best.map Candidate.rank)

namespace Shortlist.Matches

variable {s : Shortlist ω} {l : Lineup ω}

theorem ofCapacity (n : Int) :
    (Shortlist.ofCapacity n : Shortlist ω).Matches (Lineup.ofCapacity n) where
  valid := isValid_ofCapacity n
  capacity := rfl
  ranked := List.Pairwise.nil
  scored := by simp [Lineup.ofCapacity]
  ranks := List.Perm.refl _

theorem size_eq (h : s.Matches l) : s.size = l.best.length := by
  have hlen := h.ranks.length_eq
  rwa [List.length_map, List.length_map, Array.length_toList] at hlen

/-- However the candidates of the shortlist are ranked, the row has the same ranks in turn. -/
theorem map_rank_eq (h : s.Matches l) {cs : List (Candidate ω)} (hp : cs.Perm s.heap.toList)
    (hr : IsRanked cs) : cs.map Candidate.rank = l.best.map Candidate.rank :=
  hr.map_rank_eq h.ranked ((hp.map _).trans h.ranks)

theorem level (h : s.Matches l) {cs : List (Candidate ω)} (hp : cs.Perm s.heap.toList)
    (hr : IsRanked cs) : List.Forall₂ Candidate.Level cs l.best :=
  forall₂_level (fun c hc => h.valid.scored c (Array.mem_toList_iff.1 (hp.mem_iff.1 hc)))
    (h.map_rank_eq hp hr)

theorem worst_cases (h : s.Matches l) :
    (s.worst? = none ∧ l.worst? = none) ∨
      ∃ w v, s.worst? = some w ∧ l.worst? = some v ∧ w.rank = v.rank := by
  have hsize := h.size_eq
  cases hv : l.worst? with
  | none =>
    have hbest : l.best = [] := List.getLast?_eq_none_iff.1 hv
    rw [hbest, List.length_nil] at hsize
    exact Or.inl ⟨Array.getElem?_eq_none hsize.le, rfl⟩
  | some v =>
    have hvmem : v ∈ l.best := List.mem_of_getLast? hv
    have hpos : 0 < s.heap.size := (List.length_pos_of_mem hvmem).trans_eq hsize.symm
    have hw : s.worst? = some s.heap[0] := Array.getElem?_eq_getElem hpos
    have hle : s.heap[0].rank ≤ v.rank := by
      have hmem := h.ranks.mem_iff.2 (List.mem_map_of_mem hvmem)
      obtain ⟨c, hc, hcr⟩ := List.mem_map.1 hmem
      rw [← hcr]
      exact h.valid.worst_le hw c (Array.mem_toList_iff.1 hc)
    have hge : v.rank ≤ s.heap[0].rank := by
      have hwmem := Array.mem_toList_iff.2 (mem_of_worst? hw)
      have hmem := h.ranks.mem_iff.1 (List.mem_map_of_mem hwmem)
      obtain ⟨c, hc, hcr⟩ := List.mem_map.1 hmem
      rw [← hcr]
      exact Lineup.worst_le h.ranked hv c hc
    exact Or.inr ⟨s.heap[0], v, hw, rfl, le_antisymm hle hge⟩

/-- What the shortlist is when a candidate has entered the front of the row. -/
theorem of_enter {t : Shortlist ω} {front : List (Candidate ω)} {c : Candidate ω}
    (hv : t.IsValid) (hcap : t.capacity = l.capacity) (hf : IsRanked front)
    (hs : ∀ a ∈ front, a.IsScored) (hc : c.IsScored)
    (hp : (t.heap.toList.map Candidate.rank).Perm (c.rank :: front.map Candidate.rank)) :
    t.Matches { l with best := Lineup.enter c front } where
  valid := hv
  capacity := hcap
  ranked := Lineup.isRanked_enter hc hs hf
  scored a ha := by
    rcases List.mem_cons.1 ((Lineup.enter_perm c front).mem_iff.1 ha) with rfl | ha
    · exact hc
    · exact hs a ha
  ranks := hp.trans ((Lineup.enter_perm c front).map Candidate.rank).symm

theorem offer (h : s.Matches l) {c : Candidate ω} (hc : c.IsScored) :
    (s.offer c).1 = (l.offer c).1 ∧ (s.offer c).2.Matches (l.offer c).2 := by
  have hvalid := h.valid.offer hc
  have hcap := (s.capacity_offer c).trans h.capacity
  have hsize := h.size_eq
  have hl := h.capacity
  rcases h.valid.offer_cases hc with ⟨hroom, htaken, hp⟩ | ⟨hfull, w, hw, hlt, htaken, hp⟩ |
    ⟨hfull, hle, hkept⟩
  · have hoff : l.offer c = (true, { l with best := Lineup.enter c l.best }) := if_pos (by omega)
    rw [hoff]
    exact ⟨htaken, of_enter hvalid hcap h.ranked h.scored hc
      ((hp.map Candidate.rank).trans (h.ranks.cons c.rank))⟩
  · obtain ⟨hnone, -⟩ | ⟨u, v, hu, hv, hrank⟩ := h.worst_cases
    · simp [hw] at hnone
    obtain rfl : w = u := Option.some.inj (hw.symm.trans hu)
    obtain ⟨front, hfront⟩ := List.getLast?_eq_some_iff.1 hv
    have hranked := h.ranked
    have hscored := h.scored
    have hranks := h.ranks
    rw [hfront] at hranked hscored hranks
    have hout : c.outranks v = true :=
      (Candidate.outranks_iff hc).2 ⟨hscored v (by simp), hrank ▸ hlt⟩
    have hoff : l.offer c = (true, { l with best := Lineup.enter c front }) := by
      have hdrop : l.best.dropLast = front := by rw [hfront, List.dropLast_concat]
      rw [Lineup.offer, if_neg (by omega), if_pos (by simp [hv, hout]), hdrop]
    have hback : ((front ++ [v]).map Candidate.rank).Perm (w.rank :: front.map Candidate.rank) := by
      rw [hrank]
      exact (List.perm_append_singleton v front).map Candidate.rank
    -- the worst ranks of both sides are the same one and cancel
    have hall := (hp.map Candidate.rank).trans ((hranks.trans hback).cons c.rank)
    have hcancel := (hall.trans (List.Perm.swap _ _ _)).cons_inv
    rw [hoff]
    exact ⟨htaken, of_enter hvalid hcap (List.pairwise_append.1 hranked).1
      (fun a ha => hscored a (List.mem_append_left _ ha)) hc hcancel⟩
  · have hany : ¬l.worst?.any c.outranks = true := by
      intro hany
      obtain ⟨v, hv, hout⟩ := (Option.any_eq_true _ _).1 hany
      obtain ⟨-, hnone⟩ | ⟨w, u, hw, hu, hrank⟩ := h.worst_cases
      · simp [hv] at hnone
      obtain rfl : v = u := Option.some.inj (hv.symm.trans hu)
      have hlt := ((Candidate.outranks_iff hc).1 hout).2
      exact absurd (hle w hw) (not_le.2 (hrank ▸ hlt))
    have hoff : l.offer c = (false, l) := by rw [Lineup.offer, if_neg (by omega), if_neg hany]
    rw [hoff, hkept]
    exact ⟨rfl, h⟩

theorem popMany (h : s.Matches l) (n : Nat) :
    List.Forall₂ Candidate.Level (s.popMany n).1 (l.popMany n).1 ∧
      (s.popMany n).2.Matches (l.popMany n).2 := by
  have ht := takesOut_popMany h.valid n
  have hrest := isRanked_toList ht.valid
  have hp := (s.popMany n).2.toList_perm
  have hmem : ∀ b ∈ (s.popMany n).2.toList, b ∈ (s.popMany n).2.heap := fun b hb =>
    Array.mem_toList_iff.1 (hp.mem_iff.1 hb)
  -- what went out and, ranked, what stayed make up the row again
  have hrow := h.map_rank_eq ((hp.append_left _).trans ht.perm) (List.pairwise_append.2
    ⟨ht.ranked, hrest, fun a ha b hb => ht.rest_le a ha b (hmem b hb)⟩)
  rw [← List.take_append_drop n l.best, List.map_append, List.map_append] at hrow
  have hlen : ((s.popMany n).1.map Candidate.rank).length =
      ((l.best.take n).map Candidate.rank).length := by
    rw [List.length_map, List.length_map, List.length_take, ht.length, h.size_eq]
  obtain ⟨hout, hstay⟩ := List.append_inj hrow hlen
  constructor
  · have hscored : ∀ c ∈ (s.popMany n).1, c.IsScored := fun c hc =>
      h.valid.scored c (Array.mem_toList_iff.1 (ht.perm.mem_iff.1 (List.mem_append_left _ hc)))
    exact forall₂_level hscored hout
  · constructor
    · exact ht.valid
    · exact ht.capacity.trans h.capacity
    · exact h.ranked.sublist (List.drop_sublist n _)
    · exact fun c hc => h.scored c (List.mem_of_mem_drop hc)
    · change List.Perm _ ((l.best.drop n).map Candidate.rank)
      rw [← hstay]
      exact (hp.map Candidate.rank).symm

theorem pop (h : s.Matches l) :
    Option.Rel Candidate.Level s.pop.1 l.pop.1 ∧ s.pop.2.Matches l.pop.2 := by
  have hvalid := h.valid.pop
  have hcap : s.pop.2.capacity = l.capacity := s.capacity_arranged.trans h.capacity
  rcases h.valid.pop_cases with ⟨hnil, hnone, hrest⟩ | ⟨b, hb, hp, hle⟩
  · have hbest : l.best = [] := by
      have hranks := h.ranks
      rw [hnil] at hranks
      simpa using hranks
    rw [Lineup.pop, hbest, hnone]
    exact ⟨Option.Rel.none, hvalid, hcap, List.Pairwise.nil, by simp, by simp [hrest]⟩
  · have hstay := s.pop.2.toList_perm
    have hrow := h.map_rank_eq ((hstay.cons b).trans hp) (List.pairwise_cons.2
      ⟨fun c hc => hle c ?_, isRanked_toList hvalid⟩)
    · have hranked := h.ranked
      have hscored := h.scored
      rw [Lineup.pop]
      cases hbest : l.best with
      | nil => simp [hbest] at hrow
      | cons a rest =>
        rw [hbest] at hrow hranked hscored
        simp only [List.map_cons, List.cons.injEq] at hrow
        have hbs := h.valid.scored b (Array.mem_toList_iff.1 (hp.mem_iff.1 List.mem_cons_self))
        rw [hb]
        constructor
        · exact Option.Rel.some ((Candidate.rank_eq_iff hbs).1 hrow.1)
        · constructor
          · exact hvalid
          · exact hcap
          · exact (List.pairwise_cons.1 hranked).2
          · exact fun c hc => hscored c (List.mem_cons_of_mem _ hc)
          · rw [List.tail_cons, ← hrow.2]
            exact (hstay.map Candidate.rank).symm
    · exact Array.mem_toList_iff.1 (hp.mem_iff.1 (List.mem_cons_of_mem _ (hstay.mem_iff.1 hc)))

theorem drain (h : s.Matches l) :
    List.Forall₂ Candidate.Level s.drain.1 l.best ∧ s.drain.2.Matches { l with best := [] } := by
  have hm := h.popMany s.size
  unfold Lineup.popMany at hm
  rwa [List.take_of_length_le h.size_eq.ge, List.drop_of_length_le h.size_eq.ge] at hm

theorem worst (h : s.Matches l) : Option.Rel Candidate.Level s.worst? l.worst? := by
  rcases h.worst_cases with ⟨hs, hl⟩ | ⟨w, v, hs, hl, hrank⟩
  · rw [hs, hl]
    exact Option.Rel.none
  · have hw := h.valid.scored w (mem_of_worst? hs)
    rw [hs, hl]
    exact Option.Rel.some ((Candidate.rank_eq_iff hw).1 hrank)

theorem minScore (h : s.Matches l) :
    Option.Rel (fun x y => Weight.same x y = true) (s.worst?.map (·.score))
      (l.worst?.map (·.score)) := by
  have hworst := h.worst
  revert hworst
  generalize s.worst? = a
  generalize l.worst? = b
  intro hworst
  cases hworst with
  | none => exact Option.Rel.none
  | some hlevel => exact Option.Rel.some hlevel.1

/-- One request is answered alike and leaves both holding the same ranks. -/
theorem serve (h : s.Matches l) (r : Request ω) (hr : ∀ c, r = .offer c → c.IsScored) :
    (s.serve r).1.Level (l.serve r).1 ∧ (s.serve r).2.Matches (l.serve r).2 := by
  cases r with
  | offer c =>
    obtain ⟨htaken, hm⟩ := h.offer (hr c rfl)
    dsimp only [Shortlist.serve, Lineup.serve]
    rw [htaken]
    exact ⟨.taken _, hm⟩
  | pop => exact ⟨.candidate h.pop.1, h.pop.2⟩
  | popMany n => exact ⟨.candidates (h.popMany n).1, (h.popMany n).2⟩
  | drain => exact ⟨.candidates h.drain.1, h.drain.2⟩
  | worst => exact ⟨.candidate h.worst, h⟩
  | minScore => exact ⟨.score h.minScore, h⟩
  | toList => exact ⟨.candidates (h.level s.toList_perm (isRanked_toList h.valid)), h⟩
  | size =>
    dsimp only [Shortlist.serve, Lineup.serve]
    rw [h.size_eq]
    exact ⟨.size _, h⟩

theorem serveAll (h : s.Matches l) (rs : List (Request ω))
    (hr : ∀ c, .offer c ∈ rs → c.IsScored) :
    List.Forall₂ Answer.Level (s.serveAll rs).1 (l.serveAll rs).1 ∧
      (s.serveAll rs).2.Matches (l.serveAll rs).2 := by
  induction rs generalizing s l with
  | nil => exact ⟨List.Forall₂.nil, h⟩
  | cons r rs ih =>
    obtain ⟨hanswer, hm⟩ := h.serve r fun c hc => hr c (hc ▸ List.mem_cons_self)
    obtain ⟨hlater, hend⟩ := ih hm fun c hc => hr c (List.mem_cons_of_mem _ hc)
    exact ⟨List.Forall₂.cons hanswer hlater, hend⟩

end Shortlist.Matches

/-- A shortlist of doubles of any capacity answers any requests as a row does that is kept best
first. Whatever it was asked, what it holds is a heap, ascending if it is said to be. -/
theorem Shortlist.serveAll_level (capacity : Int) (rs : List (Request Float))
    (hr : ∀ c, .offer c ∈ rs → c.score.isNaN = false) :
    List.Forall₂ Answer.Level ((Shortlist.ofCapacity capacity).serveAll rs).1
        ((Lineup.ofCapacity capacity).serveAll rs).1 ∧
      ((Lineup.ofCapacity capacity).serveAll rs).2.best.Pairwise (fun a b => b.outranks a = false) ∧
      Order.Heap.IsHeap Candidate.before
        ((Shortlist.ofCapacity capacity).serveAll rs).2.heap.toVector ∧
      (((Shortlist.ofCapacity capacity).serveAll rs).2.sorted = true →
        ((Shortlist.ofCapacity capacity).serveAll rs).2.heap.toList.Pairwise
          fun a b => a.outranks b = false) := by
  obtain ⟨hanswers, hm⟩ := (Matches.ofCapacity capacity).serveAll rs fun c hc =>
    (Number.place_ne_bot_iff c.score).2 (hr c hc)
  constructor
  · exact hanswers
  constructor
  · apply hm.ranked.imp_of_mem
    intro a b ha hb hle
    rw [Bool.eq_false_iff, Ne, Candidate.outranks_iff (hm.scored b hb)]
    exact fun hlt => absurd hle (not_le.2 hlt.2)
  · exact ⟨hm.valid.heap, fun hs => (hm.valid.sorted hs).pairwise⟩

/-- Level scores, an offer to a full shortlist, and one after it gave away its best. -/
theorem Shortlist.serveAll_level_tied :
    let candidate (text : String) (score : Float) : Candidate Float := ⟨⟨"f", text⟩, score, 1, 1, 1⟩
    let rs : List (Request Float) :=
      [.offer (candidate "b" 1), .offer (candidate "a" 1), .offer (candidate "c" 2), .pop,
        .offer (candidate "b" 0), .minScore, .drain]
    (∀ c, .offer c ∈ rs → c.score.isNaN = false) ∧
      List.Forall₂ Answer.Level ((Shortlist.ofCapacity 2).serveAll rs).1
        ((Lineup.ofCapacity 2).serveAll rs).1 := by
  intro candidate rs
  have hr : ∀ c, .offer c ∈ rs → c.score.isNaN = false := by
    intro c hc
    simp only [rs, List.mem_cons, Request.offer.injEq, reduceCtorEq, false_or, or_false,
      List.not_mem_nil] at hc
    rcases hc with rfl | rfl | rfl | rfl <;> decide
  exact ⟨hr, (serveAll_level 2 rs hr).1⟩

end TermMining
