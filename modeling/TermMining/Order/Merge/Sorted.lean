import TermMining.Order.Merge
import TermMining.Order.Sorted

/-! Merged sorted runs are sorted. What a merge has taken stays in order and in front of what is
left, and it never runs out of the shorter run first. -/
namespace TermMining.Order

variable {α : Type}

theorem Direction.count_append (d : Direction) (test : α → Bool) {front back : List α}
    (hf : ∀ a ∈ front, test a = true) (hb : ∀ a ∈ back, test a = false) :
    d.count test (front ++ back) = front.length := by
  have hk := isBoundary_append test hf hb
  generalize hl : front ++ back = l at hk ⊢
  generalize front.length = k at hk ⊢
  have hkl := hk.1
  by_cases h0 : l.length = 0
  · rw [List.length_eq_zero_iff.1 h0] at hkl ⊢
    cases d <;> simp [count, gallop, doubling, bisect] at hkl ⊢ <;> omega
  · cases d with
    | forward => exact gallop_eq hk (by omega)
    | backward =>
      have hk' : IsBoundary (fun i => !(l[l.length - 1 - i]?).any test) l.length
          (l.length - k) := by
        refine ⟨by omega, fun i hi => ?_, fun i hi hlt => ?_⟩
        · simpa using hk.2.2 (l.length - 1 - i) (by omega) (by omega)
        · simpa using hk.2.1 (l.length - 1 - i) (by omega)
      rw [count, gallop_eq hk' (by omega)]
      omega

namespace Merging

variable {d : Direction} {ahead : α → α → Bool} {S : α → Prop}

/-- What a merge under way keeps. -/
structure IsReady (ahead : α → α → Bool) (S : α → Prop) (s : Merging α) : Prop where
  taken : IsSorted ahead S s.taken.reverse
  short : IsSorted ahead S s.short
  long : IsSorted ahead S s.long
  front : ∀ a ∈ s.taken, ∀ b ∈ s.long ++ s.short, ahead b a = false
  last : ∃ e ∈ s.short.getLast?, ∀ y ∈ s.long, ahead y e = true

theorem IsReady.take_long {s : Merging α} (h : s.IsReady ahead S) {n : Nat}
    (hn : ∀ y ∈ s.long.take n, ∀ x ∈ s.short, ahead x y = false) :
    (s.take .long n).IsReady ahead S := by
  have hl : s.long = s.long.take n ++ s.long.drop n := (List.take_append_drop ..).symm
  have hl' := h.long
  rw [hl] at hl'
  refine ⟨?_, h.short, hl'.right, ?_, ?_⟩
  · rw [take, List.reverse_append, List.reverse_reverse]
    refine h.taken.append hl'.left fun a ha b hb => h.front a (by simpa using ha) b ?_
    exact List.mem_append_left _ (List.mem_of_mem_take hb)
  · intro a ha b hb
    rcases List.mem_append.1 ha with ha | ha
    · rcases List.mem_append.1 hb with hb | hb
      · exact hl'.cross a (by simpa using ha) b hb
      · exact hn a (by simpa using ha) b hb
    · refine h.front a ha b (List.mem_append.2 ((List.mem_append.1 hb).imp_left ?_))
      exact List.mem_of_mem_drop
  · obtain ⟨e, he, hy⟩ := h.last
    exact ⟨e, he, fun y hm => hy y (List.mem_of_mem_drop hm)⟩

theorem IsReady.take_short {s : Merging α} (h : s.IsReady ahead S) {n : Nat}
    (hlt : n < s.short.length)
    (hn : ∀ x ∈ s.short.take n, ∀ y ∈ s.long, ahead y x = false) :
    (s.take .short n).IsReady ahead S := by
  have hl : s.short = s.short.take n ++ s.short.drop n := (List.take_append_drop ..).symm
  have hl' := h.short
  rw [hl] at hl'
  refine ⟨?_, hl'.right, h.long, ?_, ?_⟩
  · rw [take, List.reverse_append, List.reverse_reverse]
    refine h.taken.append hl'.left fun a ha b hb => h.front a (by simpa using ha) b ?_
    exact List.mem_append_right _ (List.mem_of_mem_take hb)
  · intro a ha b hb
    rcases List.mem_append.1 ha with ha | ha
    · rcases List.mem_append.1 hb with hb | hb
      · exact hn a (by simpa using ha) b hb
      · exact hl'.cross a (by simpa using ha) b hb
    · refine h.front a ha b (List.mem_append.2 ((List.mem_append.1 hb).imp_right ?_))
      exact List.mem_of_mem_drop
  · obtain ⟨e, he, hy⟩ := h.last
    refine ⟨e, ?_, hy⟩
    rw [take, List.getLast?_drop, if_neg (by omega)]
    exact he

theorem isOpen_iff {s : Merging α} : s.isOpen = true ↔ 1 < s.short.length ∧ s.long ≠ [] := by
  unfold isOpen
  split
  · next h₁ h₂ => simp [h₁, h₂]
  · next h =>
    match hs : s.short, hl : s.long with
    | [], _ => simp
    | [_], _ => simp
    | _ :: _ :: _, [] => simp
    | _ :: _ :: _, _ :: _ => exact absurd hl (h _ _ _ _ _ hs)

theorem IsReady.isSorted_toList {s : Merging α} (h : s.IsReady ahead S)
    (ho : IsWeakOrder ahead S) (hs : s.isOpen = false) : IsSorted ahead S s.toList := by
  refine h.taken.append (h.long.append h.short ?_) fun a ha => h.front a (by simpa using ha)
  obtain ⟨e, he, hy⟩ := h.last
  intro y hm x hx
  have hlen : ¬ 1 < s.short.length := fun hlt => by
    rw [isOpen_iff.2 ⟨hlt, List.ne_nil_of_mem hm⟩] at hs
    cases hs
  have hx' : s.short = [x] := by
    match hsh : s.short with
    | [] => simp [hsh] at hx
    | [z] => simpa [hsh, eq_comm] using hx
    | _ :: _ :: _ => simp [hsh] at hlen
  have hxe : x = e := by simpa [hx'] using he
  exact ho.asymm (h.long.mem y hm) (h.short.mem x hx) (hxe ▸ hy y hm)

theorem IsReady.take_winner {s : Merging α} (h : s.IsReady ahead S) (ho : IsWeakOrder ahead S)
    (hs : s.isOpen = true) : (s.take (s.winner ahead) 1).IsReady ahead S := by
  obtain ⟨hlen, hne⟩ := isOpen_iff.1 hs
  obtain ⟨y, ys, hl⟩ := List.exists_cons_of_ne_nil hne
  obtain ⟨x, xs, hsh⟩ := List.exists_cons_of_length_pos (Nat.lt_trans Nat.zero_lt_one hlen)
  have hx : S x := h.short.mem x (by simp [hsh])
  have hy : S y := h.long.mem y (by simp [hl])
  simp only [winner, hsh, hl]
  split
  · next hb =>
    refine h.take_long fun z hz => ?_
    obtain rfl : z = y := by simpa [hl] using hz
    rw [hsh]
    exact (hsh ▸ h.short).forall_of_head ho hy (ho.asymm hy hx hb)
  · next hb =>
    refine h.take_short hlen fun z hz => ?_
    obtain rfl : z = x := by simpa [hsh] using hz
    rw [hl]
    exact (hl ▸ h.long).forall_of_head ho hx (by simpa using hb)

theorem IsReady.surge {s : Merging α} (h : s.IsReady ahead S) (ho : IsWeakOrder ahead S)
    (side : Side) : (s.surge d ahead side).2.IsReady ahead S := by
  unfold Merging.surge
  split
  · next hs =>
    obtain ⟨hlen, hne⟩ := isOpen_iff.1 hs
    obtain ⟨y, ys, hl⟩ := List.exists_cons_of_ne_nil hne
    obtain ⟨x, xs, hsh⟩ := List.exists_cons_of_length_pos (Nat.lt_trans Nat.zero_lt_one hlen)
    have hx : S x := h.short.mem x (by simp [hsh])
    have hy : S y := h.long.mem y (by simp [hl])
    cases side with
    | short =>
      obtain ⟨front, back, hfb, hf, hb⟩ := h.short.exists_append_not_before ho hy
      have hn : s.lead d ahead .short = front.length := by
        rw [lead, hl, hfb]
        exact d.count_append _ (by simpa using hf) (by simpa using hb)
      have hlt : front.length < s.short.length := by
        obtain ⟨e, he, hye⟩ := h.last
        have he : e ∈ front ++ back := hfb ▸ List.mem_of_getLast? he
        have hye := hye y (by simp [hl])
        rw [hfb, List.length_append]
        rcases List.mem_append.1 he with he | he
        · simp [hf e he] at hye
        · have := List.length_pos_of_mem he
          omega
      have ht : (s.take .short front.length).IsReady ahead S := by
        refine h.take_short hlt fun z hz => ?_
        rw [hfb, List.take_left] at hz
        rw [hl]
        refine (hl ▸ h.long).forall_of_head ho (h.short.mem z ?_) (hf z hz)
        rw [hfb]
        exact List.mem_append_left _ hz
      rw [hn]
      dsimp only
      split
      · refine ht.take_long fun z hz w hw => ?_
        obtain rfl : z = y := by simpa [take, hl] using hz
        have hw' : w ∈ back := by simpa [take, hfb] using hw
        exact ho.asymm hy (ht.short.mem w hw) (hb w hw')
      · exact ht
    | long =>
      obtain ⟨front, back, hfb, hf, hb⟩ := h.long.exists_append_before ho hx
      have hn : s.lead d ahead .long = front.length := by
        rw [lead, hsh, hfb]
        exact d.count_append _ hf hb
      have ht : (s.take .long front.length).IsReady ahead S := by
        refine h.take_long fun z hz => ?_
        rw [hfb, List.take_left] at hz
        have hz' : S z := h.long.mem z (by rw [hfb]; exact List.mem_append_left _ hz)
        rw [hsh]
        exact (hsh ▸ h.short).forall_of_head ho hz' (ho.asymm hz' hx (hf z hz))
      rw [hn]
      dsimp only
      split
      · next hto =>
        refine ht.take_short (isOpen_iff.1 hto).1 fun z hz w hw => ?_
        obtain rfl : z = x := by simpa [take, hsh] using hz
        exact hb w (by simpa [take, hfb] using hw)
      · exact ht
  · exact h

theorem IsReady.finish {s : Merging α} (h : s.IsReady ahead S) (ho : IsWeakOrder ahead S)
    (pace : Pace) (patience : Nat) :
    let r := (finish d ahead pace patience s).2
    r.IsReady ahead S ∧ r.isOpen = false := by
  fun_induction Merging.finish d ahead pace patience s with
  | case1 patience s hs side streak winner streak' ih => exact ih (h.take_winner ho hs)
  | case2 patience s hs a b hb hl ih => exact ih ((h.surge ho _).surge ho _)
  | case3 patience s hs a b hb hl ih => exact ih ((h.surge ho _).surge ho _)
  | case4 patience s hs a b hb => exact ⟨(h.surge ho _).surge ho _, by simpa using hb⟩
  | case5 pace patience s hs => exact ⟨h, by simpa using hs⟩

/-- Two runs merge to a sorted one if the first entry of the longer run may stand first and the
last entry of the shorter run comes last. -/
theorem isSorted_run (ho : IsWeakOrder ahead S) (patience : Nat) {short long : List α}
    (hs : IsSorted ahead S short) (hl : IsSorted ahead S long)
    (hfirst : ∀ y ∈ long.head?, ∀ x ∈ short, ahead x y = false)
    (hlast : ∃ e ∈ short.getLast?, ∀ y ∈ long, ahead y e = true) :
    IsSorted ahead S (run d ahead patience short long).2 := by
  have hr : IsReady ahead S { short, long } :=
    ⟨⟨by simp, by simp⟩, hs, hl, by simp, hlast⟩
  have ht : (Merging.take { short, long } .long 1).IsReady ahead S := by
    refine hr.take_long fun y hy => hfirst y ?_
    rw [List.head?_eq_getElem?]
    cases long with
    | nil => simp at hy
    | cons z zs => simpa [eq_comm] using hy
  have hf := ht.finish ho (.walk .short 0) patience (d := d)
  exact hf.1.isSorted_toList ho hf.2

end Merging

variable {before : α → α → Bool} {S : α → Prop}

theorem isSorted_mergeInner (ho : IsWeakOrder before S) (patience : Nat) {left right : List α}
    (hl : IsSorted before S left) (hr : IsSorted before S right)
    (hfirst : ∃ y ∈ right.head?, ∀ x ∈ left, before y x = true)
    (hlast : ∃ x ∈ left.getLast?, ∀ y ∈ right, before y x = true) :
    IsSorted before S (mergeInner before patience left right).2 := by
  unfold mergeInner
  split
  · refine Merging.isSorted_run ho patience hl hr (fun y hy x hx => ?_) hlast
    obtain ⟨z, hz, hzx⟩ := hfirst
    obtain rfl : z = y := Option.mem_unique hz hy
    exact ho.asymm (hr.mem z (List.mem_of_mem_head? hz)) (hl.mem x hx) (hzx x hx)
  · refine (Merging.isSorted_run ho.flip patience hr.reverse hl.reverse ?_ ?_).reverse
    · intro x hx y hy
      rw [List.head?_reverse] at hx
      obtain ⟨z, hz, hyz⟩ := hlast
      obtain rfl : z = x := Option.mem_unique hz hx
      have hy : y ∈ right := by simpa using hy
      exact ho.asymm (hr.mem y hy) (hl.mem z (List.mem_of_getLast? hz)) (hyz y hy)
    · obtain ⟨z, hz, hzx⟩ := hfirst
      exact ⟨z, by rwa [List.getLast?_reverse], fun x hx => hzx x (by simpa using hx)⟩

theorem exists_append_of_inFront (ho : IsWeakOrder before S) {left right : List α} {y : α}
    (hl : IsSorted before S left) (hy : y ∈ right.head?) (hs : S y) :
    ∃ front back, left = front ++ back ∧ inFront before left right = front.length ∧
      (∀ x ∈ front, before y x = false) ∧ ∀ x ∈ back, before y x = true := by
  obtain ⟨front, back, rfl, hf, hb⟩ := hl.exists_append_not_before ho hs
  refine ⟨front, back, rfl, ?_, hf, hb⟩
  rw [inFront, Option.mem_def.1 hy, Option.elim_some]
  exact Direction.count_append _ _ (by simpa using hf) (by simpa using hb)

theorem exists_append_of_notBehind (ho : IsWeakOrder before S) {left right : List α} {x : α}
    (hr : IsSorted before S right) (hx : x ∈ left.getLast?) (hs : S x) :
    ∃ inner rest, right = inner ++ rest ∧ notBehind before left right = inner.length ∧
      (∀ y ∈ inner, before y x = true) ∧ ∀ y ∈ rest, before y x = false := by
  obtain ⟨front, back, hfb, hf, hb⟩ := hr.reverse.exists_append_not_before ho.flip hs
  have hright : right = back.reverse ++ front.reverse := by
    rw [← List.reverse_append, ← hfb, List.reverse_reverse]
  refine ⟨back.reverse, front.reverse, hright, ?_, by simpa using hb, by simpa using hf⟩
  have hc : Direction.backward.count (fun y => !before y x) right.reverse = front.length := by
    rw [hfb]
    exact Direction.count_append _ _ (by simpa using hf) (by simpa using hb)
  rw [notBehind, Option.mem_def.1 hx, Option.elim_some, hc, hright]
  simp

theorem isSorted_merge (ho : IsWeakOrder before S) (patience : Nat) {left right : List α}
    (hl : IsSorted before S left) (hr : IsSorted before S right) :
    IsSorted before S (merge before patience left right).2 := by
  rcases hlast : left.getLast? with _ | x
  · obtain rfl := List.getLast?_eq_none_iff.1 hlast
    simpa [merge] using hr
  rcases hhead : right.head? with _ | y
  · obtain rfl := List.head?_eq_none_iff.1 hhead
    simpa [merge, notBehind] using hl
  have hx := List.mem_of_getLast? hlast
  have hy := List.mem_of_mem_head? hhead
  have hbelow : ∀ a ∈ left, before x a = false := hl.forall_of_getLast ho hlast
  have habove : ∀ b ∈ right, before b y = false := by
    obtain ⟨tail, rfl⟩ := List.head?_eq_some_iff.1 hhead
    exact hr.forall_of_head ho (hr.mem y hy) (ho.irrefl (hr.mem y hy))
  obtain ⟨front, back, hfb, hm, hf, hb⟩ := exists_append_of_inFront ho hl hhead (hr.mem y hy)
  obtain ⟨inner, rest, hir, hn, hi, ht⟩ := exists_append_of_notBehind ho hr hlast (hl.mem x hx)
  have hfront : ∀ a ∈ front, ∀ b ∈ right, before b a = false := fun a ha b hbr =>
    ho.trans (hl.mem a (by simp [hfb, ha])) (hr.mem y hy) (hr.mem b hbr) (hf a ha) (habove b hbr)
  have hrest : ∀ a ∈ left, ∀ b ∈ rest, before b a = false := fun a ha b hbr =>
    ho.trans (hl.mem a ha) (hl.mem x hx) (hr.mem b (by simp [hir, hbr])) (hbelow a ha) (ht b hbr)
  unfold merge
  dsimp only
  rw [hm, hn]
  split
  · next hc =>
    have hl' := hl
    have hr' := hr
    rw [hfb] at hl'
    rw [hir] at hr'
    have hback : back ≠ [] := by
      rintro rfl
      simp [hfb] at hc
    have hinner : inner ≠ [] := List.ne_nil_of_length_pos hc.2
    have hdl : left.drop front.length = back := by rw [hfb, List.drop_left]
    have htl : left.take front.length = front := by rw [hfb, List.take_left]
    have htr : right.take inner.length = inner := by rw [hir, List.take_left]
    have hdr : right.drop inner.length = rest := by rw [hir, List.drop_left]
    rw [hdl, htl, htr, hdr]
    have hp := mergeInner_perm before patience back inner
    have hs : IsSorted before S (mergeInner before patience back inner).2 := by
      refine isSorted_mergeInner ho patience hl'.right hr'.left ⟨y, ?_, hb⟩ ⟨x, ?_, hi⟩
      · obtain ⟨z, zs, rfl⟩ := List.exists_cons_of_ne_nil hinner
        simpa [hir] using hhead
      · obtain ⟨z, hz⟩ := Option.ne_none_iff_exists'.1 (mt List.getLast?_eq_none_iff.1 hback)
        simpa [hfb, List.getLast?_append, hz] using hlast
    refine hl'.left.append (hs.append hr'.right fun a ha b hbr => ?_) fun a ha b hbm => ?_
    · rcases List.mem_append.1 (hp.mem_iff.1 ha) with ha | ha
      · exact hrest a (by simp [hfb, ha]) b hbr
      · exact hr'.cross a ha b hbr
    · rcases List.mem_append.1 hbm with hbm | hbm
      · rcases List.mem_append.1 (hp.mem_iff.1 hbm) with hbm | hbm
        · exact hl'.cross a ha b hbm
        · exact hfront a ha b (by simp [hir, hbm])
      · exact hfront a ha b (by simp [hir, hbm])
  · next hc =>
    refine hl.append hr fun a ha b hbr => ?_
    by_cases hlen : front.length < left.length
    · have hinner : inner = [] := by
        apply List.eq_nil_of_length_eq_zero
        omega
      exact hrest a ha b (by simpa [hir, hinner] using hbr)
    · have hback : back = [] := by
        apply List.eq_nil_of_length_eq_zero
        rw [hfb, List.length_append] at hlen
        omega
      exact hfront a (by simpa [hfb, hback] using ha) b hbr

end TermMining.Order
