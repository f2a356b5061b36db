import TermMining.Order.Runs

/-! Weak orders and lists that ascend in one. An order is asked for only among the entries that are
sorted, since doubles compare, but for those that are no number. -/
namespace TermMining.Order

variable {α : Type}

/-- Among the entries in `S` the test is a strict order, and an entry that comes before another
also comes before a third one or the third comes before the other. -/
structure IsWeakOrder (before : α → α → Bool) (S : α → Prop) : Prop where
  asymm : ∀ {a b}, S a → S b → before a b = true → before b a = false
  trans : ∀ {a b c}, S a → S b → S c → before b a = false → before c b = false →
    before c a = false

/-- No entry comes before one that stands in front of it. -/
structure IsSorted (before : α → α → Bool) (S : α → Prop) (l : List α) : Prop where
  mem : ∀ a ∈ l, S a
  pairwise : l.Pairwise fun a b => before b a = false

/-- A test that fails from some place on holds up to a place and fails from there. -/
theorem exists_append {test : α → Bool} {l : List α}
    (h : l.Pairwise fun a b => test a = false → test b = false) :
    ∃ front back, l = front ++ back ∧ (∀ a ∈ front, test a = true) ∧
      ∀ a ∈ back, test a = false := by
  induction l with
  | nil => exact ⟨[], [], rfl, by simp, by simp⟩
  | cons x l ih =>
    rw [List.pairwise_cons] at h
    by_cases hx : test x = true
    · obtain ⟨front, back, rfl, hf, hb⟩ := ih h.2
      exact ⟨x :: front, back, rfl, by simpa [hx] using hf, hb⟩
    · have hx : test x = false := by simpa using hx
      refine ⟨[], x :: l, rfl, by simp, ?_⟩
      intro a ha
      rcases List.mem_cons.1 ha with rfl | ha
      · exact hx
      · exact h.1 a ha hx

/-- Looked at place by place, a test that holds of the front and fails of the back has its
boundary between them. -/
theorem isBoundary_append (test : α → Bool) {front back : List α}
    (hf : ∀ a ∈ front, test a = true) (hb : ∀ a ∈ back, test a = false) :
    IsBoundary (fun i => ((front ++ back)[i]?).any test) (front ++ back).length front.length := by
  refine ⟨by simp, ?_, ?_⟩
  · intro i hi
    simp [List.getElem?_append_left hi, List.getElem?_eq_getElem hi, hf]
  · intro i hi hlt
    have hi' : i - front.length < back.length := by
      rw [List.length_append] at hlt
      omega
    simp [List.getElem?_append_right hi, List.getElem?_eq_getElem hi', hb]

namespace IsSorted

variable {before : α → α → Bool} {S : α → Prop} {l l₁ l₂ : List α}

theorem sublist (h : IsSorted before S l₂) (hs : l₁.Sublist l₂) : IsSorted before S l₁ :=
  ⟨fun a ha => h.mem a (hs.subset ha), h.pairwise.sublist hs⟩

theorem append (h₁ : IsSorted before S l₁) (h₂ : IsSorted before S l₂)
    (h : ∀ a ∈ l₁, ∀ b ∈ l₂, before b a = false) : IsSorted before S (l₁ ++ l₂) := by
  refine ⟨?_, List.pairwise_append.2 ⟨h₁.pairwise, h₂.pairwise, h⟩⟩
  intro a ha
  rcases List.mem_append.1 ha with ha | ha
  · exact h₁.mem a ha
  · exact h₂.mem a ha

theorem cons {a : α} (h : IsSorted before S l) (ha : S a) (hl : ∀ b ∈ l, before b a = false) :
    IsSorted before S (a :: l) :=
  ⟨by simpa [ha] using h.mem, List.pairwise_cons.2 ⟨hl, h.pairwise⟩⟩

theorem left (h : IsSorted before S (l₁ ++ l₂)) : IsSorted before S l₁ :=
  h.sublist (List.sublist_append_left ..)

theorem right (h : IsSorted before S (l₁ ++ l₂)) : IsSorted before S l₂ :=
  h.sublist (List.sublist_append_right ..)

theorem cross (h : IsSorted before S (l₁ ++ l₂)) : ∀ a ∈ l₁, ∀ b ∈ l₂, before b a = false :=
  (List.pairwise_append.1 h.pairwise).2.2

theorem singleton {a : α} (h : S a) : IsSorted before S [a] := ⟨by simpa using h, by simp⟩

theorem reverse (h : IsSorted before S l) : IsSorted (fun a b => before b a) S l.reverse :=
  ⟨by simpa using h.mem, List.pairwise_reverse.2 h.pairwise⟩

/-- What the first entry may stand behind, every entry may. -/
theorem forall_of_head {a x : α} (ho : IsWeakOrder before S) (h : IsSorted before S (x :: l))
    (ha : S a) (hx : before x a = false) : ∀ y ∈ x :: l, before y a = false := by
  intro y hy
  rcases List.mem_cons.1 hy with rfl | hy
  · exact hx
  · exact ho.trans ha (h.mem x (by simp)) (h.mem y (by simp [hy])) hx
      ((List.pairwise_cons.1 h.pairwise).1 y hy)

/-- The entries that may stand in front of `a` form the front of a sorted list. -/
theorem exists_append_not_before (ho : IsWeakOrder before S) (h : IsSorted before S l) {a : α}
    (ha : S a) : ∃ front back, l = front ++ back ∧ (∀ x ∈ front, before a x = false) ∧
      ∀ x ∈ back, before a x = true := by
  have hp : l.Pairwise fun x y => (!before a x) = false → (!before a y) = false := by
    refine h.pairwise.imp_of_mem ?_
    intro x y hx hy hxy
    simp only [Bool.not_eq_false']
    intro hax
    by_cases hay : before a y = true
    · exact hay
    · rw [ho.trans (h.mem x hx) (h.mem y hy) ha hxy (by simpa using hay)] at hax
      cases hax
  obtain ⟨front, back, hl, hf, hb⟩ := exists_append hp
  exact ⟨front, back, hl, by simpa using hf, by simpa using hb⟩

theorem exists_append_before (ho : IsWeakOrder before S) (h : IsSorted before S l) {a : α}
    (ha : S a) : ∃ front back, l = front ++ back ∧ (∀ x ∈ front, before x a = true) ∧
      ∀ x ∈ back, before x a = false :=
  exists_append (h.pairwise.imp_of_mem fun hx hy hxy hxa =>
    ho.trans ha (h.mem _ hx) (h.mem _ hy) hxa hxy)

end IsSorted

variable {before : α → α → Bool} {S : α → Prop}

theorem IsWeakOrder.flip (h : IsWeakOrder before S) : IsWeakOrder (fun a b => before b a) S :=
  ⟨fun ha hb hab => h.asymm hb ha hab, fun ha hb hc hab hbc => h.trans hc hb ha hbc hab⟩

theorem IsWeakOrder.irrefl (h : IsWeakOrder before S) {a : α} (ha : S a) : before a a = false := by
  by_cases hb : before a a = true
  · exact h.asymm ha ha hb
  · simpa using hb

theorem IsSorted.forall_of_getLast {l : List α} {a : α} (ho : IsWeakOrder before S)
    (h : IsSorted before S l) (ha : a ∈ l.getLast?) : ∀ x ∈ l, before a x = false := by
  obtain ⟨front, rfl⟩ := List.getLast?_eq_some_iff.1 ha
  have hr := h.reverse
  rw [List.reverse_append] at hr
  have hs := h.mem a (by simp)
  intro x hx
  exact hr.forall_of_head ho.flip hs (ho.irrefl hs) x (by simpa [or_comm] using hx)

theorem isSorted_insertSorted (ho : IsWeakOrder before S) {l : List α} (h : IsSorted before S l)
    {x : α} (hx : S x) : IsSorted before S (insertSorted before l x) := by
  obtain ⟨front, back, rfl, hf, hb⟩ := h.exists_append_not_before ho hx
  have hk := isBoundary_append (fun y => !before x y) (by simpa using hf) (by simpa using hb)
  rw [insertSorted, placeFor, bisect_eq hk (by simp) (by simp) (by simp), List.take_left,
    List.drop_left]
  refine h.left.append (h.right.cons hx fun y hy => ?_) fun y hy z hz => ?_
  · exact ho.asymm hx (h.right.mem y hy) (hb y hy)
  · rcases List.mem_cons.1 hz with rfl | hz
    · exact hf y hy
    · exact h.cross y hy z hz

theorem isSorted_foldl_insertSorted (ho : IsWeakOrder before S) {l xs : List α}
    (h : IsSorted before S l) (hx : ∀ x ∈ xs, S x) :
    IsSorted before S (xs.foldl (insertSorted before) l) := by
  induction xs generalizing l with
  | nil => exact h
  | cons x xs ih =>
    exact ih (isSorted_insertSorted ho h (hx x (by simp))) fun y hy => hx y (by simp [hy])

/-- A run stays sorted if what follows an entry does not come before it. -/
theorem isSorted_extendRun (ho : IsWeakOrder before S) {follows : α → α → Bool}
    (hf : ∀ {a b}, S a → S b → follows b a = true → before a b = false) {taken l : List α} {last : α}
    (h : IsSorted before S (last :: taken)) (hl : ∀ x ∈ l, S x) :
    IsSorted before S (extendRun follows taken last l).1 := by
  induction l generalizing taken last with
  | nil => exact h
  | cons x l ih =>
    have hx := hl x (by simp)
    rw [extendRun]
    split
    · next hb =>
      refine ih (h.cons hx ?_) fun y hy => hl y (by simp [hy])
      exact h.forall_of_head ho hx (hf (h.mem last (by simp)) hx hb)
    · exact h

theorem isSorted_orderedStart (ho : IsWeakOrder before S) {l : List α} (hl : ∀ x ∈ l, S x) :
    IsSorted before S (orderedStart before l).1 := by
  match l with
  | [] => exact ⟨by simp [orderedStart], by simp [orderedStart]⟩
  | [x] => exact .singleton (hl x (by simp))
  | x :: y :: rest =>
    have hx := hl x (by simp)
    have hy := hl y (by simp)
    have hr : ∀ z ∈ rest, S z := fun z hz => hl z (by simp [hz])
    rw [orderedStart]
    split
    · next hb =>
      refine isSorted_extendRun ho (fun ha hb => ho.asymm hb ha) (.cons (.singleton hx) hy ?_) hr
      simpa using ho.asymm hy hx hb
    · next hb =>
      have hrun : IsSorted (fun a b => before b a) S
          (extendRun (fun a b => !before a b) [x] y rest).1 := by
        refine isSorted_extendRun ho.flip ?_ (.cons (.singleton hx) hy ?_) hr
        · simp
        · simpa using hb
      exact hrun.reverse

theorem isSorted_nextRun (ho : IsWeakOrder before S) (least : Nat) {l : List α}
    (hl : ∀ x ∈ l, S x) : IsSorted before S (nextRun before least l).1 := by
  refine isSorted_foldl_insertSorted ho (isSorted_orderedStart ho hl) fun x hx => hl x ?_
  exact (orderedStart_perm before l).mem_iff.1
    (List.mem_append_right _ (List.mem_of_mem_take hx))

theorem isSorted_of_mem_runs (ho : IsWeakOrder before S) (least : Nat) {l : List α}
    (hl : ∀ x ∈ l, S x) : ∀ run ∈ runs before least l, IsSorted before S run := by
  fun_induction runs before least l with
  | case1 => simp
  | case2 x xs ih =>
    intro run hr
    rcases List.mem_cons.1 hr with rfl | hr
    · exact isSorted_nextRun ho least hl
    · refine ih (fun y hy => hl y ?_) run hr
      exact (nextRun_perm before least (x :: xs)).mem_iff.1 (List.mem_append_right _ hy)

theorem extendRun_of_pairwise {follows : α → α → Bool} {last : α} {l : List α}
    (h : (last :: l).Pairwise fun a b => follows b a = true) (taken : List α) :
    extendRun follows taken last l = (l.reverse ++ last :: taken, []) := by
  induction l generalizing taken last with
  | nil => rfl
  | cons x l ih =>
    obtain ⟨hlast, hl⟩ := List.pairwise_cons.1 h
    rw [extendRun, if_pos (hlast x List.mem_cons_self), ih hl, List.reverse_cons, List.append_assoc]
    rfl

theorem orderedStart_of_pairwise {l : List α} (h : l.Pairwise fun a b => before b a = false) :
    orderedStart before l = (l, []) := by
  match l with
  | [] => rfl
  | [_] => rfl
  | x :: y :: rest =>
    obtain ⟨hx, hrest⟩ := List.pairwise_cons.1 h
    have hfollow : (y :: rest).Pairwise fun a b => (!before b a) = true :=
      hrest.imp fun hab => by rw [hab, Bool.not_false]
    rw [orderedStart, hx y List.mem_cons_self, if_neg Bool.false_ne_true,
      extendRun_of_pairwise hfollow]
    dsimp only
    rw [List.reverse_append, List.reverse_reverse]
    rfl

/-- A list in which no entry comes before one in front of it is a single run, whether the test is
an order or not. -/
theorem runs_of_pairwise {x : α} {l : List α}
    (h : (x :: l).Pairwise fun a b => before b a = false) (least : Nat) :
    runs before least (x :: l) = [x :: l] := by
  have hnext : nextRun before least (x :: l) = (x :: l, []) := by
    unfold nextRun
    rw [orderedStart_of_pairwise h]
    dsimp only
    rw [List.take_nil, List.drop_nil]
    rfl
  rw [runs, hnext, runs]

end TermMining.Order
