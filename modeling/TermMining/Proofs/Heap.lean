import TermMining.Order.Heap
import TermMining.Order.Sorted

/-! Heaps of a weak order. Pushing an entry and replacing the first one keep a heap a heap, and no
entry of a heap comes before its first one. -/
namespace TermMining.Order.Heap

variable {α : Type} {before : α → α → Bool} {S : α → Prop}

/-- A heap but for the entry at `i`, which may come before its parent. -/
structure CanRise (before : α → α → Bool) {n : Nat} (a : Vector α n) (i : Nat) : Prop where
  others : ∀ j, (hj : j < n) → (hp : (j - 1) / 2 < n) → 0 < j → j ≠ i →
    before a[j] a[(j - 1) / 2] = false
  children : ∀ j, (hj : j < n) → (hp : (i - 1) / 2 < n) → 0 < j → (j - 1) / 2 = i → 0 < i →
    before a[j] a[(i - 1) / 2] = false

/-- A heap but for the entry at `i`, which may come before its parent or behind its children. -/
structure CanSettle (before : α → α → Bool) {n : Nat} (a : Vector α n) (i : Nat) : Prop where
  others : ∀ j, (hj : j < n) → (hp : (j - 1) / 2 < n) → 0 < j → j ≠ i → (j - 1) / 2 ≠ i →
    before a[j] a[(j - 1) / 2] = false
  children : ∀ j, (hj : j < n) → (hp : (i - 1) / 2 < n) → 0 < j → (j - 1) / 2 = i → 0 < i →
    before a[j] a[(i - 1) / 2] = false

theorem CanRise.swap (ho : IsWeakOrder before S) {n : Nat} {a : Vector α n} {i : Nat}
    (hS : ∀ x ∈ a, S x) (h : CanRise before a i) (hi : i < n) (hpos : 0 < i)
    (hb : before a[i] a[(i - 1) / 2] = true) :
    CanRise before (a.swap i ((i - 1) / 2)) ((i - 1) / 2) := by
  have hup : before a[(i - 1) / 2] a[i] = false := ho.asymm (hS _ (by simp)) (hS _ (by simp)) hb
  constructor
  · intro j hj hp hj0 hne
    rw [Vector.getElem_swap, Vector.getElem_swap]
    by_cases hji : j = i
    · subst hji
      rw [if_pos rfl, if_neg (by omega), if_pos rfl]
      exact hup
    · rw [if_neg hji, if_neg hne]
      by_cases hpi : (j - 1) / 2 = i
      · rw [if_pos hpi]
        exact h.children j hj (by omega) hj0 hpi hpos
      · rw [if_neg hpi]
        have hjp := h.others j hj hp hj0 hji
        by_cases hpp : (j - 1) / 2 = (i - 1) / 2
        · rw [if_pos hpp]
          simp only [hpp] at hjp
          exact ho.trans (hS _ (by simp)) (hS _ (by simp)) (hS _ (by simp)) hup hjp
        · rw [if_neg hpp]
          exact hjp
  · intro j hj hp hj0 hjp hp0
    rw [Vector.getElem_swap, Vector.getElem_swap, if_neg (by omega : ((i - 1) / 2 - 1) / 2 ≠ i),
      if_neg (by omega : ((i - 1) / 2 - 1) / 2 ≠ (i - 1) / 2)]
    have hpg := h.others ((i - 1) / 2) (by omega) hp hp0 (by omega)
    by_cases hji : j = i
    · rw [if_pos hji]
      exact hpg
    · rw [if_neg hji, if_neg (by omega)]
      have hj' := h.others j hj (by omega) hj0 hji
      simp only [hjp] at hj'
      exact ho.trans (hS _ (by simp)) (hS _ (by simp)) (hS _ (by simp)) hpg hj'

theorem isHeap_rise (ho : IsWeakOrder before S) {n : Nat} (a : Vector α n) (i : Nat) (hi : i < n)
    (hS : ∀ x ∈ a, S x) (h : CanRise before a i) : IsHeap before (rise before a i hi) := by
  fun_induction rise before a i hi with
  | case1 a hi => exact fun j hj hj0 => h.others j hj (by omega) hj0 (by omega)
  | case2 a i hi hne parent hp hb ih =>
    have hS' : ∀ x ∈ a.swap i parent, S x := fun x hx => hS x ((Vector.swap_perm _ _).mem_iff.1 hx)
    exact ih hS' (h.swap ho hS hi (by omega) hb)
  | case3 a i hi hne parent hp hb =>
    intro j hj hj0
    by_cases hji : j = i
    · subst hji
      simpa using hb
    · exact h.others j hj (by omega) hj0 hji

theorem parent_firstChild {n : Nat} (a : Vector α n) (i : Nat) (h : 2 * i + 1 < n) :
    ((firstChild before a i h).val - 1) / 2 = i := by
  unfold firstChild
  split
  · split <;> dsimp only <;> omega
  · dsimp only
    omega

theorem firstChild_least (ho : IsWeakOrder before S) {n : Nat} {a : Vector α n}
    (hS : ∀ x ∈ a, S x) (i : Nat) (h : 2 * i + 1 < n) (j : Nat) (hj : j < n) (hj0 : 0 < j)
    (hp : (j - 1) / 2 = i) (hc : (firstChild before a i h).val < n) :
    before a[j] a[(firstChild before a i h).val] = false := by
  have hside : j = 2 * i + 1 ∨ j = 2 * i + 2 := by omega
  unfold firstChild
  split
  · next hr =>
    split
    · next hb =>
      rcases hside with rfl | rfl
      · exact ho.irrefl (hS _ (by simp))
      · exact ho.asymm (hS _ (by simp)) (hS _ (by simp)) hb
    · next hb =>
      rcases hside with rfl | rfl
      · simpa using hb
      · exact ho.irrefl (hS _ (by simp))
  · obtain rfl : j = 2 * i + 1 := by omega
    exact ho.irrefl (hS _ (by simp))

theorem CanSettle.swap {n : Nat} {a : Vector α n} {i : Nat} (h : CanSettle before a i) (hi : i < n)
    {c : Nat} (hc : c < n) (hp : (c - 1) / 2 = i) (hlt : i < c)
    (hleast : ∀ j, (hj : j < n) → 0 < j → (j - 1) / 2 = i → before a[j] a[c] = false) :
    CanSettle before (a.swap i c) c := by
  constructor
  · intro j hj hjp hj0 hjc hpc
    rw [Vector.getElem_swap, Vector.getElem_swap, if_neg hpc]
    by_cases hji : j = i
    · subst hji
      rw [if_pos rfl, if_neg (by omega)]
      exact h.children c hc hjp (by omega) hp hj0
    · rw [if_neg hji, if_neg hjc]
      by_cases hpi : (j - 1) / 2 = i
      · rw [if_pos hpi]
        exact hleast j hj hj0 hpi
      · rw [if_neg hpi]
        exact h.others j hj hjp hj0 hji hpi
  · intro j hj hcp hj0 hjc _
    rw [Vector.getElem_swap, Vector.getElem_swap, if_neg (by omega : j ≠ i),
      if_neg (by omega : j ≠ c), if_pos hp]
    have hj' := h.others j hj (by omega) hj0 (by omega) (by omega)
    simpa only [hjc] using hj'

theorem CanSettle.canRise {n : Nat} {a : Vector α n} {i : Nat} (h : CanSettle before a i)
    (hn : ¬2 * i + 1 < n) : CanRise before a i :=
  ⟨fun j hj hp hj0 hji => h.others j hj hp hj0 hji (by omega), h.children⟩

theorem isHeap_settle (ho : IsWeakOrder before S) {n : Nat} (a : Vector α n) (i : Nat)
    (hi : i < n) (hS : ∀ x ∈ a, S x) (h : CanSettle before a i) :
    IsHeap before (settle before a i hi) := by
  fun_induction settle before a i hi with
  | case1 a i hi hlt c ih =>
    have hS' : ∀ x ∈ a.swap i c.val hi c.property.2, S x := fun x hx =>
      hS x ((Vector.swap_perm _ _).mem_iff.1 hx)
    have hnext := h.swap hi c.property.2 (parent_firstChild a i hlt) c.property.1
      fun j hj hj0 hp => firstChild_least ho hS i hlt j hj hj0 hp c.property.2
    exact ih hS' hnext
  | case2 a i hi hlt => exact isHeap_rise ho a i hi hS (h.canRise hlt)

theorem IsHeap.first_least (ho : IsWeakOrder before S) {n : Nat} {a : Vector α n}
    (hS : ∀ x ∈ a, S x) (h : IsHeap before a) (i : Nat) (hi : i < n) :
    before a[i] a[0] = false := by
  induction i using Nat.strongRecOn with
  | ind i ih =>
    by_cases hi0 : i = 0
    · subst hi0
      exact ho.irrefl (hS _ (by simp))
    · have hparent := ih ((i - 1) / 2) (by omega) (by omega)
      exact ho.trans (hS _ (by simp)) (hS _ (by simp)) (hS _ (by simp)) hparent
        (h i hi (by omega))

theorem isHeap_of_isSorted {l : List α} (h : IsSorted before S l) :
    IsHeap before l.toArray.toVector := by
  intro i hi hi0
  have hi : i < l.length := by simpa using hi
  simpa using List.pairwise_iff_getElem.1 h.pairwise ((i - 1) / 2) i (by omega) hi (by omega)

theorem isHeap_toVector_toArray {n : Nat} {a : Vector α n} (h : IsHeap before a) :
    IsHeap before a.toArray.toVector := by
  intro i hi hi0
  simpa using h i (by simpa using hi) hi0

theorem push_perm (before : α → α → Bool) (a : Array α) (x : α) :
    (push before a x).toList.Perm (x :: a.toList) := by
  have h := (rise_perm before (a.toVector.push x) a.size (by omega)).toList
  have hpushed : (a.toVector.push x).toList.Perm (x :: a.toList) := by simp
  exact h.trans hpushed

theorem push_of_not_before {a : Array α} {x : α} (h : ∀ y ∈ a, before x y = false) :
    push before a x = a.push x := by
  have hstay : rise before (a.toVector.push x) a.size (Nat.lt_succ_self _) = a.toVector.push x := by
    rw [rise]
    split
    · rfl
    · next hne =>
      have hparent : (a.size - 1) / 2 < a.size := by omega
      have hlast : (a.toVector.push x)[a.size] = x := Vector.getElem_push_last
      have hup : (a.toVector.push x)[(a.size - 1) / 2] = a[(a.size - 1) / 2] :=
        Vector.getElem_push_lt hparent
      dsimp only
      rw [hlast, hup, h _ (Array.getElem_mem hparent), if_neg Bool.false_ne_true]
  unfold push
  rw [hstay]
  rfl

theorem isHeap_push (ho : IsWeakOrder before S) {a : Array α} {x : α} (hS : ∀ y ∈ a, S y)
    (hx : S x) (h : IsHeap before a.toVector) : IsHeap before (push before a x).toVector := by
  have hS' : ∀ y ∈ a.toVector.push x, S y := by
    intro y hy
    rcases Vector.mem_push.1 hy with hy | rfl
    · exact hS y (by simpa using hy)
    · exact hx
  have hrise : CanRise before (a.toVector.push x) a.size := by
    constructor
    · intro j hj hp hj0 hne
      have hlt : j < a.size := by omega
      have hj' := h j hlt hj0
      simpa [Array.getElem_push, hlt, (by omega : (j - 1) / 2 < a.size)] using hj'
    · intro j hj hjp hj0 hp h0
      omega
  exact isHeap_toVector_toArray (isHeap_rise ho _ _ _ hS' hrise)

theorem replaceFirst_perm (before : α → α → Bool) {a : Array α} (h : 0 < a.size) (x : α) :
    (a[0] :: (replaceFirst before a x).toList).Perm (x :: a.toList) := by
  have hs := (settle_perm before (a.toVector.set 0 x) 0 h).toList
  rw [replaceFirst, dif_pos h]
  apply (hs.cons _).trans
  obtain ⟨l⟩ := a
  cases l with
  | nil => simp at h
  | cons y l => simpa using List.Perm.swap x y l

theorem isHeap_replaceFirst (ho : IsWeakOrder before S) {a : Array α} (hpos : 0 < a.size) {x : α}
    (hS : ∀ y ∈ a, S y) (hx : S x) (h : IsHeap before a.toVector) :
    IsHeap before (replaceFirst before a x).toVector := by
  rw [replaceFirst, dif_pos hpos]
  have hS' : ∀ y ∈ a.toVector.set 0 x, S y := by
    intro y hy
    rcases Vector.mem_or_eq_of_mem_set hy with hy | rfl
    · exact hS y (by simpa using hy)
    · exact hx
  have hsettle : CanSettle before (a.toVector.set 0 x) 0 := by
    constructor
    · intro j hj hjp hj0 hne hp
      rw [Vector.getElem_set_ne _ _ (by omega), Vector.getElem_set_ne _ _ (by omega)]
      exact h j hj hj0
    · intro j hj hjp hj0 hp h0
      omega
  exact isHeap_toVector_toArray (isHeap_settle ho _ _ _ hS' hsettle)

end TermMining.Order.Heap
