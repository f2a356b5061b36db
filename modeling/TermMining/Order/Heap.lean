/-! Binary heaps in arrays, with the least entry first. The test `before` may be any relation; the
heap property is claimed only of strict weak orders. -/
namespace TermMining.Order.Heap

variable {α : Type} (before : α → α → Bool)

/-- Lets the entry at `i` change places with its parent as long as it comes before it. -/
def rise {n : Nat} (a : Vector α n) (i : Nat) (hi : i < n) : Vector α n :=
  if h : i = 0 then a
  else
    let parent := (i - 1) / 2
    have hp : parent < i := by omega
    if before a[i] a[parent] then rise (a.swap i parent) parent (by omega) else a
termination_by i

/-- The child of `i` that comes first; of two that are level the right one. -/
def firstChild {n : Nat} (a : Vector α n) (i : Nat) (h : 2 * i + 1 < n) :
    { c : Nat // i < c ∧ c < n } :=
  if hr : 2 * i + 2 < n then
    if before a[2 * i + 1] a[2 * i + 2] then ⟨2 * i + 1, by omega⟩ else ⟨2 * i + 2, by omega⟩
  else ⟨2 * i + 1, by omega⟩

/-- Lets the entry at `i` change places with its first child down to the bottom, and from there
rise to where it belongs. -/
def settle {n : Nat} (a : Vector α n) (i : Nat) (hi : i < n) : Vector α n :=
  if h : 2 * i + 1 < n then
    let c := firstChild before a i h
    settle (a.swap i c.val hi c.property.2) c.val c.property.2
  else rise before a i hi
termination_by n - i
decreasing_by
  have := (firstChild before a i h).property
  omega

def push (a : Array α) (x : α) : Array α :=
  (rise before (a.toVector.push x) a.size (by omega)).toArray

def replaceFirst (a : Array α) (x : α) : Array α :=
  if h : 0 < a.size then (settle before (a.toVector.set 0 x) 0 h).toArray else a

def IsHeap {n : Nat} (a : Vector α n) : Prop :=
  ∀ i, (hi : i < n) → 0 < i → before a[i] a[(i - 1) / 2] = false

theorem rise_perm {n : Nat} (a : Vector α n) (i : Nat) (hi : i < n) :
    (rise before a i hi).Perm a := by
  fun_induction rise before a i hi with
  | case1 => exact .rfl
  | case2 a i hi h parent hp hb ih => exact ih.trans (Vector.swap_perm _ _)
  | case3 => exact .rfl

theorem settle_perm {n : Nat} (a : Vector α n) (i : Nat) (hi : i < n) :
    (settle before a i hi).Perm a := by
  fun_induction settle before a i hi with
  | case1 a i hi h c ih => exact ih.trans (Vector.swap_perm _ _)
  | case2 => exact rise_perm ..

end TermMining.Order.Heap
