import TermMining.Order.Boundary

/-! Ordered runs of a list: stretches that are in order as they stand, or in strictly reversed order
and then turned round. A short one is filled up by insertion. -/
namespace TermMining.Order

variable {α : Type} (before : α → α → Bool)

/-- Splits off a start in which every entry follows the one in front of it, and puts it behind
`last :: taken`, which is read backwards. -/
def extendRun (follows : α → α → Bool) (taken : List α) (last : α) : List α → List α × List α
  | [] => (last :: taken, [])
  | x :: xs =>
    if follows x last then extendRun follows (last :: taken) x xs else (last :: taken, x :: xs)

/-- The start of a list that is in order already, or in strictly reversed order and then turned
round, and the rest. -/
def orderedStart : List α → List α × List α
  | [] => ([], [])
  | [x] => ([x], [])
  | x :: y :: rest =>
    if before y x then extendRun before [x] y rest
    else
      let r := extendRun (fun a b => !before a b) [x] y rest
      (r.1.reverse, r.2)

def placeFor (l : List α) (x : α) : Nat :=
  bisect (fun i => (l[i]?).any fun y => !before x y) 0 l.length

def insertSorted (l : List α) (x : α) : List α :=
  l.take (placeFor before l x) ++ x :: l.drop (placeFor before l x)

/-- Splits off an ordered run of at least `least` entries, or all there are. -/
def nextRun (least : Nat) (l : List α) : List α × List α :=
  let r := orderedStart before l
  let missing := least - r.1.length
  ((r.2.take missing).foldl (insertSorted before) r.1, r.2.drop missing)

theorem length_extendRun_le (follows : α → α → Bool) (taken : List α) (last : α) (l : List α) :
    (extendRun follows taken last l).2.length ≤ l.length := by
  induction l generalizing taken last with
  | nil => exact Nat.le_refl _
  | cons x xs ih =>
    rw [extendRun]
    split
    · exact Nat.le_succ_of_le (ih _ _)
    · exact Nat.le_refl _

theorem length_orderedStart_lt (x : α) (xs : List α) :
    (orderedStart before (x :: xs)).2.length < (x :: xs).length := by
  cases xs with
  | nil => simp [orderedStart]
  | cons y rest =>
    rw [orderedStart]
    split
    · have := length_extendRun_le before [x] y rest
      simp only [List.length_cons]
      omega
    · have := length_extendRun_le (fun a b => !before a b) [x] y rest
      simp only [List.length_cons]
      omega

theorem length_nextRun_lt (least : Nat) (x : α) (xs : List α) :
    (nextRun before least (x :: xs)).2.length < (x :: xs).length := by
  have := length_orderedStart_lt before x xs
  simp only [nextRun, List.length_drop]
  omega

theorem extendRun_append (follows : α → α → Bool) (taken : List α) (last : α) (l : List α) :
    let r := extendRun follows taken last l
    r.1.reverse ++ r.2 = taken.reverse ++ last :: l := by
  induction l generalizing taken last with
  | nil => simp [extendRun]
  | cons x xs ih =>
    rw [extendRun]
    split
    · simpa using ih (last :: taken) x
    · simp

theorem orderedStart_perm (l : List α) :
    ((orderedStart before l).1 ++ (orderedStart before l).2).Perm l := by
  match l with
  | [] => exact .rfl
  | [x] => exact .rfl
  | x :: y :: rest =>
    rw [orderedStart]
    split
    · have h := extendRun_append before [x] y rest
      dsimp only at h
      exact ((List.reverse_perm _).symm.append_right _).trans (.of_eq h)
    · exact .of_eq (extendRun_append _ [x] y rest)

theorem insertSorted_perm (l : List α) (x : α) : (insertSorted before l x).Perm (x :: l) := by
  refine List.perm_middle.trans (.cons x ?_)
  rw [List.take_append_drop]

theorem foldl_insertSorted_perm (l : List α) (xs : List α) :
    (xs.foldl (insertSorted before) l).Perm (l ++ xs) := by
  induction xs generalizing l with
  | nil => simp
  | cons x xs ih =>
    refine (ih _).trans (((insertSorted_perm before l x).append_right xs).trans ?_)
    exact List.perm_middle.symm

theorem nextRun_perm (least : Nat) (l : List α) :
    ((nextRun before least l).1 ++ (nextRun before least l).2).Perm l := by
  have h := (foldl_insertSorted_perm before (orderedStart before l).1
    ((orderedStart before l).2.take (least - (orderedStart before l).1.length))).append_right
    ((orderedStart before l).2.drop (least - (orderedStart before l).1.length))
  rw [List.append_assoc, List.take_append_drop] at h
  exact h.trans (orderedStart_perm before l)

def runs (least : Nat) : List α → List (List α)
  | [] => []
  | x :: xs =>
    (nextRun before least (x :: xs)).1 :: runs least (nextRun before least (x :: xs)).2
termination_by l => l.length
decreasing_by exact length_nextRun_lt before least x xs

theorem flatten_runs_perm (least : Nat) (l : List α) :
    (runs before least l).flatten.Perm l := by
  fun_induction runs before least l with
  | case1 => exact .rfl
  | case2 x xs ih => exact (ih.append_left _).trans (nextRun_perm before least (x :: xs))

end TermMining.Order
