import TermMining.Order.Boundary

/-! Merging two ordered runs, from the end where the shorter one stands. Entries are taken one by
one until one run has been ahead so often that it is worth galloping: taking all entries up to the
place of the other run's next one. -/
namespace TermMining.Order

variable {α : Type}

/-- The end of the runs at which a merge begins. -/
inductive Direction where
  | forward
  | backward
  deriving DecidableEq, Repr

/-- How many entries pass a test that holds at first. The list is read from the end at which the
merge begins, and the search starts there. -/
def Direction.count (d : Direction) (test : α → Bool) (l : List α) : Nat :=
  match d with
  | forward => gallop (fun i => (l[i]?).any test) l.length 0
  | backward =>
    l.length - gallop (fun i => !(l[l.length - 1 - i]?).any test) l.length (l.length - 1)

inductive Side where
  | short
  | long
  deriving DecidableEq, Repr

def Side.other : Side → Side
  | short => long
  | long => short

/-- A merge under way, read from the end at which it began; `taken` is read backwards. The last
entry of `short` is known to come after all others. -/
structure Merging (α : Type) where
  taken : List α := []
  short : List α
  long : List α

namespace Merging

def isOpen (s : Merging α) : Bool :=
  match s.short, s.long with
  | _ :: _ :: _, _ :: _ => true
  | _, _ => false

def take (s : Merging α) : Side → Nat → Merging α
  | .short, n => { s with taken := (s.short.take n).reverse ++ s.taken, short := s.short.drop n }
  | .long, n => { s with taken := (s.long.take n).reverse ++ s.taken, long := s.long.drop n }

def toList (s : Merging α) : List α := s.taken.reverse ++ (s.long ++ s.short)

def remaining (s : Merging α) : Nat := s.short.length + s.long.length

variable (d : Direction) (ahead : α → α → Bool)

/-- Whose turn it is. An entry of the longer run has to be ahead of the shorter run's. -/
def winner (s : Merging α) : Side :=
  match s.short, s.long with
  | x :: _, y :: _ => if ahead y x then .long else .short
  | _, _ => .short

/-- How many entries of one run come in front of the other run's next one. -/
def lead (s : Merging α) : Side → Nat
  | .short => s.long.head?.elim 0 fun y => d.count (fun x => !ahead y x) s.short
  | .long => s.short.head?.elim 0 fun x => d.count (fun y => ahead y x) s.long

/-- Takes the lead of one run and then the next entry of the other, as long as there is anything
to compare; says how many entries the lead had. -/
def surge (s : Merging α) (side : Side) : Nat × Merging α :=
  if s.isOpen then
    let n := s.lead d ahead side
    let t := s.take side n
    (n, if t.isOpen then t.take side.other 1 else t)
  else (0, s)

theorem remaining_take_le (s : Merging α) (side : Side) (n : Nat) :
    (s.take side n).remaining ≤ s.remaining := by
  cases side <;> simp only [take, remaining, List.length_drop] <;> omega

theorem remaining_take_one_lt {s : Merging α} (h : s.isOpen) (side : Side) :
    (s.take side 1).remaining < s.remaining := by
  unfold isOpen at h
  split at h
  · next hs hl => cases side <;> simp [take, remaining, hs, hl]
  · cases h

theorem remaining_surge_le (s : Merging α) (side : Side) :
    (s.surge d ahead side).2.remaining ≤ s.remaining := by
  unfold surge
  split
  · dsimp only
    split
    · exact Nat.le_trans (remaining_take_le _ _ _) (remaining_take_le _ _ _)
    · exact remaining_take_le _ _ _
  · exact Nat.le_refl _

theorem remaining_surge_lt {s : Merging α} (side : Side)
    (h : (s.surge d ahead side).2.isOpen) :
    (s.surge d ahead side).2.remaining < s.remaining := by
  unfold surge at *
  split at h
  · next hs =>
    dsimp only at h ⊢
    split at h
    · next ht =>
      simp only [hs, if_true, ht]
      exact Nat.lt_of_lt_of_le (remaining_take_one_lt ht _) (remaining_take_le _ _ _)
    · next ht => exact absurd h ht
  · next hs => exact absurd h hs

/-- How a merge proceeds: one by one, with the run that was ahead and how often in a row, or
galloping. -/
inductive Pace where
  | walk (side : Side) (streak : Nat)
  | gallop

def leastLead : Nat := 7

/-- The run at the left gallops first, wherever the merge began. -/
def firstSide : Direction → Side
  | .forward => .short
  | .backward => .long

/-- Runs a merge to its end. A streak as long as `patience` starts a gallop. Patience sinks by
one with every further round of a gallop and grows by one when it ends; what is left of it serves
the next merge. -/
def finish (pace : Pace) (patience : Nat) (s : Merging α) : Nat × Merging α :=
  if _ : s.isOpen then
    match pace with
    | .walk side streak =>
      let winner := s.winner ahead
      let streak := if winner = side then streak + 1 else 1
      finish (if patience ≤ streak then .gallop else .walk winner streak) patience
        (s.take winner 1)
    | .gallop =>
      let a := s.surge d ahead (firstSide d)
      let b := a.2.surge d ahead (firstSide d).other
      if hb : b.2.isOpen then
        if leastLead ≤ a.1 ∨ leastLead ≤ b.1 then finish .gallop (max 1 (patience - 1)) b.2
        else finish (.walk .short 0) (patience + 1) b.2
      else (patience, b.2)
  else (patience, s)
termination_by s.remaining
decreasing_by
  · exact remaining_take_one_lt ‹_› _
  · exact Nat.lt_of_lt_of_le (remaining_surge_lt d ahead _ hb) (remaining_surge_le d ahead _ _)
  · exact Nat.lt_of_lt_of_le (remaining_surge_lt d ahead _ hb) (remaining_surge_le d ahead _ _)

theorem toList_take_perm (s : Merging α) (side : Side) (n : Nat) :
    (s.take side n).toList.Perm s.toList := by
  cases side with
  | long =>
    simp only [take, toList, List.reverse_append, List.reverse_reverse, List.append_assoc]
    rw [← List.append_assoc (s.long.take n), List.take_append_drop]
  | short =>
    simp only [take, toList, List.reverse_append, List.reverse_reverse, List.append_assoc]
    refine .append_left _ ((List.perm_append_comm_assoc ..).trans (.append_left _ ?_))
    rw [List.take_append_drop]

theorem toList_surge_perm (s : Merging α) (side : Side) :
    (s.surge d ahead side).2.toList.Perm s.toList := by
  unfold surge
  split
  · dsimp only
    split
    · exact (toList_take_perm _ _ _).trans (toList_take_perm _ _ _)
    · exact toList_take_perm _ _ _
  · exact .rfl

theorem toList_finish_perm (pace : Pace) (patience : Nat) (s : Merging α) :
    (finish d ahead pace patience s).2.toList.Perm s.toList := by
  fun_induction finish d ahead pace patience s with
  | case1 patience s h side streak winner streak' ih => exact ih.trans (toList_take_perm _ _ _)
  | case2 patience s h a b hb hl ih =>
    exact ih.trans ((toList_surge_perm ..).trans (toList_surge_perm ..))
  | case3 patience s h a b hb hl ih =>
    exact ih.trans ((toList_surge_perm ..).trans (toList_surge_perm ..))
  | case4 patience s h a b hb => exact (toList_surge_perm ..).trans (toList_surge_perm ..)
  | case5 => exact .rfl

/-- A whole merge. The first entry of the longer run is known to be ahead. -/
def run (patience : Nat) (short long : List α) : Nat × List α :=
  let r := finish d ahead (.walk .short 0) patience ({ short, long : Merging α }.take .long 1)
  (r.1, r.2.toList)

theorem run_perm (patience : Nat) (short long : List α) :
    (run d ahead patience short long).2.Perm (long ++ short) :=
  (toList_finish_perm ..).trans (toList_take_perm ..)

end Merging

variable (before : α → α → Bool)

/-- Merges two runs neither of which is out of place at its ends. -/
def mergeInner (patience : Nat) (left right : List α) : Nat × List α :=
  if left.length ≤ right.length then Merging.run .forward before patience left right
  else
    let r := Merging.run .backward (fun y x => before x y) patience right.reverse left.reverse
    (r.1, r.2.reverse)

/-- How many entries of the left run stand in front of the whole right one. -/
def inFront (left right : List α) : Nat :=
  right.head?.elim 0 fun y => Direction.forward.count (fun x => !before y x) left

/-- How many entries of the right run do not stand behind the whole left one. -/
def notBehind (left right : List α) : Nat :=
  right.length -
    left.getLast?.elim 0 fun x => Direction.backward.count (fun y => !before y x) right.reverse

/-- Merges two runs. Entries of the left one that stand in front of the right one stay where they
are, and so do entries of the right one that stand behind the left one. -/
def merge (patience : Nat) (left right : List α) : Nat × List α :=
  let m := inFront before left right
  let n := notBehind before left right
  if m < left.length ∧ 0 < n then
    let r := mergeInner before patience (left.drop m) (right.take n)
    (r.1, left.take m ++ (r.2 ++ right.drop n))
  else (patience, left ++ right)

theorem mergeInner_perm (patience : Nat) (left right : List α) :
    (mergeInner before patience left right).2.Perm (left ++ right) := by
  unfold mergeInner
  split
  · exact (Merging.run_perm ..).trans List.perm_append_comm
  · refine (List.reverse_perm _).trans ((Merging.run_perm ..).trans ?_)
    exact (List.reverse_perm left).append (List.reverse_perm right)

theorem merge_perm (patience : Nat) (left right : List α) :
    (merge before patience left right).2.Perm (left ++ right) := by
  unfold merge
  dsimp only
  split
  · refine ((((mergeInner_perm ..).append_right _).append_left _).trans (.of_eq ?_))
    rw [List.append_assoc, List.take_append_drop, ← List.append_assoc, List.take_append_drop]
  · exact .rfl

end TermMining.Order
