import TermMining.Order.Merge
import TermMining.Order.Runs

/-! A stable sort that cuts a list into ordered runs and merges them along a nearly balanced tree.
By a test that is no strict weak order the outcome is some rearrangement, which only the results of
the comparisons decide. -/
namespace TermMining.Order

variable {α : Type} (before : α → α → Bool)

/-- The least length of a run: lists below 64 entries are one run, and longer ones make a power
of two of runs or a little less. -/
def leastRun (n : Nat) : Nat :=
  let parts := 1 <<< (n.log2 - 5)
  (n + parts - 1) / parts

/-- The depth in the tree of merges at which two neighbouring runs of a list come together: the
first binary place in which their middles differ, as fractions of the whole length. -/
def depth (total start left right : Nat) : Nat :=
  let a := 2 * start + left
  let b := a + left + right
  ((List.range (total.log2 + 1)).find? fun k => a <<< k / total != b <<< k / total).getD 0

/-- A run that waits to be merged, and the depth at which it meets the run after it. -/
structure Waiting (α : Type) where
  entries : List α
  depth : Nat

/-- A sort under way: the run found last and the runs in front of it, the nearest one first. -/
structure Sorting (α : Type) where
  last : List α
  earlier : List (Waiting α) := []
  patience : Nat := Merging.leastLead

namespace Sorting

def entries (s : Sorting α) : List α := s.last ++ s.earlier.flatMap Waiting.entries

/-- Merges the last run with those in front of it as long as they meet deeper than `depth`. -/
def settle (depth patience : Nat) (last : List α) : List (Waiting α) → Sorting α
  | [] => { last, patience }
  | w :: earlier =>
    if depth < w.depth then
      let r := merge before patience w.entries last
      settle depth r.1 r.2 earlier
    else { last, earlier := w :: earlier, patience }

def add (total : Nat) (s : Sorting α) (run : List α) : Sorting α :=
  let start := (s.earlier.map (·.entries.length)).foldr (· + ·) 0
  let depth := depth total start s.last.length run.length
  let s := settle before depth s.patience s.last s.earlier
  { s with last := run, earlier := ⟨s.last, depth⟩ :: s.earlier }

/-- Merges all runs, beginning with the last ones; the second last goes with the shorter of its
neighbours. -/
def collapse (patience : Nat) (last : List α) : List (List α) → List α
  | [] => last
  | [left] => (merge before patience left last).2
  | middle :: left :: earlier =>
    if left.length < last.length then
      let r := merge before patience left middle
      collapse r.1 last (r.2 :: earlier)
    else
      let r := merge before patience middle last
      collapse r.1 r.2 (left :: earlier)
termination_by earlier => earlier.length

def toList (s : Sorting α) : List α :=
  collapse before s.patience s.last (s.earlier.map (·.entries))

theorem entries_settle_perm (depth patience : Nat) (last : List α)
    (earlier : List (Waiting α)) :
    (settle before depth patience last earlier).entries.Perm
      (last ++ earlier.flatMap Waiting.entries) := by
  induction earlier generalizing patience last with
  | nil => exact .rfl
  | cons w earlier ih =>
    rw [settle]
    split
    · refine (ih _ _).trans (((merge_perm before patience w.entries last).append_right _).trans ?_)
      rw [List.append_assoc, List.flatMap_cons]
      exact List.perm_append_comm_assoc ..
    · exact .rfl

theorem entries_add_perm (total : Nat) (s : Sorting α) (run : List α) :
    (s.add before total run).entries.Perm (run ++ s.entries) := by
  simp only [add, entries, List.flatMap_cons]
  exact (entries_settle_perm ..).append_left _

theorem collapse_perm (patience : Nat) (last : List α) (earlier : List (List α)) :
    (collapse before patience last earlier).Perm (last ++ earlier.flatten) := by
  fun_induction collapse before patience last earlier with
  | case1 patience last => simp
  | case2 patience last left =>
    simpa using (merge_perm before patience left last).trans List.perm_append_comm
  | case3 patience last middle left earlier hlt r ih =>
    refine ih.trans (.append_left _ ?_)
    simp only [List.flatten_cons]
    refine ((merge_perm before patience left middle).append_right _).trans ?_
    rw [List.append_assoc]
    exact List.perm_append_comm_assoc ..
  | case4 patience last middle left earlier hlt r ih =>
    refine ih.trans (((merge_perm before patience middle last).append_right _).trans ?_)
    simp only [List.flatten_cons, List.append_assoc]
    exact List.perm_append_comm_assoc ..

theorem toList_perm (s : Sorting α) : (s.toList before).Perm s.entries := by
  simpa [toList, entries, List.flatMap] using collapse_perm before ..

theorem entries_foldl_add_perm (total : Nat) (s : Sorting α) (rest : List (List α)) :
    (rest.foldl (add before total) s).entries.Perm (s.entries ++ rest.flatten) := by
  induction rest generalizing s with
  | nil => simp
  | cons run rest ih =>
    refine (ih _).trans (((entries_add_perm before total s run).append_right _).trans ?_)
    rw [List.append_assoc, List.flatten_cons]
    exact List.perm_append_comm_assoc ..

end Sorting

def sort (l : List α) : List α :=
  match runs before (leastRun l.length) l with
  | [] => []
  | run :: rest => (rest.foldl (Sorting.add before l.length) { last := run }).toList before

/-- Sorting loses no entry and adds none, whatever the test may be. -/
theorem sort_perm (l : List α) : (sort before l).Perm l := by
  have h := flatten_runs_perm before (leastRun l.length) l
  unfold sort
  split
  · next hr =>
    rw [hr] at h
    exact h
  · next run rest hr =>
    rw [hr] at h
    refine (Sorting.toList_perm ..).trans ((Sorting.entries_foldl_add_perm ..).trans ?_)
    simpa [Sorting.entries] using h

/-- Sorts from last to first; entries that are level keep their order. -/
def sortDescending (l : List α) : List α := (sort before l.reverse).reverse

theorem sortDescending_perm (l : List α) : (sortDescending before l).Perm l :=
  (List.reverse_perm _).trans ((sort_perm before _).trans (List.reverse_perm l))

end TermMining.Order
