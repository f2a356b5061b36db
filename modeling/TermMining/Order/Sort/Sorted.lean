import TermMining.Order.Merge.Sorted
import TermMining.Order.Sort

/-! What is sorted by a weak order ascends. By any other test a list that ascends as it stands is
left alone. -/
namespace TermMining.Order

variable {α : Type} {before : α → α → Bool} {S : α → Prop}

namespace Sorting

/-- The runs found so far are sorted, each by itself. -/
structure HasSortedRuns (before : α → α → Bool) (S : α → Prop) (s : Sorting α) : Prop where
  last : IsSorted before S s.last
  earlier : ∀ w ∈ s.earlier, IsSorted before S w.entries

theorem hasSortedRuns_settle (ho : IsWeakOrder before S) (depth patience : Nat) {last : List α}
    {earlier : List (Waiting α)} (hl : IsSorted before S last)
    (he : ∀ w ∈ earlier, IsSorted before S w.entries) :
    (settle before depth patience last earlier).HasSortedRuns before S := by
  induction earlier generalizing patience last with
  | nil => exact ⟨hl, he⟩
  | cons w earlier ih =>
    rw [settle]
    split
    · exact ih _ (isSorted_merge ho patience (he w (by simp)) hl) fun v hv => he v (by simp [hv])
    · exact ⟨hl, he⟩

theorem HasSortedRuns.add {s : Sorting α} (h : s.HasSortedRuns before S)
    (ho : IsWeakOrder before S) (total : Nat) {run : List α} (hr : IsSorted before S run) :
    (s.add before total run).HasSortedRuns before S := by
  have hs := hasSortedRuns_settle ho
    (Order.depth total ((s.earlier.map (·.entries.length)).foldr (· + ·) 0) s.last.length
      run.length)
    s.patience h.last h.earlier
  refine ⟨hr, fun w hw => ?_⟩
  rcases List.mem_cons.1 hw with rfl | hw
  · exact hs.last
  · exact hs.earlier w hw

theorem HasSortedRuns.foldl_add {s : Sorting α} (h : s.HasSortedRuns before S)
    (ho : IsWeakOrder before S) (total : Nat) {rest : List (List α)}
    (hr : ∀ run ∈ rest, IsSorted before S run) :
    (rest.foldl (Sorting.add before total) s).HasSortedRuns before S := by
  induction rest generalizing s with
  | nil => exact h
  | cons run rest ih =>
    exact ih (h.add ho total (hr run (by simp))) fun l hl => hr l (by simp [hl])

theorem isSorted_collapse (ho : IsWeakOrder before S) (patience : Nat) {last : List α}
    {earlier : List (List α)} (hl : IsSorted before S last)
    (he : ∀ l ∈ earlier, IsSorted before S l) :
    IsSorted before S (collapse before patience last earlier) := by
  fun_induction collapse before patience last earlier with
  | case1 => exact hl
  | case2 patience last left => exact isSorted_merge ho patience (he left (by simp)) hl
  | case3 patience last middle left earlier hlt r ih =>
    refine ih hl fun l hm => ?_
    rcases List.mem_cons.1 hm with rfl | hm
    · exact isSorted_merge ho patience (he left (by simp)) (he middle (by simp))
    · exact he l (by simp [hm])
  | case4 patience last middle left earlier hlt r ih =>
    exact ih (isSorted_merge ho patience (he middle (by simp)) hl) fun l hm =>
      he l (List.mem_cons_of_mem _ hm)

theorem HasSortedRuns.isSorted_toList {s : Sorting α} (h : s.HasSortedRuns before S)
    (ho : IsWeakOrder before S) : IsSorted before S (s.toList before) := by
  refine isSorted_collapse ho s.patience h.last fun l hl => ?_
  obtain ⟨w, hw, rfl⟩ := List.mem_map.1 hl
  exact h.earlier w hw

end Sorting

theorem isSorted_sort (ho : IsWeakOrder before S) {l : List α} (hl : ∀ a ∈ l, S a) :
    IsSorted before S (sort before l) := by
  have hr := isSorted_of_mem_runs ho (leastRun l.length) hl
  unfold sort
  split
  · exact ⟨by simp, by simp⟩
  · next run rest h =>
    rw [h] at hr
    have hs : Sorting.HasSortedRuns before S { last := run } := ⟨hr run (by simp), by simp⟩
    exact (hs.foldl_add ho _ fun l hm => hr l (by simp [hm])).isSorted_toList ho

/-- A list is left as it stands if no entry comes before one in front of it. -/
theorem sort_of_pairwise {l : List α} (h : l.Pairwise fun a b => before b a = false) :
    sort before l = l := by
  unfold sort
  cases l with
  | nil => rw [runs]
  | cons x l =>
    rw [runs_of_pairwise h]
    dsimp only [List.foldl_nil]
    unfold Sorting.toList
    rw [List.map_nil, Sorting.collapse]

end TermMining.Order
