/-! Sets of characters, given as ascending ranges of code points. -/
namespace TermMining.Text

/-- Inclusive ranges of code points, in ascending order and without overlap. -/
abbrev CharSet := List (Nat × Nat)

namespace CharSet

/-- Stops at the first range that begins beyond the code point. -/
def has : CharSet → Nat → Bool
  | [], _ => false
  | (lo, hi) :: rest, n => if n < lo then false else n ≤ hi || has rest n

def contains (s : CharSet) (c : Char) : Bool := s.has c.toNat

theorem exists_of_has {s : CharSet} {n : Nat} (h : s.has n) : ∃ r ∈ s, r.1 ≤ n ∧ n ≤ r.2 := by
  induction s with
  | nil => simp [has] at h
  | cons r rest ih =>
    obtain ⟨lo, hi⟩ := r
    rw [has] at h
    split at h
    · cases h
    · next hlo =>
      rcases Bool.or_eq_true .. ▸ h with hhi | hrest
      · exact ⟨(lo, hi), by simp, Nat.le_of_not_lt hlo, by simpa using hhi⟩
      · obtain ⟨t, ht, hb⟩ := ih hrest
        exact ⟨t, List.mem_cons_of_mem _ ht, hb⟩

end CharSet
end TermMining.Text
