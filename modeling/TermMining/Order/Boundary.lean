/-! Searching for the place where a test that holds at first stops holding. What a search finds at
the places it looks at decides its answer, whatever the test may be. -/
namespace TermMining.Order

/-- The test holds at the places below `k` and at none from `k` to `n`. -/
def IsBoundary (p : Nat → Bool) (n k : Nat) : Prop :=
  k ≤ n ∧ (∀ i < k, p i = true) ∧ ∀ i, k ≤ i → i < n → p i = false

/-- Halves the places between `low` and `high`. -/
def bisect (p : Nat → Bool) (low high : Nat) : Nat :=
  if low < high then
    let middle := low + (high - low) / 2
    if p middle then bisect p (middle + 1) high else bisect p low middle
  else low
termination_by high - low

/-- The last distance at which the test was seen to hold, and one at which it was seen to fail or
which is out of reach. From each distance to the next it is twice as far and one more. -/
def doubling (p : Nat → Bool) (reach near far : Nat) : Nat × Nat :=
  if far < reach ∧ p far then doubling p reach far (2 * far + 1) else (near, min far reach)
termination_by reach - far

/-- Looks ever further away from `hint` among the first `n` places, and halves what is left. -/
def gallop (p : Nat → Bool) (n hint : Nat) : Nat :=
  if p hint then
    let d := doubling (fun i => p (hint + i)) (n - hint) 0 1
    bisect p (hint + d.1 + 1) (hint + d.2)
  else
    let d := doubling (fun i => !p (hint - i)) (hint + 1) 0 1
    bisect p (hint + 1 - d.2) (hint - d.1)

theorem bisect_eq {p : Nat → Bool} {n k low high : Nat} (h : IsBoundary p n k) (hl : low ≤ k)
    (hk : k ≤ high) (hn : high ≤ n) : bisect p low high = k := by
  fun_induction bisect p low high with
  | case1 low high hlt middle hp ih =>
    have hm : middle < k := by
      apply Nat.lt_of_not_le
      intro hle
      have := h.2.2 middle hle (by omega)
      simp_all
    exact ih (by omega) hk hn
  | case2 low high hlt middle hp ih =>
    have hm : k ≤ middle := by
      apply Nat.le_of_not_lt
      intro hlt
      exact hp (h.2.1 middle hlt)
    exact ih hl hm (by omega)
  | case3 low high hlt => omega

theorem doubling_spec (p : Nat → Bool) (reach : Nat) {near far : Nat} (hnear : near < far)
    (hreach : near < reach) (h : near = 0 ∨ p near = true) :
    let d := doubling p reach near far
    d.1 < d.2 ∧ d.2 ≤ reach ∧ (d.1 = 0 ∨ p d.1 = true) ∧ (d.2 = reach ∨ p d.2 = false) := by
  fun_induction doubling p reach near far with
  | case1 near far hc ih => exact ih (by omega) hc.1 (Or.inr hc.2)
  | case2 near far hc =>
    refine ⟨by dsimp only; omega, by dsimp only; omega, h, ?_⟩
    dsimp only
    by_cases hlt : far < reach
    · rw [Nat.min_eq_left (by omega)]
      exact Or.inr (by simpa [hlt] using hc)
    · exact Or.inl (by omega)

/-- A boundary is found from wherever the search begins. -/
theorem gallop_eq {p : Nat → Bool} {n k hint : Nat} (h : IsBoundary p n k) (hn : hint < n) :
    gallop p n hint = k := by
  have below : ∀ i < n, p i = true → i < k := fun i hi hp => by
    apply Nat.lt_of_not_le
    intro hle
    simp [h.2.2 i hle hi] at hp
  have above : ∀ i, p i = false → k ≤ i := fun i hp => by
    apply Nat.le_of_not_lt
    intro hlt
    simp [h.2.1 i hlt] at hp
  unfold gallop
  split
  · next hp =>
    obtain ⟨h₁, h₂, h₃, h₄⟩ :=
      doubling_spec (fun i => p (hint + i)) (n - hint) Nat.zero_lt_one (by omega) (Or.inl rfl)
    dsimp only at h₁ h₂ h₃ h₄ ⊢
    generalize doubling (fun i => p (hint + i)) (n - hint) 0 1 = d at *
    refine bisect_eq h ?_ ?_ (by omega)
    · have : hint + d.1 < k := by
        rcases h₃ with h₃ | h₃
        · rw [h₃]
          exact below hint hn hp
        · exact below _ (by omega) h₃
      omega
    · rcases h₄ with h₄ | h₄
      · have := h.1
        omega
      · exact above _ h₄
  · next hp =>
    obtain ⟨h₁, h₂, h₃, h₄⟩ :=
      doubling_spec (fun i => !p (hint - i)) (hint + 1) Nat.zero_lt_one (by omega) (Or.inl rfl)
    dsimp only at h₁ h₂ h₃ h₄ ⊢
    generalize doubling (fun i => !p (hint - i)) (hint + 1) 0 1 = d at *
    refine bisect_eq h ?_ ?_ (by omega)
    · rcases h₄ with h₄ | h₄
      · omega
      · have := below (hint - d.2) (by omega) (by simpa using h₄)
        omega
    · rcases h₃ with h₃ | h₃
      · rw [h₃]
        exact above hint (by simpa using hp)
      · exact above _ (by simpa using h₃)

end TermMining.Order
