import TermMining.Number.Layout

/-! The characters that doubles are written with, and which doubles count as the same number: only
the two zeros do. -/
namespace TermMining.Number

def IsFigure (c : Char) : Prop :=
  c.isDigit = true ∨ c ∈ ['.', 'e', '+', '-', 'i', 'n', 'f', 'a']

namespace Layout

theorem isFigure_of_mem_zeros {n : Nat} {c : Char} (h : c ∈ zeros n) : IsFigure c := by
  rw [List.eq_of_mem_replicate h]
  exact Or.inl rfl

variable {digits : List Char} (hdigits : ∀ c ∈ digits, IsFigure c)

include hdigits

theorem isFigure_of_mem_positional {lead : Int} {c : Char} (h : c ∈ positional digits lead) :
    IsFigure c := by
  have hpoint : IsFigure '.' := Or.inr (by simp)
  unfold positional at h
  dsimp only at h
  split at h
  · rcases List.mem_cons.1 h with rfl | h
    · exact Or.inl rfl
    rcases List.mem_cons.1 h with rfl | h
    · exact hpoint
    rcases List.mem_append.1 h with h | h
    · exact isFigure_of_mem_zeros h
    · exact hdigits c h
  · split at h
    · rcases List.mem_append.1 h with h | h
      · rcases List.mem_append.1 h with h | h
        · exact hdigits c h
        · exact isFigure_of_mem_zeros h
      · rcases List.mem_cons.1 h with rfl | h
        · exact hpoint
        · rw [List.mem_singleton.1 h]
          exact Or.inl rfl
    · rcases List.mem_append.1 h with h | h
      · exact hdigits c (List.mem_of_mem_take h)
      · rcases List.mem_cons.1 h with rfl | h
        · exact hpoint
        · exact hdigits c (List.mem_of_mem_drop h)

theorem isFigure_of_mem_scientific (l : Layout) {lead : Int} {c : Char}
    (h : c ∈ l.scientific digits lead) : IsFigure c := by
  unfold scientific at h
  dsimp only at h
  rcases List.mem_append.1 h with h | h
  · split at h
    · next d e rest =>
      simp only [List.mem_cons] at h hdigits
      rcases h with rfl | rfl | h
      · exact hdigits c (Or.inl rfl)
      · exact Or.inr (by simp)
      · exact hdigits c (Or.inr h)
    · exact hdigits c h
  · rcases List.mem_cons.1 h with rfl | h
    · exact Or.inr (by simp)
    rcases List.mem_cons.1 h with rfl | h
    · split <;> exact Or.inr (by simp)
    rcases List.mem_append.1 h with h | h
    · exact isFigure_of_mem_zeros h
    · exact Or.inl (Nat.isDigit_of_mem_toDigits (by decide) (by decide) h)

end Layout

theorem isFigure_of_mem_text {x : Float} {c : Char} (h : c ∈ (text x).toList) : IsFigure c := by
  have hdigits (n : Nat) : ∀ c ∈ Nat.toDigits 10 n, IsFigure c := fun c hc =>
    Or.inl (Nat.isDigit_of_mem_toDigits (by decide) (by decide) hc)
  have hwords : ∀ word ∈ ["-", "", "nan", "inf"], ∀ c ∈ word.toList,
      c ∈ ['.', 'e', '+', '-', 'i', 'n', 'f', 'a'] := by simp
  have hword (word : String) (hw : word ∈ ["-", "", "nan", "inf"]) (hc : c ∈ word.toList) :
      IsFigure c := Or.inr (hwords word hw c hc)
  have hsign (hc : c ∈ (if isNegative x then "-" else "").toList) : IsFigure c := by
    split at hc
    · exact hword "-" (by simp) hc
    · exact hword "" (by simp) hc
  unfold text Layout.write at h
  dsimp only at h
  split at h
  · exact hword "nan" (by simp) h
  · split at h
    · rw [String.toList_append] at h
      rcases List.mem_append.1 h with h | h
      · exact hsign h
      · exact hword "inf" (by simp) h
    · rw [String.toList_append, String.toList_ofList] at h
      rcases List.mem_append.1 h with h | h
      · exact hsign h
      · unfold Layout.magnitudeChars at h
        dsimp only at h
        split at h
        · simp only [List.mem_cons, List.not_mem_nil, or_false] at h
          rcases h with rfl | rfl | rfl
          · exact Or.inl rfl
          · exact Or.inr (by simp)
          · exact Or.inl rfl
        · split at h
          · exact Layout.isFigure_of_mem_positional (hdigits _) h
          · exact Layout.isFigure_of_mem_scientific (hdigits _) _ h

/-- A double other than zero is the same number as no other. -/
theorem eq_of_same {x y : Float} (hy : magnitude y ≠ 0) (h : same x y = true) : x = y := by
  have hbits : x.toBits.toNat = y.toBits.toNat := by
    have hx := x.toBits.toNat_lt
    have hlt := y.toBits.toNat_lt
    unfold same place? at h
    unfold magnitude isNegative at *
    simp only [Nat.reduceShiftLeft] at *
    split at h
    · next i j hi hj =>
      simp only [Option.ite_none_left_eq_some, Option.some.injEq, decide_eq_true_eq] at hi hj
      obtain ⟨-, rfl⟩ := hi
      obtain ⟨-, rfl⟩ := hj
      have hsame := eq_of_beq h
      split at hsame <;> split at hsame <;> omega
    · cases h
  obtain ⟨⟨a, _⟩⟩ := x
  obtain ⟨⟨b, _⟩⟩ := y
  obtain rfl : a = b := UInt64.toNat_inj.1 hbits
  rfl

theorem same_one_iff (x : Float) : same x 1 = true ↔ x = 1 := by
  constructor
  · exact eq_of_same (by decide)
  · rintro rfl
    decide

end TermMining.Number
