import Mathlib.Data.Option.NAry
import TermMining.Proofs.Weight.Real

/-! Real numbers with a quotient only where the divisor is not zero. A computation that ends in a
number has divided by zero nowhere. -/
namespace TermMining

noncomputable section

open Classical in
instance : Weight (Option ℝ) where
  zero := some Weight.zero
  half := some Weight.half
  one := some Weight.one
  add := Option.map₂ Weight.add
  mul := Option.map₂ Weight.mul
  div x y := do
    let a ← x
    let b ← y
    if b = 0 then none else some (Weight.div a b)
  ofInt n := (Weight.ofInt n).map some
  quotient m n := (Weight.quotient m n).map some
  log x := x.elim (.ok none) fun a => (Weight.log a).map some
  less x y := (Option.map₂ Weight.less x y).getD false
  same x y := (Option.map₂ Weight.same x y).getD false

end

namespace Weight

/-- A quotient is a number exactly if both parts are and the divisor is not zero. -/
theorem div_eq_some_iff {x y : Option ℝ} {z : ℝ} :
    div x y = some z ↔ ∃ a b, x = some a ∧ y = some b ∧ b ≠ 0 ∧ a / b = z := by
  cases x with
  | none => simp [div]
  | some a =>
    cases y with
    | none => simp [div]
    | some b => simp [div]

/-- A logarithm is a number exactly if it is taken of one above zero. -/
theorem log_eq_ok_some_iff {x : Option ℝ} {z : ℝ} :
    log x = .ok (some z) ↔ ∃ a, x = some a ∧ 0 < a ∧ Real.log a = z := by
  cases x with
  | none => simp [log]
  | some a =>
    by_cases ha : 0 < a
    · simp [log, ha, Except.map]
    · simp [log, ha, Except.map]

theorem quotient_eq_ok_iff {m n : Int} {x : Option ℝ} :
    quotient m n = .ok x ↔ n ≠ 0 ∧ some ((m : ℝ) / n) = x := by
  by_cases hn : n = 0
  · simp [quotient, hn, Except.map]
  · simp [quotient, hn, Except.map]

theorem same_some_zero_iff {a : ℝ} : same (some a) (zero : Option ℝ) = true ↔ a = 0 := by
  change decide (a = 0) = true ↔ a = 0
  exact decide_eq_true_iff

end Weight

namespace Similarity

variable {docFreq numDocs : Int}

/-- An empty corpus counts as one document, so there is a ratio above zero to take the logarithm
of. -/
theorem classic_idf (hfreq : 0 ≤ docFreq) :
    (classic.idf docFreq numDocs : Except ArithFault (Option ℝ)) =
      .ok (some (Real.log ((max numDocs 1 : Int) / (docFreq + 1 : Int)) + 1)) := by
  have hsucc : docFreq + 1 ≠ 0 := by omega
  have hratio : (0 : ℝ) < (max numDocs 1 : Int) / (docFreq + 1 : Int) := by
    apply div_pos
    · exact Int.cast_pos.2 (by omega)
    · exact Int.cast_pos.2 (by omega)
  unfold classic
  dsimp only
  rw [Weight.quotient_eq_ok_iff.2 ⟨hsucc, rfl⟩]
  change (do let log ← Weight.log _; pure (Weight.add log Weight.one)) = _
  rw [Weight.log_eq_ok_some_iff.2 ⟨_, rfl, hratio, rfl⟩]
  rfl

/-- With more documents with the term than there are in all the ratio is negative, but never as low
as -1. -/
theorem bm25_idf (hfreq : 0 ≤ docFreq) (hdocs : 0 ≤ numDocs) :
    (bm25.idf docFreq numDocs : Except ArithFault (Option ℝ)) =
      .ok (some (Real.log (1 + ((numDocs - docFreq : Int) + 1 / 2) / (docFreq + 1 / 2)))) := by
  have hd : (0 : ℝ) ≤ docFreq := Int.cast_nonneg hfreq
  have hn : (0 : ℝ) ≤ numDocs := Int.cast_nonneg hdocs
  have hwith : (docFreq : ℝ) + 1 / 2 ≠ 0 := by positivity
  have hsum : 1 + (((numDocs - docFreq : Int) : ℝ) + 1 / 2) / (docFreq + 1 / 2) =
      (numDocs + 1) / (docFreq + 1 / 2) := by
    push_cast
    field_simp
    ring
  have hpos : (0 : ℝ) < 1 + ((numDocs - docFreq : Int) + 1 / 2) / (docFreq + 1 / 2) := by
    rw [hsum]
    positivity
  unfold bm25
  change Weight.log (Weight.add (some 1)
    (Weight.div (some (((numDocs - docFreq : Int) : ℝ) + 1 / 2)) (some (docFreq + 1 / 2)))) = _
  rw [Weight.div_eq_some_iff.2 ⟨_, _, rfl, rfl, hwith, rfl⟩]
  exact Weight.log_eq_ok_some_iff.2 ⟨_, rfl, hpos, rfl⟩

theorem exists_idf {s : Similarity (Option ℝ)} (h : s = classic ∨ s = bm25)
    (hfreq : 0 ≤ docFreq) (hdocs : 0 ≤ numDocs) :
    ∃ x, s.idf docFreq numDocs = .ok (some x) := by
  rcases h with rfl | rfl
  · exact ⟨_, classic_idf hfreq⟩
  · exact ⟨_, bm25_idf hfreq hdocs⟩

end Similarity
end TermMining
