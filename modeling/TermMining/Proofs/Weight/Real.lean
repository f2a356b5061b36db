import Mathlib.Analysis.SpecialFunctions.Log.Basic
import TermMining.Proofs.Rank
import TermMining.Similarity

/-! Real numbers as weights. In exact arithmetic the idf of a term is positive if it occurs in some
document and in no more than there are. -/
namespace TermMining

noncomputable section

open Classical in
instance : Weight ℝ where
  zero := 0
  half := 1 / 2
  one := 1
  add := (· + ·)
  mul := (· * ·)
  div := (· / ·)
  ofInt n := .ok n
  quotient m n := if n = 0 then .error .divisionByZero else .ok (m / n)
  log x := if 0 < x then .ok (Real.log x) else .error .logOfNonpositive
  less x y := decide (x < y)
  same x y := decide (x = y)

instance : PlacedWeight ℝ where
  Line := ℝ
  place x := x
  less_iff x y := by
    change decide (x < y) = true ↔ (x : WithBot ℝ) ≠ ⊥ ∧ (x : WithBot ℝ) < y
    simp
  same_iff x y := by
    change decide (x = y) = true ↔ (x : WithBot ℝ) ≠ ⊥ ∧ (x : WithBot ℝ) = y
    simp
  ofInt_error h := by cases h
  place_mul_ofInt _ _ _ := WithBot.coe_ne_bot

end

theorem Candidate.isScored_real (a : Candidate ℝ) : a.IsScored := WithBot.coe_ne_bot

theorem Candidate.score_le_of_rank_le {a b : Candidate ℝ} (h : b.rank ≤ a.rank) :
    b.score ≤ a.score := WithBot.coe_le_coe.1 (place_le_of_rank_le h)

theorem Candidate.score_le_of_outranks {a b : Candidate ℝ} (h : a.outranks b = true) :
    b.score ≤ a.score := WithBot.coe_le_coe.1 (place_le_of_outranks a.isScored_real h)

namespace Similarity

theorem neg_one_lt_log_half : -1 < Real.log (1 / 2) := by
  have hlog := Real.log_lt_sub_one_of_pos (x := 2) (by norm_num) (by norm_num)
  rw [one_div, Real.log_inv]
  linarith

theorem weight_quotient {n : Int} (hn : n ≠ 0) (m : Int) :
    (Weight.quotient m n : Except ArithFault ℝ) = .ok (m / n) := if_neg hn

theorem weight_log {x : ℝ} (hx : 0 < x) : Weight.log x = .ok (Real.log x) := if_pos hx

variable {docFreq numDocs : Int}

/-- A term in all documents has the least idf, and even that one is positive, as ln (1/2) > -1. -/
theorem exists_classic_pos (hpos : 1 ≤ docFreq) (hle : docFreq ≤ numDocs) :
    ∃ x : ℝ, classic.idf docFreq numDocs = .ok x ∧ 0 < x := by
  have hdf : (1 : ℝ) ≤ docFreq := by exact_mod_cast hpos
  have hn : (docFreq : ℝ) ≤ numDocs := by exact_mod_cast hle
  have hmax : max numDocs 1 = numDocs := by omega
  have hsucc : docFreq + 1 ≠ 0 := by omega
  have hhalf : (1 / 2 : ℝ) ≤ (numDocs : ℝ) / ((docFreq + 1 : Int) : ℝ) := by
    push_cast
    rw [div_le_div_iff₀ (by norm_num) (by linarith)]
    linarith
  have hratio : (0 : ℝ) < (numDocs : ℝ) / ((docFreq + 1 : Int) : ℝ) := by linarith
  refine ⟨Real.log ((numDocs : ℝ) / ((docFreq + 1 : Int) : ℝ)) + 1, ?_, ?_⟩
  · unfold classic
    dsimp only
    rw [hmax, weight_quotient hsucc]
    change (do let log ← Weight.log _; pure (Weight.add log Weight.one)) = _
    rw [weight_log hratio]
    rfl
  · have hlog := Real.log_le_log (by norm_num) hhalf
    have hlow := neg_one_lt_log_half
    linarith

theorem exists_bm25_pos (hpos : 1 ≤ docFreq) (hle : docFreq ≤ numDocs) :
    ∃ x : ℝ, bm25.idf docFreq numDocs = .ok x ∧ 0 < x := by
  have hdf : (1 : ℝ) ≤ docFreq := by exact_mod_cast hpos
  have hn : (0 : ℝ) ≤ ((numDocs - docFreq : Int) : ℝ) := by exact_mod_cast Int.sub_nonneg.2 hle
  have hratio : (0 : ℝ) < (((numDocs - docFreq : Int) : ℝ) + 1 / 2) / (docFreq + 1 / 2) := by
    positivity
  have hone : (1 : ℝ) < 1 + (((numDocs - docFreq : Int) : ℝ) + 1 / 2) / (docFreq + 1 / 2) := by
    linarith
  exact ⟨_, weight_log (one_pos.trans hone), Real.log_pos hone⟩

theorem exists_idf_pos {s : Similarity ℝ} (h : s = classic ∨ s = bm25) (hpos : 1 ≤ docFreq)
    (hle : docFreq ≤ numDocs) : ∃ x, s.idf docFreq numDocs = .ok x ∧ 0 < x := by
  rcases h with rfl | rfl
  · exact exists_classic_pos hpos hle
  · exact exists_bm25_pos hpos hle

end Similarity
end TermMining
