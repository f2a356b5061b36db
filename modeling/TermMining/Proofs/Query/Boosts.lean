import TermMining.Proofs.Query
import TermMining.Proofs.Shortlist.Lineup
import TermMining.Proofs.Shortlist.Offers
import TermMining.Proofs.Weight.Real

/-! Boosts and ranks in exact arithmetic. Clauses weigh in proportion to the best score, so they
weigh less and less unless that score is negative. -/
namespace TermMining

namespace Boosting

variable {factor best score : ℝ}

theorem apply_relative (factor best score : ℝ) :
    (relative factor).apply best score = if best = 0 then factor else factor * score / best := by
  change (if Weight.same best Weight.zero = true then factor else factor * score / best) = _
  by_cases hbest : best = 0
  · have hsame : Weight.same best Weight.zero = true := decide_eq_true hbest
    rw [if_pos hsame, if_pos hbest]
  · have hsame : Weight.same best Weight.zero = false := decide_eq_false hbest
    rw [hsame, if_neg Bool.false_ne_true, if_neg hbest]

/-- The best term weighs the factor, whatever its score. -/
theorem apply_relative_self (factor best : ℝ) : (relative factor).apply best best = factor := by
  rw [apply_relative]
  split
  · rfl
  · next hbest => exact mul_div_cancel_right₀ factor hbest

theorem apply_relative_pos (hfactor : 0 < factor) (hbest : 0 < best) (hscore : 0 < score) :
    0 < (relative factor).apply best score := by
  rw [apply_relative, if_neg hbest.ne']
  exact div_pos (mul_pos hfactor hscore) hbest

theorem apply_relative_le (hfactor : 0 < factor) (hbest : 0 ≤ best) {score' : ℝ}
    (h : score' ≤ score) :
    (relative factor).apply best score' ≤ (relative factor).apply best score := by
  rw [apply_relative, apply_relative]
  split
  · exact le_rfl
  · exact div_le_div_of_nonneg_right (mul_le_mul_of_nonneg_left h hfactor.le) hbest

/-- In proportion to a negative score a lower one weighs more. -/
theorem lt_apply_relative_iff (hfactor : 0 < factor) (hbest : best < 0) :
    factor < (relative factor).apply best score ↔ score < best := by
  rw [apply_relative, if_neg hbest.ne, lt_div_iff_of_neg hbest, mul_lt_mul_iff_right₀ hfactor]

end Boosting

namespace Query

def Descend (clauses : List (Occur × Query ℝ)) : Prop :=
  clauses.Pairwise fun c d => d.2.boost ≤ c.2.boost

variable {factor : ℝ} {ranked : List (Candidate ℝ)}

/-- The first clauses of a ranked row weigh less and less exactly if the best score is not negative
or they all have it. -/
theorem descend_take_iff (hfactor : 0 < factor)
    (hranked : ranked.Pairwise fun a b => b.score ≤ a.score) (n : Nat) :
    Descend ((shouldClauses (.relative factor) ranked).take n) ↔
      0 ≤ bestScore ranked ∨ ∀ a ∈ ranked.take n, a.score = bestScore ranked := by
  have hdesc := hranked.sublist (List.take_sublist n ranked)
  rw [shouldClauses_eq, ← List.map_take]
  unfold Descend
  rw [List.pairwise_map]
  constructor
  · intro h
    by_contra hno
    obtain ⟨hbest, hother⟩ := not_or.1 hno
    have hbest : bestScore ranked < 0 := not_le.1 hbest
    obtain ⟨a, hother⟩ := not_forall.1 hother
    obtain ⟨ha, hne⟩ := Classical.not_imp.1 hother
    cases ranked with
    | nil => simp at ha
    | cons best rest =>
      cases n with
      | zero => simp at ha
      | succ n =>
        rw [List.take_succ_cons] at h hdesc ha
        rcases List.mem_cons.1 ha with rfl | ha
        · exact hne rfl
        · have hle := (List.pairwise_cons.1 hdesc).1 a ha
          have hlt := (Boosting.lt_apply_relative_iff hfactor hbest).2 (lt_of_le_of_ne hle hne)
          have hweight := (List.pairwise_cons.1 h).1 a ha
          have hfirst := Boosting.apply_relative_self factor best.score
          exact absurd hlt (not_lt.2 (hweight.trans_eq hfirst))
  · rintro (hbest | hall)
    · exact hdesc.imp fun hab => Boosting.apply_relative_le hfactor hbest hab
    · apply hdesc.imp_of_mem
      intro a b ha hb _
      dsimp only [boost]
      rw [hall a ha, hall b hb]

theorem le_bestScore (hranked : ranked.Pairwise fun a b => b.score ≤ a.score) {a : Candidate ℝ}
    (ha : a ∈ ranked) : a.score ≤ bestScore ranked := by
  cases ranked with
  | nil => cases ha
  | cons best rest =>
    rcases List.mem_cons.1 ha with rfl | ha
    · exact le_rfl
    · exact (List.pairwise_cons.1 hranked).1 a ha

theorem exists_score_eq_bestScore (hne : ranked ≠ []) :
    ∃ a ∈ ranked, bestScore ranked = a.score := by
  cases ranked with
  | nil => exact absurd rfl hne
  | cons best rest => exact ⟨best, List.mem_cons_self, rfl⟩

/-- The clauses that a shortlist adds to a group. -/
theorem drop_clauses_extend (g : Group (Query ℝ) ℝ) (b : Boosting ℝ) (s : Shortlist ℝ) :
    (extend g b s).1.clauses.drop g.clauses.length =
      (shouldClauses b s.drain.1).take (g.maxClauses - g.clauses.length).toNat := by
  unfold extend
  dsimp only
  rw [Group.addAll_eq, List.drop_left]

end Query

theorem IsRanked.pairwise_score {ranked : List (Candidate ℝ)} (h : IsRanked ranked) :
    ranked.Pairwise fun a b => b.score ≤ a.score := h.imp Candidate.score_le_of_rank_le

namespace Query

open Shortlist (ofCapacity)

/-- Whatever a shortlist was asked before, the clauses that it adds to a group name its terms in the
order of their ranks and weigh in proportion to the best score, and they weigh less and less exactly
if that score is not negative or they all have it. -/
theorem boosts_descend_iff (capacity : Int) (rs : List (Request ℝ)) (g : Group (Query ℝ) ℝ)
    {factor : ℝ} (hfactor : 0 < factor) :
    let s := ((ofCapacity capacity).serveAll rs).2
    let best := bestScore s.drain.1
    let entering := s.drain.1.take (g.maxClauses - g.clauses.length).toNat
    let added := (extend g (.relative factor) s).1.clauses.drop g.clauses.length
    IsRanked s.drain.1 ∧
    added = entering.map (fun a => (.should, .term a.term
      (if best = 0 then factor else factor * a.score / best))) ∧
    (Descend added ↔ 0 ≤ best ∨ ∀ a ∈ entering, a.score = best) := by
  intro s best entering added
  obtain ⟨-, hmatches⟩ := (Shortlist.Matches.ofCapacity capacity).serveAll rs
    fun c _ => c.isScored_real
  obtain ⟨-, hranked⟩ := Shortlist.drain_perm hmatches.valid
  have hadded : added = (shouldClauses (.relative factor) s.drain.1).take _ :=
    drop_clauses_extend g _ s
  constructor
  · exact hranked
  constructor
  · rw [hadded, shouldClauses_eq, ← List.map_take]
    simp only [Boosting.apply_relative]
    rfl
  · rw [hadded]
    exact descend_take_iff hfactor hranked.pairwise_score _

/-- Scores of either sign, of which the least is cut off. -/
theorem boosts_descend_iff_mixed :
    let candidate (text : String) (score : ℝ) : Candidate ℝ := ⟨⟨"f", text⟩, score, 1, 1, 1⟩
    let rs : List (Request ℝ) :=
      [.offer (candidate "a" (-2)), .offer (candidate "b" 3), .offer (candidate "c" (-1))]
    let g : Group (Query ℝ) ℝ := { boost := 1, maxClauses := 2 }
    (0 : ℝ) < 2 ∧
      Descend (((extend g (.relative 2) ((ofCapacity 3).serveAll rs).2).1.clauses).drop 0) := by
  intro candidate rs g
  obtain ⟨-, -, hiff⟩ := boosts_descend_iff 3 rs g two_pos
  let cs := [candidate "a" (-2), candidate "b" 3, candidate "c" (-1)]
  obtain ⟨r, hperm, hranked, hdrain⟩ :=
    Shortlist.drain_offerAll_of_room le_rfl fun c (_ : c ∈ cs) => c.isScored_real
  have hdrained : ((ofCapacity 3).serveAll rs).2.drain.1 = r := hdrain
  rw [hdrained] at hiff
  have hmem : candidate "b" 3 ∈ r := hperm.mem_iff.2 (by simp [cs])
  have hbest := le_bestScore hranked.pairwise_score hmem
  exact ⟨two_pos, hiff.2 (Or.inl (by linarith))⟩

/-- With a negative best score the worse term weighs more. -/
theorem not_forall_boosts_descend :
    ¬∀ (capacity : Int) (rs : List (Request ℝ)) (g : Group (Query ℝ) ℝ) (factor : ℝ), 0 < factor →
      Descend ((extend g (.relative factor) ((ofCapacity capacity).serveAll rs).2).1.clauses.drop
        g.clauses.length) := by
  intro h
  let candidate (text : String) (score : ℝ) : Candidate ℝ := ⟨⟨"f", text⟩, score, 1, 1, 1⟩
  let cs := [candidate "a" (-1), candidate "b" (-2)]
  have hdescend := h 2 (cs.map .offer) { boost := 1 } 1 one_pos
  obtain ⟨r, hperm, hranked, hdrain⟩ :=
    Shortlist.drain_offerAll_of_room le_rfl fun c (_ : c ∈ cs) => c.isScored_real
  have hdrained : ((ofCapacity 2).serveAll (cs.map .offer)).2.drain.1 = r := hdrain
  have hall : r.take ((1024 : Int) - 0).toNat = r := by
    apply List.take_of_length_le
    rw [hperm.length_eq]
    decide
  rw [drop_clauses_extend, hdrained, descend_take_iff one_pos hranked.pairwise_score] at hdescend
  have hmem : ∀ c ∈ cs, c ∈ r := fun c hc => hperm.mem_iff.2 hc
  rcases hdescend with hbest | hsame
  · have hne : r ≠ [] := List.ne_nil_of_mem (hmem _ List.mem_cons_self)
    obtain ⟨c, hc, hscore⟩ := exists_score_eq_bestScore hne
    have hnegative : c.score < 0 := by
      have hc := hperm.mem_iff.1 hc
      simp only [cs, List.mem_cons, List.not_mem_nil, or_false] at hc
      rcases hc with rfl | rfl <;> norm_num [candidate]
    exact absurd (hscore ▸ hbest) (not_le.2 hnegative)
  · have hfirst := hsame (candidate "a" (-1)) (hall.symm ▸ hmem _ (by simp [cs]))
    have hsecond := hsame (candidate "b" (-2)) (hall.symm ▸ hmem _ (by simp [cs]))
    have hequal : (-1 : ℝ) = -2 := hfirst.trans hsecond.symm
    norm_num at hequal

end Query
end TermMining
