import Mathlib.Algebra.Order.Ring.Int
import TermMining.Query.Disjunction

/-! What the cap of a group lets in: clauses from the front as long as there is room. -/
namespace TermMining

variable {χ ω : Type}

namespace Group

theorem isFull_iff (g : Group χ ω) : g.isFull = true ↔ g.maxClauses ≤ g.clauses.length :=
  decide_eq_true_iff

theorem add_of_room {g : Group χ ω} (hroom : g.clauses.length < g.maxClauses) (occur : Occur)
    (q : χ) : g.add occur q = (true, { g with clauses := g.clauses ++ [(occur, q)] }) := by
  have hopen : ¬g.isFull = true := by
    rw [isFull_iff]
    omega
  exact if_neg hopen

theorem add_of_full {g : Group χ ω} (hfull : g.maxClauses ≤ g.clauses.length) (occur : Occur)
    (q : χ) : g.add occur q = (false, g) :=
  if_pos (g.isFull_iff.mpr hfull)

theorem addAll_eq (g : Group χ ω) (clauses : List (Occur × χ)) :
    g.addAll clauses = { g with
      clauses := g.clauses ++ clauses.take (g.maxClauses - g.clauses.length).toNat } := by
  unfold addAll
  induction clauses generalizing g with
  | nil => rw [List.take_nil, List.append_nil, List.foldl_nil]
  | cons c clauses ih =>
    rw [List.foldl_cons, ih]
    by_cases hroom : g.clauses.length < g.maxClauses
    · have hmore : (g.maxClauses - g.clauses.length).toNat =
          (g.maxClauses - (g.clauses ++ [c]).length).toNat + 1 := by
        rw [List.length_append, List.length_singleton]
        omega
      rw [add_of_room hroom]
      simp [hmore]
    · have hnone : (g.maxClauses - g.clauses.length).toNat = 0 := by omega
      rw [add_of_full (Int.not_lt.mp hroom)]
      simp [hnone]

end Group

namespace Query

variable [Weight ω]

/-- The score in proportion to which clauses are weighed. -/
def bestScore (ranked : List (Candidate ω)) : ω :=
  (ranked.head?.map fun best => best.score).getD Weight.zero

theorem shouldClauses_eq (b : Boosting ω) (ranked : List (Candidate ω)) :
    shouldClauses b ranked =
      ranked.map fun c => (.should, .term c.term (b.apply (bestScore ranked) c.score)) := by
  cases ranked <;> rfl

end Query
end TermMining
