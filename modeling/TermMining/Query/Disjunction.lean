import TermMining.Query
import TermMining.Shortlist

/-! Queries made of the terms of a shortlist. -/
namespace TermMining

variable {ω : Type} [Weight ω]

/-- How clauses are weighed: not at all, or by the score in proportion to the best one, which
weighs `factor`. -/
inductive Boosting (ω : Type) where
  | off
  | relative (factor : ω)

namespace Boosting

/-- With a best score of zero there is no proportion, and every clause weighs the factor. -/
def apply (b : Boosting ω) (best score : ω) : ω :=
  match b with
  | off => Weight.one
  | relative factor =>
    if Weight.same best Weight.zero then factor else Weight.div (Weight.mul factor score) best

end Boosting

namespace Query

/-- Terms, best first, as clauses of which one has to match. -/
def shouldClauses (b : Boosting ω) (ranked : List (Candidate ω)) : List (Occur × Query ω) :=
  match ranked with
  | [] => []
  | best :: _ => ranked.map fun c => (.should, .term c.term (b.apply best.score c.score))

/-- Empties a shortlist into a group, as far as its cap allows. -/
def extend (g : Group (Query ω) ω) (b : Boosting ω) (s : Shortlist ω) :
    Group (Query ω) ω × Shortlist ω :=
  let r := s.drain
  (g.addAll (shouldClauses b r.1), r.2)

def disjunction (maxClauses : Int) (b : Boosting ω) (s : Shortlist ω) : Group (Query ω) ω :=
  (extend { boost := Weight.one, maxClauses } b s).1

end Query
end TermMining
