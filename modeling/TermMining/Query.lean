import TermMining.Fault
import TermMining.Term

/-! Queries: single terms, and groups of clauses up to a cap. -/
namespace TermMining

/-- How a clause takes part in its group. -/
inductive Occur where
  | must
  | should
  | mustNot
  deriving DecidableEq, Repr

/-- Clauses over sub-queries of any kind. -/
structure Group (χ ω : Type) where
  clauses : List (Occur × χ) := []
  boost : ω
  /-- How many `should` clauses have to match. -/
  minimumShouldMatch : Int := 0
  maxClauses : Int := 1024

inductive Query (ω : Type) where
  | term (t : Term) (boost : ω)
  | group (g : Group (Query ω) ω)

namespace Group

variable {χ ω : Type}

def isFull (g : Group χ ω) : Bool := g.maxClauses ≤ g.clauses.length

/-- Appends a clause unless the cap is reached, and says whether it did. -/
def add (g : Group χ ω) (occur : Occur) (q : χ) : Bool × Group χ ω :=
  if g.isFull then (false, g) else (true, { g with clauses := g.clauses ++ [(occur, q)] })

/-- Appends a clause, where a reached cap is a fault. -/
def add? (g : Group χ ω) (occur : Occur) (q : χ) : Except Fault (Group χ ω) :=
  match g.add occur q with
  | (true, g) => .ok g
  | (false, _) => .error (.tooManyClauses g.maxClauses)

/-- Appends clauses as far as the cap allows. -/
def addAll (g : Group χ ω) (clauses : List (Occur × χ)) : Group χ ω :=
  clauses.foldl (fun g c => (g.add c.1 c.2).2) g

def queries (g : Group χ ω) (occur : Occur) : List χ :=
  (g.clauses.filter fun c => c.1 = occur).map Prod.snd

end Group

namespace Query

variable {ω : Type}

mutual

def terms : Query ω → List Term
  | .term t _ => [t]
  | .group ⟨clauses, _, _, _⟩ => clauseTerms clauses

def clauseTerms : List (Occur × Query ω) → List Term
  | [] => []
  | (_, q) :: rest => terms q ++ clauseTerms rest

end

def boost : Query ω → ω
  | .term _ b => b
  | .group g => g.boost

end Query
end TermMining
