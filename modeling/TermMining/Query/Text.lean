import TermMining.Query
import TermMining.Weight

/-! The text of a query. -/
namespace TermMining

def Occur.mark : Occur → String
  | must => "+"
  | should => ""
  | mustNot => "-"

namespace Query

variable {ω : Type} [Weight ω] [WrittenWeight ω]

/-- A boost of one is not written. -/
def boostText (b : ω) : Option String :=
  if Weight.same b Weight.one then none else some ("^" ++ WrittenWeight.write b)

/-- A boosted group stands in parentheses. -/
def groupText (clauses : List String) (b : ω) : String :=
  let joined := " ".intercalate clauses
  match boostText b with
  | none => joined
  | some suffix => "(" ++ joined ++ ")" ++ suffix

mutual

def text : Query ω → String
  | .term t b => toString t ++ (boostText b).getD ""
  | .group ⟨clauses, b, _, _⟩ => groupText (clauseTexts clauses) b

def clauseTexts : List (Occur × Query ω) → List String
  | [] => []
  | (occur, q) :: rest => (occur.mark ++ text q) :: clauseTexts rest

end

end Query
end TermMining
