import TermMining.Query

/-! The outline of a query: its clauses sorted by their part. -/
namespace TermMining

inductive Outline (ω : Type) where
  | term (field text : String) (boost : ω)
  | group (boost : ω) (must should mustNot : List (Outline ω)) (minimumShouldMatch : Int)

namespace Query

variable {ω : Type}

mutual

def outline : Query ω → Outline ω
  | .term t b => .term t.field t.text b
  | .group ⟨clauses, b, n, _⟩ =>
    .group b (outlines .must clauses) (outlines .should clauses) (outlines .mustNot clauses) n

def outlines (occur : Occur) : List (Occur × Query ω) → List (Outline ω)
  | [] => []
  | (o, q) :: rest => if o = occur then outline q :: outlines occur rest else outlines occur rest

end

end Query
end TermMining
