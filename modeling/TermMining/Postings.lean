import TermMining.OrderedMap

/-! Postings: the documents in which a term occurs. -/
namespace TermMining

/-- How often and where a term occurs in a document. -/
structure Posting where
  frequency : Int := 0
  positions : List Int := []
  deriving DecidableEq, Repr, Inhabited

/-- The postings of one term by document, in the order in which the documents came. -/
abbrev Postings := OrderedMap String Posting

namespace Postings

/-- Further occurrences in a document that is there already are counted in. -/
def add (ps : Postings) (doc : String) (p : Posting) : Postings :=
  ps.update doc fun
    | some q => ⟨q.frequency + p.frequency, q.positions ++ p.positions⟩
    | none => p

def remove (ps : Postings) (doc : String) : Bool × Postings := (ps.contains doc, ps.erase doc)

end Postings
end TermMining
