import TermMining.Shortlist
import TermMining.Similarity
import TermMining.Tally

/-! Selection of the most interesting terms of a tally. -/
namespace TermMining.Selection

variable {ω : Type} [Weight ω]

/-- Scores a term, unless the criteria rule it out. -/
def candidate? (corpus : Corpus) (sim : Similarity ω) (c : Criteria ω) (term : Term)
    (termFreq : Int) : Except Fault (Option (Candidate ω)) := do
  if !c.admitsTermFreq termFreq then return none
  let docFreq := corpus.docFreq term
  if !c.admitsDocFreq docFreq then return none
  let scored : Except ArithFault (Candidate ω) := do
    let idf ← sim.idf docFreq corpus.numDocs
    let n ← Weight.ofInt termFreq
    pure { term, score := Weight.mul n idf, idf, docFreq, termFreq }
  some <$> scored.mapError .arithmetic

def candidates (corpus : Corpus) (sim : Similarity ω) (c : Criteria ω) (t : Tally) :
    Except Fault (List (Candidate ω)) := do
  let found ← t.terms.mapM fun e => candidate? corpus sim c e.1 e.2
  pure (found.filterMap id)

/-- The best candidates, at most as many as the criteria ask for. -/
def select (corpus : Corpus) (sim : Similarity ω) (c : Criteria ω) (t : Tally) :
    Except Fault (Shortlist ω) := do
  let cs ← candidates corpus sim c t
  pure ((Shortlist.ofCapacity (min c.maxQueryTerms t.size)).offerAll cs)

/-- The terms whose document frequency is asked for on the way: those that occur often enough,
up to the first one that cannot be scored. -/
def lookups (corpus : Corpus) (sim : Similarity ω) (c : Criteria ω) : List (Term × Int) → List Term
  | [] => []
  | (term, n) :: rest =>
    let here := if c.admitsTermFreq n then [term] else []
    match candidate? corpus sim c term n with
    | .ok _ => here ++ lookups corpus sim c rest
    | .error _ => here

end TermMining.Selection
