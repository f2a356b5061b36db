import TermMining.Query.Disjunction
import TermMining.Selection

/-! Term mining: from a document or a text to the query for others like it. -/
namespace TermMining

/-- An analyzer is needed wherever no term vector is kept. -/
structure Miner (ω : Type) where
  similarity : Similarity ω
  analyzer : Option Analyzer
  criteria : Criteria ω
  maxClauses : Int := 1024

/-- What is mined: a document by its id, or the texts of a field. -/
inductive Source where
  | document (id : String)
  | texts (field : String) (texts : List String)
  deriving Repr

/-- An answer and the remarks made on the way. -/
structure Remarked (α : Type) where
  answer : Except Fault α
  warnings : List Warning

namespace Miner

variable {ω : Type}

/-- The criteria in force for a source. A document without chosen fields is mined in every
indexed field, in ascending order. -/
def criteriaFor (m : Miner ω) (corpus : Corpus) : Source → Criteria ω × List Warning
  | .texts _ _ => (m.criteria, [])
  | .document _ =>
    if m.criteria.fieldNames.isEmpty then
      let c := m.criteria.withFieldNames (corpus.fieldNames .indexed).members
      (c, if c.fieldNames.isEmpty then [.noIndexedFields] else [])
    else (m.criteria, [])

/-- Allows terms in at most so many percent of the documents that there are now, rounded
down. -/
def limitDocFreq (m : Miner ω) (corpus : Corpus) (percent : Int) : Miner ω :=
  { m with criteria.maxDocFreq := some (Int.fdiv (percent * corpus.numDocs) 100) }

def tally (m : Miner ω) (corpus : Corpus) (c : Criteria ω) : Source → Except Fault Tally
  | .document id => Tally.ofDocument c m.analyzer corpus id c.fieldNames
  | .texts field texts => Tally.ofTexts c m.analyzer field texts

variable [Weight ω]

def shortlist (m : Miner ω) (corpus : Corpus) (source : Source) : Remarked (Shortlist ω) :=
  let (c, warnings) := m.criteriaFor corpus source
  { answer := do
      let t ← m.tally corpus c source
      Selection.select corpus m.similarity c t
    warnings }

def boosting (m : Miner ω) : Boosting ω :=
  if m.criteria.boost then .relative m.criteria.boostFactor else .off

def like (m : Miner ω) (corpus : Corpus) (source : Source) : Remarked (Group (Query ω) ω) :=
  let r := m.shortlist corpus source
  { r with answer := r.answer.map (Query.disjunction m.maxClauses m.boosting) }

/-- The texts of the best terms of a shortlist, at most `limit`, and what is left of it. -/
def bestTexts (s : Shortlist ω) (limit : Int) : List String × Shortlist ω :=
  let r := s.popMany limit.toNat
  (r.1.map (·.term.text), r.2)

def words (m : Miner ω) (corpus : Corpus) (source : Source) : Remarked (List String) :=
  let r := m.shortlist corpus source
  { r with answer := r.answer.map fun s => (bestTexts s m.criteria.maxQueryTerms).1 }

end Miner
end TermMining
