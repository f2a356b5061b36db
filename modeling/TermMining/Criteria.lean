import TermMining.Fault
import TermMining.StringSet

/-! The criteria by which interesting terms are chosen. -/
namespace TermMining

/-- A bound of zero or below does not bind. An out-of-range value is no error while mining: it
switches its criterion off or chooses no terms. -/
structure Criteria (ω : Type) where
  minTermFreq : Int := 2
  minDocFreq : Int := 5
  maxDocFreq : Option Int := none
  /-- Weigh the clauses of a query by the scores of their terms. -/
  boost : Bool := false
  /-- What the best term weighs. -/
  boostFactor : ω
  /-- The fields mined, in this order; none stands for every indexed field. -/
  fieldNames : List String := []
  minWordLen : Int := 0
  maxWordLen : Int := 0
  maxQueryTerms : Int := 25
  /-- Tokens read of a field that has no term vector. -/
  maxTokens : Int := 5000
  stopWords : StringSet := ∅

namespace Criteria

variable {ω : Type}

def standard [Weight ω] : Criteria ω := { boostFactor := Weight.one }

def withFieldNames (c : Criteria ω) (names : List String) : Criteria ω :=
  { c with fieldNames := names.mergeSort fun a b => a ≤ b }

def isNoise (c : Criteria ω) (word : String) : Bool :=
  (0 < c.minWordLen && word.length < c.minWordLen) ||
  (0 < c.maxWordLen && c.maxWordLen < word.length) ||
  c.stopWords.contains word

def admitsTermFreq (c : Criteria ω) (n : Int) : Bool := c.minTermFreq ≤ 0 || c.minTermFreq ≤ n

/-- Whether a term occurs in enough documents and not in too many. One that occurs in none is
never admitted. -/
def admitsDocFreq (c : Criteria ω) (n : Int) : Bool :=
  n != 0 && (c.minDocFreq ≤ 0 || c.minDocFreq ≤ n) && c.maxDocFreq.all (n ≤ ·)

end Criteria
end TermMining
