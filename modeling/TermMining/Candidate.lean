import TermMining.Term
import TermMining.Weight

/-! Scored terms and their ranking. -/
namespace TermMining

structure Candidate (ω : Type) where
  term : Term
  /-- Occurrences in the source times rarity in the corpus. -/
  score : ω
  idf : ω
  docFreq : Int
  termFreq : Int

namespace Candidate

variable {ω : Type} [Weight ω]

/-- A higher score wins; of equal scores the smaller term. -/
def outranks (a b : Candidate ω) : Bool :=
  if Weight.same a.score b.score then a.term < b.term else Weight.less b.score a.score

def before (a b : Candidate ω) : Bool := b.outranks a

def agrees (a b : Candidate ω) : Bool :=
  a.term == b.term && Weight.same a.score b.score && Weight.same a.idf b.idf &&
    a.docFreq == b.docFreq && a.termFreq == b.termFreq

end Candidate
end TermMining
