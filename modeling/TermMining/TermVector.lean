import TermMining.Fault
import TermMining.OrderedMap

/-! Term vectors: the terms of one field of one document with their frequencies. -/
namespace TermMining

structure TermVector where
  field : String
  entries : List (String × Int)
  deriving Repr

namespace TermVector

def terms (v : TermVector) : List String := v.entries.map Prod.fst

def frequencies (v : TermVector) : List Int := v.entries.map Prod.snd

def size (v : TermVector) : Nat := v.entries.length

def ofLists (field : String) (terms : List String) (frequencies : List Int) :
    Except Fault TermVector :=
  if terms.length = frequencies.length then .ok ⟨field, terms.zip frequencies⟩
  else .error .unequalLengths

def ofCounts (field : String) (counts : OrderedMap String Int) : TermVector :=
  ⟨field, counts.entries.mergeSort fun a b => a.1 ≤ b.1⟩

/-- The frequency of each term; of a repeated term the last one counts. -/
def toMap (v : TermVector) : OrderedMap String Int := .ofList v.entries

end TermVector
end TermMining
