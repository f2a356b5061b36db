import TermMining.Fault

/-! How much the rarity of a term in a corpus is worth. -/
namespace TermMining

/-- Weighs a term by the documents with the term and the documents in all. -/
structure Similarity (ω : Type) where
  label : String := "idf"
  idf : (docFreq numDocs : Int) → Except ArithFault ω

namespace Similarity

variable {ω : Type} [Weight ω]

/-- `ln (n / (df + 1)) + 1`. An empty corpus counts as one document, since the frequencies may
be ahead of it. -/
def classic : Similarity ω where
  idf docFreq numDocs := do
    let ratio ← Weight.quotient (max numDocs 1) (docFreq + 1)
    let log ← Weight.log ratio
    pure (Weight.add log Weight.one)

def bm25 : Similarity ω where
  label := "BM25 idf"
  idf docFreq numDocs := do
    let without ← Weight.ofInt (numDocs - docFreq)
    let with_ ← Weight.ofInt docFreq
    Weight.log (Weight.add Weight.one
      (Weight.div (Weight.add without Weight.half) (Weight.add with_ Weight.half)))

def ofFunction (f : Int → Int → Except ArithFault ω) : Similarity ω where
  idf := f

def describe (s : Similarity ω) (docFreq numDocs : Int) : String :=
  s!"{s.label}(docFreq={docFreq}, numDocs={numDocs})"

end Similarity
end TermMining
