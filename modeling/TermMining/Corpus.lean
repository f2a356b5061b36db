import TermMining.Document
import TermMining.StringSet
import TermMining.Term
import TermMining.TermVector

/-! What term mining asks of a collection of documents. -/
namespace TermMining

inductive FieldKind where
  | all
  | indexed
  | stored
  | termVector
  deriving DecidableEq, Repr

/-- The figures need not be consistent: a frequency may lag behind the documents. -/
structure Corpus where
  numDocs : Int
  docFreq : Term → Int
  /-- The term vector of a document in a field, if one is kept. -/
  vector : String → String → Except Fault (Option TermVector)
  document : String → Except Fault StoredDocument
  fieldNames : FieldKind → StringSet

end TermMining
