import TermMining.Fault
import TermMining.OrderedMap

/-! Documents as they come in and as they are kept, and how their fields are treated. -/
namespace TermMining

structure FieldMapping where
  name : String
  /-- The analyzer asked for, if any; it counts where the index has none of its own. -/
  analyzer : Option String := some "standard"
  indexed : Bool := true
  stored : Bool := true
  termVectors : Bool := false
  deriving DecidableEq, Repr

structure Document where
  id : String
  fields : OrderedMap String Value

namespace Document

/-- A document without an id takes the fresh one. -/
def ofFields (id fresh : String) (fields : OrderedMap String Value) : Document :=
  ⟨if id.isEmpty then fresh else id, fields⟩

def set (d : Document) (field : String) (v : Value) : Document :=
  { d with fields := d.fields.insert field v }

/-- The texts of a value: none for nothing, one for each item of a list that is something. -/
def textsOf : Value → List String
  | .null => []
  | .list items =>
    items.filterMap fun
      | .null => none
      | v => some v.written
  | v => [v.written]

def texts (d : Document) (field : String) : List String :=
  ((d.fields.find? field).map textsOf).getD []

end Document

/-- The texts that an index keeps of a document. -/
structure StoredDocument where
  id : String
  content : OrderedMap String (List String)

namespace StoredDocument

def values (d : StoredDocument) (field : String) : List String :=
  (d.content.find? field).getD []

def first? (d : StoredDocument) (field : String) : Option String := (d.values field).head?

end StoredDocument
end TermMining
