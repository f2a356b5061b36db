import TermMining.Analyzer
import TermMining.Corpus
import TermMining.Postings

/-! An inverted index in memory. Deleting a document only marks it; its postings stay until they are
purged or the document is added again. -/
namespace TermMining

/-- What is kept of a document besides its postings: its stored texts, its vectors and the mark of
deletion. They come and go together, so they are held in one place. -/
structure DocumentRecord where
  stored : OrderedMap String (List String)
  vectors : OrderedMap String TermVector
  live : Bool := true

/-- With an analyzer of its own an index uses it for every field, else each field uses the one
that its mapping asks for. The ids known, those marked as deleted and those with stored texts or
vectors are all read off `docs`: that a marked id is a known one, and that only known ids have texts
and vectors, holds by this form and is no result. Postings are apart from `docs`; that they agree
with it has to be shown. -/
structure Index where
  analyzer : Option Analyzer
  mappings : OrderedMap String FieldMapping
  postings : OrderedMap String (OrderedMap String Postings)
  docs : OrderedMap String DocumentRecord

namespace Index

def empty (analyzer : Option Analyzer) : Index := ⟨analyzer, .empty, .empty, .empty⟩

def define (ix : Index) (m : FieldMapping) : Index :=
  { ix with mappings := ix.mappings.insert m.name m }

def create (analyzer : Option Analyzer) (mappings : List FieldMapping) : Index :=
  mappings.foldl define (empty analyzer)

/-- The mapping of a field; a field that has none gets the default one for good. -/
def mapping (ix : Index) (field : String) : FieldMapping × Index :=
  match ix.mappings.find? field with
  | some m => (m, ix)
  | none => ({ name := field }, ix.define { name := field })

/-- An analyzer that is not registered, or none, is replaced by the standard one. -/
def analyzerFor (ix : Index) (m : FieldMapping) : Analyzer × List Warning :=
  match ix.analyzer, m.analyzer.bind Analyzer.named? with
  | some a, _ => (a, [])
  | none, some a => (a, [])
  | none, none => (.standard, [.unknownAnalyzer m.analyzer])

/-- The places of each term in a row of terms, by first occurrence. -/
def occurrences (terms : List String) : OrderedMap String (List Int) :=
  (terms.mapIdx fun i t => (t, (i : Int))).foldl
    (fun m e => m.update e.1 fun places => places.getD [] ++ [e.2]) .empty

def addOccurrences (field : OrderedMap String Postings) (doc : String)
    (places : OrderedMap String (List Int)) : OrderedMap String Postings :=
  places.entries.foldl
    (fun field e =>
      field.update e.1 fun ps => (ps.getD .empty).add doc ⟨e.2.length, e.2⟩)
    field

/-- A document on its way into an index. -/
structure Intake where
  index : Index
  stored : OrderedMap String (List String) := .empty
  vectors : OrderedMap String TermVector := .empty
  warnings : List Warning := []

namespace Intake

/-- Counts the texts of a field into the postings; positions run on from text to text. -/
def indexField (s : Intake) (doc : String) (m : FieldMapping) (texts : List String) : Intake :=
  let (analyzer, warnings) := s.index.analyzerFor m
  let places := occurrences (texts.flatMap (analyzer.fieldTerms m.name))
  let field := (s.index.postings.find? m.name).getD .empty
  { s with
    index := { s.index with
      postings := s.index.postings.insert m.name (addOccurrences field doc places) }
    vectors :=
      if m.termVectors then
        s.vectors.insert m.name (.ofCounts m.name (places.map fun l => (l.length : Int)))
      else s.vectors
    warnings := s.warnings ++ warnings }

/-- A field without any text is passed over. -/
def takeField (s : Intake) (doc field : String) (texts : List String) : Intake :=
  if texts.isEmpty then s
  else
    let (m, index) := s.index.mapping field
    let s := { s with
      index, stored := if m.stored then s.stored.insert field texts else s.stored }
    if m.indexed then s.indexField doc m texts else s

end Intake

/-- Takes out all traces of a document; terms that occur nowhere else go with it. -/
def remove (ix : Index) (id : String) : Index :=
  { ix with
    postings := ix.postings.map fun field =>
      (field.map fun ps => ps.erase id).filter fun _ ps => ps.size != 0
    docs := ix.docs.erase id }

/-- Adds a document, in place of an earlier one with the same id. -/
def add (ix : Index) (d : Document) : Index × List Warning :=
  let start : Intake := { index := if ix.docs.contains d.id then ix.remove d.id else ix }
  let s := d.fields.keys.foldl (fun s field => s.takeField d.id field (d.texts field)) start
  ({ s.index with docs := s.index.docs.insert d.id ⟨s.stored, s.vectors, true⟩ }, s.warnings)

def isLive (ix : Index) (id : String) : Bool := ((ix.docs.find? id).map (·.live)).getD false

def delete (ix : Index) (id : String) : Bool × Index :=
  match ix.docs.find? id with
  | some r =>
    if r.live then (true, { ix with docs := ix.docs.insert id { r with live := false } })
    else (false, ix)
  | none => (false, ix)

def deletedIds (ix : Index) : List String := (ix.docs.filter fun _ r => !r.live).keys

def purge (ix : Index) : Nat × Index :=
  (ix.deletedIds.length, ix.deletedIds.foldl remove ix)

def numDocs (ix : Index) : Nat := (ix.docs.filter fun _ r => r.live).size

def postingsOf? (ix : Index) (t : Term) : Option Postings :=
  (ix.postings.find? t.field).bind (·.find? t.text)

/-- Documents that are marked as deleted do not count. Neither would an id without a record, but no
command leaves postings of one. -/
def docFreq (ix : Index) (t : Term) : Nat :=
  match ix.postingsOf? t with
  | some ps => (ps.filter fun id _ => ix.isLive id).size
  | none => 0

def record (ix : Index) (id : String) : Except Fault DocumentRecord :=
  match ix.docs.find? id with
  | some r => if r.live then .ok r else .error (.documentNotFound id)
  | none => .error (.documentNotFound id)

def vector (ix : Index) (id field : String) : Except Fault (Option TermVector) :=
  (ix.record id).map fun r => r.vectors.find? field

def document (ix : Index) (id : String) : Except Fault StoredDocument :=
  (ix.record id).map fun r => ⟨id, r.stored⟩

def fieldNames (ix : Index) (kind : FieldKind) : StringSet :=
  let asked (m : FieldMapping) : Bool :=
    match kind with
    | .all => true
    | .indexed => m.indexed
    | .stored => m.stored
    | .termVector => m.indexed && m.termVectors
  .ofList ((ix.mappings.values.filter asked).map (·.name))

structure Stats where
  documents : Nat
  deleted : Nat
  fields : StringSet
  terms : Nat

def stats (ix : Index) : Stats where
  documents := ix.numDocs
  deleted := ix.deletedIds.length
  fields := .ofList ix.mappings.keys
  terms := (ix.postings.values.map (·.size)).foldr (· + ·) 0

def corpus (ix : Index) : Corpus where
  numDocs := ix.numDocs
  docFreq t := ix.docFreq t
  vector := ix.vector
  document := ix.document
  fieldNames := ix.fieldNames

end Index
end TermMining
