import TermMining.Index
import TermMining.Proofs.TermVector

/-! What an index is meant to hold: for each document the fields of its last version, as the
mappings of that moment had them taken in. -/
namespace TermMining

/-- The terms of texts by the analyzer of the index, or if it has none by the one that the mapping
asks for. -/
def FieldMapping.terms (m : FieldMapping) (own : Option Analyzer) (texts : List String) :
    List String :=
  texts.flatMap
    ((own.getD ((m.analyzer.bind Analyzer.named?).getD .standard)).fieldTerms m.name)

def FieldMapping.isOf (m : FieldMapping) : FieldKind → Bool
  | .all => true
  | .indexed => m.indexed
  | .stored => m.stored
  | .termVector => m.indexed && m.termVectors

/-- What was taken in of a field. -/
structure Entry where
  stored : Option (List String)
  terms : List String
  keepsVector : Bool

def Entry.of (analyzer : Option Analyzer) (m : FieldMapping) (texts : List String) : Entry where
  stored := if m.stored then some texts else none
  terms := if m.indexed then m.terms analyzer texts else []
  keepsVector := m.indexed && m.termVectors

/-- A document as it was taken in, by field. -/
abbrev Version := String → Option Entry

namespace Version

def stored (v : Version) (field : String) : Option (List String) := (v field).bind (·.stored)

def values (v : Version) (field : String) : List String := (v.stored field).getD []

/-- What was taken in of the field, if anything, is stored. -/
def IsStored (v : Version) (field : String) : Prop := ∀ e, v field = some e → e.stored.isSome

def terms (v : Version) (field : String) : List String := ((v field).map (·.terms)).getD []

def vector (v : Version) (field : String) : Option TermVector :=
  (v field).bind fun e => if e.keepsVector then some (.ofTerms field e.terms) else none

/-- A vector that is kept is that of the terms taken in. -/
theorem vector_cases (v : Version) (field : String) :
    v.vector field = none ∨ v.vector field = some (.ofTerms field (v.terms field)) := by
  unfold vector terms
  cases v field with
  | none => exact Or.inl rfl
  | some e =>
    rw [Option.bind_some, Option.map_some, Option.getD_some]
    split
    · exact Or.inr rfl
    · exact Or.inl rfl

end Version

/-- `marked` has the versions that were deleted, until they are purged. -/
structure Catalog where
  analyzer : Option Analyzer
  mappings : OrderedMap String FieldMapping
  live : OrderedMap String Version
  marked : OrderedMap String Version

namespace Catalog

def define (k : Catalog) (m : FieldMapping) : Catalog :=
  { k with mappings := k.mappings.insert m.name m }

def create (analyzer : Option Analyzer) (mappings : List FieldMapping) : Catalog :=
  mappings.foldl define ⟨analyzer, .empty, .empty, .empty⟩

def mapping (k : Catalog) (field : String) : FieldMapping :=
  (k.mappings.find? field).getD { name := field }

def openField (k : Catalog) (field : String) : Catalog :=
  { k with mappings := k.mappings.ensure field { name := field } }

/-- The document as the mappings of this moment have it taken in. -/
def version (k : Catalog) (d : Document) : Version := fun field =>
  if (d.texts field).isEmpty then none
  else some (.of k.analyzer (k.mapping field) (d.texts field))

def add (k : Catalog) (d : Document) : Catalog :=
  let opened := (d.fields.keys.filter fun f => !(d.texts f).isEmpty).foldl openField k
  { opened with
    live := k.live.insert d.id (k.version d)
    marked := k.marked.erase d.id }

def delete (k : Catalog) (id : String) : Bool × Catalog :=
  match k.live.find? id with
  | some v => (true, { k with live := k.live.erase id, marked := k.marked.insert id v })
  | none => (false, k)

def purge (k : Catalog) : Nat × Catalog := (k.marked.size, { k with marked := .empty })

def docFreq (k : Catalog) (t : Term) : Nat :=
  (k.live.filter fun _ v => (v.terms t.field).contains t.text).size

end Catalog

inductive Command where
  | define (m : FieldMapping)
  | mapping (field : String)
  | add (d : Document)
  | addAll (ds : List Document)
  | delete (id : String)
  | purge

inductive Reply where
  | done
  | mapping (m : FieldMapping)
  | added (ids : List String)
  | deleted (b : Bool)
  | purged (n : Nat)
  deriving DecidableEq

def Index.step (ix : Index) : Command → Reply × Index
  | .define m => (.done, ix.define m)
  | .mapping field => (.mapping (ix.mapping field).1, (ix.mapping field).2)
  | .add d => (.added [d.id], (ix.add d).1)
  | .addAll ds => (.added (ds.map (·.id)), ds.foldl (fun ix d => (ix.add d).1) ix)
  | .delete id => (.deleted (ix.delete id).1, (ix.delete id).2)
  | .purge => (.purged ix.purge.1, ix.purge.2)

def Catalog.step (k : Catalog) : Command → Reply × Catalog
  | .define m => (.done, k.define m)
  | .mapping field => (.mapping (k.mapping field), k.openField field)
  | .add d => (.added [d.id], k.add d)
  | .addAll ds => (.added (ds.map (·.id)), ds.foldl add k)
  | .delete id => (.deleted (k.delete id).1, (k.delete id).2)
  | .purge => (.purged k.purge.1, k.purge.2)

def Index.run (ix : Index) : List Command → List Reply × Index
  | [] => ([], ix)
  | c :: cs =>
    let later := (ix.step c).2.run cs
    ((ix.step c).1 :: later.1, later.2)

def Catalog.run (k : Catalog) : List Command → List Reply × Catalog
  | [] => ([], k)
  | c :: cs =>
    let later := (k.step c).2.run cs
    ((k.step c).1 :: later.1, later.2)

end TermMining
