import TermMining.Analyzer
import TermMining.Corpus
import TermMining.Criteria

/-! Tallies: how often each term occurs in a source, field by field. -/
namespace TermMining

/-- By field and by term, both in the order in which they turned up. -/
abbrev Tally := OrderedMap String (OrderedMap String Int)

namespace Tally

variable {ω : Type}

def size (t : Tally) : Nat := (t.values.map OrderedMap.size).foldr (· + ·) 0

/-- The terms with their counts, field after field. -/
def terms (t : Tally) : List (Term × Int) :=
  t.entries.flatMap fun f => f.2.entries.map fun e => (⟨f.1, e.1⟩, e.2)

def ofLists (l : List (String × List (String × Int))) : Tally :=
  .ofList (l.map fun e => (e.1, .ofList e.2))

/-- The field is there from now on, be it without terms. -/
def openField (t : Tally) (field : String) : Tally := t.ensure field .empty

/-- Counts a term in, unless it is noise. -/
def count (c : Criteria ω) (field : String) (t : Tally) (term : String) (n : Int) : Tally :=
  if c.isNoise term then t
  else
    t.update field fun counts =>
      (counts.getD .empty).update term fun old => old.getD 0 + n

def addVector (c : Criteria ω) (t : Tally) (field : String) (v : TermVector) : Tally :=
  v.entries.foldl (fun t e => t.count c field e.1 e.2) (t.openField field)

/-- Counts tokens in one after the other until as many have been read as the limit allows. Noise is
read like the rest. Says how many were read. -/
def readTerms (c : Criteria ω) (field : String) (limit : Int) :
    Int → Tally → List String → Int × Tally
  | read, t, [] => (read, t)
  | read, t, term :: rest =>
    if limit ≤ read then (read, t)
    else readTerms c field limit (read + 1) (t.count c field term 1) rest

/-- Counts the first tokens of a text, at most `limit`. Says how many were read. -/
def addTerms (c : Criteria ω) (t : Tally) (field : String) (terms : List String) (limit : Int) :
    Int × Tally :=
  readTerms c field limit 0 (t.openField field) terms

def addText (c : Criteria ω) (analyzer : Option Analyzer) (t : Tally) (field text : String)
    (limit : Option Int) : Except Fault (Int × Tally) :=
  match analyzer with
  | none => .error (.analyzerRequired "")
  | some a => .ok (t.addTerms c field (a.fieldTerms field text) (limit.getD c.maxTokens))

/-- Texts that share one allowance of tokens. -/
def addEach (c : Criteria ω) (a : Analyzer) (field : String) :
    Tally → Int → List String → Tally
  | t, _, [] => t
  | t, allowance, text :: rest =>
    if allowance ≤ 0 then t
    else
      let r := t.addTerms c field (a.fieldTerms field text) allowance
      addEach c a field r.2 (allowance - r.1) rest

def addTexts (c : Criteria ω) (analyzer : Option Analyzer) (t : Tally) (field : String)
    (texts : List String) : Except Fault Tally :=
  match analyzer with
  | none => .error (.analyzerRequired "")
  | some a => .ok (addEach c a field (t.openField field) c.maxTokens texts)

def ofTexts (c : Criteria ω) (analyzer : Option Analyzer) (field : String) (texts : List String) :
    Except Fault Tally :=
  addTexts c analyzer .empty field texts

/-- Counts a field of a document: from its term vector if there is one, else from its text. -/
def addField (c : Criteria ω) (analyzer : Option Analyzer) (corpus : Corpus) (id : String)
    (t : Tally) (field : String) : Except Fault Tally := do
  match ← corpus.vector id field with
  | some v => pure (t.addVector c field v)
  | none =>
    let d ← corpus.document id
    t.addTexts c analyzer field (d.values field)

def ofDocument (c : Criteria ω) (analyzer : Option Analyzer) (corpus : Corpus) (id : String)
    (fields : List String) : Except Fault Tally :=
  fields.foldlM (addField c analyzer corpus id) .empty

end Tally
end TermMining
