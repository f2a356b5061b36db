import TermMining.Filter
import TermMining.Tokenizer

/-! Analyzers: from the text of a field to its terms. -/
namespace TermMining

inductive Analyzer where
  /-- Tokens, or without a tokenizer the words between white space, through a row of filters. -/
  | chain (tokenizer : Option Tokenizer) (filters : List Filter)
  /-- The whole text is one term. -/
  | keyword
  /-- Fields go to analyzers of their own; the earliest entry of a field counts. -/
  | perField (default : Analyzer) (fields : List (String × Analyzer))
  deriving Inhabited

namespace Analyzer

/-- Words between white space know their order but not their place. -/
def plainTokens (text : String) : List Token :=
  (wordsBetweenBlanks text.toList).mapIdx fun i w => { text := String.ofList w, position := i }

/-- The tokens of a text that belongs to no field. -/
def tokens : Analyzer → String → List Token
  | chain tokenizer filters, text =>
    (tokenizer.elim (plainTokens text) (·.tokens text)).filterMap (Filter.applyAll filters)
  | keyword, text => if text.isEmpty then [] else [⟨text, 0, 0, text.length⟩]
  | perField default _, text => default.tokens text

def terms (a : Analyzer) (text : String) : List String := (a.tokens text).map (·.text)

mutual

def fieldTerms : Analyzer → String → String → List String
  | perField default fields, field, text =>
    (entryTerms fields field text).getD (default.fieldTerms field text)
  | chain tokenizer filters, _, text => terms (chain tokenizer filters) text
  | keyword, _, text => terms keyword text

def entryTerms : List (String × Analyzer) → String → String → Option (List String)
  | [], _, _ => none
  | (name, a) :: rest, field, text =>
    if name = field then some (a.fieldTerms field text) else entryTerms rest field text

end

/-- Standard tokens in lower case without stop words. -/
def standard (stopWords : List String := englishStopWords) (maxLength : Int := 255) : Analyzer :=
  .chain (some (.standard maxLength)) [.lowercase, .stopWords stopWords]

def simple : Analyzer := .chain (some .letter) [.lowercase]

def stop (stopWords : List String := englishStopWords) : Analyzer :=
  .chain (some .letter) [.lowercase, .stopWords stopWords]

def whitespace : Analyzer := .chain (some .whitespace) []

/-- Gives a field an analyzer of its own. Analyzers that do not tell fields apart stay as they
are. -/
def withField (a : Analyzer) (field : String) (b : Analyzer) : Analyzer :=
  match a with
  | perField default fields => perField default ((field, b) :: fields)
  | a => a

/-- The analyzers that a field can ask for by name, with their default settings. -/
def registered : List (String × Analyzer) :=
  [("keyword", keyword), ("simple", simple), ("standard", standard), ("stop", stop),
   ("whitespace", whitespace)]

def named? (name : String) : Option Analyzer := registered.lookup name

end Analyzer
end TermMining
