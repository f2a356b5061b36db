import TermMining.Value
import TermMining.Weight

/-! What can go wrong, by cause, and the wording of each cause. -/
namespace TermMining

/-- Settings that must not be negative. -/
inductive Threshold where
  | minTermFreq
  | minDocFreq
  | minWordLen
  | maxWordLen
  | maxTokens
  | maxDocFreq
  deriving DecidableEq, Repr

def Threshold.name : Threshold → String
  | minTermFreq => "min_term_freq"
  | minDocFreq => "min_doc_freq"
  | minWordLen => "min_word_len"
  | maxWordLen => "max_word_len"
  | maxTokens => "max_num_tokens_parsed"
  | maxDocFreq => "max_doc_freq"

inductive Violation where
  | negative (t : Threshold)
  | noQueryTerms
  | boostNotPositive
  | wordLensCrossed
  deriving DecidableEq, Repr

def Violation.message : Violation → String
  | negative t => t.name ++ " must be >= 0"
  | noQueryTerms => "max_query_terms must be >= 1"
  | boostNotPositive => "boost_factor must be > 0"
  | wordLensCrossed => "max_word_len must be >= min_word_len"

/-- Why an expression is no token pattern, with the place of the offence. -/
inductive PatternFault where
  | unclosedGroup (place : Nat)
  | unclosedSet (place : Nat)
  | nothingToRepeat (place : Nat)
  deriving DecidableEq, Repr

def PatternFault.message : PatternFault → String
  | unclosedGroup n => s!"missing ), unterminated subpattern at position {n}"
  | unclosedSet n => s!"unterminated character set at position {n}"
  | nothingToRepeat n => s!"nothing to repeat at position {n}"

/-- The comparisons that range checks make. -/
inductive Comparison where
  | less
  | atMost
  deriving DecidableEq, Repr

/-- Whether the comparison holds of values that compare so; of values that are unordered it does
not. -/
def Comparison.holds : Comparison → Option Ordering → Bool
  | less, o => o == some .lt
  | atMost, o => o == some .lt || o == some .eq

def Comparison.symbol : Comparison → String
  | less => "<"
  | atMost => "<="

inductive Fault where
  /-- A failure of the library that only its details describe. -/
  | general (details : List Value)
  /-- A misuse that only its details describe. -/
  | misconfigured (details : List Value)
  | outOfRange (v : Violation)
  /-- Text has to be tokenized and no analyzer is set. An empty note stands for the usual one. -/
  | analyzerRequired (note : String)
  | tooManyClauses (cap : Int)
  | documentNotFound (id : String)
  | arithmetic (f : ArithFault)
  | unequalLengths
  | missingEntry (name : String)
  | incomparable (c : Comparison) (left right : String)
  | notIterable (kind : String)
  | notElementary (kind : String)
  | notText (place : Nat) (kind : String)
  | badPattern (f : PatternFault)
  deriving Inhabited

def Fault.message : Fault → String
  | general details => Value.writtenRow details
  | misconfigured details => Value.writtenRow details
  | outOfRange v => v.message
  | analyzerRequired note =>
    if note.isEmpty then
      "To use MoreLikeThis without term vectors, you must provide an Analyzer"
    else note
  | tooManyClauses cap => s!"maxClauseCount is set to {cap}"
  | documentNotFound id => s!"Document not found: {id}"
  | arithmetic f => f.message
  | unequalLengths => "terms and frequencies must have the same length"
  | missingEntry name => Text.quote name
  | incomparable c left right =>
    "'" ++ c.symbol ++ "' not supported between instances of '" ++ left ++ "' and '" ++ right ++ "'"
  | notIterable kind => "'" ++ kind ++ "' object is not iterable"
  | notElementary kind => "unhashable type: '" ++ kind ++ "'"
  | notText place kind =>
    s!"sequence item {place}: expected str instance, " ++ kind ++ " found"
  | badPattern f => f.message

/-- What is worth a remark without being a failure. -/
inductive Warning where
  | noIndexedFields
  | unknownAnalyzer (name : Option String)
  deriving DecidableEq, Repr

def Warning.message : Warning → String
  | noIndexedFields => "No indexed fields to find interesting terms in"
  | unknownAnalyzer name =>
    "Unknown analyzer " ++ (name.elim Value.null .text).literal ++ ", using standard"

end TermMining
