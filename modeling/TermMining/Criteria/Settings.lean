import TermMining.Criteria
import TermMining.Value.Order
import TermMining.Weight.Double

/-! Criteria as named settings: read, checked, changed and written out. A setting that is in its
range need not be of the kind that mining needs, and is written out as it came. -/
namespace TermMining

/-- The values of all settings. `stopWords` ascend and are distinct. -/
structure Settings where
  minTermFreq : Value
  minDocFreq : Value
  maxDocFreq : Value
  boost : Value
  boostFactor : Value
  fieldNames : List Value
  minWordLen : Value
  maxWordLen : Value
  maxQueryTerms : Value
  maxTokens : Value
  stopWords : List Value

namespace Settings

def ofCriteria (c : Criteria Float) : Settings where
  minTermFreq := .int c.minTermFreq
  minDocFreq := .int c.minDocFreq
  maxDocFreq := c.maxDocFreq.elim .null .int
  boost := .bool c.boost
  boostFactor := .double c.boostFactor
  fieldNames := c.fieldNames.map .text
  minWordLen := .int c.minWordLen
  maxWordLen := .int c.maxWordLen
  maxQueryTerms := .int c.maxQueryTerms
  maxTokens := .int c.maxTokens
  stopWords := c.stopWords.members.map .text

def standard : Settings := ofCriteria .standard

def entries (s : Settings) : List (String × Value) :=
  [("min_term_freq", s.minTermFreq),
   ("min_doc_freq", s.minDocFreq),
   ("max_doc_freq", s.maxDocFreq),
   ("boost", s.boost),
   ("boost_factor", s.boostFactor),
   ("field_names", .list s.fieldNames),
   ("min_word_len", s.minWordLen),
   ("max_word_len", s.maxWordLen),
   ("max_query_terms", s.maxQueryTerms),
   ("max_num_tokens_parsed", s.maxTokens),
   ("stop_words", .list s.stopWords)]

/-- Changes one setting without any check of its range. Names that are not known are passed
over; collections have to be collections. -/
def assign (s : Settings) (name : String) (v : Value) : Except Fault Settings :=
  match name with
  | "min_term_freq" => .ok { s with minTermFreq := v }
  | "min_doc_freq" => .ok { s with minDocFreq := v }
  | "max_doc_freq" => .ok { s with maxDocFreq := v }
  | "boost" => .ok { s with boost := v }
  | "boost_factor" => .ok { s with boostFactor := v }
  | "field_names" => v.items.map fun vs => { s with fieldNames := vs }
  | "min_word_len" => .ok { s with minWordLen := v }
  | "max_word_len" => .ok { s with maxWordLen := v }
  | "max_query_terms" => .ok { s with maxQueryTerms := v }
  | "max_num_tokens_parsed" => .ok { s with maxTokens := v }
  | "stop_words" => do
    let vs ← Value.ascending (← Value.distinct (← v.items))
    pure { s with stopWords := vs }
  | _ => .ok s

def assignEach (s : Settings) : List (String × Value) → Settings × Option Fault
  | [] => (s, none)
  | (name, v) :: rest =>
    match s.assign name v with
    | .ok s => assignEach s rest
    | .error f => (s, some f)

/-- Changes settings all or none. Field names are read before all others. -/
def change (s : Settings) (entries : List (String × Value)) : Except Fault Settings :=
  let (names, others) := entries.partition fun e => e.1 = "field_names"
  (names ++ others).foldlM (fun s e => s.assign e.1 e.2) s

def withFieldNames (s : Settings) (names : List String) : Settings :=
  { s with fieldNames := (names.mergeSort fun a b => a ≤ b).map .text }

/-- The settings that must not be negative, in the order in which they are checked. -/
def thresholds (s : Settings) : List (Threshold × Value) :=
  [(.minTermFreq, s.minTermFreq), (.minDocFreq, s.minDocFreq), (.minWordLen, s.minWordLen),
   (.maxWordLen, s.maxWordLen), (.maxTokens, s.maxTokens)] ++
  match s.maxDocFreq with
  | .null => []
  | v => [(.maxDocFreq, v)]

/-- A boost factor that is no number is in its range. -/
def checkRanges (s : Settings) : Except Fault Unit := do
  s.thresholds.forM fun t => do
    if ← t.2.compares .less (.int 0) then throw (.outOfRange (.negative t.1))
  if ← s.maxQueryTerms.compares .less (.int 1) then throw (.outOfRange .noQueryTerms)
  if ← s.boostFactor.compares .atMost (.int 0) then throw (.outOfRange .boostNotPositive)
  if ← Value.compares .less (.int 0) s.maxWordLen then
    if ← s.maxWordLen.compares .less s.minWordLen then throw (.outOfRange .wordLensCrossed)

def check (s : Settings) : Except Fault Settings := s.checkRanges.map fun _ => s

/-- Reads settings; those that are missing take their standard value. -/
def read (entries : List (String × Value)) : Except Fault Settings := do
  (← standard.change entries).check

/-- Settings agree if they are written alike. -/
def agrees (s t : Settings) : Bool :=
  (Value.record s.entries).literal == (Value.record t.entries).literal

def describe (s : Settings) : Except Fault String := do
  let names ← Value.join ", " s.fieldNames
  let lines :=
    ["\tmaxQueryTerms  : " ++ s.maxQueryTerms.written,
     "\tminWordLen     : " ++ s.minWordLen.written,
     "\tmaxWordLen     : " ++ s.maxWordLen.written,
     "\tfieldNames     : " ++ names,
     "\tboost          : " ++ s.boost.written,
     "\tminTermFreq    : " ++ s.minTermFreq.written,
     "\tminDocFreq     : " ++ s.minDocFreq.written]
  pure ("\n".intercalate lines ++ "\n")

/-- The criteria that settings stand for. A value that mining cannot use leaves the standard
one. -/
def criteria (s : Settings) : Criteria Float :=
  let standard : Criteria Float := .standard
  { minTermFreq := s.minTermFreq.whole?.getD standard.minTermFreq
    minDocFreq := s.minDocFreq.whole?.getD standard.minDocFreq
    maxDocFreq := s.maxDocFreq.whole?
    boost := s.boost.holds
    boostFactor :=
      match s.boostFactor with
      | .double x => x
      | _ => standard.boostFactor
    fieldNames := s.fieldNames.map Value.written
    minWordLen := s.minWordLen.whole?.getD standard.minWordLen
    maxWordLen := s.maxWordLen.whole?.getD standard.maxWordLen
    maxQueryTerms := s.maxQueryTerms.whole?.getD standard.maxQueryTerms
    maxTokens := s.maxTokens.whole?.getD standard.maxTokens
    stopWords := .ofList (s.stopWords.map Value.written) }

end Settings
end TermMining
