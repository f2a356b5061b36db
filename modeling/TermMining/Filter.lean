import TermMining.StringSet
import TermMining.Text.Lowercase
import TermMining.Token

/-! Token filters: each changes a token or drops it, whatever tokens stand around it. -/
namespace TermMining

/-- Words too common in English to tell texts apart. -/
def englishStopWords : List String :=
  ["a", "an", "and", "are", "as", "at", "be", "but", "by", "for", "if", "in", "into", "is", "it",
   "no", "not", "of", "on", "or", "such", "that", "the", "their", "then", "there", "these",
   "they", "this", "to", "was", "will", "with"]

inductive Filter where
  | lowercase
  /-- Drops the given words. Where case is ignored they are given in lower case. -/
  | stop (words : StringSet) (ignoreCase : Bool)
  /-- Keeps texts of at least `least` and at most `most` characters. -/
  | length (least most : Int)

namespace Filter

def stopWords (words : List String := englishStopWords) (ignoreCase : Bool := true) : Filter :=
  .stop (.ofList (if ignoreCase then words.map Text.lowercase else words)) ignoreCase

def apply : Filter → Token → Option Token
  | lowercase, t => some { t with text := Text.lowercase t.text }
  | stop words ignoreCase, t =>
    if words.contains (if ignoreCase then Text.lowercase t.text else t.text) then none else some t
  | length least most, t =>
    if least ≤ t.text.length ∧ t.text.length ≤ most then some t else none

/-- The filters in turn, until one drops the token. -/
def applyAll : List Filter → Token → Option Token
  | [], t => some t
  | f :: fs, t => (f.apply t).bind (applyAll fs)

theorem applyAll_append (fs gs : List Filter) (t : Token) :
    applyAll (fs ++ gs) t = (applyAll fs t).bind (applyAll gs) := by
  induction fs generalizing t with
  | nil => rfl
  | cons f fs ih =>
    simp only [List.cons_append, applyAll]
    cases f.apply t with
    | none => rfl
    | some u => exact ih u

end Filter
end TermMining
