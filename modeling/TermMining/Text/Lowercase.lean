import TermMining.Text.Cased
import TermMining.Text.CaseRuns

/-! Full lowercasing of a text. The dotted capital I becomes two characters, and the capital sigma
becomes a final sigma at the end of a word. -/
namespace TermMining.Text

def lowerChar (c : Char) : List Char :=
  if c = 'İ' then ['i', '\u0307']
  else [((CaseRun.lower? caseRuns c.toNat).map Char.ofNat).getD c]

/-- The first character that is not case-ignorable has case. -/
def meetsCased (cs : List Char) : Bool :=
  match cs.dropWhile isCaseIgnorable with
  | [] => false
  | c :: _ => isCased c

/-- A sigma is final when it follows a cased character and none follows it. `before` is the
text in front of the sigma, read backwards. -/
def isFinalSigma (before after : List Char) : Bool :=
  meetsCased before && !meetsCased after

/-- Lowers a text that follows `before`, which is read backwards. -/
def lowerAfter (before : List Char) : List Char → List Char
  | [] => []
  | c :: rest =>
    (if c = 'Σ' then [if isFinalSigma before rest then 'ς' else 'σ'] else lowerChar c) ++
      lowerAfter (c :: before) rest

def lowerChars (cs : List Char) : List Char := lowerAfter [] cs

def lowercase (s : String) : String := String.ofList (lowerChars s.toList)

end TermMining.Text
