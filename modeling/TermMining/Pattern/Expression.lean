import TermMining.Fault
import TermMining.Pattern
import TermMining.Text.Blank
import TermMining.Text.Word

/-! The token patterns in use, and the expressions by which they can be asked for. -/
namespace TermMining.Pattern

def blankFree : Pattern := run fun c => !Text.isBlank c

def letters : Pattern := run Text.isLetterLike

def digits : Pattern := run Text.isDigit

/-- Runs of digits joined by single points or commas, two runs at least. -/
def number : Pattern :=
  let group := seq (one fun c => c == '.' || c == ',') digits
  seq digits (seq group (repeated group))

/-- Word characters of the scripts that put spaces between words. -/
def isSpacedWord (c : Char) : Bool := Text.isWord c && !Text.isStandalone c

/-- Runs of word characters joined by single apostrophes. -/
def contraction : Pattern :=
  seq (run isSpacedWord) (repeated (seq (char '\x27') (run isSpacedWord)))

/-- Decimal numbers stay whole, ideographs and kana stand alone, the rest are words. -/
def word : Pattern := choice number (choice (one Text.isStandalone) contraction)

def isLowerLatin (c : Char) : Bool := 'a' ≤ c && c ≤ 'z'

/-- The expressions that denote a pattern. A matcher that comes back to the other choices takes the
same match of each, wherever it begins (`takesFirst_expressions`). -/
def expressions : List (String × Pattern) :=
  [("[a-z]+", run isLowerLatin),
   ("[a-z]*", many isLowerLatin),
   ("\\d+", digits),
   ("\\w+", run Text.isWord),
   ("a|ab", choice (char 'a') (seq (char 'a') (char 'b'))),
   ("(a+)(b*)", seq (run (· == 'a')) (many (· == 'b'))),
   ("", nothing),
   ("\\S+", blankFree),
   ("[^\\W\\d_]+", letters)]

def brokenExpressions : List (String × PatternFault) :=
  [("(", .unclosedGroup 0), ("[a", .unclosedSet 0), ("*a", .nothingToRepeat 0)]

/-- The pattern of an expression, or what is wrong with it; none for an expression that is not
among those understood. -/
def ofExpression? (e : String) : Option (Except PatternFault Pattern) :=
  ((expressions.lookup e).map .ok).or ((brokenExpressions.lookup e).map .error)

end TermMining.Pattern
