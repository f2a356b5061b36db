import TermMining.Text.Digit
import TermMining.Text.Letter
import TermMining.Text.Numeral

/-! Word characters, and those among them that tokenizers treat apart. -/
namespace TermMining.Text

/-- Letters, everything with a numeric value, and the underscore. -/
def isWord (c : Char) : Bool := c == '_' || isDigit c || isLetter c || isNumeral c

def isLetterLike (c : Char) : Bool := isWord c && !isDigit c && c != '_'

/-- Hiragana and katakana, and the basic block of unified ideographs. -/
def standaloneRanges : CharSet := [(0x3040, 0x30ff), (0x4e00, 0x9fff)]

/-- A character of a script written without spaces: each one is a word by itself. -/
def isStandalone (c : Char) : Bool := standaloneRanges.contains c

theorem isWord_of_isDigit {c : Char} (h : isDigit c) : isWord c := by simp [isWord, h]

end TermMining.Text
