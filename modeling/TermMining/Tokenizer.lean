import TermMining.Pattern.Expression
import TermMining.Token

/-! Tokenizers: a pattern, and a limit on the length of a token. -/
namespace TermMining

/-- Matches longer than `maxLength` are left out. Zero stands for no limit. -/
structure Tokenizer where
  pattern : Pattern
  maxLength : Int := 0

namespace Tokenizer

def keeps (t : Tokenizer) (l : Pattern.Lexeme) : Bool :=
  t.maxLength = 0 || l.chars.length ≤ t.maxLength

/-- Positions count the tokens that are kept. -/
def tokens (t : Tokenizer) (text : String) : List Token :=
  ((t.pattern.lexemes text).filter t.keeps).mapIdx fun i l =>
    { text := String.ofList l.chars, position := i, start := l.start, stop := l.stop }

def standard (maxLength : Int := 255) : Tokenizer := ⟨.word, maxLength⟩

def whitespace : Tokenizer := ⟨.blankFree, 0⟩

def letter : Tokenizer := ⟨.letters, 0⟩

end Tokenizer

def wordsBetweenBlanks : List Char → List (List Char)
  | [] => []
  | c :: cs =>
    if Text.isBlank c then wordsBetweenBlanks cs
    else
      (c :: cs.takeWhile fun d => !Text.isBlank d) ::
        wordsBetweenBlanks (cs.dropWhile fun d => !Text.isBlank d)
termination_by s => s.length
decreasing_by
  · simp
  · exact Nat.lt_succ_of_le (List.dropWhile_sublist _).length_le

end TermMining
