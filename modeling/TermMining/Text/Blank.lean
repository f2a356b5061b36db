import TermMining.Text.CharSet

/-! White space: what separates words that nothing else separates. -/
namespace TermMining.Text

def blankRanges : CharSet :=
  [(9, 13), (28, 32), (133, 133), (160, 160), (5760, 5760), (8192, 8202), (8232, 8233),
   (8239, 8239), (8287, 8287), (12288, 12288)]

def isBlank (c : Char) : Bool := blankRanges.contains c

end TermMining.Text
