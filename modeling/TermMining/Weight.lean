/-! The numbers that terms are weighed in. Scoring, ranking and boosting are written once over this
class; doubles run them, and any field with a logarithm can state their exact laws. -/
namespace TermMining

inductive ArithFault where
  | divisionByZero
  | quotientTooLarge
  | integerTooLarge
  | logOfNonpositive
  deriving DecidableEq, Repr

namespace ArithFault

def message : ArithFault → String
  | divisionByZero => "division by zero"
  | quotientTooLarge => "integer division result too large for a float"
  | integerTooLarge => "int too large to convert to float"
  | logOfNonpositive => "math domain error"

end ArithFault

/-- Whole numbers enter by `ofInt` and `quotient`, which round once. `less` and `same` compare
values: an operand that is no number makes both fail. -/
class Weight (ω : Type) where
  zero : ω
  half : ω
  one : ω
  add : ω → ω → ω
  mul : ω → ω → ω
  div : ω → ω → ω
  ofInt : Int → Except ArithFault ω
  quotient : Int → Int → Except ArithFault ω
  log : ω → Except ArithFault ω
  less : ω → ω → Bool
  same : ω → ω → Bool

class WrittenWeight (ω : Type) where
  write : ω → String

end TermMining
