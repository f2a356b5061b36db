import TermMining.Weight
import TermMining.Number.Nearest
import TermMining.Number.Layout

/-! Doubles as weights. -/
namespace TermMining

def doubleLog (x : Float) : Except ArithFault Float :=
  if Number.less 0 x || x.isNaN then .ok x.log else .error .logOfNonpositive

instance : Weight Float where
  zero := 0
  half := 0.5
  one := 1
  add := (· + ·)
  mul := (· * ·)
  div := (· / ·)
  ofInt n := (Number.ofInt? n).elim (.error .integerTooLarge) .ok
  quotient m n :=
    if n = 0 then .error .divisionByZero
    else (Number.ofQuotient? m n).elim (.error .quotientTooLarge) .ok
  log := doubleLog
  less := Number.less
  same := Number.same

instance : WrittenWeight Float where
  write := Number.text

end TermMining
