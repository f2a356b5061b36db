import TermMining.Number.Bits

/-! The fewest decimal digits that read back as a given double, found by comparisons of whole
numbers: quarters of a unit in the last place. -/
namespace TermMining.Number

/-- `digits * 10 ^ exponent`. -/
structure Decimal where
  digits : Nat
  exponent : Int

/-- `quarters * 2 ^ (exponent - 2)` measured in steps of `10 ^ step`, as a fraction. -/
structure Scale where
  num : Nat
  den : Nat

def scale (exponent step : Int) : Scale :=
  ⟨Nat.pow 10 (-step).toNat <<< (exponent - 2).toNat,
    Nat.pow 10 step.toNat <<< (2 - exponent).toNat⟩

/-- The largest `k` with `10 ^ k` not above the value. -/
def leadingPower (d : Dyadic) : Int :=
  let guess := ((d.mantissa.log2 : Int) + d.exponent) * 30103 / 100000
  let reaches (k : Int) : Bool :=
    let s := scale d.exponent k
    s.den ≤ 4 * d.mantissa * s.num
  if reaches (guess + 1) then guess + 1
  else if reaches guess then guess
  else guess - 1

/-- The point of the decimal grid of step `10 ^ step` that reads back as the double, if there
is one: of two the nearer, and halfway the even one. Below a power of two the doubles lie
closer together; the ends of the interval belong to it if the mantissa is even. -/
def onGrid? (bits : Nat) (step : Int) : Option Nat :=
  let d := dyadic bits
  let s := scale d.exponent step
  let value := 4 * d.mantissa * s.num
  let low := (4 * d.mantissa - (if bits % 1 <<< 52 = 0 ∧ 1 <<< 53 ≤ bits then 1 else 2)) * s.num
  let high := (4 * d.mantissa + 2) * s.num
  let inside (n : Nat) : Bool :=
    if d.mantissa % 2 = 0 then low ≤ n * s.den && n * s.den ≤ high
    else low < n * s.den && n * s.den < high
  let below := value / s.den
  let above := below + 1
  match inside below, inside above with
  | false, false => none
  | true, false => some below
  | false, true => some above
  | true, true =>
    let down := value - below * s.den
    let up := above * s.den - value
    some (if down < up then below else if up < down then above else below + below % 2)

/-- Drops trailing zeros; `fuel` bounds their number. -/
def trimZeros : Nat → Decimal → Decimal
  | 0, d => d
  | fuel + 1, d =>
    if d.digits % 10 = 0 ∧ d.digits ≠ 0 then trimZeros fuel ⟨d.digits / 10, d.exponent + 1⟩ else d

/-- The first grid that has a point for the double, from one digit to seventeen. -/
def shortest (bits : Nat) : Decimal :=
  let lead := leadingPower (dyadic bits)
  let found := (List.range 17).findSome? fun (n : Nat) =>
    let step := lead - n
    (onGrid? bits step).map fun digits => trimZeros 17 ⟨digits, step⟩
  found.getD ⟨0, 0⟩

end TermMining.Number
