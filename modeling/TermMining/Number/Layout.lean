import TermMining.Number.Shortest

/-! The written form of a double: its shortest digits, laid out by a few choices. -/
namespace TermMining.Number

/-- The choices of a written form. Between the two powers of ten the number is written
positionally with at least one place after the point, else with an exponent that has a sign
and at least `exponentDigits` digits. -/
structure Layout where
  leastPositional : Int
  mostPositional : Int
  exponentDigits : Nat
  infinity : String
  notANumber : String

/-- Positional from 0.0001 to below 10^16. -/
def standardLayout : Layout where
  leastPositional := -4
  mostPositional := 15
  exponentDigits := 2
  infinity := "inf"
  notANumber := "nan"

namespace Layout

def zeros (n : Nat) : List Char := List.replicate n '0'

def positional (digits : List Char) (lead : Int) : List Char :=
  let whole := (lead + 1).toNat
  if lead < 0 then '0' :: '.' :: (zeros (-lead - 1).toNat ++ digits)
  else if digits.length ≤ whole then digits ++ zeros (whole - digits.length) ++ ['.', '0']
  else digits.take whole ++ '.' :: digits.drop whole

def scientific (l : Layout) (digits : List Char) (lead : Int) : List Char :=
  let mantissa :=
    match digits with
    | d :: e :: rest => d :: '.' :: e :: rest
    | ds => ds
  let power := Nat.toDigits 10 lead.natAbs
  mantissa ++ 'e' :: (if lead < 0 then '-' else '+') ::
    (zeros (l.exponentDigits - power.length) ++ power)

def magnitudeChars (l : Layout) (bits : Nat) : List Char :=
  if bits = 0 then ['0', '.', '0']
  else
    let d := shortest bits
    let digits := Nat.toDigits 10 d.digits
    let lead := d.exponent + (digits.length : Int) - 1
    if l.leastPositional ≤ lead ∧ lead ≤ l.mostPositional then positional digits lead
    else l.scientific digits lead

def write (l : Layout) (x : Float) : String :=
  let sign := if isNegative x then "-" else ""
  let bits := magnitude x
  if infinityBits < bits then l.notANumber
  else if bits = infinityBits then sign ++ l.infinity
  else sign ++ String.ofList (l.magnitudeChars bits)

end Layout

def text (x : Float) : String := standardLayout.write x

end TermMining.Number
