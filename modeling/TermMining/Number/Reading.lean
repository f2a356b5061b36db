import TermMining.Number.Nearest

/-! Doubles read from decimal numbers with a point or an exponent. -/
namespace TermMining.Number

def digitsValue (digits : List Char) : Nat :=
  digits.foldl (fun n c => 10 * n + (c.toNat - '0'.toNat)) 0

def signedValue : List Char → Int
  | '-' :: digits => -(digitsValue digits : Int)
  | '+' :: digits => digitsValue digits
  | digits => digitsValue digits

/-- The double nearest to `digits * 10 ^ power`, infinite beyond the largest one. -/
def ofScientific (negative : Bool) (digits : Nat) (power : Int) : Float :=
  ofMagnitude negative
    ((nearest? (digits * Nat.pow 10 power.toNat) (Nat.pow 10 (-power).toNat)).getD infinityBits)

def ofDecimal (s : String) : Float :=
  let negative := s.toList.head? == some '-'
  let body := if negative then s.toList.drop 1 else s.toList
  let mantissa := body.takeWhile fun c => c != 'e' && c != 'E'
  let power := (body.dropWhile fun c => c != 'e' && c != 'E').drop 1
  let whole := mantissa.takeWhile (· != '.')
  let fraction := (mantissa.dropWhile (· != '.')).drop 1
  ofScientific negative (digitsValue (whole ++ fraction)) (signedValue power - fraction.length)

end TermMining.Number
