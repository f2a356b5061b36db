/-! Doubles by their bits: the order of doubles, and the dyadic number that each one stands for. -/
namespace TermMining.Number

/-- The bits of positive infinity; a larger magnitude is no number. -/
def infinityBits : Nat := 0x7ff0000000000000

def isNegative (x : Float) : Bool := 1 <<< 63 ≤ x.toBits.toNat

def magnitude (x : Float) : Nat := x.toBits.toNat % 1 <<< 63

def ofMagnitude (negative : Bool) (bits : Nat) : Float :=
  Float.ofBits (UInt64.ofNat (if negative then 1 <<< 63 + bits else bits))

/-- Where a double stands on the line of doubles: both zeros at 0, what is no number nowhere. -/
def place? (x : Float) : Option Int :=
  if infinityBits < magnitude x then none
  else some (if isNegative x then -(magnitude x : Int) else magnitude x)

def less (x y : Float) : Bool :=
  match place? x, place? y with
  | some i, some j => i < j
  | _, _ => false

def same (x y : Float) : Bool :=
  match place? x, place? y with
  | some i, some j => i == j
  | _, _ => false

/-- `mantissa * 2 ^ exponent`. -/
structure Dyadic where
  mantissa : Nat
  exponent : Int

/-- The value of a finite magnitude. Below the least normal one the exponent stays put. -/
def dyadic (bits : Nat) : Dyadic :=
  if bits < 1 <<< 52 then ⟨bits, -1074⟩
  else ⟨1 <<< 52 + bits % 1 <<< 52, (bits / 1 <<< 52 : Nat) - 1075⟩

/-- How a whole number and a double compare, exactly; with what is no number not at all. -/
def compareWhole? (n : Int) (x : Float) : Option Ordering :=
  let bits := magnitude x
  if infinityBits < bits then none
  else if bits = infinityBits then some (if isNegative x then .gt else .lt)
  else
    let d := dyadic bits
    let m : Int := if isNegative x then -d.mantissa else d.mantissa
    some (compare (n <<< (-d.exponent).toNat) (m <<< d.exponent.toNat))

end TermMining.Number
