import TermMining.Number.Bits

/-! Correct rounding of whole numbers and their quotients to doubles: to nearest, ties to even. -/
namespace TermMining.Number

/-- The whole number nearest to `num / den`; halfway the even one. -/
def roundHalfEven (num den : Nat) : Nat :=
  let q := num / den
  let r := num % den
  if 2 * r < den then q
  else if den < 2 * r then q + 1
  else q + q % 2

/-- The exponent of the last binary place kept of `num / den`: 53 places are kept, but none
below the last place of the subnormal numbers. -/
def lastPlace (num den : Nat) : Int :=
  let guess : Int := num.log2 - den.log2
  let lead := if num <<< (-guess).toNat < den <<< guess.toNat then guess - 1 else guess
  max (lead - 52) (-1074)

/-- The magnitude of the double nearest to `num / den`; none from half a unit beyond the
largest finite one. A mantissa rounded up to the next power of two carries into the exponent. -/
def nearest? (num den : Nat) : Option Nat :=
  if num = 0 then some 0
  else
    let e := lastPlace num den
    let m := roundHalfEven (num <<< (-e).toNat) (den <<< e.toNat)
    let bits := (e + 1074).toNat <<< 52 + m
    if bits < infinityBits then some bits else none

/-- The double nearest to `num / den`. A zero takes its sign from the divisor. -/
def ofQuotient? (num den : Int) : Option Float :=
  (nearest? num.natAbs den.natAbs).map (ofMagnitude ((num < 0) ^^ (den < 0)))

def ofInt? (n : Int) : Option Float := ofQuotient? n 1

theorem roundHalfEven_error (num : Nat) {den : Nat} (h : 0 < den) :
    2 * num ≤ (2 * roundHalfEven num den + 1) * den ∧
      2 * roundHalfEven num den * den ≤ 2 * num + den := by
  have hd := Nat.div_add_mod num den
  have hr := Nat.mod_lt num h
  rw [Nat.mul_comm] at hd
  unfold roundHalfEven
  dsimp only
  generalize num / den = q at *
  generalize num % den = r at *
  have hp : q % 2 = 0 ∨ q % 2 = 1 := by omega
  split
  · constructor <;> grind
  · split
    · constructor <;> grind
    · rcases hp with hp | hp <;> rw [hp] <;> constructor <;> grind

end TermMining.Number
