/-!
# Numbers with a fixed number of places

A finite float is a multiple of a power of two, and so has an exact decimal expansion. It
is written with a given number of places by rounding that expansion, a tie going to the
even neighbour.

## Main definitions

* `roundHalfEven`: the nearest integer to a quotient
* `BinaryNumber`: a sign, a mantissa and a power of two
* `FixedPoint.text`: a float with a given number of places
-/

namespace ConicForm

/-- The integer nearest to `num / den`; of two equally near ones the even one. -/
def roundHalfEven (num den : Nat) : Nat :=
  let q := num / den
  let twice := 2 * (num % den)
  if twice < den ∨ twice = den ∧ q % 2 = 0 then q else q + 1

/-- The number `± mantissa * 2 ^ exponent`. -/
structure BinaryNumber where
  negative : Bool
  mantissa : Nat
  exponent : Int
  deriving DecidableEq, Repr

namespace BinaryNumber

/-- The exact value of a finite float, with the sign of a zero. -/
def ofFloat (x : Float) : BinaryNumber :=
  let bits := x.toBits.toNat
  let fraction := bits % (1 <<< 52)
  let field := (bits >>> 52) % (1 <<< 11)
  { negative := bits >>> 63 = 1
    mantissa := if field = 0 then fraction else (1 <<< 52) + fraction
    exponent := (max field 1 : Nat) - 1075 }

/-- The magnitude in units of `10 ^ -places`, rounded. -/
def units (b : BinaryNumber) (places : Nat) : Nat :=
  roundHalfEven ((b.mantissa <<< b.exponent.toNat) * Nat.pow 10 places)
    (1 <<< (-b.exponent).toNat)

end BinaryNumber

namespace FixedPoint

/-- The digits of a number of units of `10 ^ -places`, with a point before the last
`places` of them. -/
def digits (units places : Nat) : String :=
  let whole := (units / Nat.pow 10 places).repr
  if places = 0 then whole
  else
    let fraction := (units % Nat.pow 10 places).repr
    whole ++ "." ++ "".pushn '0' (places - fraction.length) ++ fraction

/-- A float with a given number of places. The sign is kept where nothing else is left. -/
def text (places : Nat) (x : Float) : String :=
  if x.isNaN then "NaN"
  else
    let b := BinaryNumber.ofFloat x
    (if b.negative then "-" else "") ++ if x.isInf then "inf" else digits (b.units places) places

end FixedPoint

end ConicForm
