/-! Floats as exact numbers.

`ofBits` reads the 64 bits of a float as `mantissa * 2 ^ exponent`, and
`nearestBits` goes the other way: it rounds a quotient of natural numbers to the
nearest float, a tie to the even mantissa. -/
namespace Script

/-- What the 64 bits of a float stand for. A finite float is
`mantissa * 2 ^ exponent`, with its sign kept apart. -/
inductive Binary64 where
  | nan
  | infinite (negative : Bool)
  | finite (negative : Bool) (mantissa : Nat) (exponent : Int)
deriving DecidableEq, Repr, Inhabited

namespace Binary64

/-- The exponent of the smallest floats. -/
def minExponent : Int := -1074

/-- The pattern of positive infinity, which is above that of every finite float. -/
def infinityBits : Nat := 2047 * Nat.pow 2 52

def ofBits (bits : UInt64) : Binary64 :=
  let n := bits.toNat
  let negative := n / Nat.pow 2 63 == 1
  let field : Nat := n / Nat.pow 2 52 % Nat.pow 2 11
  let fraction := n % Nat.pow 2 52
  if field = 2047 then
    if fraction = 0 then .infinite negative else .nan
  else if field = 0 then .finite negative fraction minExponent
  else .finite negative (Nat.pow 2 52 + fraction) (field - 1075)

def ofFloat (x : Float) : Binary64 := ofBits x.toBits

/-- The integer that a float is, if it is one. -/
def toInt? : Binary64 → Option Int
  | .finite negative mantissa exponent =>
    let magnitude :=
      if 0 ≤ exponent then some (mantissa * Nat.pow 2 exponent.toNat)
      else if mantissa % Nat.pow 2 (-exponent).toNat = 0 then
        some (mantissa / Nat.pow 2 (-exponent).toNat)
      else none
    magnitude.map fun n => if negative then -(n : Int) else n
  | _ => none

/-- The quotient to the nearest natural number, a tie to the even one. -/
def roundHalfEven (num den : Nat) : Nat :=
  let q := num / den
  let r := num % den
  if 2 * r < den ∨ 2 * r = den ∧ q % 2 = 0 then q else q + 1

/-- The exponent of the leading binary digit of `num / den`. -/
def binaryExponent (num den : Nat) : Int :=
  let e : Int := num.log2 - den.log2
  if den * Nat.pow 2 e.toNat ≤ num * Nat.pow 2 (-e).toNat then e else e - 1

/-- The pattern of the float nearest to `num / den`. A mantissa that rounds up to
the next power of two carries into the exponent field, and on to infinity. -/
def nearestBits (num den : Nat) : UInt64 :=
  if num = 0 then 0
  else
    let exponent := max (binaryExponent num den - 52) minExponent
    let mantissa :=
      roundHalfEven (num * Nat.pow 2 (-exponent).toNat) (den * Nat.pow 2 exponent.toNat)
    let bits := (exponent - minExponent).toNat * Nat.pow 2 52 + mantissa
    UInt64.ofNat (min bits infinityBits)

/-- The float nearest to `num / den`. -/
def nearest (num den : Nat) : Float := Float.ofBits (nearestBits num den)

end Binary64

end Script
