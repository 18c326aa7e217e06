import Script.Number.Binary64

/-! Decimal texts of floats.

`shortest` finds the fewest decimal digits that read back as the same float: the
reals that round to it form an interval, and grid after grid of decimals, each
ten times finer, is tried until one of the value's two neighbours on the grid
lies in that interval. Of two such neighbours the nearer is taken, on a tie the
upper. `plain` and `compact` are the two ways the language writes a float. -/
namespace Script

/-- The number `digits * 10 ^ exponent`. -/
structure Decimal where
  digits : Nat
  exponent : Int
deriving DecidableEq, Repr, Inhabited

namespace Decimal

/-- The number of decimal digits; zero has none. -/
def digitCount (n : Nat) : Nat := if n = 0 then 0 else (Nat.toDigits 10 n).length

/-- The exponent of the leading decimal digit of `num / den`. -/
def leadingExponent (num den : Nat) : Int :=
  if den ≤ num then digitCount (num / den) - 1
  else -(digitCount ((den + num - 1) / num - 1) : Int)

/-- The reals that round to one float, in units of `1 / den`: from `lower` to
`upper` around `value`, with both ends or without. -/
structure Interval where
  lower : Nat
  value : Nat
  upper : Nat
  den : Nat
  closed : Bool

/-- The interval of `mantissa * 2 ^ exponent`. Below a power of two floats lie
twice as dense, so the lower half is half as wide there. -/
def Interval.around (mantissa : Nat) (exponent : Int) : Interval :=
  let unit := Nat.pow 2 (exponent - 2).toNat
  let below := if mantissa = Nat.pow 2 52 ∧ Binary64.minExponent < exponent then 1 else 2
  { lower := (4 * mantissa - below) * unit
    value := 4 * mantissa * unit
    upper := (4 * mantissa + 2) * unit
    den := Nat.pow 2 (2 - exponent).toNat
    closed := mantissa % 2 == 0 }

/-- Whether `d * 10 ^ k` lies in the interval. -/
def Interval.contains (i : Interval) (k : Int) (d : Nat) : Bool :=
  let point := d * (i.den * Nat.pow 10 k.toNat)
  let scale := Nat.pow 10 (-k).toNat
  if i.closed then decide (i.lower * scale ≤ point) && decide (point ≤ i.upper * scale)
  else decide (i.lower * scale < point) && decide (point < i.upper * scale)

/-- The multiple of `10 ^ k` that lies in the interval and next to its value. -/
def Interval.onGrid? (i : Interval) (k : Int) : Option Nat :=
  let unit := i.den * Nat.pow 10 k.toNat
  let value := i.value * Nat.pow 10 (-k).toNat
  let d := value / unit
  match i.contains k d, i.contains k (d + 1) with
  | true, true => some (if 2 * value < (2 * d + 1) * unit then d else d + 1)
  | true, false => some d
  | false, true => some (d + 1)
  | false, false => none

/-- The first hit on the grids `10 ^ k`, `10 ^ (k - 1)`, and so on for `n` grids;
on the grid after those the lower neighbour. -/
def Interval.search (i : Interval) (k : Int) : Nat → Decimal
  | 0 => ⟨i.value * Nat.pow 10 (-k).toNat / (i.den * Nat.pow 10 k.toNat), k⟩
  | n + 1 =>
    match i.onGrid? k with
    | some d => ⟨d, k⟩
    | none => i.search (k - 1) n

/-- Moves zeros at the end of the digits, at most `n`, to the exponent. -/
def trimZeros (d : Decimal) : Nat → Decimal
  | 0 => d
  | n + 1 =>
    if d.digits ≠ 0 ∧ d.digits % 10 = 0 then trimZeros ⟨d.digits / 10, d.exponent + 1⟩ n else d

/-- The shortest decimal that reads back as `mantissa * 2 ^ exponent`; seventeen
digits always suffice. -/
def shortest (mantissa : Nat) (exponent : Int) : Decimal :=
  let i := Interval.around mantissa exponent
  (i.search (leadingExponent i.value i.den) 17).trimZeros 17

/-- The exponent of the leading digit. -/
def magnitude (d : Decimal) : Int := digitCount d.digits - 1 + d.exponent

/-- All digits with the point at its place, and without a point in an integer. -/
def positional (d : Decimal) : String :=
  let ds := Nat.toDigits 10 d.digits
  let zeros := List.replicate d.exponent.toNat '0'
  let places := (-d.exponent).toNat
  let padded := List.replicate (places + 1 - ds.length) '0' ++ ds ++ zeros
  let whole := padded.take (padded.length - places)
  let fraction := padded.drop (padded.length - places)
  String.ofList (if fraction.isEmpty then whole else whole ++ '.' :: fraction)

/-- One digit, a point if more follow, the others, `e` and the exponent. -/
def scientific (d : Decimal) : String :=
  let power := "e" ++ toString d.magnitude
  match Nat.toDigits 10 d.digits with
  | [] => power
  | [c] => String.ofList [c] ++ power
  | c :: cs => String.ofList (c :: '.' :: cs) ++ power

end Decimal

namespace Binary64

def sign (negative : Bool) : String := if negative then "-" else ""

/-- The text of a number that is none, or is infinite. -/
def special : Binary64 → Option String
  | .nan => some "NaN"
  | .infinite negative => some (sign negative ++ "inf")
  | .finite .. => none

/-- Never an exponent. An integral float shows all its digits and `.0`; any other
shows the shortest digits that read back. -/
def plain (x : Binary64) : String :=
  match x with
  | .finite negative mantissa exponent =>
    sign negative ++
      match x.toInt? with
      | some n => toString n.natAbs ++ ".0"
      | none => (Decimal.shortest mantissa exponent).positional
  | other => other.special.getD ""

/-- The shortest digits that read back: positional for zero and from `1e-4` up
to `1e16`, and then always with a point; with an exponent elsewhere. -/
def compact (x : Binary64) : String :=
  match x with
  | .finite negative 0 _ => sign negative ++ "0.0"
  | .finite negative mantissa exponent =>
    let d := Decimal.shortest mantissa exponent
    sign negative ++
      if -4 ≤ d.magnitude ∧ d.magnitude < 16 then
        if 0 ≤ d.exponent then d.positional ++ ".0" else d.positional
      else d.scientific
  | other => other.special.getD ""

end Binary64

end Script
