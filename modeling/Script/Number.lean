import Script.Number.Decimal
import Script.Text.Digits

/-! Numbers: 64-bit integers and floats.

Integer arithmetic is exact as long as the result is a 64-bit integer; a result
that is not becomes the float that the same operation gives on floats. -/
namespace Script

inductive Number where
  | int (n : Int64)
  | float (x : Float)
deriving Repr, Inhabited

/-- The 64-bit integer of this value, if there is one. -/
def int64? (n : Int) : Option Int64 :=
  if Int64.minValue.toInt ≤ n ∧ n ≤ Int64.maxValue.toInt then some (Int64.ofInt n) else none

@[simp] theorem int64?_toInt (n : Int64) : int64? n.toInt = some n := by
  rw [int64?, if_pos ⟨n.minValue_le_toInt, n.toInt_le⟩, Int64.ofInt_toInt]

namespace Number

def toFloat : Number → Float
  | .int n => n.toFloat
  | .float x => x

/-- The integer that this number is, if it is one of magnitude below `2 ^ 63` or
held as an integer. -/
def toInteger? : Number → Option Int64
  | .int n => some n
  | .float x =>
    (Binary64.ofFloat x).toInt?.bind fun n => if n.natAbs < Nat.pow 2 63 then int64? n else none

def isZero : Number → Bool
  | .int n => n == 0
  | .float x => x == 0.0

def isPositive : Number → Bool
  | .int n => 0 < n
  | .float x => 0.0 < x

/-- The exact operation on two integers if it has a 64-bit result, else the
operation on floats. -/
def combine (exact : Int → Int → Option Int) (approx : Float → Float → Float) :
    Number → Number → Number
  | .int a, .int b =>
    match (exact a.toInt b.toInt).bind int64? with
    | some n => .int n
    | none => .float (approx a.toFloat b.toFloat)
  | a, b => .float (approx a.toFloat b.toFloat)

def add : Number → Number → Number := combine (fun a b => some (a + b)) (· + ·)

def sub : Number → Number → Number := combine (fun a b => some (a - b)) (· - ·)

def mul : Number → Number → Number := combine (fun a b => some (a * b)) (· * ·)

/-- The power of an integer, when it can have 64 bits: of bases other than 0, 1
and -1 only exponents below 64 are raised, and of those three only the parity of
the exponent counts. -/
def boundedPower (base : Int) (exponent : Nat) : Option Int :=
  if exponent < 64 then some (base.pow exponent)
  else if base.natAbs ≤ 1 then some (base.pow (2 - exponent % 2))
  else none

/-- Integer powers have exponents of 32 unsigned bits; any other is a float power. -/
def pow : Number → Number → Number :=
  combine (fun a b => if 0 ≤ b ∧ b < UInt32.size then boundedPower a b.toNat else none) Float.pow

/-- Always a float; there is no quotient by zero. -/
def div? (a b : Number) : Option Number :=
  if b.isZero then none else some (.float (a.toFloat / b.toFloat))

def neg : Number → Number
  | .int n =>
    match int64? (-n.toInt) with
    | some m => .int m
    | none => .float (-n.toFloat)
  | .float x => .float (-x)

/-- The order of two numbers; integers compare exactly, any other pair as floats,
among which no order holds with a NaN. -/
def compare : Number → Number → Option Ordering
  | .int a, .int b => some (if a < b then .lt else if a = b then .eq else .gt)
  | a, b =>
    let x := a.toFloat
    let y := b.toFloat
    if x < y then some .lt else if x == y then some .eq else if y < x then some .gt else none

def same (a b : Number) : Bool := a.compare b == some .eq

def text : Number → String
  | .int n => toString n.toInt
  | .float x => (Binary64.ofFloat x).plain

end Number

/-- The place that an index addresses among `length` items: from the front, or
from the back if negative. -/
def resolveIndex (length : Nat) (index : Int64) : Option Nat :=
  let i := if index < 0 then index.toInt + length else index.toInt
  if 0 ≤ i ∧ i < length then some i.toNat else none

end Script
