/-! Decimal digits: their value, and integers read from a text. -/
namespace Script.Text

/-- The value of a string of decimal digits, the leading one first. -/
def digitsValue (ds : List Char) : Nat := ds.foldl (fun n d => 10 * n + (d.toNat - 48)) 0

/-- The value of a text that is one or more digits. -/
def readNatural? (cs : List Char) : Option Nat :=
  if cs ≠ [] ∧ cs.all Char.isDigit then some (digitsValue cs) else none

/-- The value of a text that is one or more digits after at most one sign. -/
def readInteger? : List Char → Option Int
  | '-' :: ds => (readNatural? ds).map fun n => -(n : Int)
  | '+' :: ds => (readNatural? ds).map Int.ofNat
  | ds => (readNatural? ds).map Int.ofNat

end Script.Text
