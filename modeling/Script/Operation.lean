import Script.Fault
import Script.Value

/-! Operators applied to values. They read the store and never change it: one that
yields a list says what the elements of a new list are to be. -/
namespace Script

/-- The most bytes that a repeated string may have. -/
def maxStringSize : Nat := Nat.pow 2 28

/-- The text `n` times over, for `n < 2 ^ bits`. -/
def repeated (s : String) : (bits n : Nat) → String
  | 0, _ => ""
  | bits + 1, n =>
    let half := repeated s bits (n / 2)
    if n % 2 = 0 then half ++ half else half ++ half ++ s

/-- The text as often as `count` says, which must be an integer; below zero is
never. -/
def repeatString (s : String) (count : Number) : Except OperationFault String :=
  match count.toInteger? with
  | none => .error .illegal
  | some n =>
    if s.utf8ByteSize * n.toInt.toNat ≤ maxStringSize then .ok (repeated s 29 n.toInt.toNat)
    else .error .stringTooLarge

/-- The place that a number addresses among `length` items; out of bounds is
`fault`. -/
def placeOf (length : Nat) (index : Number) (fault : OperationFault) :
    Except OperationFault Nat :=
  match index.toInteger? with
  | none => .error .nonIntegerIndex
  | some k =>
    match resolveIndex length k with
    | none => .error fault
    | some place => .ok place

/-- The element at an index. -/
def elementAt (elements : Array Value) (index : Number) : Except OperationFault Value := do
  let place ← placeOf elements.size index (.listBounds .retrieval)
  match elements[place]? with
  | some v => .ok v
  | none => .error (.listBounds .retrieval)

/-- The elements before and behind place `k`. -/
def without (elements : Array Value) (k : Nat) : Array Value :=
  elements.extract 0 k ++ elements.extract (k + 1) elements.size

/-- The elements but for the one at an index. -/
def removeAt (elements : Array Value) (index : Number) : Except OperationFault (Array Value) := do
  let place ← placeOf elements.size index (.listBounds .removal)
  return without elements place

/-- The character at an index, as a string. -/
def characterAt (s : String) (index : Number) : Except OperationFault Value := do
  let cs := s.toList
  let place ← placeOf cs.length index .stringBounds
  match cs[place]? with
  | some c => .ok (.string c.toString)
  | none => .error .stringBounds

/-- Whether two numbers are in the order that an operator asks for. -/
def BinaryOp.holds (op : BinaryOp) (o : Option Ordering) : Bool :=
  match op, o with
  | .lt, some .lt | .gt, some .gt => true
  | .le, some .lt | .le, some .eq => true
  | .ge, some .gt | .ge, some .eq => true
  | _, _ => false

/-- What an operator yields. -/
inductive Yield where
  | value (v : Value)
  /-- A new list of these elements. -/
  | list (elements : Array Value)
deriving Repr, Inhabited

namespace Yield

def number (n : Number) : Yield := .value (.number n)

def string (s : String) : Yield := .value (.string s)

def bool (b : Bool) : Yield := .value (.ofBool b)

end Yield

namespace Store

def binary (s : Store) (op : BinaryOp) (left right : Value) : Except OperationFault Yield :=
  match op, left, right with
  | .and, l, r => .ok (.bool (l.isTrue && r.isTrue))
  | .or, l, r => .ok (.bool (l.isTrue || r.isTrue))
  | .add, .number a, .number b => .ok (.number (a.add b))
  | .sub, .number a, .number b => .ok (.number (a.sub b))
  | .mul, .number a, .number b => .ok (.number (a.mul b))
  | .div, .number a, .number b =>
    match a.div? b with
    | some q => .ok (.number q)
    | none => .error .divisionByZero
  | .pow, .number a, .number b => .ok (.number (a.pow b))
  | .add, .string a, .string b => .ok (.string (a ++ b))
  | .mul, .string t, .number count => (repeatString t count).map .string
  | .add, .list id, v => .ok (.list ((s.elements id).push v))
  | .sub, .list id, .number index => (removeAt (s.elements id) index).map .list
  | .mul, .list a, .list b => .ok (.list (s.elements a ++ s.elements b))
  | .div, .list id, .number index => (elementAt (s.elements id) index).map .value
  | .eq, .number a, .number b => .ok (.bool (a.same b))
  | .ne, .number a, .number b => .ok (.bool (!a.same b))
  | .eq, .string a, .string b => .ok (.bool (a == b))
  | .ne, .string a, .string b => .ok (.bool (a != b))
  | .lt, .number a, .number b | .gt, .number a, .number b | .le, .number a, .number b
  | .ge, .number a, .number b => .ok (.bool (op.holds (a.compare b)))
  | _, _, _ => .error .illegal

/-- `target[index]`: an element of a list or a character of a string. -/
def index (s : Store) (target index : Value) : Except OperationFault Value :=
  match target, index with
  | .list id, .number n => elementAt (s.elements id) n
  | .string t, .number n => characterAt t n
  | .list _, _ | .string _, _ => .error .nonIntegerIndex
  | other, _ => .error (.notIndexable other.type)

end Store

def Value.unary (v : Value) (op : UnaryOp) : Except OperationFault Value :=
  match op, v with
  | .not, v => .ok (.ofBool (!v.isTrue))
  | .minus, .number n => .ok (.number n.neg)
  | .plus, .number n => .ok (.number n)
  | _, _ => .error .illegal

end Script
