import Script.Value

/-! Equality of values: numbers by value, strings by content, lists by content
element for element, and all other objects by identity. -/
namespace Script.Store

/-- Whether two lists of one length are equal element for element, up to the first
that differs. -/
def allEqual (eq : Value → Value → Option Bool) : List Value → List Value → Option Bool
  | a :: as, b :: bs =>
    match eq a b with
    | some true => allEqual eq as bs
    | other => other
  | _, _ => some true

/-- Whether two values are equal, with lists compared at most `n` deep; `none` if
that is not deep enough to tell. -/
def equalTo (s : Store) (n : Nat) (a b : Value) : Option Bool :=
  match a, b with
  | .number a, .number b => some (a.same b)
  | .string a, .string b => some (a == b)
  | .list a, .list b =>
    if a = b then some true
    else
      match n with
      | 0 => none
      | n + 1 =>
        if (s.elements a).size = (s.elements b).size then
          allEqual (s.equalTo n) (s.elements a).toList (s.elements b).toList
        else some false
  | .function a, .function b | .method a, .method b => some (a == b)
  | .builtin a, .builtin b => some (a == b)
  | .bound a m, .bound b k => some (a == b && m == k)
  | .cls a, .cls b => some (a == b)
  | .inst a, .inst b => some (a == b)
  | _, _ => some false

/-- Whether two values are equal. Without a repetition no comparison nests deeper
than there are pairs of lists; `none` if one repeats, for then it never ends. -/
def equal (s : Store) (a b : Value) : Option Bool :=
  s.equalTo (s.lists.size * s.lists.size + 1) a b

end Script.Store
