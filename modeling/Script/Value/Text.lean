import Script.Value
import Script.Fault

/-! Values as text: as `print` shows them, as a program could write them, and in
full detail. A list that contains itself has no text; the depth to which lists can
nest without that is the number of lists, so a deeper list has none. -/
namespace Script.Store

/-- The text of a value that is no list; the same in all three ways but for
strings and numbers. -/
def objectText (s : Store) : Value → String
  | .number n => n.text
  | .string t => t
  | .list _ => ""
  | .function id => (Callee.function (s.functionName id)).text
  | .method id => (Callee.method (s.functionName id)).text
  | .builtin b => (Callee.builtin b.name).text
  | .bound receiver method =>
    "<bound method " ++ s.functionName method ++ " of <" ++ s.instanceClassName receiver ++
      " instance>>"
  | .cls id => (Callee.cls (s.className id)).text
  | .inst id => "<" ++ s.instanceClassName id ++ " instance>"

/-- How the three ways of writing values differ. -/
structure Style where
  number : Number → String
  string : String → String
  opening : String
  closing : String

/-- Elements are divided by commas, without brackets, and strings stand bare. -/
def displayStyle : Style := ⟨Number.text, id, "", ""⟩

/-- As a program could write it: lists in brackets, and strings in quotes. -/
def sourceStyle : Style := ⟨Number.text, fun t => "\"" ++ t ++ "\"", "[", "]"⟩

/-- With the type of every number and string. -/
def detailStyle : Style where
  number
    | .int n => "Int(" ++ toString n.toInt ++ ")"
    | .float x => "Float(" ++ (Binary64.ofFloat x).compact ++ ")"
  string t := "String(" ++ Text.quoted t ++ ")"
  opening := "["
  closing := "]"

/-- The text of a value in which lists nest at most `n` deep. -/
def write (s : Store) (style : Style) : Nat → Value → Option String
  | 0, .list _ => none
  | n + 1, .list id =>
    ((s.elements id).toList.mapM (s.write style n)).map fun texts =>
      style.opening ++ String.intercalate ", " texts ++ style.closing
  | _, .number m => some (style.number m)
  | _, .string t => some (style.string t)
  | _, v => some (s.objectText v)

/-- What `print` shows. -/
def display (s : Store) (v : Value) : Option String := s.write displayStyle s.lists.size v

/-- The value as a program could write it. -/
def repr (s : Store) (v : Value) : Option String := s.write sourceStyle s.lists.size v

/-- The value in full detail. -/
def detail (s : Store) (v : Value) : Option String := s.write detailStyle s.lists.size v

/-- What a shell shows for a result: of a list the entries that are not null, and a
single one without the list; nothing if all are null. `none` if there is no text. -/
def shown (s : Store) (v : Value) : Option (Option String) :=
  match v with
  | .list id =>
    match (s.elements id).filter fun v => !v.isNull with
    | #[] => some none
    | #[v] => (s.repr v).map some
    | kept =>
      let (v, s) := s.newList kept
      (s.repr v).map some
  | v => (s.repr v).map some

end Script.Store
