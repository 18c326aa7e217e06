/-! Operators, loop exits, and types by name: those that values have, and those
that a declaration may ask for. -/
namespace Script

inductive BinaryOp where
  | add | sub | mul | div | pow | eq | ne | lt | gt | le | ge | and | or
deriving DecidableEq, Repr, Inhabited

namespace BinaryOp

def all : List BinaryOp := [.add, .sub, .mul, .div, .pow, .eq, .ne, .lt, .gt, .le, .ge, .and, .or]

/-- The spelling in program text. -/
def symbol : BinaryOp → String
  | .add => "+"
  | .sub => "-"
  | .mul => "*"
  | .div => "/"
  | .pow => "^"
  | .eq => "=="
  | .ne => "!="
  | .lt => "<"
  | .gt => ">"
  | .le => "<="
  | .ge => ">="
  | .and => "and"
  | .or => "or"

def ofSymbol? (s : String) : Option BinaryOp := all.find? fun o => o.symbol == s

end BinaryOp

inductive UnaryOp where
  | plus | minus | not
deriving DecidableEq, Repr, Inhabited

namespace UnaryOp

def all : List UnaryOp := [.plus, .minus, .not]

/-- The spelling in program text. -/
def symbol : UnaryOp → String
  | .plus => "+"
  | .minus => "-"
  | .not => "not"

def ofSymbol? (s : String) : Option UnaryOp := all.find? fun o => o.symbol == s

end UnaryOp

/-- A statement that leaves the body of the loop it stands in. -/
inductive LoopExit where
  | breaking | continuing
deriving DecidableEq, Repr, Inhabited

def LoopExit.word : LoopExit → String
  | .breaking => "break"
  | .continuing => "continue"

/-- A type that a declaration or parameter may ask for. -/
inductive DeclaredType where
  | int | float | string | list | function
deriving DecidableEq, Repr, Inhabited

namespace DeclaredType

def all : List DeclaredType := [.int, .float, .string, .list, .function]

/-- The spelling in program text. -/
def word : DeclaredType → String
  | .int => "int"
  | .float => "float"
  | .string => "string"
  | .list => "list"
  | .function => "function"

/-- The type spelt `w`. -/
def ofWord? (w : String) : Option DeclaredType := all.find? fun a => a.word == w

end DeclaredType

/-- The type of a value, as messages name it. -/
inductive ValueType where
  | int | float | string | list | function | cls | inst
deriving DecidableEq, Repr, Inhabited

def ValueType.word : ValueType → String
  | .int => "int"
  | .float => "float"
  | .string => "string"
  | .list => "list"
  | .function => "function"
  | .cls => "class"
  | .inst => "instance"

end Script
