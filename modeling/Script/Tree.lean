import Script.Operator

/-! Program trees.

A `Node` carries a tag of type `α` at every node. The grammar tags with source
spans; a tree compared up to spans is one tagged with `Unit`. -/
namespace Script

/-- A parameter of a function, with the type it asks for. -/
structure Param (α : Type) where
  name : String
  type : DeclaredType
  tag : α
deriving DecidableEq, Repr, Inhabited

mutual

/-- An expression or a statement. -/
inductive Node (α : Type) where
  | int (tag : α) (value : Int64)
  | float (tag : α) (value : Float)
  | string (tag : α) (value : String)
  | list (tag : α) (items : List (Node α))
  /-- A sequence of statements. -/
  | block (tag : α) (items : List (Node α))
  | name (tag : α) (name : String)
  /-- Binds a name on the innermost level. -/
  | declare (tag : α) (name : String) (type : Option DeclaredType) (constant : Bool)
      (value : Node α)
  /-- Rebinds a name on the nearest level that has it. -/
  | assign (tag : α) (name : String) (value : Node α)
  | binary (tag : α) (op : BinaryOp) (left right : Node α)
  | unary (tag : α) (op : UnaryOp) (operand : Node α)
  | cond (tag : α) (branches : List (Branch α)) (otherwise : Option (Body α))
  | forLoop (tag : α) (counter : String) (start stop : Node α) (step : Option (Node α))
      (body : Body α)
  | whileLoop (tag : α) (condition : Node α) (body : Body α)
  | func (tag : α) (definition : FuncDef α)
  | call (tag : α) (callee : Node α) (args : List (Node α))
  | index (tag : α) (target index : Node α)
  | ret (tag : α) (value : Option (Node α))
  | exit (tag : α) (exit : LoopExit)
  | cls (tag : α) (name : String) (parent : Option String) (methods : List (FuncDef α))
  | new (tag : α) (cls : String) (args : List (Node α))
  | getAttr (tag : α) (object : Node α) (name : String)
  | setAttr (tag : α) (object : Node α) (name : String) (value : Node α)
  | methodCall (tag : α) (object : Node α) (name : String) (args : List (Node α))

/-- What a branch or a loop runs. If it emits null its value is dropped. -/
inductive Body (α : Type) where
  | mk (node : Node α) (emitsNull : Bool)

/-- A condition and what to run if it holds. -/
inductive Branch (α : Type) where
  | mk (condition : Node α) (body : Body α)

/-- A function or method as written. With `autoReturn` its value is that of its
body; otherwise a value has to be returned. -/
inductive FuncDef (α : Type) where
  | mk (name : Option String) (params : List (Param α)) (body : Node α) (autoReturn : Bool)

end

instance [Inhabited α] : Inhabited (Node α) := ⟨.exit default .continuing⟩

namespace Body

def node : Body α → Node α
  | .mk node _ => node

def emitsNull : Body α → Bool
  | .mk _ emitsNull => emitsNull

end Body

namespace Branch

def condition : Branch α → Node α
  | .mk condition _ => condition

def body : Branch α → Body α
  | .mk _ body => body

end Branch

namespace FuncDef

def name : FuncDef α → Option String
  | .mk name _ _ _ => name

def params : FuncDef α → List (Param α)
  | .mk _ params _ _ => params

def body : FuncDef α → Node α
  | .mk _ _ body _ => body

def autoReturn : FuncDef α → Bool
  | .mk _ _ _ autoReturn => autoReturn

instance [Inhabited α] : Inhabited (FuncDef α) := ⟨.mk none [] default false⟩

/-- The name that a function goes by. -/
def label (f : FuncDef α) : String := f.name.getD "<anonymous>"

end FuncDef

/-- The tag of the node itself. -/
def Node.tag : Node α → α
  | .int a _ | .float a _ | .string a _ | .list a _ | .block a _ | .name a _ | .declare a ..
  | .assign a .. | .binary a .. | .unary a .. | .cond a .. | .forLoop a .. | .whileLoop a ..
  | .func a _ | .call a .. | .index a .. | .ret a _ | .exit a _ | .cls a ..
  | .new a .. | .getAttr a .. | .setAttr a .. | .methodCall a .. => a

end Script
