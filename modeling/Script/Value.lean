import Script.Builtin
import Script.Number
import Script.Scope
import Script.Source
import Script.Tree

/-! Values and the store of shared objects.

A `Value` is small: numbers, strings and builtins are themselves, and everything
with an identity is the number of an object in the `Store`. Objects are never
removed, so two values are the same object exactly when they have the same
number. -/
namespace Script

inductive Value where
  | number (n : Number)
  | string (s : String)
  | list (id : Nat)
  | function (id : Nat)
  /-- A function read from a class; it takes the instance as its first argument. -/
  | method (id : Nat)
  | builtin (b : Builtin)
  /-- A function read from an instance, which it brings along. -/
  | bound (receiver method : Nat)
  | cls (id : Nat)
  | inst (id : Nat)
deriving Repr, Inhabited

namespace Value

def int (n : Int64) : Value := .number (.int n)

def float (x : Float) : Value := .number (.float x)

/-- Zero stands for "no value". -/
def null : Value := .int 0

def ofBool (b : Bool) : Value := .int (if b then 1 else 0)

def isNull : Value → Bool
  | .number n => n.isZero
  | _ => false

def type : Value → ValueType
  | .number (.int _) => .int
  | .number (.float _) => .float
  | .string _ => .string
  | .list _ => .list
  | .function _ | .method _ | .builtin _ | .bound .. => .function
  | .cls _ => .cls
  | .inst _ => .inst

/-- Whether the value may be bound to a name annotated so. Any number passes for a
float. -/
def conformsTo (v : Value) (a : DeclaredType) : Bool :=
  match a, v.type with
  | .int, .int | .float, .int | .float, .float | .string, .string | .list, .list
  | .function, .function => true
  | _, _ => false

/-- Zero and the empty string are false, and all else is true. -/
def isTrue : Value → Bool
  | .number n => !n.isZero
  | .string s => !s.isEmpty
  | _ => true

end Value

/-- A function or method: its definition and the scope it was defined in. -/
structure Function where
  definition : FuncDef Span
  closure : ScopeId
deriving Inhabited

structure Class where
  name : String
  /-- The functions that are this class's own methods. -/
  methods : Bindings Nat
  parent : Option Nat
deriving Repr, Inhabited

structure Instance where
  cls : Nat
  attributes : Bindings Value
deriving Repr, Inhabited

/-- All objects ever made. A class's parent is older than the class. -/
structure Store where
  lists : Array (Array Value)
  functions : Array Function
  classes : Array Class
  instances : Array Instance
deriving Inhabited

namespace Store

def empty : Store := ⟨#[], #[], #[], #[]⟩

/-! ### Reading -/

def elements (s : Store) (id : Nat) : Array Value := s.lists[id]?.getD #[]

def function? (s : Store) (id : Nat) : Option Function := s.functions[id]?

def class? (s : Store) (id : Nat) : Option Class := s.classes[id]?

def instance? (s : Store) (id : Nat) : Option Instance := s.instances[id]?

def functionName (s : Store) (id : Nat) : String :=
  ((s.function? id).map fun f => f.definition.label).getD "<anonymous>"

def className (s : Store) (id : Nat) : String := ((s.class? id).map Class.name).getD ""

/-- The name of the class of an instance. -/
def instanceClassName (s : Store) (id : Nat) : String :=
  ((s.instance? id).map fun i => s.className i.cls).getD ""

/-! ### Making and changing -/

@[inline] def newList (s : Store) (elements : Array Value) : Value × Store :=
  (.list s.lists.size, { s with lists := s.lists.push elements })

@[inline] def newFunction (s : Store) (f : Function) : Nat × Store :=
  (s.functions.size, { s with functions := s.functions.push f })

@[inline] def newClass (s : Store) (c : Class) : Nat × Store :=
  (s.classes.size, { s with classes := s.classes.push c })

@[inline] def newInstance (s : Store) (cls : Nat) : Nat × Store :=
  (s.instances.size, { s with instances := s.instances.push ⟨cls, .empty⟩ })

@[inline] def modifyList (s : Store) (id : Nat) (f : Array Value → Array Value) : Store :=
  { s with lists := s.lists.modify id f }

/-- Gives an attribute of an instance a value. -/
@[inline] def setAttribute (s : Store) (id : Nat) (name : String) (value : Value) : Store :=
  let update (i : Instance) : Instance := { i with attributes := i.attributes.insert name value }
  { s with instances := s.instances.modify id update }

/-! ### Classes -/

/-- At most `n` classes from a class upwards. -/
def ancestryFrom (s : Store) : Nat → Nat → List Nat
  | 0, _ => []
  | n + 1, id =>
    match s.class? id with
    | none => []
    | some c =>
      match c.parent with
      | none => [id]
      | some parent => id :: s.ancestryFrom n parent

/-- A class and the classes it inherits from, the nearest first. -/
def ancestry (s : Store) (id : Nat) : List Nat := s.ancestryFrom (id + 1) id

/-- The nearest method of this name. -/
def findMethod (s : Store) (id : Nat) (name : String) : Option Nat :=
  (s.ancestry id).findSome? fun c => (s.class? c).bind (·.methods.get? name)

/-- Whether a class or one that it inherits from goes by this name. -/
def descendsFrom (s : Store) (id : Nat) (name : String) : Bool :=
  (s.ancestry id).any fun c => s.className c == name

/-- An attribute of an instance: its own, or else a method of its class, bound. -/
def attribute? (s : Store) (id : Nat) (name : String) : Option Value := do
  let i ← s.instance? id
  match i.attributes.get? name with
  | some value => some value
  | none => (s.findMethod i.cls name).map (.bound id)

end Store

end Script
