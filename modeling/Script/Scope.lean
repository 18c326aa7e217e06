import Script.Bindings
import Script.Text.Quoted

/-! Lexical scopes.

A scope is a table of names with a parent. All tables live in one `Scopes`, which
only grows, and a table's parent is older than the table itself; so `chain`, the
walk from a table up to its root, needs no more steps than the table's number.
Looking up, rebinding and the protection of constants all follow that one walk.
A constant cannot be bound again, nor can its name be bound on any level below. -/
namespace Script

/-- The number of a table. -/
abbrev ScopeId := Nat

/-- One lexical level. -/
structure Table (α : Type) where
  bindings : Bindings α
  constants : List String
  parent : Option ScopeId
deriving Repr, Inhabited

namespace Table

def empty (parent : Option ScopeId) : Table α := ⟨.empty, [], parent⟩

def binds (t : Table α) (name : String) : Bool := t.bindings.binds name

def isConstant (t : Table α) (name : String) : Bool := t.constants.contains name

/-- Binds a name, and marks it if it is to be constant. -/
def bind (t : Table α) (name : String) (value : α) (constant : Bool) : Table α :=
  { t with
    bindings := t.bindings.insert name value
    constants := if constant then name :: t.constants else t.constants }

end Table

structure Scopes (α : Type) where
  tables : Array (Table α)
deriving Repr, Inhabited

namespace Scopes

def empty : Scopes α := ⟨#[]⟩

def table? (s : Scopes α) (id : ScopeId) : Option (Table α) := s.tables[id]?

/-- A new table, which is empty, under `parent`. -/
@[inline] def grow (s : Scopes α) (parent : Option ScopeId) : ScopeId × Scopes α :=
  (s.tables.size, ⟨s.tables.push (.empty parent)⟩)

/-- At most `n` levels from a table upwards. -/
def walk (s : Scopes α) : Nat → ScopeId → List ScopeId
  | 0, _ => []
  | n + 1, id =>
    match s.table? id with
    | none => []
    | some t =>
      match t.parent with
      | none => [id]
      | some parent => id :: s.walk n parent

/-- The levels from a table up to its root. -/
def chain (s : Scopes α) (id : ScopeId) : List ScopeId := s.walk (id + 1) id

/-- Whether the table itself binds the name. -/
def bindsAt (s : Scopes α) (name : String) (id : ScopeId) : Bool :=
  (s.table? id).any (·.binds name)

/-- Whether the name is a constant of the table itself. -/
def isConstant (s : Scopes α) (id : ScopeId) (name : String) : Bool :=
  (s.table? id).any (·.isConstant name)

/-- The value on the nearest level that binds the name. -/
def get? (s : Scopes α) (id : ScopeId) (name : String) : Option α :=
  (s.chain id).findSome? fun level => (s.table? level).bind (·.bindings.get? name)

/-- Whether the name must not be bound on this level: it is a constant here, or is
not bound here and a constant above. -/
def isProtected (s : Scopes α) (id : ScopeId) (name : String) : Bool :=
  s.isConstant id name ||
    (!s.bindsAt name id && (s.chain id).tail.any fun level => s.isConstant level name)

/-- Binds a name on this level, whatever it was. -/
@[inline] def bind (s : Scopes α) (id : ScopeId) (name : String) (value : α) (constant : Bool) :
    Scopes α :=
  ⟨s.tables.modify id (·.bind name value constant)⟩

/-- Binds a name on this level, unless it is protected here. -/
def set (s : Scopes α) (id : ScopeId) (name : String) (value : α) (constant : Bool) :
    Option (Scopes α) :=
  if s.isProtected id name then none else some (s.bind id name value constant)

/-- The level on which an assignment binds: the nearest that has the name, or
this one if none has. -/
def home (s : Scopes α) (id : ScopeId) (name : String) : ScopeId :=
  ((s.chain id).find? (s.bindsAt name)).getD id

/-- Rebinds a name where it is bound, unless it is protected there. -/
def assign (s : Scopes α) (id : ScopeId) (name : String) (value : α) : Option (Scopes α) :=
  s.set (s.home id name) name value false

/-- Unbinds a name on this level, unless it is constant here; the value it had. -/
def remove (s : Scopes α) (id : ScopeId) (name : String) : Option (Option α × Scopes α) :=
  if s.isConstant id name then none
  else
    some ((s.table? id).bind (·.bindings.get? name),
      ⟨s.tables.modify id fun t => { t with bindings := t.bindings.erase name }⟩)

/-- The sorted names of a table, and whether it has a parent. -/
def summary (s : Scopes α) (id : ScopeId) : String :=
  let names := ((s.table? id).map (·.bindings.sortedNames)).getD []
  let nested := (s.table? id).any (·.parent.isSome)
  "SymbolTable \x7b names: [" ++ String.intercalate ", " (names.map Text.quoted) ++
    "], has_parent: " ++ (if nested then "true" else "false") ++ " \x7d"

end Scopes

/-- Why a name cannot be bound or removed. -/
def constantMessage (name : String) : String := "cannot reassign constant '" ++ name ++ "'"

end Script
