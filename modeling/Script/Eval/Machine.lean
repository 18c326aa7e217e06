import Script.Operation
import Script.Report
import Script.Value.Text
import Script.World

/-! The state of a running program, and the steps everything else is made of.

A computation either yields a value or stops with a `Signal`, and either way it
leaves a `Machine` behind. A context says in which scope names are looked up and
which calls are active; the calls matter for tracebacks only. -/
namespace Script

/-- What a run was told to do to something that can be reached from elsewhere. -/
inductive Effect where
  /-- A name was bound in a table. -/
  | bound (scope : ScopeId) (name : String)
  /-- A builtin that changes lists was called on a list. -/
  | listChange (id : Nat)
  /-- An attribute of an instance was set. -/
  | attributeSet (id : Nat) (name : String)
  /-- A file was asked for. -/
  | opened (path : String)
deriving DecidableEq, Repr, Inhabited

structure Machine where
  scopes : Scopes Value
  store : Store
  world : World
  /-- The table of global names. -/
  globals : ScopeId
  /-- What the run did, the last first. Nothing is decided by it. -/
  journal : List Effect
deriving Inhabited

/-- Why a computation stopped without a value. -/
inductive Signal where
  | ret (value : Value)
  | exit (exit : LoopExit) (span : Span)
  | failed (failure : Failure)
  /-- The computation needs more steps than it was given. -/
  | exhausted
deriving Repr, Inhabited

/-- Where a node is evaluated: the scope of its names, and the active calls, the
innermost first. -/
structure Context where
  scope : ScopeId
  calls : List Call
deriving Repr, Inhabited

abbrev Eval := EStateM Signal Machine

/-- Something to evaluate: a node in a context, or a whole script. -/
inductive Task where
  | node (node : Node Span) (context : Context)
  | script (source : Source)
deriving Inhabited

/-- How nested tasks are performed. -/
abbrev Performer := Task → Eval Value

namespace Eval

/-- Stops with a fault of the running program. -/
def fail (c : Context) (fault : Fault) (span : Span) : Eval α :=
  throw (.failed (.ofCalls fault span c.calls))

def note (effect : Effect) : Eval Unit :=
  modify fun m => { m with journal := effect :: m.journal }

/-! ### Names -/

def lookup (c : Context) (name : String) : Eval (Option Value) :=
  return (← get).scopes.get? c.scope name

/-- Binds a name in a table, unless it is protected there. -/
def bindAt (c : Context) (scope : ScopeId) (name : String) (value : Value) (constant : Bool)
    (span : Span) : Eval Unit := do
  if (← get).scopes.isProtected scope name then
    fail c (.constant name) span
  modify fun m => { m with
    scopes := m.scopes.bind scope name value constant
    journal := .bound scope name :: m.journal }

/-- Binds a name in the scope of the context. -/
def define (c : Context) (name : String) (value : Value) (constant : Bool) (span : Span) :
    Eval Unit :=
  bindAt c c.scope name value constant span

/-- Rebinds a name where the context finds it. -/
def assign (c : Context) (name : String) (value : Value) (span : Span) : Eval Unit := do
  bindAt c ((← get).scopes.home c.scope name) name value false span

/-- A new table under `parent`. -/
def growScope (parent : ScopeId) : Eval ScopeId :=
  modifyGet fun m => (m.scopes.tables.size, { m with scopes := (m.scopes.grow (some parent)).2 })

/-! ### Objects -/

def newList (elements : Array Value) : Eval Value :=
  modifyGet fun m => (.list m.store.lists.size, { m with store := (m.store.newList elements).2 })

def newFunction (f : Function) : Eval Nat :=
  modifyGet fun m => (m.store.functions.size, { m with store := (m.store.newFunction f).2 })

def newClass (cls : Class) : Eval Nat :=
  modifyGet fun m => (m.store.classes.size, { m with store := (m.store.newClass cls).2 })

def newInstance (cls : Nat) : Eval Nat :=
  modifyGet fun m => (m.store.instances.size, { m with store := (m.store.newInstance cls).2 })

/-- The value that an operator yields. -/
def settle : Yield → Eval Value
  | .value v => pure v
  | .list elements => newList elements

/-- Changes a list. -/
def changeList (id : Nat) (f : Array Value → Array Value) : Eval Unit :=
  modify fun m => { m with store := m.store.modifyList id f }

/-- Gives an attribute of an instance a value. -/
def setAttribute (id : Nat) (name : String) (value : Value) : Eval Unit := do
  note (.attributeSet id name)
  modify fun m => { m with store := m.store.setAttribute id name value }

def className (id : Nat) : Eval String := return (← get).store.className id

/-- The text of a value; a list that contains itself is never written to an end. -/
def display (v : Value) : Eval String := do
  match (← get).store.display v with
  | some text => return text
  | none => throw .exhausted

end Eval

end Script
