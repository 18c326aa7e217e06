import Script.Eval.Perform

/-! Sessions: programs run one after the other, with what they leave behind. -/
namespace Script

/-- How a run ended. -/
inductive Outcome where
  | value (v : Value)
  | failure (f : Failure)
  /-- The run needs more steps than it was given. -/
  | exhausted
deriving Repr, Inhabited

namespace Machine

/-- The circle number, as near as a float comes to it. -/
def pi : Float := Float.ofBits 0x400921fb54442d18

/-- The constants that every program finds predefined. -/
def constants : List (String × Value) :=
  [("null", .null), ("false", .ofBool false), ("true", .ofBool true), ("math_pi", .float pi)]

/-- The global names of a new session. -/
def globalTable : Table Value :=
  let fixed := constants.foldl (fun t e => t.bind e.1 e.2 true) (Table.empty none)
  Builtin.registry.foldl (fun t e => t.bind e.1 (.builtin e.2) false) fixed

/-- A new session over the objects and tables of another. -/
def renew (m : Machine) : Machine :=
  { m with
    scopes := ⟨m.scopes.tables.push globalTable⟩
    globals := m.scopes.tables.size
    journal := [] }

/-- A new session. -/
def start (world : World) : Machine :=
  renew ⟨.empty, .empty, world, 0, []⟩

/-- Runs a program, within `n` nested steps. The value is the list of the values
of its statements, or what it returns, or in a source file what `main` returns. -/
def run (n : Nat) (m : Machine) (source : Source) : Outcome × Machine :=
  match Task.perform n (.script source) m with
  | .ok v m => (.value v, m)
  | .error (.ret v) m => (.value v, m)
  | .error (.failed failure) m => (.failure failure, m)
  | .error _ m => (.exhausted, m)

/-- The output so far, and the machine without it. -/
def takeOutput (m : Machine) : String × Machine :=
  (m.world.output, { m with world := { m.world with output := "" } })

/-- The files that were asked for, the first first. -/
def openedFiles (m : Machine) : List String :=
  m.journal.reverse.filterMap fun
    | .opened path => some path
    | _ => none

end Machine

/-- More steps than any run can take. -/
def unlimited : Nat := Nat.pow 2 62

end Script
