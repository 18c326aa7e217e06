import Script.Eval.Step
import Script.Parser.Expression
import Script.Value.Equality

/-! Scripts, and the evaluator as a whole.

`Task.perform n` ties the knot: a task is performed with nested ones performed by
`Task.perform` of one step less. A run that needs more than `n` steps ends in
`Signal.exhausted`; any other end is the same for all larger `n`. -/
namespace Script

namespace Eval

/-- The context of a script's top level. -/
def topLevel (globals : ScopeId) : Context := ⟨globals, [⟨"<program>", none⟩]⟩

/-- Calls `main`, which this script must have bound to something new: the global
of that name before the script, if any, was `inherited`. -/
def callMain (perform : Performer) (c : Context) (source : Source) (inherited : Option Value) :
    Eval Value := do
  let origin := Span.point (Position.start source)
  match ← lookup c "main", inherited with
  | none, _ => fail c .noMain origin
  | some main, none => call perform c origin main []
  | some main, some old =>
    match (← get).store.equal old main with
    | some true => fail c .noMain origin
    | some false => call perform c origin main []
    | none => throw .exhausted

/-- Runs the top level of a script; a returned value ends it early. Then, in a
source file, `main` is called. -/
def runScript (perform : Performer) (source : Source) : Eval Value := do
  match source.parse with
  | .error failure => throw (.failed failure)
  | .ok program =>
    let c := topLevel (← get).globals
    let inherited ← lookup c "main"
    fun m =>
      match perform (.node program c) m with
      | .ok v m =>
        if Path.isSourceFile source.name then callMain perform c source inherited m else .ok v m
      | .error (.ret v) m => .ok v m
      | .error (.exit exit span) m => fail c (.outsideLoop exit) span m
      | .error signal m => .error signal m

end Eval

/-- Performs a task within `n` nested steps. -/
def Task.perform : Nat → Task → Eval Value
  | 0, _ => throw .exhausted
  | n + 1, .node tree c => Eval.evalNode (perform n) n c tree
  | n + 1, .script source => Eval.runScript (perform n) source

end Script
