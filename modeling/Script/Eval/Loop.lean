import Script.Eval.Machine

/-! Loops. A loop collects the values of its rounds, unless its body emits null. -/
namespace Script

/-- Whether `i` still has to be counted on the way to `stop`. -/
def Number.isBefore (ascending : Bool) (i stop : Number) : Bool :=
  match i.compare stop with
  | some .lt => ascending
  | some .gt => !ascending
  | _ => false

namespace Eval

/-- How one round of a loop ended. -/
inductive Round where
  | value (v : Value)
  | continued
  | broken
deriving Repr, Inhabited

/-- Runs the body of a loop once; loop exits that leave it end here. -/
def round (perform : Performer) (c : Context) (body : Body Span) : Eval Round := fun m =>
  match perform (.node body.node c) m with
  | .ok v m => .ok (.value v) m
  | .error (.exit .continuing _) m => .ok .continued m
  | .error (.exit .breaking _) m => .ok .broken m
  | .error signal m => .error signal m

/-- The values so far with that of one more round. -/
def collect (body : Body Span) (results : Array Value) (v : Value) : Array Value :=
  if body.emitsNull then results else results.push v

/-- The value of a loop. -/
def loopValue (body : Body Span) (results : Array Value) : Eval Value :=
  if body.emitsNull then pure .null else newList results

/-- Counts from `i` in steps, at most `n` rounds. -/
def countFrom (perform : Performer) (c : Context) (span : Span) (counter : String)
    (stop step : Number) (body : Body Span) : Nat → Number → Array Value → Eval (Array Value)
  | 0, _, _ => throw .exhausted
  | n + 1, i, results => do
    if Number.isBefore step.isPositive i stop then
      define c counter (.number i) false span
      match ← round perform c body with
      | .value v =>
        countFrom perform c span counter stop step body n (i.add step) (collect body results v)
      | .continued => countFrom perform c span counter stop step body n (i.add step) results
      | .broken => return results
    else
      return results

/-- Runs as long as the condition is true, at most `n` rounds. -/
def repeatWhile (perform : Performer) (c : Context) (condition : Node Span) (body : Body Span) :
    Nat → Array Value → Eval (Array Value)
  | 0, _ => throw .exhausted
  | n + 1, results => do
    if (← perform (.node condition c)).isTrue then
      match ← round perform c body with
      | .value v => repeatWhile perform c condition body n (collect body results v)
      | .continued => repeatWhile perform c condition body n results
      | .broken => return results
    else
      return results

/-- A bound or the step of a counting loop, which must be a number. -/
def loopNumber (perform : Performer) (c : Context) (node : Node Span) : Eval Number := do
  match ← perform (.node node c) with
  | .number n => return n
  | other => fail c (.loopBound other.type) node.tag

/-- The step of a counting loop, which must not be zero; one if there is none. -/
def loopStep (perform : Performer) (c : Context) : Option (Node Span) → Eval Number
  | none => return .int 1
  | some node => do
    let step ← loopNumber perform c node
    if step.isZero then fail c .zeroStep node.tag
    return step

end Eval

end Script
