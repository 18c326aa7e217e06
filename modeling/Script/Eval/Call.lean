import Script.Eval.Native

/-! Calls: functions, methods, builtins and classes. A function runs in a new
scope below the one it was defined in, never below its caller's. -/
namespace Script.Eval

/-- Binds arguments to parameters. A wrong type is the caller's fault; a parameter
with the name of a constant is the function's. -/
def bindParams (caller inner : Context) (callee : Callee) (span : Span) :
    List (Param Span) → List Value → Eval Unit
  | p :: ps, v :: vs => do
    if !v.conformsTo p.type then
      fail caller (.parameterType p.type v.type p.name callee) span
    define inner p.name v false span
    bindParams caller inner callee span ps vs
  | _, _ => return ()

/-- Runs the body of a function: a returned value is its value, and a loop exit
may not leave it. -/
def runBody (perform : Performer) (c : Context) (definition : FuncDef Span) : Eval Value := fun m =>
  match perform (.node definition.body c) m with
  | .ok v m => .ok (if definition.autoReturn then v else .null) m
  | .error (.ret v) m => .ok v m
  | .error (.exit exit span) m => fail c (.outsideLoop exit) span m
  | .error signal m => .error signal m

/-- Calls a function. The first argument of a method is the instance it is called
on, and is bound to `self`. -/
def callDefined (perform : Performer) (caller : Context) (span : Span) (f : Function)
    (isMethod : Bool) (args : List Value) : Eval Value := do
  let label := f.definition.label
  let callee : Callee := if isMethod then .method label else .function label
  let params := f.definition.params
  checkArity caller callee (params.length + if isMethod then 1 else 0) args.length span
  let scope ← growScope f.closure
  let inner : Context := ⟨scope, ⟨label, some span.start⟩ :: caller.calls⟩
  match isMethod, args with
  | true, receiver :: args =>
    define inner "self" receiver false span
    bindParams caller inner callee span params args
  | _, args => bindParams caller inner callee span params args
  runBody perform inner f.definition

/-- Calls the function with a number. -/
def callFunction (perform : Performer) (caller : Context) (span : Span) (id : Nat)
    (isMethod : Bool) (args : List Value) : Eval Value := do
  match (← get).store.function? id with
  | some f => callDefined perform caller span f isMethod args
  | none => fail caller (.notCallable .function) span

/-- Makes an instance and runs its `__init__`, if it has one; the result of that is
dropped. -/
def instantiate (perform : Performer) (caller : Context) (span : Span) (cls : Nat)
    (args : List Value) : Eval Value := do
  let id ← newInstance cls
  match (← get).store.findMethod cls "__init__" with
  | some init =>
    let _ ← callFunction perform caller span init true (.inst id :: args)
  | none => checkArity caller (.cls (← className cls)) 0 args.length span
  return .inst id

/-- Calls any value that can be called. -/
def call (perform : Performer) (caller : Context) (span : Span) (callee : Value)
    (args : List Value) : Eval Value :=
  match callee with
  | .function id => callFunction perform caller span id false args
  | .method id => callFunction perform caller span id true args
  | .bound receiver method => callFunction perform caller span method true (.inst receiver :: args)
  | .builtin b => native perform caller span b args
  | .cls id => instantiate perform caller span id args
  | other => fail caller (.notCallable other.type) span

end Script.Eval
