import Script.Eval.Call
import Script.Eval.Loop

/-! Evaluation of one node, given how those below it are performed. -/
namespace Script.Eval

/-- The values of nodes, in order. -/
def evalAll (perform : Performer) (c : Context) : List (Node Span) → Eval (List Value)
  | [] => return []
  | node :: nodes => do
    let v ← perform (.node node c)
    let vs ← evalAll perform c nodes
    return v :: vs

/-- The value of a branch's body. -/
def branchValue (perform : Performer) (c : Context) (body : Body Span) : Eval Value := do
  let v ← perform (.node body.node c)
  return if body.emitsNull then .null else v

/-- The first branch whose condition is true, or the last resort. -/
def choose (perform : Performer) (c : Context) (otherwise : Option (Body Span)) :
    List (Branch Span) → Eval Value
  | [] =>
    match otherwise with
    | some body => branchValue perform c body
    | none => return .null
  | branch :: branches => do
    if (← perform (.node branch.condition c)).isTrue then branchValue perform c branch.body
    else choose perform c otherwise branches

/-- The class that a name stands for. -/
def classNamed (c : Context) (name : String) (span : Span) : Eval Nat := do
  match ← lookup c name with
  | some (.cls id) => return id
  | some other => fail c (.notAClass name other.type) span
  | none => fail c (.undefined name) span

/-- An attribute of an instance, or a method of a class. -/
def readAttribute (c : Context) (object : Value) (name : String) (span : Span) : Eval Value := do
  let s := (← get).store
  match object with
  | .cls id =>
    match s.findMethod id name with
    | some method => return .method method
    | none => fail c (.noMethod (s.className id) name) span
  | .inst id =>
    match s.attribute? id name with
    | some v => return v
    | none => fail c (.noAttribute (s.instanceClassName id) name) span
  | other => fail c (.attributeRead name other.type) span

/-- Makes the methods of a class; of two with one name the later counts. -/
def makeMethods (c : Context) : List (FuncDef Span) → Bindings Nat → Eval (Bindings Nat)
  | [], methods => return methods
  | definition :: definitions, methods => do
    match definition.name with
    | none => makeMethods c definitions methods
    | some name =>
      let id ← newFunction ⟨definition, c.scope⟩
      makeMethods c definitions (methods.insert name id)

def applyBinary (c : Context) (op : BinaryOp) (left right : Node Span) (l r : Value) :
    Eval Value := do
  match (← get).store.binary op l r with
  | .ok result => settle result
  | .error .illegal => fail c (.illegalBinary l.type op r.type) (left.tag.through right.tag)
  | .error fault => fail c (.operation fault) right.tag

def applyUnary (c : Context) (op : UnaryOp) (v : Value) (span : Span) : Eval Value :=
  match v.unary op with
  | .ok result => pure result
  | .error _ => fail c (.illegalUnary op v.type) span

def applyIndex (c : Context) (target index : Node Span) (t i : Value) : Eval Value := do
  match (← get).store.index t i with
  | .ok v => return v
  | .error (.notIndexable type) => fail c (.operation (.notIndexable type)) target.tag
  | .error fault => fail c (.operation fault) index.tag

/-- Refuses a value that a declaration's type does not admit. -/
def checkType (c : Context) (type : Option DeclaredType) (v : Value) (span : Span) : Eval Unit := do
  match type with
  | some wanted => if !v.conformsTo wanted then fail c (.declaredType wanted v.type) span
  | none => return ()

/-- Evaluates a node, with loops of at most `n` rounds. -/
def evalNode (perform : Performer) (n : Nat) (c : Context) (node : Node Span) : Eval Value := do
  match node with
  | .int _ k => return .int k
  | .float _ x => return .float x
  | .string _ s => return .string s
  | .list _ items | .block _ items => newList (← evalAll perform c items).toArray
  | .name span name =>
    match ← lookup c name with
    | some v => return v
    | none => fail c (.undefined name) span
  | .declare span name type constant value =>
    let v ← perform (.node value c)
    checkType c type v span
    define c name v constant span
    return v
  | .assign span name value =>
    let v ← perform (.node value c)
    assign c name v span
    return v
  | .binary _ op left right =>
    let l ← perform (.node left c)
    let r ← perform (.node right c)
    applyBinary c op left right l r
  | .unary span op operand =>
    let v ← perform (.node operand c)
    applyUnary c op v span
  | .cond _ branches otherwise => choose perform c otherwise branches
  | .forLoop span counter start stop step body =>
    let first ← loopNumber perform c start
    let last ← loopNumber perform c stop
    let by_ ← loopStep perform c step
    loopValue body (← countFrom perform c span counter last by_ body n first #[])
  | .whileLoop _ condition body => loopValue body (← repeatWhile perform c condition body n #[])
  | .func span definition =>
    let id ← newFunction ⟨definition, c.scope⟩
    if let some name := definition.name then
      define c name (.function id) false span
    return .function id
  | .call span callee args =>
    let f ← perform (.node callee c)
    let vs ← evalAll perform c args
    call perform c span f vs
  | .index _ target index =>
    let t ← perform (.node target c)
    let i ← perform (.node index c)
    applyIndex c target index t i
  | .ret _ value =>
    match value with
    | some value => throw (.ret (← perform (.node value c)))
    | none => throw (.ret .null)
  | .exit span exit => throw (.exit exit span)
  | .cls span name parent methods =>
    let parent ←
      match parent with
      | some parent => pure (some (← classNamed c parent span))
      | none => pure none
    let methods ← makeMethods c methods .empty
    let id ← newClass ⟨name, methods, parent⟩
    define c name (.cls id) false span
    return .cls id
  | .new span cls args =>
    let id ← classNamed c cls span
    let vs ← evalAll perform c args
    instantiate perform c span id vs
  | .getAttr span object name =>
    let o ← perform (.node object c)
    readAttribute c o name span
  | .setAttr _ object name value =>
    let o ← perform (.node object c)
    let v ← perform (.node value c)
    match o with
    | .inst id =>
      setAttribute id name v
      return v
    | other => fail c (.attributeWrite name other.type) object.tag
  | .methodCall span object name args =>
    let o ← perform (.node object c)
    let f ← readAttribute c o name span
    let vs ← evalAll perform c args
    call perform c span f vs

end Script.Eval
