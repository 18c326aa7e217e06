import Script.Eval.Machine

/-! The builtins. Each runs in a frame of its own, `c`, which names it in
tracebacks; `span` is the call.

The scope of the frame is the table of globals itself, not a new one below it. A builtin
looks no name up, binds none and makes no function, and the frame is gone when it
returns; so a table of its own would stay empty, and nothing would ever lead to it. -/
namespace Script.Eval

/-! ### Input and output -/

/-- Writes a text that is not empty. -/
def write (c : Context) (span : Span) (text : String) : Eval Unit := do
  match ← modifyGet fun m =>
    let (fault, world) := m.world.write text
    (fault, { m with world }) with
  | none => return ()
  | some fault => fail c (.output fault) span

def writeLine (c : Context) (span : Span) (text : String) : Eval Unit :=
  write c span (text ++ "\n")

/-- A line of input without its end: all line feeds and carriage returns there. -/
def readLine (c : Context) (span : Span) : Eval (Option String) := do
  match ← modifyGet fun m => let (line, world) := m.world.readLine; (line, { m with world }) with
  | .error fault => fail c (.input fault) span
  | .ok none => return none
  | .ok (some line) =>
    return some (String.ofList
      (Text.dropEndWhile (fun ch => ch == '\n' || ch == '\r') line.toList))

/-- The integer that a line holds between blanks. -/
def integerLine? (line : String) : Option Int64 :=
  (Text.readInteger? (Text.trim line.toList)).bind int64?

/-- Reads lines, at most `n`, until one holds an integer, and complains of the
others. -/
def readInteger (c : Context) (span : Span) : Nat → Eval Value
  | 0 => fail c .inputEnded span
  | n + 1 => do
    match ← readLine c span with
    | none => fail c .inputEnded span
    | some line =>
      match integerLine? line with
      | some k => return .int k
      | none =>
        writeLine c span ("'" ++ line ++ "' must be an integer. Try again!")
        readInteger c span n

/-! ### Lists -/

def append (c : Context) (span : Span) (target value : Value) : Eval Value := do
  match target with
  | .list id =>
    note (.listChange id)
    changeList id (·.push value)
    return .null
  | _ => fail c (.argument .firstNotList) span

def pop (c : Context) (span : Span) (target index : Value) : Eval Value := do
  match target, index with
  | .list id, .number n =>
    note (.listChange id)
    let elements := (← get).store.elements id
    match placeOf elements.size n (.listBounds .removal) with
    | .error fault => fail c (.operation fault) span
    | .ok place =>
      changeList id fun elements => without elements place
      return elements[place]?.getD .null
  | .list _, _ => fail c (.argument .secondNotNumber) span
  | _, _ => fail c (.argument .firstNotList) span

def extend (c : Context) (span : Span) (target source : Value) : Eval Value := do
  match target, source with
  | .list id, .list other =>
    note (.listChange id)
    let extra := (← get).store.elements other
    changeList id (· ++ extra)
    return .null
  | .list _, _ => fail c (.argument .secondNotList) span
  | _, _ => fail c (.argument .firstNotList) span

/-- The number of elements of a list, or of characters of a string. -/
def len (c : Context) (span : Span) (v : Value) : Eval Value := do
  match v with
  | .list id => return .int (Int64.ofNat ((← get).store.elements id).size)
  | .string s => return .int (Int64.ofNat s.length)
  | _ => fail c (.argument .notListOrString) span

/-! ### Objects -/

/-- Whether a value is an instance of a class that goes by a name: the name of the
given class, or the given name. -/
def isInstance (v cls : Value) : Eval Bool := do
  let s := (← get).store
  match v, cls with
  | .inst id, .cls target =>
    return (s.instance? id).any fun i => s.descendsFrom i.cls (s.className target)
  | .inst id, .string name => return (s.instance? id).any fun i => s.descendsFrom i.cls name
  | _, _ => return false

def attributeName (c : Context) (span : Span) : Value → Eval String
  | .string name => pure name
  | _ => fail c (.argument .attributeNotString) span

def hasAttr (c : Context) (span : Span) (v attr : Value) : Eval Value := do
  let name ← attributeName c span attr
  match v with
  | .inst id => return .ofBool ((← get).store.attribute? id name).isSome
  | _ => return .ofBool false

def getAttr (c : Context) (span : Span) (v attr default : Value) : Eval Value := do
  let name ← attributeName c span attr
  match v with
  | .inst id => return ((← get).store.attribute? id name).getD default
  | _ => fail c (.argument .readOfNonObject) span

def setAttr (c : Context) (span : Span) (v attr value : Value) : Eval Value := do
  let name ← attributeName c span attr
  match v with
  | .inst id =>
    setAttribute id name value
    return .null
  | other => fail c (.argument (.writeOfNonObject other.type)) span

/-! ### Scripts -/

/-- Performs the script at a path, and drops its value. A failure becomes a
failure of this call, with the report of the script in its message. -/
def loadScript (perform : Performer) (c : Context) (span : Span) : Value → Eval Value
  | .string path => do
    note (.opened path)
    match (← get).world.readFile path with
    | .error fault => fail c (.scriptUnreadable path fault) span
    | .ok text => fun m =>
      match perform (.script ⟨path, text⟩) m with
      | .ok _ m => .ok .null m
      | .error (.failed failure) m =>
        fail c (.scriptFailed path failure.report.render) span m
      | .error signal m => .error signal m
  | _ => fail c (.argument .notString) span

/-! ### All builtins -/

/-- The fault of a call with the wrong number of arguments. -/
def arityFault (callee : Callee) (wanted given : Nat) : Fault :=
  if wanted < given then .tooManyArguments (given - wanted) callee
  else .tooFewArguments (wanted - given) callee

/-- Refuses a call with the wrong number of arguments, in the frame of the caller. -/
def checkArity (caller : Context) (callee : Callee) (wanted given : Nat) (span : Span) :
    Eval Unit := do
  if wanted ≠ given then
    fail caller (arityFault callee wanted given) span

/-- Runs a builtin. -/
def native (perform : Performer) (caller : Context) (span : Span) (b : Builtin)
    (args : List Value) : Eval Value := do
  let c : Context := ⟨(← get).globals, ⟨b.name, some span.start⟩ :: caller.calls⟩
  match b, args with
  | .print, [v] =>
    writeLine c span (← display v)
    return .null
  | .printRet, [v] | .str, [v] => return .string (← display v)
  | .input, [] => return .string ((← readLine c span).getD "")
  | .inputInt, [] => readInteger c span ((← get).world.input.length + 1)
  | .clear, [] =>
    write c span "\x1b[2J\x1b[H"
    return .null
  | .isNum, [v] => return .ofBool (v.conformsTo .float)
  | .isStr, [v] => return .ofBool (v.conformsTo .string)
  | .isList, [v] => return .ofBool (v.conformsTo .list)
  | .isFun, [v] => return .ofBool (v.conformsTo .function)
  | .append, [target, value] => append c span target value
  | .pop, [target, index] => pop c span target index
  | .extend, [target, source] => extend c span target source
  | .len, [v] => len c span v
  | .run, [path] => loadScript perform c span path
  | .isInstance, [v, cls] => return .ofBool (← isInstance v cls)
  | .hasAttr, [v, attr] => hasAttr c span v attr
  | .getAttr, [v, attr, default] => getAttr c span v attr default
  | .setAttr, [v, attr, value] => setAttr c span v attr value
  | b, args => fail caller (arityFault (.builtin b.name) b.params.length args.length) span

end Script.Eval
