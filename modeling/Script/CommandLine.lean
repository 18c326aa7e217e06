import Script.Session
import Script.Tree.Dump

/-! The command line: arguments, input and files to output and an exit code. -/
namespace Script

/-- What the arguments ask for. With `fancy` a failure is to be shown graphically;
only the plain report is offered here. -/
inductive Command where
  | run (file : String) (fancy : Bool)
  | eval (code : String) (fancy : Bool)
  | repl
  | tokenize (file : String)
  | parse (file : String)
  | help
  | version
deriving DecidableEq, Repr, Inhabited

/-- The arguments behind the name of a command. -/
structure Operands where
  values : List String
  fancy : Bool
deriving DecidableEq, Repr, Inhabited

namespace Operands

/-- Whether an argument is an option. A single dash is a value. -/
def isOption (arg : String) : Bool := arg.toList.head? = some '-' && arg ≠ "-"

/-- Whether help is asked for, before any other option that can be wrong. -/
def askHelp : List String → Bool
  | [] => false
  | arg :: args =>
    arg = "--help" || arg = "-h" || ((arg = "--fancy" || !isOption arg) && askHelp args)

/-- Sorts arguments into values and options. Behind `--` everything is a value; the
only option may be given once. -/
def ofArgs? : List String → Option Operands
  | [] => some ⟨[], false⟩
  | "--" :: args => some ⟨args, false⟩
  | "--fancy" :: args =>
    match ofArgs? args with
    | some ⟨values, false⟩ => some ⟨values, true⟩
    | _ => none
  | arg :: args =>
    if isOption arg then none
    else (ofArgs? args).map fun o => { o with values := arg :: o.values }

end Operands

namespace Command

/-- The names of the commands that can be given. -/
def names : List String := ["run", "eval", "repl", "tokenize", "parse"]

/-- The command that a name and its operands spell out. A file has a name that is
not empty. -/
def ofOperands? (name : String) (operands : Operands) : Option Command :=
  match name, operands with
  | "run", ⟨[file], fancy⟩ => if file = "" then none else some (.run file fancy)
  | "eval", ⟨[code], fancy⟩ => some (.eval code fancy)
  | "repl", ⟨[], false⟩ => some .repl
  | "tokenize", ⟨[file], false⟩ => if file = "" then none else some (.tokenize file)
  | "parse", ⟨[file], false⟩ => if file = "" then none else some (.parse file)
  | _, _ => none

/-- The command that arguments spell out. -/
def ofArgs? : List String → Option Command
  | [] => none
  | "--help" :: _ | "-h" :: _ | ["help"] => some .help
  | "--version" :: _ | "-V" :: _ => some .version
  | ["help", name] => if names.contains name || name = "help" then some .help else none
  | name :: args =>
    if names.contains name && Operands.askHelp args then some .help
    else (Operands.ofArgs? args).bind (ofOperands? name)

end Command

/-- What a command did. -/
structure Response where
  code : Nat
  stdout : String
  stderr : String
  /-- The files it asked for. -/
  asked : List String
deriving DecidableEq, Repr, Inhabited

namespace Response

/-- The exit code of a failure: it tells whether the program ran. -/
def failureCode (f : Failure) : Nat := if f.report.isStatic then 65 else 70

def ofFailure (f : Failure) (stdout : String) (asked : List String) : Response :=
  ⟨failureCode f, stdout, f.report.render ++ "\n", asked⟩

def success (stdout : String) (asked : List String) : Response := ⟨0, stdout, "", asked⟩

/-- The response to a run that did not come to an end. -/
def unfinished (stdout : String) (asked : List String) : Response :=
  ⟨70, stdout, "The program did not come to an end.\n", asked⟩

def unreadable (file : String) (fault : ReadFault) : Response :=
  ⟨1, "", "reading '" ++ file ++ "' failed: " ++ fault.message ++ "\n", [file]⟩

/-- How the commands are written. -/
def summary : String :=
  "usage: run FILE [--fancy] | eval CODE [--fancy] | repl | tokenize FILE | parse FILE\n"

def usage : Response := ⟨2, "", summary, []⟩

end Response

namespace Command

/-- What a shell shows for a value. -/
def echo (m : Machine) (v : Value) : String :=
  match m.store.shown v with
  | some (some text) => text ++ "\n"
  | _ => ""

/-- Runs one program, and shows its value if asked to. -/
def execute (n : Nat) (world : World) (source : Source) (echoing : Bool) (asked : List String) :
    Response :=
  let (outcome, m) := (Machine.start world).run n source
  let asked := asked ++ m.openedFiles
  match outcome with
  | .value v => .success (m.world.output ++ if echoing then echo m v else "") asked
  | .failure f => .ofFailure f m.world.output asked
  | .exhausted => .unfinished m.world.output asked

/-- A line per token, up to the first failure. -/
def listTokens : List Item → String → Response
  | [], shown => .success shown []
  | .ok token :: items, shown => listTokens items (shown ++ token.text ++ "\n")
  | .error failure :: _, shown => .ofFailure failure shown []

def showTree (source : Source) : Response :=
  match source.parse with
  | .ok program => .success (program.dump ++ "\n") []
  | .error failure => .ofFailure failure "" []

/-! ### The interactive shell -/

/-- A shell between two lines. -/
structure Shell where
  machine : Machine
  /-- Input that the shell has not read. What a program has begun to read is the
  program's. -/
  pending : List UInt8
  stderr : String

namespace Shell

def say (s : Shell) (text : String) : Shell :=
  let world := { s.machine.world with output := s.machine.world.output ++ text }
  { s with machine := { s.machine with world } }

/-- Runs a line. A program that reads takes all input that is left; one that does
not leaves it to the shell. -/
def runLine (n : Nat) (s : Shell) (line : String) : Shell :=
  let own := s.machine.world.input
  let world := { s.machine.world with input := own ++ s.pending }
  let (outcome, m) := { s.machine with world }.run n ⟨"<stdin>", line⟩
  let untouched := m.world.input.length = own.length + s.pending.length
  let m := if untouched then { m with world := { m.world with input := own } } else m
  let s := { s with machine := m, pending := if untouched then s.pending else [] }
  match outcome with
  | .value v => s.say (echo m v)
  | .failure f => { s with stderr := s.stderr ++ f.report.render ++ "\n" }
  | .exhausted => { s with stderr := s.stderr ++ "The program did not come to an end.\n" }

def response (s : Shell) (code : Nat) : Response :=
  ⟨code, s.machine.world.output, s.stderr, s.machine.openedFiles⟩

/-- Reads and runs lines, at most `k`, until the input ends or is no text. -/
def loop (n : Nat) : Nat → Shell → Response
  | 0, s => s.response 0
  | k + 1, s =>
    let s := s.say "jcode > "
    match s.pending with
    | [] => (s.say "\n").response 0
    | _ =>
      let (line, rest) := Text.takeLine s.pending
      let s := { s with pending := rest }
      match Text.decode? line with
      | none => s.response 1
      | some line =>
        match Text.trim line.toList with
        | [] => loop n k s
        | code => loop n k (s.runLine n (String.ofList code))

end Shell

/-- An interactive shell on the given input. -/
def interact (n : Nat) (world : World) : Response :=
  let machine := Machine.start { world with input := [] }
  Shell.loop n (world.input.length + 1) ⟨machine, world.input, ""⟩

/-! ### All commands -/

/-- Hands the text of a file on. -/
def withFile (world : World) (file : String) (next : Source → Response) : Response :=
  match world.readFile file with
  | .ok text =>
    let r := next ⟨file, text⟩
    { r with asked := file :: r.asked }
  | .error fault => .unreadable file fault

/-- Does what a command asks for, with runs of at most `n` nested steps. -/
def respond (n : Nat) (world : World) : Command → Response
  | .run file _ => withFile world file fun source => execute n world source false []
  | .eval code _ => execute n world ⟨"<eval>", code⟩ true []
  | .repl => interact n world
  | .tokenize file => withFile world file fun source => listTokens source.items ""
  | .parse file => withFile world file showTree
  | .help => .success Response.summary []
  | .version => .success "jcode 0.1.0\n" []

/-- Does what arguments ask for. -/
def respondToArgs (n : Nat) (world : World) (args : List String) : Response :=
  match ofArgs? args with
  | some command => command.respond n world
  | none => .usage

end Command

end Script
