import Script.Fault
import Script.Path
import Script.Text.Utf8

/-! What a program can reach outside itself: bytes to read, a sink to write to,
and files. -/
namespace Script

/-- How output is taken. -/
inductive Sink where
  | working
  /-- Every write fails and nothing is written. -/
  | refusing
  /-- Writes succeed, but what follows them up fails. -/
  | unflushable
deriving DecidableEq, Repr, Inhabited

/-- The files below the working directory, by path. -/
structure Directory where
  files : List (String × List UInt8)
deriving Repr, Inhabited

namespace Directory

/-- Where a walk along a path has come to. -/
inductive Place where
  /-- Above the working directory, where nothing is known to exist. -/
  | outside
  /-- A directory below the working directory. -/
  | inside (path : List String)
  | file (content : List UInt8)
deriving DecidableEq, Repr, Inhabited

private def plain (path : String) : List String :=
  (Path.components path).filter fun c => c ≠ "" ∧ c ≠ "."

def file? (d : Directory) (path : List String) : Option (List UInt8) :=
  (d.files.find? fun f => plain f.1 = path).map Prod.snd

/-- Directories are there for the files in them. -/
def hasDirectory (d : Directory) (path : List String) : Bool :=
  path.isEmpty || d.files.any fun f => path.isPrefixOf (plain f.1) && plain f.1 != path

/-- The most bytes that a part of a path may have. -/
def maxNameSize : Nat := 255

/-- The most bytes that a path may have. -/
def maxPathSize : Nat := 4095

/-- The fault of a part that names nothing. -/
def absent (part : String) : ReadFault :=
  if maxNameSize < part.utf8ByteSize then .nameTooLong else .missing

/-- One part further along a path. -/
def enter (d : Directory) (place : Place) (part : String) : Except ReadFault Place :=
  match place with
  | .file _ => .error .notDirectory
  | .outside => if part = "" ∨ part = "." ∨ part = ".." then .ok .outside else .error (absent part)
  | .inside path =>
    if part = "" ∨ part = "." then .ok place
    else if part = ".." then .ok (if path = [] then .outside else .inside path.dropLast)
    else if d.hasDirectory (path ++ [part]) then .ok (.inside (path ++ [part]))
    else
      match d.file? (path ++ [part]) with
      | some content => .ok (.file content)
      | none => .error (absent part)

/-- The content of the file at a path. -/
def read (d : Directory) (path : String) : Except ReadFault (List UInt8) := do
  if path.toList.contains '\x00' then throw .nulInName
  if path = "" then throw .missing
  if maxPathSize < path.utf8ByteSize then throw .nameTooLong
  let origin := if path.toList.head? = some '/' then Place.outside else .inside []
  match ← (Path.components path).foldlM d.enter origin with
  | .file content => return content
  | _ => throw .isDirectory

end Directory

structure World where
  /-- What has not been read yet. -/
  input : List UInt8
  /-- What has been written so far. -/
  output : String
  sink : Sink
  /-- How a path is read. -/
  files : String → Except ReadFault (List UInt8)

instance : Inhabited World := ⟨⟨[], "", .working, fun _ => .error .missing⟩⟩

namespace World

/-- Takes a line off the input, its line feed included; at the end there is none.
A line that is no text is taken off all the same. -/
def readLine (w : World) : Except ReadFault (Option String) × World :=
  match w.input with
  | [] => (.ok none, w)
  | _ =>
    let (line, rest) := Text.takeLine w.input
    let result := match Text.decode? line with
      | some s => Except.ok (some s)
      | none => .error .notUtf8
    (result, { w with input := rest })

/-- Writes a text that is not empty. -/
@[inline] def write (w : World) (text : String) : Option WriteFault × World :=
  match w.sink with
  | .working => (none, { w with output := w.output ++ text })
  | .refusing => (some .refused, w)
  | .unflushable => (some .unflushed, { w with output := w.output ++ text })

/-- The text of a file. -/
def readFile (w : World) (path : String) : Except ReadFault String := do
  match Text.decode? (← w.files path) with
  | some s => return s
  | none => throw .notUtf8

end World

end Script
