import Script.CommandLine

/-! The program. Commands are pure functions of their input and files, so all
input is read first; a file is read when a command has asked for it, and then the
command starts over with that file known. -/
namespace Script

/-- What is known about files. -/
abbrev KnownFiles := List (String × Except ReadFault (List UInt8))

def KnownFiles.read (known : KnownFiles) (path : String) : Except ReadFault (List UInt8) :=
  match known.find? fun f => f.1 = path with
  | some (_, answer) => answer
  | none => .error .missing

/-- Reads a file. -/
def readFromDisk (path : String) : IO (Except ReadFault (List UInt8)) := do
  if path.toList.contains '\x00' then return .error .nulInName
  try
    return .ok (← IO.FS.readBinFile path).toList
  catch
    | .inappropriateType .. => return .error .isDirectory
    | .resourceBusy .. | .noSuchThing .. | .noFileOrDirectory .. => return .error .missing
    | _ => return .error .notDirectory

/-- Reads a stream to its end, behind what has been read before. -/
partial def readAll (stream : IO.FS.Stream) (before : ByteArray) : IO ByteArray := do
  let chunk ← stream.read 65536
  if chunk.isEmpty then return before else readAll stream (before ++ chunk)

/-- Answers a command, reading the files that it asks for. -/
partial def answer (input : List UInt8) (args : List String) (known : KnownFiles) :
    IO Response := do
  let response := Command.respondToArgs unlimited ⟨input, "", .working, known.read⟩ args
  match response.asked.find? fun path => !known.any fun f => f.1 = path with
  | none => return response
  | some path => answer input args ((path, ← readFromDisk path) :: known)

end Script

/-- Reads all input, and writes what the command that the arguments spell out
answers. -/
def main (args : List String) : IO UInt32 := do
  let input ← Script.readAll (← IO.getStdin) .empty
  let response ← Script.answer input.toList args []
  IO.print response.stdout
  IO.eprint response.stderr
  return UInt32.ofNat response.code
