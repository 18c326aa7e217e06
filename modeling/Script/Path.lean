import Script.Text.Split

/-! File names in paths, and which of them are source files. -/
namespace Script.Path

/-- The parts of a path between slashes. -/
def components (path : String) : List String :=
  (Text.split '/' path.toList).map String.ofList

/-- The last part, parts that stay in place apart. A path that ends by going up
has none. -/
def fileName? (path : String) : Option String :=
  match ((components path).filter fun c => c ≠ "" ∧ c ≠ ".").getLast? with
  | some ".." => none
  | other => other

/-- What stands behind the last dot of the file name, if more than nothing stands
before it. -/
def extension? (path : String) : Option String := do
  let name := (← fileName? path).toList
  let ext := (name.reverse.takeWhile (· ≠ '.')).reverse
  let stem := name.take (name.length - ext.length - 1)
  if ext.length < name.length ∧ stem ≠ [] then some (String.ofList ext) else none

/-- The extensions of source files. Such a file must define `main`. -/
def sourceExtensions : List String := ["jc", "jcode"]

def isSourceFile (path : String) : Bool := (extension? path).any sourceExtensions.contains

end Script.Path
