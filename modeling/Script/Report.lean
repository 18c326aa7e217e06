import Script.Fault
import Script.Text.Blank
import Script.Text.Quoted
import Script.Text.Split

/-! Failures and how they are reported.

A `Failure` is a fault at a place, with the calls that were active there. Its
`Report` has the words; `Report.render` lays them out with the source lines of
the span, each over a row of carets. -/
namespace Script

/-- An active call: its label in a traceback, and where its caller was when it
was entered. The program itself is entered from nowhere. -/
structure Call where
  label : String
  entry : Option Position
deriving DecidableEq, Repr, Inhabited

def Call.text (c : Call) : String :=
  let entry := match c.entry with
    | some p => "Some(" ++ p.text ++ ")"
    | none => "None"
  "Context \x7b label: " ++ Text.quoted c.label ++ ", entry: " ++ entry ++ ", .. \x7d"

/-- One line of a traceback: a call, and where execution was inside it. -/
structure Frame where
  label : String
  position : Position
deriving DecidableEq, Repr, Inhabited

/-- The traceback of calls, innermost first, when execution is at `p` in the
innermost: outermost first, each other frame at the place where the next was
entered. -/
def traceback (p : Position) : List Call → List Frame
  | [] => []
  | c :: cs => traceback (c.entry.getD p) cs ++ [⟨c.label, p⟩]

/-- A fault, where it lies, and the traceback if the program was running. -/
structure Failure where
  fault : Fault
  span : Span
  traceback : List Frame
deriving Repr, Inhabited

/-- A fault that is found before the program runs. -/
def Failure.ofText (fault : Fault) (span : Span) : Failure := ⟨fault, span, []⟩

/-- A fault of a running program. -/
def Failure.ofCalls (fault : Fault) (span : Span) (calls : List Call) : Failure :=
  ⟨fault, span, Script.traceback span.start calls⟩

/-- A failure in words. -/
structure Report where
  kind : FaultKind
  details : String
  span : Span
  traceback : List Frame
deriving Repr, Inhabited

def Failure.report (f : Failure) : Report := ⟨f.fault.kind, f.fault.message, f.span, f.traceback⟩

/-- A source line as shown: no carriage returns at its end, and tabs as blanks. -/
def Text.shownLine (cs : List Char) : List Char :=
  (dropEndWhile (· == '\r') cs).map fun c => if c = '\t' then ' ' else c

namespace Span

/-- The last line of an excerpt, and the column there before which carets end. A
span that ends right behind a line break ends with the line before, and there is
then no such column. -/
def lastLine (s : Span) : Nat × Option Nat :=
  if s.start.line < s.stop.line ∧ s.stop.column = 0 then (s.stop.line - 1, none)
  else (max s.stop.line s.start.line, some s.stop.column)

/-- The blanks and carets below line `n`, which has `width` characters. -/
def caretRow (s : Span) (n width : Nat) : List Char :=
  let first := if n = s.start.line then s.start.column else 0
  let past := match s.lastLine with
    | (last, some column) => if n = last then column else max width (first + 1)
    | (_, none) => max width (first + 1)
  List.replicate first ' ' ++ List.replicate (max (past - first) 1) '^'

/-- Each source line of the span over its row of carets. -/
def excerptRows (s : Span) : List (List Char) :=
  let lines := Text.split '\n' s.source.text.toList
  (List.range (s.lastLine.1 + 1 - s.start.line)).flatMap fun i =>
    let n := s.start.line + i
    let line := Text.shownLine (lines[n]?.getD [])
    [line, s.caretRow n line.length]

def excerpt (s : Span) : String :=
  String.intercalate "\n" (s.excerptRows.map String.ofList)

end Span

namespace Report

def isStatic (r : Report) : Bool := r.kind.isStatic

/-- The kind and the details on one line. -/
def headline (r : Report) : String := r.kind.text ++ ": " ++ r.details

private def frameLine (f : Frame) : String :=
  "  File " ++ f.position.source.name ++ ", line " ++ toString (f.position.line + 1) ++ ", in " ++
    f.label ++ "\n"

/-- The plain text shown to users. -/
def render (r : Report) : String :=
  let head :=
    if r.traceback.isEmpty then
      r.headline ++ "\nFile " ++ r.span.source.name ++ ", line " ++
        toString (r.span.start.line + 1) ++ "\n"
    else
      "Traceback (most recent call last):\n" ++ String.join (r.traceback.map frameLine) ++
        r.headline ++ "\n"
  head ++ "\n" ++ r.span.excerpt

/-- Advice that goes with a report. -/
def help (r : Report) : Option String :=
  match r.kind with
  | .constantReassignment =>
    some "declare the name with ':' instead of '=' to make it reassignable"
  | .runtime =>
    if 1 < r.traceback.length then
      some ("call chain: " ++ String.intercalate " -> " (r.traceback.map Frame.label))
    else none
  | _ => none

end Report

end Script
