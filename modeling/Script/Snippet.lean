import Script.Source
import Script.Text.Utf8

/-! Snippets: the part of a source around a range of bytes, with whole lines of
context before and behind it. Lines end with a line feed, a carriage return, or
both in that order.

Graphical reports are drawn elsewhere, by asking a source for its snippets. Here they
are only answered, so nothing else in the library depends on them: a plain report shows
whole lines of its own (`Span.excerpt`). -/
namespace Script

/-- What is asked for: a range of bytes, and lines of context. -/
structure SnippetRequest where
  offset : Nat
  length : Nat
  before : Nat
  after : Nat
deriving DecidableEq, Repr, Inhabited

/-- The bytes shown, where they start and how the shown part lies in the text:
lines above it, the column of its first byte if no context was asked for, and line
breaks read. -/
structure Snippet where
  data : List UInt8
  offset : Nat
  line : Nat
  column : Nat
  lineCount : Nat
deriving DecidableEq, Repr, Inhabited

namespace Snippet

/-- How far a text has been read. -/
structure Reading where
  offset : Nat
  lineCount : Nat
  startLine : Nat
  startColumn : Nat
  /-- Where the current line starts. -/
  lineStart : Nat
  /-- Where the lines of context before the range start, at most as many as asked
  for. -/
  starts : List Nat
  /-- Whether the end of the range has been read. -/
  past : Bool
  /-- Whether the line of that end has been read. -/
  pastLine : Bool
  /-- Lines of context read behind the range. -/
  endLines : Nat
  finished : Bool
deriving DecidableEq, Repr, Inhabited

namespace Reading

def start : Reading := ⟨0, 0, 0, 0, 0, [], false, false, 0, false⟩

/-- Another line starts before the range; the oldest is dropped if there are too
many. -/
def pushLine (r : SnippetRequest) (s : Reading) : Reading :=
  let starts := s.starts ++ [s.lineStart]
  if r.before < starts.length then
    { s with startColumn := 0, startLine := s.startLine + 1, starts := starts.tail }
  else { s with startColumn := 0, starts }

/-- A line ends behind the range. -/
def countLine (s : Reading) : Reading :=
  if s.pastLine then { s with startColumn := 0, endLines := s.endLines + 1 }
  else { s with startColumn := 0, pastLine := true }

/-- Reads a line break, whose last byte is at the offset. -/
def lineBreak (r : SnippetRequest) (s : Reading) : Reading :=
  let s := { s with lineCount := s.lineCount + 1 }
  if s.offset < r.offset then { s.pushLine r with lineStart := s.offset + 1 }
  else if r.offset + (r.length - 1) ≤ s.offset ∧ s.past then
    let s := s.countLine
    if r.after ≤ s.endLines then { s with offset := s.offset + 1, finished := true }
    else { s with lineStart := s.offset + 1 }
  else { s with lineStart := s.offset + 1 }

/-- Reads any other byte. -/
def plainByte (r : SnippetRequest) (s : Reading) : Reading :=
  if s.offset < r.offset then { s with startColumn := s.startColumn + 1 } else s

/-- Goes on to the next offset; reading is finished with the range read and no
more context asked for. -/
def next (r : SnippetRequest) (s : Reading) : Reading :=
  if s.finished then s
  else if r.offset + r.length - 1 ≤ s.offset then
    { s with past := true, offset := s.offset + 1, finished := r.after ≤ s.endLines }
  else { s with offset := s.offset + 1 }

/-- Reads bytes until finished. -/
def read (r : SnippetRequest) : Reading → List UInt8 → Reading
  | s, [] => s
  | s, 13 :: 10 :: bs =>
    if s.finished then s
    else read r (next r (lineBreak r { s with offset := s.offset + 1 })) bs
  | s, b :: bs =>
    if s.finished then s
    else read r (next r (if b = 13 ∨ b = 10 then lineBreak r s else plainByte r s)) bs

end Reading

/-- The snippet of a text, if the range lies in it. -/
def ofBytes? (r : SnippetRequest) (bytes : List UInt8) : Option Snippet :=
  let s := Reading.read r .start bytes
  if r.offset + r.length - 1 ≤ s.offset then
    let first := s.starts.head?.getD (if r.before = 0 then r.offset else 0)
    some
      { data := (bytes.take s.offset).drop first
        offset := first
        line := s.startLine
        column := if r.before = 0 then s.startColumn else 0
        lineCount := s.lineCount }
  else none

/-- The bytes shown, as text. A range may cut through a character. -/
def text (s : Snippet) : String := Text.mend s.data

end Snippet

/-- The snippet of a source. -/
def Source.snippet? (source : Source) (r : SnippetRequest) : Option Snippet :=
  Snippet.ofBytes? r (Text.encode source.text)

end Script
