/-! Program text and places in it.

A `Position` names a place in a `Source` three ways at once: by byte offset, by
line and by column. It is only ever moved by `advance`, one character at a time,
so the three stay in step: the positions of a text are exactly
`Position.after source cs` for the prefixes `cs` of its characters. -/
namespace Script

/-- A named piece of program text. -/
structure Source where
  name : String
  text : String
deriving DecidableEq, Repr, Inhabited

/-- A place in a source: byte offset, and line and column counted from zero.
Columns count characters. -/
structure Position where
  source : Source
  index : Nat
  line : Nat
  column : Nat
deriving DecidableEq, Repr, Inhabited

namespace Position

/-- The place before the first character. -/
def start (source : Source) : Position := ⟨source, 0, 0, 0⟩

/-- The place behind `c`, which stands at `p`. -/
def advance (p : Position) (c : Char) : Position :=
  if c = '\n' then
    { p with index := p.index + c.utf8Size, line := p.line + 1, column := 0 }
  else
    { p with index := p.index + c.utf8Size, column := p.column + 1 }

/-- The place behind the characters `cs`, which stand at `p`. -/
def advanceAll (p : Position) (cs : List Char) : Position := cs.foldl advance p

/-- The place behind the first characters `cs` of a source. -/
def after (source : Source) (cs : List Char) : Position := (start source).advanceAll cs

/-- Two positions agree when they are the same place in sources of the same name. -/
def agrees (p q : Position) : Bool :=
  p.index == q.index && p.line == q.line && p.column == q.column && p.source.name == q.source.name

/-- `name@line:column`, counted from one. -/
def text (p : Position) : String :=
  p.source.name ++ "@" ++ toString (p.line + 1) ++ ":" ++ toString (p.column + 1)

@[simp] theorem advanceAll_nil (p : Position) : p.advanceAll [] = p := rfl

@[simp] theorem advanceAll_cons (p : Position) (c : Char) (cs : List Char) :
    p.advanceAll (c :: cs) = (p.advance c).advanceAll cs := rfl

theorem advanceAll_append (p : Position) (cs ds : List Char) :
    p.advanceAll (cs ++ ds) = (p.advanceAll cs).advanceAll ds := List.foldl_append

end Position

/-- The part of a source from `start` up to, and without, `stop`. -/
structure Span where
  start : Position
  stop : Position
deriving DecidableEq, Repr, Inhabited

namespace Span

/-- The empty span at a position. -/
def point (p : Position) : Span := ⟨p, p⟩

/-- From the start of `s` to the end of `t`. -/
def through (s t : Span) : Span := ⟨s.start, t.stop⟩

/-- The source that the span starts in. -/
def source (s : Span) : Source := s.start.source

/-- The number of bytes covered; a span that ends before it starts covers none. -/
def byteLength (s : Span) : Nat := max s.stop.index s.start.index - s.start.index

def text (s : Span) : String :=
  "Span \x7b start: " ++ s.start.text ++ ", end: " ++ s.stop.text ++ " \x7d"

end Span

end Script
