import Script.Lexeme
import Script.Report

/-! Program text to tokens.

A lexer cuts piece after piece off the text and keeps the position. It also
watches for comments and closing braces that follow a function definition without
a blank line, and puts a marker token before them; for that it counts line breaks
since the last word or number. Characters that are no token become a failure in
the stream, and lexing goes on behind them. -/
namespace Script

/-- One item of a token stream. -/
abbrev Item := Except Failure Token

structure Lexer where
  rest : List Char
  position : Position
  /-- Line breaks since the last word or number. -/
  newlines : Nat
  /-- Whether the keyword `func` came, and no two line breaks counted since. -/
  afterFunc : Bool
deriving Repr, Inhabited

namespace Lexer

def ofSource (source : Source) : Lexer := ⟨source.text.toList, Position.start source, 0, false⟩

/-- The marker, if one is due here. -/
def marker (l : Lexer) : List Item :=
  if l.afterFunc && l.newlines < 2 then [.ok ⟨.noBlankLine, Span.point l.position⟩] else []

/-- What a piece does to the count of line breaks and the watch for markers. -/
def watch (l : Lexer) : Lexeme → Lexer
  | .token .newline =>
    { l with newlines := l.newlines + 1, afterFunc := l.afterFunc && l.newlines + 1 < 2 }
  | .token (.keyword k) => { l with newlines := 0, afterFunc := l.afterFunc || k == .func }
  | .token (.int _) | .token (.float _) | .token (.ident _) | .fault (.unrepresentable _) =>
    { l with newlines := 0 }
  | _ => l

/-- Behind the characters `taken`. -/
def move (l : Lexer) (taken rest : List Char) : Lexer :=
  { l with rest, position := l.position.advanceAll taken }

/-- The items of a piece that stands at `span`. -/
def emit (l : Lexer) (span : Span) : Lexeme → List Item
  | .blank => []
  | .comment => l.marker
  | .token (.symbol .rightBrace) => l.marker ++ [.ok ⟨.symbol .rightBrace, span⟩]
  | .token kind => [.ok ⟨kind, span⟩]
  | .fault fault => [.error (Failure.ofText fault span)]

/-- Cuts one piece off the text `c :: cs`: its items, and the lexer behind it. -/
def step (l : Lexer) (c : Char) (cs : List Char) : List Item × Lexer :=
  let s := Lexeme.scan c cs
  let next := (l.move s.taken s.rest).watch s.lexeme
  (l.emit ⟨l.position, next.position⟩ s.lexeme, next)

/-- Cuts at most `n` pieces. -/
def run : Nat → Lexer → List Item × Lexer
  | 0, l => ([], l)
  | n + 1, l =>
    match l.rest with
    | [] => ([], l)
    | c :: cs =>
      let (items, next) := l.step c cs
      let (more, last) := run n next
      (items ++ more, last)

/-- The token at the end of the text. -/
def eof (l : Lexer) : Token := ⟨.eof, Span.point l.position⟩

/-! ### Item by item -/

/-- Cuts pieces, at most `n`, up to and with the first that has items. -/
def seek : Nat → Lexer → List Item × Lexer
  | 0, l => ([], l)
  | n + 1, l =>
    match l.rest with
    | [] => ([], l)
    | c :: cs =>
      match l.step c cs with
      | ([], next) => seek n next
      | found => found

/-- A stream of which items are asked one at a time. -/
structure Stream where
  lexer : Lexer
  /-- Items that were found together with the last one, but not handed out. -/
  pending : List Item
  /-- Whether the end token was handed out. -/
  finished : Bool
deriving Repr, Inhabited

namespace Stream

def ofSource (source : Source) : Stream := ⟨Lexer.ofSource source, [], false⟩

/-- The next item, if there is one. A failure does not end the stream. -/
def next (s : Stream) : Option Item × Stream :=
  match s.pending with
  | item :: pending => (some item, { s with pending })
  | [] =>
    match s.lexer.seek s.lexer.rest.length with
    | (item :: pending, lexer) => (some item, { s with lexer, pending })
    | ([], lexer) =>
      if s.finished then (none, { s with lexer })
      else (some (.ok lexer.eof), { s with lexer, finished := true })

/-- The stream after it was asked `n` times. -/
def after (s : Stream) : Nat → Stream
  | 0 => s
  | n + 1 => s.next.2.after n

/-- The answer after `n` others. -/
def answer (s : Stream) (n : Nat) : Option Item := (s.after n).next.1

end Stream

end Lexer

namespace Source

/-- The whole stream but its end, and the end token. A text has at most as many
pieces as characters. -/
def scan (source : Source) : List Item × Token :=
  let l := Lexer.ofSource source
  let (items, last) := l.run l.rest.length
  (items, last.eof)

/-- The whole stream, with the end token as its last item. -/
def items (source : Source) : List Item :=
  let (items, eof) := source.scan
  items ++ [.ok eof]

/-- All tokens and the end token, or the first failure. -/
def tokens (source : Source) : Except Failure (List Token × Token) := do
  let (items, eof) := source.scan
  return (← items.mapM id, eof)

end Source

end Script
