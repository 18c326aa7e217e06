import Script.Report
import Script.Tree

/-! What a parser works with: a cursor over tokens, and errors.

A parser fails with a `Failure` and keeps its state when it does, so whoever
catches the failure sees how far it got. Errors do not simply replace one another:
`raise` reports the one that starts furthest into the text, and of several there
the first. Two logs record what happened on the way, all errors raised and all
attempts given up; nothing is decided by them. -/
namespace Script

/-- A place in a sequence of tokens. -/
structure Cursor where
  /-- The end of the last token passed. -/
  previous : Option Position
  /-- The tokens to come, without the end token. -/
  rest : List Token
  eof : Token
deriving Repr, Inhabited

namespace Cursor

def current (c : Cursor) : Token := c.rest.head?.getD c.eof

/-- The token behind the current one. -/
def following (c : Cursor) : Token := c.rest.tail.head?.getD c.eof

/-- Passes the current token; the end token is never passed. -/
def advance (c : Cursor) : Cursor :=
  match c.rest with
  | [] => c
  | t :: ts => { c with previous := some t.span.stop, rest := ts }

/-- The end of the last token passed, or else the start of the current one. -/
def previousEnd (c : Cursor) : Position := c.previous.getD c.current.span.start

/-- Passes line breaks, at most `n`. -/
def skipNewlines (c : Cursor) : Nat → Cursor
  | 0 => c
  | n + 1 => if c.current.kind.isNewline then c.advance.skipNewlines n else c

end Cursor

/-- An attempt that was given up. -/
structure Abandoned where
  /-- The token it started at. -/
  first : Token
  /-- How many tokens it had passed. -/
  passed : Nat
  /-- How many attempts were given up in its course; they were logged just before it. -/
  inside : Nat
deriving Repr, Inhabited

structure ParseState where
  cursor : Cursor
  /-- The error that starts furthest into the text, of several there the first. -/
  furthest : Option Failure
  /-- All errors raised, the last first. -/
  raised : List Failure
  /-- All attempts given up, the last first. -/
  abandoned : List Abandoned
deriving Repr, Inhabited

abbrev Parser := EStateM Failure ParseState

namespace Parser

def current : Parser Token := return (← get).cursor.current

def following : Parser Token := return (← get).cursor.following

/-- The number of tokens to come. -/
def remaining : Parser Nat := return (← get).cursor.rest.length

/-- Passes the current token. -/
def advance : Parser Token := do
  let token ← current
  modify fun s => { s with cursor := s.cursor.advance }
  return token

def atSymbol (symbol : Symbol) : Parser Bool := return (← current).kind.isSymbol symbol

def atKeyword (keyword : Keyword) : Parser Bool := return (← current).kind.isKeyword keyword

def atNewline : Parser Bool := return (← current).kind.isNewline

def skipNewlines : Parser Unit :=
  modify fun s => { s with cursor := s.cursor.skipNewlines s.cursor.rest.length }

/-- From `start` to the end of the last token passed; empty if that is before it. -/
def spanFrom (start : Position) : Parser Span := do
  let stop := (← get).cursor.previousEnd
  return if stop.index < start.index then Span.point start else ⟨start, stop⟩

/-- Of an error and the furthest before it, the one that starts later; on a tie
the earlier raised, which is the more specific. -/
def further (furthest : Option Failure) (failure : Failure) : Failure :=
  match furthest with
  | some f => if failure.span.start.index ≤ f.span.start.index then f else failure
  | none => failure

/-- Fails with the furthest error so far, this one included. -/
def raise (failure : Failure) : Parser α := do
  let winner := further (← get).furthest failure
  modify fun s => { s with furthest := some winner, raised := failure :: s.raised }
  throw winner

/-- Fails at the current token. -/
def raiseHere (what : Expectation) : Parser α := do
  raise (Failure.ofText (.expected what) (← current).span)

/-- Whatever the error was, fails at the token where it was noticed. -/
def orExpected (p : Parser α) (what : Expectation) : Parser α := fun s =>
  match p s with
  | .ok a s => .ok a s
  | .error _ s => raiseHere what s

/-- Tries a parser; if it fails the cursor is put back. -/
def attempt (p : Parser α) : Parser (Option α) := fun s =>
  match p s with
  | .ok a s => .ok (some a) s
  | .error _ t =>
    let passed := s.cursor.rest.length - t.cursor.rest.length
    let inside := t.abandoned.length - s.abandoned.length
    .ok none { t with
      cursor := s.cursor
      abandoned := ⟨s.cursor.current, passed, inside⟩ :: t.abandoned }

/-- Passes the symbol, or fails. -/
def expect (symbol : Symbol) (what : Expectation) : Parser Token := do
  if ← atSymbol symbol then advance else raiseHere what

/-- Passes the keyword, or fails. -/
def expectKeyword (keyword : Keyword) : Parser Token := do
  if ← atKeyword keyword then advance else raiseHere (.keyword keyword)

/-- Passes a name, or fails. -/
def expectIdent (what : Expectation) : Parser (String × Span) := do
  match (← current).kind with
  | .ident name =>
    let token ← advance
    return (name, token.span)
  | _ => raiseHere what

end Parser

end Script
