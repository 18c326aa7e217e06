import Script.Lexer
import Script.Parser.Compound

/-! Expressions and whole programs.

`expression n` may nest `n` deep. Every nested expression stands behind a token
of the one around it, so the number of tokens is always deep enough. The guess at
misspelt keywords is a parameter, `hint`: it can only turn one refusal into
another. -/
namespace Script

namespace Parser

/-- A literal, a name, or an expression in brackets of some kind. -/
def atom (hint : String → Option Keyword) (e : Parser (Node Span)) : Parser (Node Span) := do
  let token ← current
  match token.kind with
  | .int n =>
    let _ ← advance
    return .int token.span n
  | .float x =>
    let _ ← advance
    return .float token.span x
  | .string s =>
    let _ ← advance
    return .string token.span s
  | .ident name =>
    let next := (← following).kind
    if name = "class" ∧ next.ident?.isSome then classDefinition e
    else if name = "new" ∧ next.ident?.isSome then instanceCreation e
    else
      match if next.isOperand then hint name else none with
      | some keyword => raise (Failure.ofText (.misspelt name keyword) token.span)
      | none =>
        let _ ← advance
        return .name token.span name
  | .symbol .leftParen =>
    let _ ← advance
    let node ← e
    let _ ← expect .rightParen (.symbol .rightParen)
    return node
  | .symbol .leftSquare =>
    let items ← arguments e .rightSquare
    return .list (← spanFrom token.span.start) items
  | .keyword .ifWord => conditional e
  | .keyword .forWord => forLoop e
  | .keyword .whileWord => whileLoop e
  | .keyword .func =>
    let definition ← function e
    return .func (← spanFrom token.span.start) definition
  | _ => raiseHere .atom

/-- The value of a declaration whose head has been passed. -/
def declaration (e : Parser (Node Span)) (start : Position) (name : String)
    (type : Option DeclaredType) (constant : Bool) : Parser (Node Span) := do
  let value ← e
  return .declare (← spanFrom start) name type constant value

/-- A declaration, or operators and operands; `e` parses what is nested in it. -/
def expressionStep (hint : String → Option Keyword) (e : Parser (Node Span)) :
    Parser (Node Span) := do
  let token ← current
  match token.kind, (← following).kind with
  | .keyword .var, _ =>
    let _ ← advance
    let (name, _) ← expectIdent .identifier
    let _ ← expect .colon (.symbol .colon)
    declaration e token.span.start name none false
  | .ident word, .ident name =>
    match DeclaredType.ofWord? word with
    | none => logic e (atom hint e)
    | some type =>
      let _ ← advance
      let _ ← advance
      match (← current).kind with
      | .symbol .equal =>
        let _ ← advance
        declaration e token.span.start name (some type) true
      | .symbol .colon =>
        let _ ← advance
        declaration e token.span.start name (some type) false
      | _ => raiseHere .constantOrVariable
  | _, _ => logic e (atom hint e)

/-- An expression with others nested at most `n` deep in it. -/
def expression (hint : String → Option Keyword) : Nat → Parser (Node Span)
  | 0 => expressionStep hint (raiseHere .expression)
  | n + 1 => expressionStep hint (expression hint n)

/-- Why the token `kind`, with `next` behind it, cannot go on a program. -/
def leftover (kind next : TokenKind) : Fault :=
  match kind, next with
  | .ident name, .symbol .equal => .identifierBeforeEqual name
  | .ident name, _ => .strayIdentifier name
  | .symbol .equal, _ => .strayEqual
  | kind, _ => .strayToken kind

/-- A sequence of statements up to the end of the text. -/
def program (hint : String → Option Keyword) : Parser (Node Span) := do
  let block ← statements (expression hint (← remaining))
  let token ← current
  if token.kind.isEof then
    return block
  else
    raise (Failure.ofText (leftover token.kind (← following).kind) token.span)

/-- The state before the first token. Markers are of no concern to the grammar. -/
def start (tokens : List Token) (eof : Token) : ParseState :=
  { cursor := ⟨none, tokens.filter fun t => !t.kind.isNoBlankLine, eof⟩
    furthest := none
    raised := []
    abandoned := [] }

end Parser

/-- The program in a sequence of tokens. -/
def parseTokens (hint : String → Option Keyword) (tokens : List Token) (eof : Token) :
    Except Failure (Node Span) :=
  match Parser.program hint (Parser.start tokens eof) with
  | .ok node _ => .ok node
  | .error failure _ => .error failure

/-- The program in a source, or the first lexical or the furthest syntax error. -/
def Source.parse (source : Source) : Except Failure (Node Span) := do
  let (tokens, eof) ← source.tokens
  parseTokens Keyword.suggest tokens eof

end Script
