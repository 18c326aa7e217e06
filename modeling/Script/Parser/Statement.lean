import Script.Parser.Basic

/-! Statements, sequences of them, and the bodies of branches and loops.

A sequence is parsed by trying statement after statement; where one fails the
sequence ends, and the tokens from there on are left to whoever asked for it. -/
namespace Script.Parser

/-- A statement: an expression, or one of the forms that stand only here. -/
def statement (e : Parser (Node Span)) : Parser (Node Span) := do
  let token ← current
  let start := token.span.start
  match token.kind, (← following).kind with
  | .keyword .returnWord, _ =>
    let _ ← advance
    let value ← attempt e
    return .ret (← spanFrom start) value
  | .keyword .continueWord, _ =>
    let _ ← advance
    return .exit token.span .continuing
  | .keyword .breakWord, _ =>
    let _ ← advance
    return .exit token.span .breaking
  | .ident name, .symbol .colon =>
    let _ ← advance
    let _ ← advance
    let value ← e
    return .assign (← spanFrom start) name value
  | _, _ =>
    let node ← orExpected e .statement
    match node, (← current).kind with
    | .getAttr _ object name, .symbol .colon =>
      let _ ← advance
      let value ← e
      return .setAttr (← spanFrom start) object name value
    | node, _ => return node

/-- Statements behind line breaks, after those in `items`, until one fails or no
line break follows it. -/
def statementsFrom (e : Parser (Node Span)) : Nat → List (Node Span) → Parser (List (Node Span))
  | 0, items => return items
  | n + 1, items => do
    skipNewlines
    match ← attempt (statement e) with
    | none => return items
    | some item =>
      if ← atNewline then statementsFrom e n (items ++ [item]) else return items ++ [item]

/-- From the first to the last of `items`, or empty at `start`. -/
def blockSpan (start : Position) (items : List (Node Span)) : Span :=
  match items.head?, items.getLast? with
  | some first, some last => first.tag.through last.tag
  | _, _ => Span.point start

/-- A sequence of statements, as a block. -/
def statements (e : Parser (Node Span)) : Parser (Node Span) := do
  let start := (← current).span.start
  let items ← statementsFrom e ((← remaining) + 1) []
  return .block (blockSpan start items) items

/-- The body of a branch: `:` or `{`, then a line break and a sequence, whose
value is dropped, or one statement. -/
def branchBody (e : Parser (Node Span)) : Parser (Body Span) := do
  let kind := (← current).kind
  if !(kind.isSymbol .colon || kind.isSymbol .leftBrace) then
    raiseHere .colonOrBrace
  let _ ← advance
  let body ←
    if ← atNewline then do
      let _ ← advance
      pure (Body.mk (← statements e) true)
    else
      pure (Body.mk (← statement e) false)
  if kind.isSymbol .leftBrace then
    skipNewlines
    let _ ← expect .rightBrace (.symbol .rightBrace)
  return body

/-- A sequence up to a closing brace, behind the opening one. -/
def bracedBody (e : Parser (Node Span)) : Parser (Body Span) := do
  let _ ← advance
  let block ← statements e
  let _ ← expect .rightBrace (.symbol .rightBrace)
  return .mk block true

/-- A sequence up to `end`, behind the current token. -/
def endedBody (e : Parser (Node Span)) : Parser (Body Span) := do
  let _ ← advance
  let block ← statements e
  let _ ← expectKeyword .endWord
  return .mk block true

/-- One statement behind a colon. -/
def inlineBody (e : Parser (Node Span)) : Parser (Body Span) := do
  let _ ← advance
  return .mk (← statement e) false

/-- The body of a counting loop. -/
def forBody (e : Parser (Node Span)) : Parser (Body Span) := do
  match (← current).kind, (← following).kind with
  | .symbol .colon, .newline =>
    let _ ← advance
    endedBody e
  | .symbol .colon, _ => inlineBody e
  | .symbol .leftBrace, _ => bracedBody e
  | _, _ => raiseHere .colonOrBrace

/-- The body of a conditional loop, in which a line break may stand for the colon. -/
def whileBody (e : Parser (Node Span)) : Parser (Body Span) := do
  match (← current).kind, (← following).kind with
  | .symbol .leftBrace, _ => bracedBody e
  | .symbol .colon, .newline =>
    let _ ← advance
    endedBody e
  | .symbol .colon, _ => inlineBody e
  | .newline, _ => endedBody e
  | _, _ => raiseHere .colonBraceOrNewline

end Script.Parser
