import Script.Parser.Operand
import Script.Parser.Statement

/-! Conditionals, loops, functions, classes and instances. -/
namespace Script.Parser

/-- Conditions and bodies, `elif` between them, and the body behind `else`. Line
breaks before `elif` and `else` belong to the conditional; others do not. -/
def branchesFrom (e : Parser (Node Span)) :
    Nat → List (Branch Span) → Parser (List (Branch Span) × Option (Body Span))
  | 0, _ => raiseHere .expression
  | n + 1, branches => do
    let condition ← e
    let body ← branchBody e
    let branches := branches ++ [.mk condition body]
    let checkpoint := (← get).cursor
    skipNewlines
    if ← atKeyword .elif then
      let _ ← advance
      branchesFrom e n branches
    else if ← atKeyword .elseWord then
      let _ ← advance
      return (branches, some (← branchBody e))
    else
      modify fun s => { s with cursor := checkpoint }
      return (branches, none)

def conditional (e : Parser (Node Span)) : Parser (Node Span) := do
  let start := (← advance).span.start
  let (branches, otherwise) ← branchesFrom e ((← remaining) + 1) []
  return .cond (← spanFrom start) branches otherwise

def forLoop (e : Parser (Node Span)) : Parser (Node Span) := do
  let start := (← advance).span.start
  let (counter, _) ← expectIdent .identifier
  let _ ← expect .equal (.symbol .equal)
  let first ← e
  let _ ← expectKeyword .toWord
  let last ← e
  let step ←
    if ← atKeyword .step then do
      let _ ← advance
      pure (some (← e))
    else
      pure none
  let body ← forBody e
  return .forLoop (← spanFrom start) counter first last step body

def whileLoop (e : Parser (Node Span)) : Parser (Node Span) := do
  let start := (← advance).span.start
  let condition ← e
  let body ← whileBody e
  return .whileLoop (← spanFrom start) condition body

/-- Parameters with their types, at least one, after those in `params`. -/
def paramsFrom : Nat → List (Param Span) → Parser (List (Param Span))
  | 0, _ => raiseHere .typeName
  | n + 1, params => do
    match (← current).kind.ident?.bind DeclaredType.ofWord? with
    | none => raiseHere .typeName
    | some type =>
      let _ ← advance
      let (name, span) ← expectIdent .parameterName
      let params := params ++ [⟨name, type, span⟩]
      if ← atSymbol .comma then
        let _ ← advance
        paramsFrom n params
      else
        return params

/-- The body of a function that starts at `start`, and whether its value is
returned by itself. -/
def functionBody (e : Parser (Node Span)) (start : Position) : Parser (Node Span × Bool) := do
  match (← current).kind with
  | .symbol .arrow =>
    let _ ← advance
    return (← e, true)
  | .keyword .returnWord =>
    let returnStart := (← advance).span.start
    let value ← e
    let stop := value.tag.stop
    return (.block ⟨start, stop⟩ [.ret ⟨returnStart, stop⟩ (some value)], false)
  | .symbol .leftBrace | .symbol .colon =>
    let _ ← advance
    if ← atNewline then
      let _ ← advance
    let block ← statements e
    skipNewlines
    let closing := (← current).kind
    if closing.isSymbol .rightBrace || closing.isKeyword .endWord then
      let _ ← advance
      return (block, false)
    else
      raiseHere .braceOrEnd
  | _ => raiseHere .functionBody

/-- A function or method, from the word `func` on. -/
def function (e : Parser (Node Span)) : Parser (FuncDef Span) := do
  let start := (← advance).span.start
  let name := (← current).kind.ident?
  if name.isSome then
    let _ ← advance
  let _ ← expect .leftParen
    (if name.isSome then .symbol .leftParen else .identifierOrParen)
  let params ←
    if ← atSymbol .rightParen then pure [] else paramsFrom ((← remaining) + 1) []
  let _ ← expect .rightParen .parameterEnd
  let (body, autoReturn) ← functionBody e start
  return .mk name params body autoReturn

/-- Methods up to the end of a class, after those in `methods`. -/
def methodsFrom (e : Parser (Node Span)) (braced : Bool) :
    Nat → List (FuncDef Span) → Parser (List (FuncDef Span))
  | 0, _ => raiseHere (if braced then .methodOrBrace else .methodOrEnd)
  | n + 1, methods => do
    skipNewlines
    let token ← current
    if if braced then token.kind.isSymbol .rightBrace else token.kind.isKeyword .endWord then
      let _ ← advance
      return methods
    else if token.kind.isKeyword .func then
      let method ← function e
      if method.name.isNone then
        raise (Failure.ofText (.expected .methodName) token.span)
      methodsFrom e braced n (methods ++ [method])
    else
      raiseHere (if braced then .methodOrBrace else .methodOrEnd)

/-- A class, from the word `class` on. -/
def classDefinition (e : Parser (Node Span)) : Parser (Node Span) := do
  let start := (← advance).span.start
  let (name, _) ← expectIdent .className
  let parent ←
    if (← current).kind.ident? = some "extends" then do
      let _ ← advance
      pure (some (← expectIdent .parentName).1)
    else
      pure none
  let kind := (← current).kind
  if !(kind.isSymbol .leftBrace || kind.isSymbol .colon) then
    raiseHere .colonOrBrace
  let _ ← advance
  let methods ← methodsFrom e (kind.isSymbol .leftBrace) ((← remaining) + 1) []
  return .cls (← spanFrom start) name parent methods

/-- An instance, from the word `new` on. -/
def instanceCreation (e : Parser (Node Span)) : Parser (Node Span) := do
  let start := (← advance).span.start
  let (cls, _) ← expectIdent .className
  if !(← atSymbol .leftParen) then
    raiseHere (.symbol .leftParen)
  let args ← arguments e .rightParen
  return .new (← spanFrom start) cls args

end Script.Parser
