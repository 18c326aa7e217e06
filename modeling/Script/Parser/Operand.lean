import Script.Parser.Basic

/-! Operators and what they join, from the loosest level to the tightest: logic,
comparison, sums, products, signs, powers, then calls, indexing and attributes.

Every procedure takes the parser `e` of a whole expression, for what stands
between brackets, and the parser `a` of an atom. Loops are bounded by the number
of tokens to come: each round passes one. -/
namespace Script

namespace BinaryOp

def logical? : TokenKind → Option BinaryOp
  | .keyword .and => some .and
  | .keyword .or => some .or
  | _ => none

def comparison? : TokenKind → Option BinaryOp
  | .symbol .equalEqual => some .eq
  | .symbol .bangEqual => some .ne
  | .symbol .less => some .lt
  | .symbol .greater => some .gt
  | .symbol .lessEqual => some .le
  | .symbol .greaterEqual => some .ge
  | _ => none

def additive? : TokenKind → Option BinaryOp
  | .symbol .plus => some .add
  | .symbol .minus => some .sub
  | _ => none

def multiplicative? : TokenKind → Option BinaryOp
  | .symbol .star => some .mul
  | .symbol .slash => some .div
  | _ => none

def power? : TokenKind → Option BinaryOp
  | .symbol .caret => some .pow
  | _ => none

end BinaryOp

/-- The sign that a token is before an operand. -/
def UnaryOp.sign? : TokenKind → Option UnaryOp
  | .symbol .plus => some .plus
  | .symbol .minus => some .minus
  | _ => none

namespace Parser

/-- Operators and right operands, joined to `left` one after the other. -/
def chainFrom (op? : TokenKind → Option BinaryOp) (right : Parser (Node Span)) :
    Nat → Node Span → Parser (Node Span)
  | 0, left => return left
  | n + 1, left => do
    match op? (← current).kind with
    | none => return left
    | some op =>
      let _ ← advance
      let r ← right
      chainFrom op? right n (.binary (left.tag.through r.tag) op left r)

/-- An operand, then operators and right operands. -/
def chain (operand : Parser (Node Span)) (op? : TokenKind → Option BinaryOp)
    (right : Parser (Node Span)) : Parser (Node Span) := do
  let left ← operand
  chainFrom op? right (← remaining) left

/-- Commas and expressions, after those in `items`. -/
def argumentsFrom (e : Parser (Node Span)) : Nat → List (Node Span) → Parser (List (Node Span))
  | 0, items => return items
  | n + 1, items => do
    if ← atSymbol .comma then
      let _ ← advance
      let item ← e
      argumentsFrom e n (items ++ [item])
    else
      return items

/-- Expressions between the current opening token and `close`, with commas. -/
def arguments (e : Parser (Node Span)) (close : Symbol) : Parser (List (Node Span)) := do
  let _ ← advance
  if ← atSymbol close then
    let _ ← advance
    return []
  else
    let first ← orExpected e (.firstItem close)
    let items ← argumentsFrom e (← remaining) [first]
    let _ ← expect close (.separator close)
    return items

/-- Calls, indexing and attributes, applied to `node` one after the other. -/
def suffixesFrom (e : Parser (Node Span)) : Nat → Node Span → Parser (Node Span)
  | 0, node => return node
  | n + 1, node => do
    match (← current).kind with
    | .symbol .leftParen =>
      let args ← arguments e .rightParen
      suffixesFrom e n (.call (← spanFrom node.tag.start) node args)
    | .symbol .leftSquare =>
      let _ ← advance
      let index ← e
      let _ ← expect .rightSquare (.symbol .rightSquare)
      suffixesFrom e n (.index (← spanFrom node.tag.start) node index)
    | .symbol .dot =>
      let _ ← advance
      let (name, _) ← expectIdent .attributeName
      if ← atSymbol .leftParen then
        let args ← arguments e .rightParen
        suffixesFrom e n (.methodCall (← spanFrom node.tag.start) node name args)
      else
        suffixesFrom e n (.getAttr (← spanFrom node.tag.start) node name)
    | _ => return node

/-- An atom with what follows it directly. -/
def call (e a : Parser (Node Span)) : Parser (Node Span) := do
  let node ← a
  suffixesFrom e (← remaining) node

/-- A power, whose right operand is `right`. -/
def power (e a right : Parser (Node Span)) : Parser (Node Span) :=
  chain (call e a) BinaryOp.power? right

/-- Signs, at most `n`, and a power. The right operand of a power is a factor
again, so powers group to the right and bind tighter than a sign before them. -/
def factor (e a : Parser (Node Span)) : Nat → Parser (Node Span)
  | 0 => power e a (raiseHere .atom)
  | n + 1 => do
    match UnaryOp.sign? (← current).kind with
    | none => power e a (factor e a n)
    | some op =>
      let token ← advance
      let operand ← factor e a n
      return .unary (token.span.through operand.tag) op operand

/-- A factor, with as many signs as there are tokens. -/
def anyFactor (e a : Parser (Node Span)) : Parser (Node Span) := do factor e a (← remaining)

def term (e a : Parser (Node Span)) : Parser (Node Span) :=
  chain (anyFactor e a) BinaryOp.multiplicative? (anyFactor e a)

def arith (e a : Parser (Node Span)) : Parser (Node Span) :=
  chain (term e a) BinaryOp.additive? (term e a)

/-- Sums, compared. -/
def compared (e a : Parser (Node Span)) : Parser (Node Span) :=
  orExpected (chain (arith e a) BinaryOp.comparison? (arith e a)) .operand

/-- A comparison behind any number of `not`, at most `n`. -/
def comparison (e a : Parser (Node Span)) : Nat → Parser (Node Span)
  | 0 => compared e a
  | n + 1 => do
    if ← atKeyword .not then
      let token ← advance
      let operand ← comparison e a n
      return .unary (token.span.through operand.tag) .not operand
    else
      compared e a

/-- A comparison, with as many `not` as there are tokens. -/
def anyComparison (e a : Parser (Node Span)) : Parser (Node Span) := do
  comparison e a (← remaining)

/-- Comparisons, joined by `and` and `or`. -/
def logic (e a : Parser (Node Span)) : Parser (Node Span) :=
  orExpected (chain (anyComparison e a) BinaryOp.logical? (anyComparison e a)) .expression

end Parser

end Script
