import Script.Token
import Script.Tree

/-! How a tree is written down as tokens.

Every operand that is not a single token stands in parentheses, statements are
separated by line breaks, and a block that is a body stands in braces and on lines of
its own. A single statement is the body of a branch between braces, and of a loop
behind a colon.

Not every tree is a program. `Node.fits` says what may stand where: which nodes are
statements only, that blocks are programs and bodies only, and that what a node notes
about its body is true of it. Names and literals are under no condition; they are
tokens already. -/
namespace Script

/-! ### Trees that can be written -/

/-- The places where a node can stand. -/
inductive Role where
  | expression | statement | block
deriving DecidableEq, Repr

mutual

/-- Whether a node can stand in a place, with everything below it in its own. -/
def Node.fits (role : Role) : Node α → Bool
  | .int .. | .float .. | .string .. | .name .. => role ≠ .block
  | .list _ items => role ≠ .block && allFit .expression items
  | .block _ items => role = .block && allFit .statement items
  | .declare _ _ type constant value =>
    role ≠ .block && (!constant || type.isSome) && value.fits .expression
  | .assign _ _ value => role = .statement && value.fits .expression
  | .binary _ _ left right => role ≠ .block && left.fits .expression && right.fits .expression
  | .unary _ _ operand => role ≠ .block && operand.fits .expression
  | .cond _ branches otherwise =>
    role ≠ .block && !branches.isEmpty && branchesFit branches && otherwiseFits otherwise
  | .forLoop _ _ start stop step body =>
    role ≠ .block && start.fits .expression && stop.fits .expression && stepFits step && body.fits
  | .whileLoop _ condition body => role ≠ .block && condition.fits .expression && body.fits
  | .func _ definition => role ≠ .block && definition.fits
  | .call _ callee args => role ≠ .block && callee.fits .expression && allFit .expression args
  | .index _ target index =>
    role ≠ .block && target.fits .expression && index.fits .expression
  | .ret _ (some value) => role = .statement && value.fits .expression
  | .ret _ none => role = .statement
  | .exit .. => role = .statement
  | .cls _ _ _ methods => role ≠ .block && methodsFit methods
  | .new _ _ args => role ≠ .block && allFit .expression args
  | .getAttr _ object _ => role ≠ .block && object.fits .expression
  | .setAttr _ object _ value =>
    role = .statement && object.fits .expression && value.fits .expression
  | .methodCall _ object _ args =>
    role ≠ .block && object.fits .expression && allFit .expression args

def allFit (role : Role) : List (Node α) → Bool
  | [] => true
  | node :: nodes => node.fits role && allFit role nodes

/-- A body is a block if and only if it emits null. -/
def Body.fits : Body α → Bool
  | .mk node emitsNull => node.fits (if emitsNull then .block else .statement)

def branchesFit : List (Branch α) → Bool
  | [] => true
  | .mk condition body :: branches =>
    condition.fits .expression && body.fits && branchesFit branches

def otherwiseFits : Option (Body α) → Bool
  | none => true
  | some body => body.fits

def stepFits : Option (Node α) → Bool
  | none => true
  | some node => node.fits .expression

/-- The body of a function is a block if and only if its value is not returned by
itself. -/
def FuncDef.fits : FuncDef α → Bool
  | .mk _ _ body autoReturn => body.fits (if autoReturn then .expression else .block)

/-- Methods have names. -/
def methodsFit : List (FuncDef α) → Bool
  | [] => true
  | method :: methods => method.name.isSome && method.fits && methodsFit methods

end

/-- Only blocks stand where a block is asked for. -/
theorem Node.eq_block_of_fits {tree : Node α} (h : tree.fits .block = true) :
    ∃ tag items, tree = .block tag items ∧ allFit .statement items = true := by
  cases tree with
  | block tag items =>
    simp only [Node.fits, Bool.and_eq_true] at h
    exact ⟨tag, items, rfl, h.2⟩
  | ret _ value => cases value <;> simp [Node.fits] at h
  | _ => simp [Node.fits] at h

/-! ### Trees without tags -/

def Param.erase (p : Param α) : Param Unit := ⟨p.name, p.type, ()⟩

mutual

/-- The tree without its tags. -/
def Node.erase : Node α → Node Unit
  | .int _ n => .int () n
  | .float _ x => .float () x
  | .string _ s => .string () s
  | .list _ items => .list () (eraseAll items)
  | .block _ items => .block () (eraseAll items)
  | .name _ name => .name () name
  | .declare _ name type constant value => .declare () name type constant value.erase
  | .assign _ name value => .assign () name value.erase
  | .binary _ op left right => .binary () op left.erase right.erase
  | .unary _ op operand => .unary () op operand.erase
  | .cond _ branches otherwise => .cond () (eraseBranches branches) (eraseOtherwise otherwise)
  | .forLoop _ counter start stop step body =>
    .forLoop () counter start.erase stop.erase (eraseStep step) body.erase
  | .whileLoop _ condition body => .whileLoop () condition.erase body.erase
  | .func _ definition => .func () definition.erase
  | .call _ callee args => .call () callee.erase (eraseAll args)
  | .index _ target index => .index () target.erase index.erase
  | .ret _ (some value) => .ret () (some value.erase)
  | .ret _ none => .ret () none
  | .exit _ exit => .exit () exit
  | .cls _ name parent methods => .cls () name parent (eraseMethods methods)
  | .new _ cls args => .new () cls (eraseAll args)
  | .getAttr _ object name => .getAttr () object.erase name
  | .setAttr _ object name value => .setAttr () object.erase name value.erase
  | .methodCall _ object name args => .methodCall () object.erase name (eraseAll args)

def eraseAll : List (Node α) → List (Node Unit)
  | [] => []
  | node :: nodes => node.erase :: eraseAll nodes

def Body.erase : Body α → Body Unit
  | .mk node emitsNull => .mk node.erase emitsNull

def eraseBranches : List (Branch α) → List (Branch Unit)
  | [] => []
  | .mk condition body :: branches => .mk condition.erase body.erase :: eraseBranches branches

def eraseOtherwise : Option (Body α) → Option (Body Unit)
  | none => none
  | some body => some body.erase

def eraseStep : Option (Node α) → Option (Node Unit)
  | none => none
  | some node => some node.erase

def FuncDef.erase : FuncDef α → FuncDef Unit
  | .mk name params body autoReturn => .mk name (params.map Param.erase) body.erase autoReturn

def eraseMethods : List (FuncDef α) → List (FuncDef Unit)
  | [] => []
  | method :: methods => method.erase :: eraseMethods methods

end

/-- The tags of a block do not count. -/
theorem Node.erase_block_congr {tag : α} {tag' : β} {items : List (Node α)}
    {items' : List (Node β)} (h : eraseAll items = eraseAll items') :
    (Node.block tag items).erase = (Node.block tag' items').erase := by
  simp [Node.erase, h]

/-! ### Trees as tokens -/

def BinaryOp.token : BinaryOp → TokenKind
  | .add => .symbol .plus
  | .sub => .symbol .minus
  | .mul => .symbol .star
  | .div => .symbol .slash
  | .pow => .symbol .caret
  | .eq => .symbol .equalEqual
  | .ne => .symbol .bangEqual
  | .lt => .symbol .less
  | .gt => .symbol .greater
  | .le => .symbol .lessEqual
  | .ge => .symbol .greaterEqual
  | .and => .keyword .and
  | .or => .keyword .or

def UnaryOp.token : UnaryOp → TokenKind
  | .plus => .symbol .plus
  | .minus => .symbol .minus
  | .not => .keyword .not

def LoopExit.token : LoopExit → TokenKind
  | .breaking => .keyword .breakWord
  | .continuing => .keyword .continueWord

/-- Whether a node is written as one token. -/
def Node.isToken : Node α → Bool
  | .int .. | .float .. | .string .. | .name .. => true
  | _ => false

/-- The spelling of a node where an operand is expected. -/
def Node.grouped (node : Node α) (spelling : List TokenKind) : List TokenKind :=
  if node.isToken then spelling
  else .symbol .leftParen :: (spelling ++ [.symbol .rightParen])

/-- The name of a function, if it has one. -/
def spellName : Option String → List TokenKind
  | none => []
  | some name => [.ident name]

/-- The class that a class inherits from, if there is one. -/
def spellParent : Option String → List TokenKind
  | none => []
  | some name => [.ident "extends", .ident name]

/-- Parameters, each behind a comma but the first. -/
def spellParams : List (Param α) → List TokenKind
  | [] => []
  | [p] => [.ident p.type.word, .ident p.name]
  | p :: ps => .ident p.type.word :: .ident p.name :: .symbol .comma :: spellParams ps

mutual

def Node.spell : Node α → List TokenKind
  | .int _ n => [.int n]
  | .float _ x => [.float x]
  | .string _ s => [.string s]
  | .name _ name => [.ident name]
  | .list _ items => .symbol .leftSquare :: (spellArgs items ++ [.symbol .rightSquare])
  | .block _ items => spellLines items
  | .declare _ name none _ value =>
    .keyword .var :: .ident name :: .symbol .colon :: value.grouped value.spell
  | .declare _ name (some type) constant value =>
    .ident type.word :: .ident name :: .symbol (if constant then .equal else .colon) ::
      value.grouped value.spell
  | .assign _ name value => .ident name :: .symbol .colon :: value.grouped value.spell
  | .binary _ op left right =>
    left.grouped left.spell ++ op.token :: right.grouped right.spell
  | .unary _ op operand => op.token :: operand.grouped operand.spell
  | .cond _ branches otherwise =>
    spellBranches .ifWord branches ++ spellOtherwise otherwise
  | .forLoop _ counter start stop step body =>
    .keyword .forWord :: .ident counter :: .symbol .equal ::
      (start.grouped start.spell ++ .keyword .toWord ::
        (stop.grouped stop.spell ++ (spellStep step ++ body.spellLooped)))
  | .whileLoop _ condition body =>
    .keyword .whileWord :: (condition.grouped condition.spell ++ body.spellLooped)
  | .func _ definition => definition.spell
  | .call _ callee args =>
    callee.grouped callee.spell ++
      .symbol .leftParen :: (spellArgs args ++ [.symbol .rightParen])
  | .index _ target index =>
    target.grouped target.spell ++
      .symbol .leftSquare :: (index.grouped index.spell ++ [.symbol .rightSquare])
  | .ret _ (some value) => .keyword .returnWord :: value.grouped value.spell
  | .ret _ none => [.keyword .returnWord]
  | .exit _ exit => [exit.token]
  | .cls _ name parent methods =>
    .ident "class" :: .ident name ::
      (spellParent parent ++
        .symbol .leftBrace :: .newline :: (spellMethods methods ++ [.symbol .rightBrace]))
  | .new _ cls args =>
    .ident "new" :: .ident cls :: .symbol .leftParen :: (spellArgs args ++ [.symbol .rightParen])
  | .getAttr _ object name => object.grouped object.spell ++ [.symbol .dot, .ident name]
  | .setAttr _ object name value =>
    object.grouped object.spell ++
      .symbol .dot :: .ident name :: .symbol .colon :: value.grouped value.spell
  | .methodCall _ object name args =>
    object.grouped object.spell ++
      .symbol .dot :: .ident name :: .symbol .leftParen :: (spellArgs args ++ [.symbol .rightParen])

/-- Operands, with commas between them. -/
def spellArgs : List (Node α) → List TokenKind
  | [] => []
  | node :: nodes => node.grouped node.spell ++ spellMoreArgs nodes

/-- Operands, each behind a comma. -/
def spellMoreArgs : List (Node α) → List TokenKind
  | [] => []
  | node :: nodes => .symbol .comma :: (node.grouped node.spell ++ spellMoreArgs nodes)

/-- Statements, with line breaks between them. -/
def spellLines : List (Node α) → List TokenKind
  | [] => []
  | node :: nodes => node.spell ++ spellMoreLines nodes

/-- Statements, each behind a line break. -/
def spellMoreLines : List (Node α) → List TokenKind
  | [] => []
  | node :: nodes => .newline :: (node.spell ++ spellMoreLines nodes)

/-- The body of a branch. -/
def Body.spellBraced : Body α → List TokenKind
  | .mk node true =>
    .symbol .leftBrace :: .newline :: (node.spell ++ [.newline, .symbol .rightBrace])
  | .mk node false => .symbol .leftBrace :: (node.spell ++ [.symbol .rightBrace])

/-- The body of a loop. -/
def Body.spellLooped : Body α → List TokenKind
  | .mk node true =>
    .symbol .leftBrace :: .newline :: (node.spell ++ [.newline, .symbol .rightBrace])
  | .mk node false => .symbol .colon :: node.spell

/-- Branches, each behind `elif`, but the first behind `word`. -/
def spellBranches (word : Keyword) : List (Branch α) → List TokenKind
  | [] => []
  | .mk condition body :: branches =>
    .keyword word :: (condition.grouped condition.spell ++
      (body.spellBraced ++ spellBranches .elif branches))

def spellOtherwise : Option (Body α) → List TokenKind
  | none => []
  | some body => .keyword .elseWord :: body.spellBraced

def spellStep : Option (Node α) → List TokenKind
  | none => []
  | some node => .keyword .step :: node.grouped node.spell

def FuncDef.spell : FuncDef α → List TokenKind
  | .mk name params body true =>
    .keyword .func :: (spellName name ++ .symbol .leftParen :: (spellParams params ++
      .symbol .rightParen :: .symbol .arrow :: body.grouped body.spell))
  | .mk name params body false =>
    .keyword .func :: (spellName name ++ .symbol .leftParen :: (spellParams params ++
      .symbol .rightParen :: .symbol .leftBrace :: .newline ::
        (body.spell ++ [.newline, .symbol .rightBrace])))

/-- Methods, each on lines of its own. -/
def spellMethods : List (FuncDef α) → List TokenKind
  | [] => []
  | method :: methods => method.spell ++ .newline :: spellMethods methods

end

/-- The spelling of a node as an operand. -/
def Node.spellOperand (node : Node α) : List TokenKind := node.grouped node.spell

theorem Node.grouped_spell (node : Node α) : node.grouped node.spell = node.spellOperand := rfl

/-! ### No markers

Markers are for tools. They are nothing that a tree could be written with. -/

/-- Whether there are no markers among the tokens. -/
def unmarked (ks : List TokenKind) : Bool := ks.all fun k => !k.isNoBlankLine

@[simp] theorem unmarked_nil : unmarked [] = true := rfl

@[simp] theorem unmarked_cons (k : TokenKind) (ks : List TokenKind) :
    unmarked (k :: ks) = (!k.isNoBlankLine && unmarked ks) := rfl

@[simp] theorem unmarked_append (ks ks' : List TokenKind) :
    unmarked (ks ++ ks') = (unmarked ks && unmarked ks') := List.all_append

@[simp] theorem unmarked_grouped (node : Node α) (ks : List TokenKind) :
    unmarked (node.grouped ks) = unmarked ks := by
  unfold Node.grouped
  split
  · rfl
  · simp [TokenKind.isNoBlankLine]

theorem unmarked_spellParams (params : List (Param α)) : unmarked (spellParams params) = true := by
  induction params with
  | nil => rfl
  | cons param params ih =>
    cases params with
    | nil => rfl
    | cons => simpa [spellParams, TokenKind.isNoBlankLine] using ih

mutual

theorem unmarked_spell : (node : Node α) → unmarked node.spell = true
  | .int .. | .float .. | .string .. | .name .. => rfl
  | .list _ items => by simp [Node.spell, unmarked_spellArgs items, TokenKind.isNoBlankLine]
  | .block _ items => unmarked_spellLines items
  | .declare _ _ none _ value => by
    simp [Node.spell, unmarked_spell value, TokenKind.isNoBlankLine]
  | .declare _ _ (some _) _ value => by
    simp [Node.spell, unmarked_spell value, TokenKind.isNoBlankLine]
  | .assign _ _ value => by simp [Node.spell, unmarked_spell value, TokenKind.isNoBlankLine]
  | .binary _ op left right => by
    cases op <;> simp [Node.spell, BinaryOp.token, unmarked_spell left, unmarked_spell right,
      TokenKind.isNoBlankLine]
  | .unary _ op operand => by
    cases op <;> simp [Node.spell, UnaryOp.token, unmarked_spell operand, TokenKind.isNoBlankLine]
  | .cond _ branches otherwise => by
    simp [Node.spell, unmarked_spellBranches .ifWord branches, unmarked_spellOtherwise otherwise]
  | .forLoop _ _ start stop step body => by
    simp [Node.spell, unmarked_spell start, unmarked_spell stop, unmarked_spellStep step,
      unmarked_spellLooped body, TokenKind.isNoBlankLine]
  | .whileLoop _ condition body => by
    simp [Node.spell, unmarked_spell condition, unmarked_spellLooped body, TokenKind.isNoBlankLine]
  | .func _ definition => unmarked_spellFunction definition
  | .call _ callee args => by
    simp [Node.spell, unmarked_spell callee, unmarked_spellArgs args, TokenKind.isNoBlankLine]
  | .index _ target index => by
    simp [Node.spell, unmarked_spell target, unmarked_spell index, TokenKind.isNoBlankLine]
  | .ret _ (some value) => by simp [Node.spell, unmarked_spell value, TokenKind.isNoBlankLine]
  | .ret _ none => rfl
  | .exit _ exit => by cases exit <;> rfl
  | .cls _ _ parent methods => by
    cases parent <;>
      simp [Node.spell, spellParent, unmarked_spellMethods methods, TokenKind.isNoBlankLine]
  | .new _ _ args => by simp [Node.spell, unmarked_spellArgs args, TokenKind.isNoBlankLine]
  | .getAttr _ object _ => by simp [Node.spell, unmarked_spell object, TokenKind.isNoBlankLine]
  | .setAttr _ object _ value => by
    simp [Node.spell, unmarked_spell object, unmarked_spell value, TokenKind.isNoBlankLine]
  | .methodCall _ object _ args => by
    simp [Node.spell, unmarked_spell object, unmarked_spellArgs args, TokenKind.isNoBlankLine]

theorem unmarked_spellArgs : (nodes : List (Node α)) → unmarked (spellArgs nodes) = true
  | [] => rfl
  | node :: nodes => by simp [spellArgs, unmarked_spell node, unmarked_spellMoreArgs nodes]

theorem unmarked_spellMoreArgs : (nodes : List (Node α)) → unmarked (spellMoreArgs nodes) = true
  | [] => rfl
  | node :: nodes => by
    simp [spellMoreArgs, unmarked_spell node, unmarked_spellMoreArgs nodes,
      TokenKind.isNoBlankLine]

theorem unmarked_spellLines : (nodes : List (Node α)) → unmarked (spellLines nodes) = true
  | [] => rfl
  | node :: nodes => by simp [spellLines, unmarked_spell node, unmarked_spellMoreLines nodes]

theorem unmarked_spellMoreLines : (nodes : List (Node α)) → unmarked (spellMoreLines nodes) = true
  | [] => rfl
  | node :: nodes => by
    simp [spellMoreLines, unmarked_spell node, unmarked_spellMoreLines nodes,
      TokenKind.isNoBlankLine]

theorem unmarked_spellBraced : (body : Body α) → unmarked body.spellBraced = true
  | .mk node true => by simp [Body.spellBraced, unmarked_spell node, TokenKind.isNoBlankLine]
  | .mk node false => by simp [Body.spellBraced, unmarked_spell node, TokenKind.isNoBlankLine]

theorem unmarked_spellLooped : (body : Body α) → unmarked body.spellLooped = true
  | .mk node true => by simp [Body.spellLooped, unmarked_spell node, TokenKind.isNoBlankLine]
  | .mk node false => by simp [Body.spellLooped, unmarked_spell node, TokenKind.isNoBlankLine]

theorem unmarked_spellBranches (word : Keyword) :
    (branches : List (Branch α)) → unmarked (spellBranches word branches) = true
  | [] => rfl
  | .mk condition body :: branches => by
    simp [spellBranches, unmarked_spell condition, unmarked_spellBraced body,
      unmarked_spellBranches .elif branches, TokenKind.isNoBlankLine]

theorem unmarked_spellOtherwise : (body : Option (Body α)) → unmarked (spellOtherwise body) = true
  | none => rfl
  | some body => by simp [spellOtherwise, unmarked_spellBraced body, TokenKind.isNoBlankLine]

theorem unmarked_spellStep : (step : Option (Node α)) → unmarked (spellStep step) = true
  | none => rfl
  | some node => by simp [spellStep, unmarked_spell node, TokenKind.isNoBlankLine]

theorem unmarked_spellFunction : (definition : FuncDef α) → unmarked definition.spell = true
  | .mk name params body true => by
    cases name <;> simp [FuncDef.spell, spellName, unmarked_spellParams params,
      unmarked_spell body, TokenKind.isNoBlankLine]
  | .mk name params body false => by
    cases name <;> simp [FuncDef.spell, spellName, unmarked_spellParams params,
      unmarked_spell body, TokenKind.isNoBlankLine]

theorem unmarked_spellMethods : (methods : List (FuncDef α)) → unmarked (spellMethods methods) = true
  | [] => rfl
  | method :: methods => by
    simp [spellMethods, unmarked_spellFunction method, unmarked_spellMethods methods,
      TokenKind.isNoBlankLine]

end

end Script
