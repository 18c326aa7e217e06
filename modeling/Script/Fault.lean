import Script.Operator
import Script.Token

/-! Everything that can go wrong with a program, by cause.

A `Fault` says what happened in terms of the program; `Fault.message` is the one
place that puts it into words, and `Fault.kind` sorts it. -/
namespace Script

/-- The classes of faults that reports are headed with. -/
inductive FaultKind where
  | illegalCharacter | expectedCharacter | invalidSyntax | constantReassignment | runtime
deriving DecidableEq, Repr, Inhabited

namespace FaultKind

def text : FaultKind → String
  | .illegalCharacter => "Illegal Character"
  | .expectedCharacter => "Expected Character"
  | .invalidSyntax => "Invalid Syntax"
  | .constantReassignment => "Constant Reassignment"
  | .runtime => "Runtime Error"

/-- Whether such a fault is found before the program runs. -/
def isStatic : FaultKind → Bool
  | .illegalCharacter | .expectedCharacter | .invalidSyntax => true
  | .constantReassignment | .runtime => false

end FaultKind

/-- What the grammar asks for at a place. -/
inductive Expectation where
  | statement | expression | operand | atom
  /-- The first item of a list that `close` would end, or that end. -/
  | firstItem (close : Symbol)
  /-- A comma, or `close`. -/
  | separator (close : Symbol)
  | symbol (s : Symbol)
  | keyword (k : Keyword)
  | identifier
  | attributeName
  | constantOrVariable
  | colonOrBrace
  | colonBraceOrNewline
  | identifierOrParen
  | typeName
  | parameterName
  | parameterEnd
  | functionBody
  | braceOrEnd
  | className
  | parentName
  | methodOrBrace
  | methodOrEnd
  | methodName
deriving DecidableEq, Repr, Inhabited

/-- How an expression may start, in words, after whatever else is possible. -/
def Expectation.starts : String :=
  "'var', 'if', 'for', 'while', 'func', int, float, identifier, '+', '-', '(', '[' or 'not'"

def Expectation.text : Expectation → String
  | .statement => "Expected 'return', 'continue', 'break', " ++ starts
  | .expression => "Expected " ++ starts
  | .operand =>
    "Expected int, float, identifier, '+', '-', '(', '[', 'if', 'for', 'while', 'func' or 'not'"
  | .atom => "Expected int, float, identifier, '+', '-', '(', '[', 'if', 'for', 'while', 'func'"
  | .firstItem close => "Expected '" ++ close.spelling ++ "', " ++ starts
  | .separator close => "Expected ',' or '" ++ close.spelling ++ "'"
  | .symbol s => "Expected '" ++ s.spelling ++ "'"
  | .keyword k => "Expected '" ++ k.word ++ "'"
  | .identifier => "Expected identifier"
  | .attributeName => "Expected attribute name after '.'"
  | .constantOrVariable => "Expected '=' (for constants) or ':' (for variables)"
  | .colonOrBrace => "Expected ':' or '\x7b'"
  | .colonBraceOrNewline => "Expected ':', '\x7b' or NEWLINE"
  | .identifierOrParen => "Expected identifier or '('"
  | .typeName => "Expected type identifier"
  | .parameterName => "Expected parameter name after type"
  | .parameterEnd => "Expected ')', ',' or identifier"
  | .functionBody => "Expected '=>', 'return', ':' or '\x7b'"
  | .braceOrEnd => "Expected '\x7d' or 'end'"
  | .className => "Expected class name"
  | .parentName => "Expected parent class name"
  | .methodOrBrace => "Expected 'func' or '\x7d'"
  | .methodOrEnd => "Expected 'func' or 'end'"
  | .methodName => "Expected a method name after 'func'"

/-- What was being done to a list when its index was out of bounds. -/
inductive ListAccess where
  | removal | retrieval
deriving DecidableEq, Repr, Inhabited

/-- Why an operator has no result on its operands. -/
inductive OperationFault where
  | illegal
  | divisionByZero
  | listBounds (access : ListAccess)
  | stringBounds
  | nonIntegerIndex
  | notIndexable (type : ValueType)
  | stringTooLarge
deriving DecidableEq, Repr, Inhabited

def OperationFault.message : OperationFault → String
  | .illegal => "Illegal operation"
  | .divisionByZero => "Division by zero"
  | .listBounds .removal =>
    "Element at this index could not be removed from list because index is out of bounds"
  | .listBounds .retrieval =>
    "Element at this index could not be retrieved from list because index is out of bounds"
  | .stringBounds =>
    "Character at this index could not be retrieved from string because index is out of bounds"
  | .nonIntegerIndex => "Index must be an integer"
  | .notIndexable type => "Cannot index into " ++ type.word
  | .stringTooLarge => "String is too large"

/-- Something that can be called, as messages show it. -/
inductive Callee where
  | function (name : String)
  | method (name : String)
  | builtin (name : String)
  | cls (name : String)
deriving DecidableEq, Repr, Inhabited

def Callee.text : Callee → String
  | .function name => "<function " ++ name ++ ">"
  | .method name => "<method " ++ name ++ ">"
  | .builtin name => "<built-in function " ++ name ++ ">"
  | .cls name => "<class " ++ name ++ ">"

/-- Why a file, or a line of input, could not be read. -/
inductive ReadFault where
  | missing | isDirectory | notDirectory | nameTooLong | nulInName | notUtf8
deriving DecidableEq, Repr, Inhabited

def ReadFault.message : ReadFault → String
  | .missing => "No such file or directory (os error 2)"
  | .isDirectory => "Is a directory (os error 21)"
  | .notDirectory => "Not a directory (os error 20)"
  | .nameTooLong => "File name too long (os error 36)"
  | .nulInName => "file name contained an unexpected NUL byte"
  | .notUtf8 => "stream did not contain valid UTF-8"

/-- Why output could not be written. -/
inductive WriteFault where
  | refused | unflushed
deriving DecidableEq, Repr, Inhabited

def WriteFault.message : WriteFault → String
  | .refused => "sink is broken"
  | .unflushed => "flush failed"

/-- Which argument of a builtin is of the wrong type, and what it must be. -/
inductive ArgumentFault where
  | firstNotList | secondNotNumber | secondNotList | notListOrString | notString
  | attributeNotString
  | readOfNonObject
  | writeOfNonObject (type : ValueType)
deriving DecidableEq, Repr, Inhabited

def ArgumentFault.message : ArgumentFault → String
  | .firstNotList => "First argument must be list"
  | .secondNotNumber => "Second argument must be number"
  | .secondNotList => "Second argument must be list"
  | .notListOrString => "Argument must be list or string"
  | .notString => "Argument must be string"
  | .attributeNotString => "Attribute name must be a string"
  | .readOfNonObject => "Cannot get attribute of non-object"
  | .writeOfNonObject type => "Cannot set attribute of non-object (got " ++ type.word ++ ")"

/-- A cause for which a program is refused or stopped. -/
inductive Fault where
  /-- No token starts with `c`. -/
  | illegalCharacter (c : Char)
  /-- The integer has more than 64 bits. -/
  | unrepresentable (literal : String)
  | unclosedString
  | loneBang
  | expected (what : Expectation)
  /-- A name where no statement can start, before `=`. -/
  | identifierBeforeEqual (name : String)
  /-- A name where no statement can start. -/
  | strayIdentifier (name : String)
  | strayEqual
  | strayToken (kind : TokenKind)
  /-- A name that is one letter off a keyword and stands where that would fit. -/
  | misspelt (name : String) (keyword : Keyword)
  | constant (name : String)
  | undefined (name : String)
  | declaredType (wanted : DeclaredType) (got : ValueType)
  | parameterType (wanted : DeclaredType) (got : ValueType) (parameter : String) (callee : Callee)
  | illegalBinary (left : ValueType) (op : BinaryOp) (right : ValueType)
  | illegalUnary (op : UnaryOp) (operand : ValueType)
  | operation (fault : OperationFault)
  | zeroStep
  | loopBound (got : ValueType)
  | notAClass (name : String) (got : ValueType)
  | noMethod (cls name : String)
  | noAttribute (cls name : String)
  | attributeRead (name : String) (got : ValueType)
  | attributeWrite (name : String) (got : ValueType)
  | notCallable (got : ValueType)
  | tooManyArguments (surplus : Nat) (callee : Callee)
  | tooFewArguments (missing : Nat) (callee : Callee)
  | outsideLoop (exit : LoopExit)
  | noMain
  | output (fault : WriteFault)
  | input (fault : ReadFault)
  | inputEnded
  | argument (fault : ArgumentFault)
  | scriptUnreadable (path : String) (fault : ReadFault)
  /-- A loaded script failed with the given report. -/
  | scriptFailed (path : String) (report : String)
deriving Repr, Inhabited

namespace Fault

def kind : Fault → FaultKind
  | .illegalCharacter _ | .unrepresentable _ => .illegalCharacter
  | .unclosedString | .loneBang => .expectedCharacter
  | .expected _ | .identifierBeforeEqual _ | .strayIdentifier _ | .strayEqual | .strayToken _
  | .misspelt .. => .invalidSyntax
  | .constant _ => .constantReassignment
  | _ => .runtime

private def quote (s : String) : String := "'" ++ s ++ "'"

def message : Fault → String
  | .illegalCharacter c => quote c.toString
  | .unrepresentable literal => quote literal ++ " is not a representable number"
  | .unclosedString => "'\"' to close the string literal"
  | .loneBang => "'=' (after '!')"
  | .expected what => what.text
  | .identifierBeforeEqual name =>
    "Unexpected identifier " ++ quote name ++
      ". Use ':' to assign, '=' only declares typed constants"
  | .strayIdentifier name =>
    "Unexpected identifier " ++ quote name ++
      ". Did you forget to use 'var' for variable declaration?"
  | .strayEqual => "Unexpected '='. Use ':' to assign, '=' only declares typed constants"
  | .strayToken kind => "Unexpected token " ++ quote kind.text
  | .misspelt name keyword =>
    "Unexpected identifier " ++ quote name ++ ". Did you mean " ++ quote keyword.word ++ "?"
  | .constant name => "Cannot reassign constant " ++ quote name
  | .undefined name => quote name ++ " is not defined"
  | .declaredType wanted got =>
    "Type mismatch: expected " ++ quote wanted.word ++ ", got " ++ quote got.word
  | .parameterType wanted got parameter callee =>
    "Type mismatch: expected " ++ quote wanted.word ++ ", got " ++ quote got.word ++
      " for parameter " ++ quote parameter ++ " of " ++ callee.text
  | .illegalBinary left op right =>
    "Illegal operation: " ++ quote left.word ++ " " ++ op.symbol ++ " " ++ quote right.word
  | .illegalUnary op operand => "Illegal operation: " ++ op.symbol ++ " " ++ quote operand.word
  | .operation fault => fault.message
  | .zeroStep => "Loop step cannot be zero"
  | .loopBound got => "Loop bounds must be numbers, got " ++ quote got.word
  | .notAClass name got => quote name ++ " is a " ++ got.word ++ ", not a class"
  | .noMethod cls name => "Class " ++ quote cls ++ " has no method " ++ quote name
  | .noAttribute cls name => quote cls ++ " object has no attribute " ++ quote name
  | .attributeRead name got => "Cannot access attribute " ++ quote name ++ " of " ++ got.word
  | .attributeWrite name got => "Cannot set attribute " ++ quote name ++ " on " ++ got.word
  | .notCallable got => "Cannot call a value of type " ++ quote got.word
  | .tooManyArguments surplus callee =>
    toString surplus ++ " too many arguments passed into " ++ callee.text
  | .tooFewArguments missing callee =>
    toString missing ++ " too few arguments passed into " ++ callee.text
  | .outsideLoop exit => quote exit.word ++ " outside of a loop"
  | .noMain => "No 'main' function found. Every JCode program must have a 'main' function."
  | .output fault => "Could not write output: " ++ fault.message
  | .input fault => "Could not read input: " ++ fault.message
  | .inputEnded => "Input ended before an integer was entered"
  | .argument fault => fault.message
  | .scriptUnreadable path fault => "Failed to load script \"" ++ path ++ "\"\n" ++ fault.message
  | .scriptFailed path report =>
    "Failed to finish executing script \"" ++ path ++ "\"\n" ++ report

end Fault

end Script
