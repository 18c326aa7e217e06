import Script.Keyword
import Script.Source
import Script.Number.Decimal

/-! Tokens: the smallest parts of a program text that mean something. -/
namespace Script

/-- An operator or a punctuation mark. -/
inductive Symbol where
  | plus | minus | star | slash | caret
  | equal | equalEqual | bangEqual | less | greater | lessEqual | greaterEqual | arrow
  | leftParen | rightParen | leftSquare | rightSquare | leftBrace | rightBrace
  | colon | comma | dot
deriving DecidableEq, Repr, Inhabited

namespace Symbol

/-- The spelling in program text. -/
def spelling : Symbol → String
  | .plus => "+"
  | .minus => "-"
  | .star => "*"
  | .slash => "/"
  | .caret => "^"
  | .equal => "="
  | .equalEqual => "=="
  | .bangEqual => "!="
  | .less => "<"
  | .greater => ">"
  | .lessEqual => "<="
  | .greaterEqual => ">="
  | .arrow => "=>"
  | .leftParen => "("
  | .rightParen => ")"
  | .leftSquare => "["
  | .rightSquare => "]"
  | .leftBrace => "\x7b"
  | .rightBrace => "\x7d"
  | .colon => ":"
  | .comma => ","
  | .dot => "."

/-- The name in token listings and messages. -/
def label : Symbol → String
  | .plus => "PLUS"
  | .minus => "MINUS"
  | .star => "MULTIPLY"
  | .slash => "DIVIDE"
  | .caret => "POWER"
  | .equal => "EQUAL"
  | .equalEqual => "EQUAL_EQUAL"
  | .bangEqual => "NOT_EQUAL"
  | .less => "LESS_THAN"
  | .greater => "GREATER_THAN"
  | .lessEqual => "LESS_THAN_EQUAL"
  | .greaterEqual => "GREATER_THAN_EQUAL"
  | .arrow => "ARROW"
  | .leftParen => "LEFT_PAREN"
  | .rightParen => "RIGHT_PAREN"
  | .leftSquare => "LEFT_SQUARE"
  | .rightSquare => "RIGHT_SQUARE"
  | .leftBrace => "LEFT_BRACE"
  | .rightBrace => "RIGHT_BRACE"
  | .colon => "COLON"
  | .comma => "COMMA"
  | .dot => "DOT"

end Symbol

/-- What a token is, without its place. -/
inductive TokenKind where
  | int (n : Int64)
  | float (x : Float)
  | string (s : String)
  | ident (name : String)
  | keyword (k : Keyword)
  | symbol (s : Symbol)
  | newline
  /-- Stands before a comment or closing brace that follows a function definition
  without a blank line between them. It is for tools; it does not affect meaning. -/
  | noBlankLine
  | eof
deriving Repr, Inhabited

namespace TokenKind

def text : TokenKind → String
  | .int n => "INT:" ++ toString n.toInt
  | .float x => "FLOAT:" ++ (Binary64.ofFloat x).compact
  | .string s => "STRING:" ++ s
  | .ident name => "IDENTIFIER:" ++ name
  | .keyword k => "KEYWORD:" ++ k.word
  | .symbol s => s.label
  | .newline => "NEWLINE"
  | .noBlankLine => "NO_BLANK_LINE"
  | .eof => "END_OF_FILE"

def isNoBlankLine : TokenKind → Bool
  | .noBlankLine => true
  | _ => false

def isNewline : TokenKind → Bool
  | .newline => true
  | _ => false

def isEof : TokenKind → Bool
  | .eof => true
  | _ => false

def isSymbol (s : Symbol) : TokenKind → Bool
  | .symbol t => t == s
  | _ => false

def isKeyword (k : Keyword) : TokenKind → Bool
  | .keyword l => l == k
  | _ => false

def ident? : TokenKind → Option String
  | .ident name => some name
  | _ => none

/-- Whether a literal or a name. -/
def isOperand : TokenKind → Bool
  | .int _ | .float _ | .string _ | .ident _ => true
  | _ => false

variable {kind : TokenKind}

theorem ne_eof_of_isSymbol {symbol : Symbol} (h : kind.isSymbol symbol = true) : kind ≠ .eof := by
  rintro rfl
  cases h

theorem ne_eof_of_isKeyword {keyword : Keyword} (h : kind.isKeyword keyword = true) :
    kind ≠ .eof := by
  rintro rfl
  cases h

theorem ne_eof_of_isNewline (h : kind.isNewline = true) : kind ≠ .eof := by
  rintro rfl
  cases h

end TokenKind

structure Token where
  kind : TokenKind
  span : Span
deriving Repr, Inhabited

/-- The kind and the line and column of the start, counted from one. -/
def Token.text (t : Token) : String :=
  t.kind.text ++ " [" ++ toString (t.span.start.line + 1) ++ ":" ++
    toString (t.span.start.column + 1) ++ "]"

end Script
