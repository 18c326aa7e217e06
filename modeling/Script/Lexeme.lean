import Script.Fault
import Script.Text.Digits
import Script.Number

/-! Lexemes: the pieces that a program text is cut into.

`scan` cuts the first piece off a text, by its first characters alone: a blank, a
comment, a token, or characters that are none of these. Whatever it is, `taken`
and `rest` together are the text (`scan_append`), and `taken` is not empty
(`scan_taken_ne_nil`). -/
namespace Script

/-- What a piece of text is. -/
inductive Lexeme where
  | blank
  | comment
  | token (kind : TokenKind)
  | fault (fault : Fault)
deriving Repr, Inhabited

/-- A piece, its characters, and the text behind it. -/
structure Scanned where
  lexeme : Lexeme
  taken : List Char
  rest : List Char
deriving Repr, Inhabited

namespace Lexeme

/-! ### Comments -/

/-- Cuts the characters before the next line feed. -/
def lineEnd (cs : List Char) : List Char × List Char :=
  (cs.takeWhile (· ≠ '\n'), cs.dropWhile (· ≠ '\n'))

/-- Cuts what is left of block comments, of which `depth` are open: up to and with
the end of the outermost, or everything if that never comes. -/
def blockEnd : Nat → List Char → List Char × List Char
  | 0, cs => ([], cs)
  | _ + 1, [] => ([], [])
  | depth + 1, '/' :: '*' :: cs =>
    let (taken, rest) := blockEnd (depth + 2) cs
    ('/' :: '*' :: taken, rest)
  | depth + 1, '*' :: '/' :: cs =>
    let (taken, rest) := blockEnd depth cs
    ('*' :: '/' :: taken, rest)
  | depth + 1, c :: cs =>
    let (taken, rest) := blockEnd (depth + 1) cs
    (c :: taken, rest)

/-! ### Strings -/

/-- What is left of a string literal behind its opening quote: the characters it
stands for, those it is written with, and whether the closing quote came. -/
structure StringEnd where
  value : List Char
  taken : List Char
  rest : List Char
  closed : Bool
deriving Repr, Inhabited

/-- The character that a backslash and `c` stand for. -/
def unescape (c : Char) : Char :=
  if c = 'n' then '\n' else if c = 't' then '\t' else c

/-- Cuts what is left of a string literal: up to and with the next quote that no
backslash precedes. -/
def stringEnd : List Char → StringEnd
  | [] => ⟨[], [], [], false⟩
  | '"' :: cs => ⟨[], ['"'], cs, true⟩
  | ['\\'] => ⟨[], ['\\'], [], false⟩
  | '\\' :: c :: cs =>
    let e := stringEnd cs
    { e with value := unescape c :: e.value, taken := '\\' :: c :: e.taken }
  | c :: cs =>
    let e := stringEnd cs
    { e with value := c :: e.value, taken := c :: e.taken }

def scanString (cs : List Char) : Scanned :=
  let e := stringEnd cs
  let lexeme :=
    if e.closed then .token (.string (String.ofList e.value)) else .fault .unclosedString
  ⟨lexeme, '"' :: e.taken, e.rest⟩

/-! ### Numbers -/

/-- The token of digits without a point: they must be a 64-bit integer. -/
def integer (digits : List Char) : Lexeme :=
  (int64? (Text.digitsValue digits)).elim (.fault (.unrepresentable (String.ofList digits)))
    fun n => .token (.int n)

/-- The token of digits around a point: the nearest float. -/
def decimal (whole fraction : List Char) : Lexeme :=
  let scale := Nat.pow 10 fraction.length
  .token (.float (Binary64.nearest (Text.digitsValue (whole ++ fraction)) scale))

/-- Cuts a number: digits, then at most one point, which more digits may follow. -/
def scanNumber (cs : List Char) : Scanned :=
  let whole := cs.takeWhile Char.isDigit
  match cs.dropWhile Char.isDigit with
  | '.' :: ds =>
    let fraction := ds.takeWhile Char.isDigit
    ⟨decimal whole fraction, whole ++ '.' :: fraction, ds.dropWhile Char.isDigit⟩
  | rest => ⟨integer whole, whole, rest⟩

/-! ### Words -/

def isWordStart (c : Char) : Bool := c.isAlpha || c == '_'

def isWordChar (c : Char) : Bool := c.isAlphanum || c == '_'

/-- A word is a keyword, or else a name. -/
def word (w : String) : TokenKind :=
  match Keyword.ofWord? w with
  | some k => .keyword k
  | none => .ident w

def scanWord (cs : List Char) : Scanned :=
  let taken := cs.takeWhile isWordChar
  ⟨.token (word (String.ofList taken)), taken, cs.dropWhile isWordChar⟩

/-! ### Symbols -/

/-- The symbol of one character that no longer symbol starts with. -/
def symbol? : Char → Option Symbol
  | '+' => some .plus
  | '-' => some .minus
  | '*' => some .star
  | '/' => some .slash
  | '^' => some .caret
  | '(' => some .leftParen
  | ')' => some .rightParen
  | '[' => some .leftSquare
  | ']' => some .rightSquare
  | '{' => some .leftBrace
  | '}' => some .rightBrace
  | ':' => some .colon
  | ',' => some .comma
  | '.' => some .dot
  | _ => none

/-- Cuts a symbol, the longest that fits, or one character that is none. -/
def scanSymbol : Char → List Char → Scanned
  | '!', '=' :: cs => ⟨.token (.symbol .bangEqual), ['!', '='], cs⟩
  | '!', cs => ⟨.fault .loneBang, ['!'], cs⟩
  | '=', '=' :: cs => ⟨.token (.symbol .equalEqual), ['=', '='], cs⟩
  | '=', '>' :: cs => ⟨.token (.symbol .arrow), ['=', '>'], cs⟩
  | '=', cs => ⟨.token (.symbol .equal), ['='], cs⟩
  | '<', '=' :: cs => ⟨.token (.symbol .lessEqual), ['<', '='], cs⟩
  | '<', cs => ⟨.token (.symbol .less), ['<'], cs⟩
  | '>', '=' :: cs => ⟨.token (.symbol .greaterEqual), ['>', '='], cs⟩
  | '>', cs => ⟨.token (.symbol .greater), ['>'], cs⟩
  | c, cs =>
    match symbol? c with
    | some s => ⟨.token (.symbol s), [c], cs⟩
    | none => ⟨.fault (.illegalCharacter c), [c], cs⟩

/-! ### Any piece -/

/-- Cuts a comment, if one starts here. -/
def scanComment? : Char → List Char → Option Scanned
  | '#', cs =>
    let (taken, rest) := lineEnd cs
    some ⟨.comment, '#' :: taken, rest⟩
  | '/', '/' :: cs =>
    let (taken, rest) := lineEnd cs
    some ⟨.comment, '/' :: '/' :: taken, rest⟩
  | '/', '*' :: cs =>
    let (taken, rest) := blockEnd 1 cs
    some ⟨.comment, '/' :: '*' :: taken, rest⟩
  | _, _ => none

/-- Cuts the first piece of the text `c :: cs`. -/
def scan (c : Char) (cs : List Char) : Scanned :=
  match scanComment? c cs with
  | some scanned => scanned
  | none =>
    if c = ' ' ∨ c = '\t' ∨ c = '\r' then ⟨.blank, [c], cs⟩
    else if c = ';' ∨ c = '\n' then ⟨.token .newline, [c], cs⟩
    else if c = '"' then scanString cs
    else if c.isDigit then scanNumber (c :: cs)
    else if isWordStart c then scanWord (c :: cs)
    else scanSymbol c cs

/-! ### Nothing is lost -/

theorem lineEnd_append (cs : List Char) : (lineEnd cs).1 ++ (lineEnd cs).2 = cs :=
  List.takeWhile_append_dropWhile

theorem blockEnd_append (depth : Nat) (cs : List Char) :
    (blockEnd depth cs).1 ++ (blockEnd depth cs).2 = cs := by
  fun_induction blockEnd depth cs <;> simp_all

theorem stringEnd_append (cs : List Char) : (stringEnd cs).taken ++ (stringEnd cs).rest = cs := by
  fun_induction stringEnd cs with
  | case1 | case2 | case3 => rfl
  | case4 c cs e ih => exact congrArg (fun t => '\\' :: c :: t) ih
  | case5 c cs e _ _ _ ih => exact congrArg (c :: ·) ih

theorem scanString_append (cs : List Char) :
    (scanString cs).taken ++ (scanString cs).rest = '"' :: cs :=
  congrArg ('"' :: ·) (stringEnd_append cs)

theorem scanNumber_append (cs : List Char) :
    (scanNumber cs).taken ++ (scanNumber cs).rest = cs := by
  have h : cs.takeWhile Char.isDigit ++ cs.dropWhile Char.isDigit = cs :=
    List.takeWhile_append_dropWhile
  unfold scanNumber
  split
  · rename_i ds hd
    rw [hd] at h
    simp [List.append_assoc, List.takeWhile_append_dropWhile, h]
  · exact h

theorem scanWord_append (cs : List Char) : (scanWord cs).taken ++ (scanWord cs).rest = cs :=
  List.takeWhile_append_dropWhile

theorem scanSymbol_append (c : Char) (cs : List Char) :
    (scanSymbol c cs).taken ++ (scanSymbol c cs).rest = c :: cs := by
  fun_cases scanSymbol c cs <;> rfl

theorem scanComment?_append {c : Char} {cs : List Char} {s : Scanned}
    (h : scanComment? c cs = some s) : s.taken ++ s.rest = c :: cs := by
  unfold scanComment? at h
  split at h
  · cases h
    exact congrArg ('#' :: ·) (lineEnd_append _)
  · cases h
    exact congrArg (fun t => '/' :: '/' :: t) (lineEnd_append _)
  · cases h
    exact congrArg (fun t => '/' :: '*' :: t) (blockEnd_append 1 _)
  · cases h

/-- A piece and the text behind it are the text. -/
theorem scan_append (c : Char) (cs : List Char) :
    (scan c cs).taken ++ (scan c cs).rest = c :: cs := by
  unfold scan
  split
  · exact scanComment?_append (by assumption)
  · split
    · rfl
    · split
      · rfl
      · split
        · rename_i h
          rw [h]
          exact scanString_append cs
        · split
          · exact scanNumber_append (c :: cs)
          · split
            · exact scanWord_append (c :: cs)
            · exact scanSymbol_append c cs

/-- No piece is empty. -/
theorem scan_taken_ne_nil (c : Char) (cs : List Char) : (scan c cs).taken ≠ [] := by
  unfold scan
  split
  · rename_i s h
    unfold scanComment? at h
    split at h <;> cases h <;> exact List.cons_ne_nil _ _
  · split
    · exact List.cons_ne_nil _ _
    · split
      · exact List.cons_ne_nil _ _
      · split
        · exact List.cons_ne_nil _ _
        · split
          · rename_i hd
            unfold scanNumber
            split <;> simp [hd]
          · split
            · rename_i hw
              have : isWordChar c = true := by
                simp only [isWordStart, isWordChar, Char.isAlphanum, Bool.or_eq_true] at hw ⊢
                rcases hw with h | h
                · exact Or.inl (Or.inl h)
                · exact Or.inr h
              simp [scanWord, this]
            · fun_cases scanSymbol c cs <;> exact List.cons_ne_nil _ _

end Lexeme

end Script
