/-! The reserved words, and the guess which of them a misspelt name stands for. -/
namespace Script

/-- A reserved word. -/
inductive Keyword where
  | var | and | or | not | ifWord | elif | elseWord | forWord | toWord | step | whileWord | func
  | endWord | returnWord | continueWord | breakWord
deriving DecidableEq, Repr, Inhabited

namespace Keyword

/-- All reserved words, in the order in which guesses are tried. -/
def all : List Keyword :=
  [.var, .and, .or, .not, .ifWord, .elif, .elseWord, .forWord, .toWord, .step, .whileWord, .func,
    .endWord, .returnWord, .continueWord, .breakWord]

/-- The spelling in program text. -/
def word : Keyword → String
  | .var => "var"
  | .and => "and"
  | .or => "or"
  | .not => "not"
  | .ifWord => "if"
  | .elif => "elif"
  | .elseWord => "else"
  | .forWord => "for"
  | .toWord => "to"
  | .step => "step"
  | .whileWord => "while"
  | .func => "func"
  | .endWord => "end"
  | .returnWord => "return"
  | .continueWord => "continue"
  | .breakWord => "break"

/-- The keyword spelt `w`. -/
def ofWord? (w : String) : Option Keyword := all.find? fun k => k.word == w

/-- The number of places at which two words differ, up to the end of the shorter. -/
def differences (a b : List Char) : Nat := ((a.zip b).filter fun p => p.1 != p.2).length

/-- Same length, and exactly one character different. -/
def misspells (w : String) (k : Keyword) : Bool :=
  k.word.toList.length == w.toList.length && differences k.word.toList w.toList == 1

/-- The first keyword that `w` misspells. -/
def suggest (w : String) : Option Keyword := all.find? (misspells w)

theorem mem_all (k : Keyword) : k ∈ all := by cases k <;> decide

end Keyword

end Script
