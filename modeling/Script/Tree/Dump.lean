import Script.Tree
import Script.Number.Decimal
import Script.Text.Quoted

/-! Trees as text: nested parentheses, operator first. Tags do not show. -/
namespace Script

def Param.dump (p : Param α) : String := p.type.word ++ " " ++ p.name

mutual

def Node.dump : Node α → String
  | .int _ n => toString n.toInt
  | .float _ x => (Binary64.ofFloat x).compact
  | .string _ s => Text.quoted s
  | .list _ items => "(list" ++ dumpAll items ++ ")"
  | .block _ items => "(block" ++ dumpAll items ++ ")"
  | .name _ name => name
  | .declare _ name type constant value =>
    "(" ++ (if constant then "const " else "var ") ++
      (match type with
        | some t => t.word ++ " "
        | none => "") ++
      name ++ " " ++ value.dump ++ ")"
  | .assign _ name value => "(set " ++ name ++ " " ++ value.dump ++ ")"
  | .binary _ op left right => "(" ++ op.symbol ++ " " ++ left.dump ++ " " ++ right.dump ++ ")"
  | .unary _ op operand => "(" ++ op.symbol ++ " " ++ operand.dump ++ ")"
  | .cond _ branches otherwise =>
    "(if" ++ dumpBranches branches ++
      (match otherwise with
        | some body => " (else " ++ body.dump ++ ")"
        | none => "") ++ ")"
  | .forLoop _ counter start stop step body =>
    "(for " ++ counter ++ " " ++ start.dump ++ " " ++ stop.dump ++
      (match step with
        | some node => " " ++ node.dump
        | none => "") ++
      " " ++ body.dump ++ ")"
  | .whileLoop _ condition body => "(while " ++ condition.dump ++ " " ++ body.dump ++ ")"
  | .func _ definition => "(func " ++ definition.dump ++ ")"
  | .call _ callee args => "(call " ++ callee.dump ++ dumpAll args ++ ")"
  | .index _ target index => "(index " ++ target.dump ++ " " ++ index.dump ++ ")"
  | .ret _ (some value) => "(return " ++ value.dump ++ ")"
  | .ret _ none => "(return)"
  | .exit _ exit => "(" ++ exit.word ++ ")"
  | .cls _ name parent methods =>
    "(class " ++ name ++
      (match parent with
        | some p => " extends " ++ p
        | none => "") ++
      dumpMethods methods ++ ")"
  | .new _ cls args => "(new " ++ cls ++ dumpAll args ++ ")"
  | .getAttr _ object name => "(. " ++ object.dump ++ " " ++ name ++ ")"
  | .setAttr _ object name value =>
    "(.= " ++ object.dump ++ " " ++ name ++ " " ++ value.dump ++ ")"
  | .methodCall _ object name args =>
    "(.call " ++ object.dump ++ " " ++ name ++ dumpAll args ++ ")"

/-- A blank before each. -/
def dumpAll : List (Node α) → String
  | [] => ""
  | n :: ns => " " ++ n.dump ++ dumpAll ns

def Body.dump : Body α → String
  | .mk node _ => node.dump

def dumpBranches : List (Branch α) → String
  | [] => ""
  | .mk condition body :: bs => " (" ++ condition.dump ++ " " ++ body.dump ++ ")" ++ dumpBranches bs

/-- Name, parameters and body, without the parenthesis and the word before. -/
def FuncDef.dump : FuncDef α → String
  | .mk name params body autoReturn =>
    name.getD "<anonymous>" ++ " (" ++ String.intercalate " " (params.map Param.dump) ++ ")" ++
      (if autoReturn then " =>" else "") ++ " " ++ body.dump

def dumpMethods : List (FuncDef α) → String
  | [] => ""
  | m :: ms => " (method " ++ m.dump ++ ")" ++ dumpMethods ms

end

end Script
