/-! The functions that every program finds predefined. -/
namespace Script

inductive Builtin where
  | print | printRet | input | inputInt | clear | isNum | isStr | isList | isFun
  | append | pop | extend | len | run | isInstance | hasAttr | getAttr | setAttr | str
deriving DecidableEq, Repr, Inhabited

namespace Builtin

def name : Builtin → String
  | .print => "print"
  | .printRet => "print_ret"
  | .input => "input"
  | .inputInt => "input_int"
  | .clear => "clear"
  | .isNum => "is_num"
  | .isStr => "is_str"
  | .isList => "is_list"
  | .isFun => "is_fun"
  | .append => "append"
  | .pop => "pop"
  | .extend => "extend"
  | .len => "len"
  | .run => "run"
  | .isInstance => "isinstance"
  | .hasAttr => "hasattr"
  | .getAttr => "getattr"
  | .setAttr => "setattr"
  | .str => "str"

/-- The names of the parameters. A call must give as many arguments. -/
def params : Builtin → List String
  | .input | .inputInt | .clear => []
  | .print | .printRet | .isNum | .isStr | .isList | .isFun | .str => ["value"]
  | .append => ["list", "value"]
  | .pop => ["list", "index"]
  | .extend => ["listA", "listB"]
  | .len => ["list"]
  | .run => ["path"]
  | .isInstance => ["obj", "class_or_name"]
  | .hasAttr => ["obj", "attr_name"]
  | .getAttr => ["obj", "attr_name", "default"]
  | .setAttr => ["obj", "attr_name", "value"]

/-- The global names of the builtins; one has two. -/
def registry : List (String × Builtin) :=
  [("print", .print), ("print_ret", .printRet), ("input", .input), ("input_int", .inputInt),
    ("clear", .clear), ("cls", .clear), ("is_num", .isNum), ("is_str", .isStr),
    ("is_list", .isList), ("is_fun", .isFun), ("append", .append), ("pop", .pop),
    ("extend", .extend), ("len", .len), ("run", .run), ("isinstance", .isInstance),
    ("hasattr", .hasAttr), ("getattr", .getAttr), ("setattr", .setAttr), ("str", .str)]

end Builtin

end Script
