import Script.Proofs.Nesting
import Script.Proofs.Sexp
import Script.Proofs.Written
import Script.Tree.Dump

/-! What the text of a tree shows.

A tree is written as nested parentheses (`Node.sexp`), which can be read in one way only.
They do not show all of the tree: a body is written without its mark, an `else` as a branch
with that word for its condition, and what is optional is told by the number of items
alone. In a program it can be told: its names are no keywords and do not start like a
number, and its bodies are marked if they are sequences. So what was written is read
back, up to tags (`Node.legible`).

Main statement, `Source.eq_of_dump`: two programs without float literals that are written
alike are equal up to their spans. -/
namespace Script

variable {α : Type}

/-! ### Trees as nested parentheses -/

def Param.sexp (p : Param α) : List Sexp := [.word p.type.word, .word p.name]

def declareWord (constant : Bool) : String := if constant then "const" else "var"

mutual

def Node.sexp : Node α → Sexp
  | .int _ n => .number n
  | .float _ x => .word (Binary64.ofFloat x).compact
  | .string _ s => .quote s
  | .list _ items => .list (.word "list" :: sexpAll items)
  | .block _ items => .list (.word "block" :: sexpAll items)
  | .name _ name => .word name
  | .declare _ name type constant value =>
    .list (.word (declareWord constant) ::
      (type.toList.map (fun t => .word t.word) ++ [.word name, value.sexp]))
  | .assign _ name value => .list [.word "set", .word name, value.sexp]
  | .binary _ op left right => .list [.word op.symbol, left.sexp, right.sexp]
  | .unary _ op operand => .list [.word op.symbol, operand.sexp]
  | .cond _ branches otherwise =>
    .list (.word "if" :: (sexpBranches branches ++ sexpOtherwise otherwise))
  | .forLoop _ counter start stop step body =>
    .list (.word "for" :: .word counter :: start.sexp :: stop.sexp ::
      (sexpStep step ++ [body.sexp]))
  | .whileLoop _ condition body => .list [.word "while", condition.sexp, body.sexp]
  | .func _ definition => .list (.word "func" :: definition.sexp)
  | .call _ callee args => .list (.word "call" :: callee.sexp :: sexpAll args)
  | .index _ target index => .list [.word "index", target.sexp, index.sexp]
  | .ret _ (some value) => .list [.word "return", value.sexp]
  | .ret _ none => .list [.word "return"]
  | .exit _ exit => .list [.word exit.word]
  | .cls _ name parent methods =>
    .list (.word "class" :: .word name ::
      ((parent.toList.flatMap fun p => [.word "extends", .word p]) ++ sexpMethods methods))
  | .new _ cls args => .list (.word "new" :: .word cls :: sexpAll args)
  | .getAttr _ object name => .list [.word ".", object.sexp, .word name]
  | .setAttr _ object name value => .list [.word ".=", object.sexp, .word name, value.sexp]
  | .methodCall _ object name args =>
    .list (.word ".call" :: object.sexp :: .word name :: sexpAll args)

def sexpAll : List (Node α) → List Sexp
  | [] => []
  | node :: nodes => node.sexp :: sexpAll nodes

def Body.sexp : Body α → Sexp
  | .mk node _ => node.sexp

def sexpBranches : List (Branch α) → List Sexp
  | [] => []
  | .mk condition body :: branches => .list [condition.sexp, body.sexp] :: sexpBranches branches

def sexpOtherwise : Option (Body α) → List Sexp
  | none => []
  | some body => [.list [.word "else", body.sexp]]

def sexpStep : Option (Node α) → List Sexp
  | none => []
  | some node => [node.sexp]

/-- Name, parameters, the arrow if there is one, and body. -/
def FuncDef.sexp : FuncDef α → List Sexp
  | .mk name params body autoReturn =>
    .word (name.getD "<anonymous>") :: .list (params.flatMap Param.sexp) ::
      ((if autoReturn then [.word "=>"] else []) ++ [body.sexp])

def sexpMethods : List (FuncDef α) → List Sexp
  | [] => []
  | method :: methods => .list (.word "method" :: method.sexp) :: sexpMethods methods

end

namespace Sexp

theorem toList_intercalate_cons (s : String) (ss : List String) :
    (String.intercalate " " (s :: ss)).toList =
      s.toList ++ ss.flatMap fun t => ' ' :: t.toList := by
  induction ss generalizing s with
  | nil => simp
  | cons t ss ih => simp [ih]

theorem textAll_params (params : List (Param α)) :
    textAll (params.flatMap Param.sexp) =
      (String.intercalate " " (params.map Param.dump)).toList := by
  have htail : ∀ ps : List (Param α), textTail (ps.flatMap Param.sexp) =
      (ps.map Param.dump).flatMap fun s => ' ' :: s.toList := by
    intro ps
    induction ps with
    | nil => rfl
    | cons p ps ih => simp [Param.sexp, Param.dump, ih]
  cases params with
  | nil => rfl
  | cons p ps =>
    rw [List.map_cons, toList_intercalate_cons, ← htail]
    simp [Param.sexp, Param.dump]

end Sexp

mutual

/-- A tree is written as its parentheses are. -/
theorem Node.text_sexp : (tree : Node α) → tree.sexp.text = tree.dump.toList
  | .int .. => rfl
  | .float .. => rfl
  | .string .. => rfl
  | .list _ items => by simp [Node.sexp, Node.dump, textTail_sexpAll items]
  | .block _ items => by simp [Node.sexp, Node.dump, textTail_sexpAll items]
  | .name .. => rfl
  | .declare _ name type constant value => by
    cases type <;> cases constant <;>
      simp [Node.sexp, Node.dump, declareWord, value.text_sexp]
  | .assign _ name value => by
    simp [Node.sexp, Node.dump, value.text_sexp]
  | .binary _ op left right => by
    simp [Node.sexp, Node.dump, left.text_sexp, right.text_sexp]
  | .unary _ op operand => by
    simp [Node.sexp, Node.dump, operand.text_sexp]
  | .cond _ branches otherwise => by
    cases otherwise with
    | none =>
      simp [Node.sexp, Node.dump, sexpOtherwise, textTail_sexpBranches branches]
    | some body =>
      simp [Node.sexp, Node.dump, sexpOtherwise, textTail_sexpBranches branches, body.text_sexp]
  | .forLoop _ counter start stop step body => by
    cases step with
    | none =>
      simp [Node.sexp, Node.dump, sexpStep, start.text_sexp, stop.text_sexp, body.text_sexp]
    | some step =>
      simp [Node.sexp, Node.dump, sexpStep, start.text_sexp, stop.text_sexp, step.text_sexp,
        body.text_sexp]
  | .whileLoop _ condition body => by
    simp [Node.sexp, Node.dump, condition.text_sexp, body.text_sexp]
  | .func _ definition => by
    simp [Node.sexp, Node.dump, definition.textTail_sexp]
  | .call _ callee args => by
    simp [Node.sexp, Node.dump, callee.text_sexp, textTail_sexpAll args]
  | .index _ target index => by
    simp [Node.sexp, Node.dump, target.text_sexp, index.text_sexp]
  | .ret _ none => by simp [Node.sexp, Node.dump]
  | .ret _ (some value) => by
    simp [Node.sexp, Node.dump, value.text_sexp]
  | .exit .. => by simp [Node.sexp, Node.dump]
  | .cls _ name parent methods => by
    cases parent <;>
      simp [Node.sexp, Node.dump, textTail_sexpMethods methods]
  | .new _ cls args => by
    simp [Node.sexp, Node.dump, textTail_sexpAll args]
  | .getAttr _ object name => by
    simp [Node.sexp, Node.dump, object.text_sexp]
  | .setAttr _ object name value => by
    simp [Node.sexp, Node.dump, object.text_sexp, value.text_sexp]
  | .methodCall _ object name args => by
    simp [Node.sexp, Node.dump, object.text_sexp, textTail_sexpAll args]

theorem textTail_sexpAll : (nodes : List (Node α)) →
    Sexp.textTail (sexpAll nodes) = (dumpAll nodes).toList
  | [] => rfl
  | node :: nodes => by simp [sexpAll, dumpAll, node.text_sexp, textTail_sexpAll nodes]

theorem Body.text_sexp : (body : Body α) → body.sexp.text = body.dump.toList
  | .mk node _ => by simp [Body.sexp, Body.dump, node.text_sexp]

theorem textTail_sexpBranches : (branches : List (Branch α)) →
    Sexp.textTail (sexpBranches branches) = (dumpBranches branches).toList
  | [] => rfl
  | .mk condition body :: branches => by
    simp [sexpBranches, dumpBranches, condition.text_sexp, body.text_sexp,
      textTail_sexpBranches branches]

theorem FuncDef.textTail_sexp : (f : FuncDef α) → Sexp.textTail f.sexp = ' ' :: f.dump.toList
  | .mk name params body autoReturn => by
    cases autoReturn <;>
      simp [FuncDef.sexp, FuncDef.dump, Sexp.textAll_params, body.text_sexp]

theorem textTail_sexpMethods : (methods : List (FuncDef α)) →
    Sexp.textTail (sexpMethods methods) = (dumpMethods methods).toList
  | [] => rfl
  | method :: methods => by
    simp [sexpMethods, dumpMethods, method.textTail_sexp, textTail_sexpMethods methods]

end

/-! ### Trees from nested parentheses -/

/-- A body, marked if it is a sequence. -/
def Node.asBody (node : Node Unit) : Body Unit := .mk node node.isBlock

/-- An operator and its operands. -/
def operation? (symbol : String) : List (Node Unit) → Option (Node Unit)
  | [operand] => (UnaryOp.ofSymbol? symbol).map (.unary () · operand)
  | [left, right] => (BinaryOp.ofSymbol? symbol).map (.binary () · left right)
  | _ => none

/-- What a first word and nodes behind it stand for. -/
def form? (head : String) (nodes : List (Node Unit)) : Option (Node Unit) :=
  match head, nodes with
  | "list", items => some (.list () items)
  | "block", items => some (.block () items)
  | "const", [.name _ type, .name _ name, value] =>
    (DeclaredType.ofWord? type).map (.declare () name · true value)
  | "const", [.name _ name, value] => some (.declare () name none true value)
  | "var", [.name _ type, .name _ name, value] =>
    (DeclaredType.ofWord? type).map (.declare () name · false value)
  | "var", [.name _ name, value] => some (.declare () name none false value)
  | "set", [.name _ name, value] => some (.assign () name value)
  | "for", [.name _ counter, start, stop, body] =>
    some (.forLoop () counter start stop none body.asBody)
  | "for", [.name _ counter, start, stop, step, body] =>
    some (.forLoop () counter start stop (some step) body.asBody)
  | "while", [condition, body] => some (.whileLoop () condition body.asBody)
  | "call", callee :: args => some (.call () callee args)
  | "index", [target, index] => some (.index () target index)
  | "return", [] => some (.ret () none)
  | "return", [value] => some (.ret () (some value))
  | "break", [] => some (.exit () .breaking)
  | "continue", [] => some (.exit () .continuing)
  | "new", .name _ cls :: args => some (.new () cls args)
  | ".", [object, .name _ name] => some (.getAttr () object name)
  | ".=", [object, .name _ name, value] => some (.setAttr () object name value)
  | ".call", object :: .name _ name :: args => some (.methodCall () object name args)
  | symbol, operands => operation? symbol operands

def params? : List Sexp → Option (List (Param Unit))
  | [] => some []
  | .word type :: .word name :: items => do
    let type ← DeclaredType.ofWord? type
    return ⟨name, type, ()⟩ :: (← params? items)
  | _ => none

mutual

def Sexp.node? : Sexp → Option (Node Unit)
  | .number n => some (.int () n)
  | .word w => some (.name () w)
  | .quote s => some (.string () s)
  | .list (.word "if" :: items) => do
    let (branches, otherwise) ← branches? items
    return .cond () branches otherwise
  | .list (.word "func" :: items) => do return .func () (← func? items)
  | .list (.word "class" :: .word name :: .word "extends" :: .word parent :: items) => do
    return .cls () name (some parent) (← methods? items)
  | .list (.word "class" :: .word name :: items) => do return .cls () name none (← methods? items)
  | .list (.word head :: items) => do form? head (← nodes? items)
  | .list _ => none

def nodes? : List Sexp → Option (List (Node Unit))
  | [] => some []
  | x :: xs => do return (← x.node?) :: (← nodes? xs)

def branches? : List Sexp → Option (List (Branch Unit) × Option (Body Unit))
  | [] => some ([], none)
  | [.list [.word "else", body]] => do return ([], some (← body.node?).asBody)
  | .list [condition, body] :: items => do
    let branch := .mk (← condition.node?) (← body.node?).asBody
    let (branches, otherwise) ← branches? items
    return (branch :: branches, otherwise)
  | _ => none

def func? : List Sexp → Option (FuncDef Unit)
  | [.word name, .list params, body] => do
    return .mk (if name = "<anonymous>" then none else some name) (← params? params)
      (← body.node?) false
  | [.word name, .list params, .word "=>", body] => do
    return .mk (if name = "<anonymous>" then none else some name) (← params? params)
      (← body.node?) true
  | _ => none

def methods? : List Sexp → Option (List (FuncDef Unit))
  | [] => some []
  | .list (.word "method" :: items) :: xs => do return (← func? items) :: (← methods? xs)
  | _ => none

end

/-! ### Reading back -/

open Sexp (Plain AllPlain IsWord)

/-- An item is plain and stands for a tree. -/
structure Sexp.Shows (x : Sexp) (tree : Node Unit) : Prop where
  plain : x.Plain
  read : x.node? = some tree

/-- Items are plain and stand for something together. -/
structure ShowsAll {β : Type} (read? : List Sexp → Option β) (items : List Sexp) (b : β) :
    Prop where
  plain : AllPlain items
  read : read? items = some b

theorem shows_word {w : String} (h : IsWord w) : (Sexp.word w).Shows (.name () w) :=
  ⟨.word h, rfl⟩

theorem shows_nil : ShowsAll nodes? [] [] := ⟨.nil, rfl⟩

theorem Sexp.Shows.cons {x : Sexp} {xs : List Sexp} {node : Node Unit} {nodes : List (Node Unit)}
    (hx : x.Shows node) (hxs : ShowsAll nodes? xs nodes) :
    ShowsAll nodes? (x :: xs) (node :: nodes) := by
  refine ⟨.cons hx.plain hxs.plain, ?_⟩
  rw [nodes?, hx.read, hxs.read]
  rfl

/-- What is written of a node stands for it, up to tags. -/
abbrev Node.Legible (node : Node α) : Prop := node.sexp.Shows node.erase

theorem shows_sexpAll {nodes : List (Node α)} (h : ∀ node ∈ nodes, node.Legible) :
    ShowsAll nodes? (sexpAll nodes) (eraseAll nodes) := by
  induction nodes with
  | nil => exact shows_nil
  | cons node nodes ih =>
    obtain ⟨hnode, hnodes⟩ := List.forall_mem_cons.mp h
    exact hnode.cons (ih hnodes)

/-- Behind most words there are nodes only. -/
theorem ShowsAll.form {head : String} {items : List Sexp} {nodes : List (Node Unit)}
    {tree : Node Unit} (h : ShowsAll nodes? items nodes) (hhead : Sexp.isMark head = true)
    (hother : head ∉ ["if", "func", "class"]) (hform : form? head nodes = some tree) :
    (Sexp.list (.word head :: items)).Shows tree := by
  refine ⟨.list (AllPlain.cons (.word (.of_isMark hhead)) h.plain), ?_⟩
  rw [Sexp.node?]
  · rw [h.read]
    exact hform
  all_goals simp_all

theorem BinaryOp.ofSymbol?_symbol (op : BinaryOp) : ofSymbol? op.symbol = some op := by
  cases op <;> decide

theorem UnaryOp.ofSymbol?_symbol (op : UnaryOp) : ofSymbol? op.symbol = some op := by
  cases op <;> decide

theorem form?_binary (op : BinaryOp) (left right : Node Unit) :
    form? op.symbol [left, right] = some (.binary () op left right) := by
  have hop : operation? op.symbol [left, right] = some (.binary () op left right) := by
    rw [operation?, op.ofSymbol?_symbol]
    rfl
  cases op <;> exact hop

theorem form?_unary (op : UnaryOp) (operand : Node Unit) :
    form? op.symbol [operand] = some (.unary () op operand) := by
  have hop : operation? op.symbol [operand] = some (.unary () op operand) := by
    rw [operation?, op.ofSymbol?_symbol]
    rfl
  cases op <;> exact hop

/-! ### Bodies, branches and functions -/

theorem Node.isBlock_erase (node : Node α) : node.erase.isBlock = node.isBlock := by
  cases node with
  | ret _ value => cases value <;> rfl
  | _ => rfl

/-- What is written of a body stands for its node, which tells the mark. -/
def Body.Legible (body : Body α) : Prop :=
  ∃ node, body.sexp.Shows node ∧ node.asBody = body.erase

/-- A body that is marked if it is a sequence can do without its mark. -/
theorem Body.Legible.of_node {body : Body α} (h : body.node.Legible)
    (hmark : body.emitsNull = body.node.isBlock) : body.Legible := by
  obtain ⟨node, emitsNull⟩ := body
  have hblock : node.erase.isBlock = emitsNull := node.isBlock_erase.trans hmark.symm
  refine ⟨node.erase, ?_, ?_⟩
  · rw [Body.sexp]
    exact h
  · rw [Body.erase, ← hblock]
    rfl

/-- A branch can be told if its condition is not taken for an `else`. -/
structure Branch.Legible (branch : Branch α) : Prop where
  condition : branch.condition.Legible
  ne_else : branch.condition.sexp ≠ .word "else"
  body : branch.body.Legible

theorem shows_branches {branches : List (Branch α)} {otherwise : Option (Body α)}
    (hbranches : ∀ branch ∈ branches, branch.Legible)
    (hotherwise : ∀ body ∈ otherwise, body.Legible) :
    ShowsAll branches? (sexpBranches branches ++ sexpOtherwise otherwise)
      (eraseBranches branches, eraseOtherwise otherwise) := by
  induction branches with
  | nil =>
    cases otherwise with
    | none => exact ⟨.nil, rfl⟩
    | some body =>
      obtain ⟨node, hnode, hbody⟩ := hotherwise body rfl
      have helse : Plain (.word "else") := .word (.of_isMark rfl)
      constructor
      · exact .cons (.list (AllPlain.cons helse (.cons hnode.plain .nil))) .nil
      · simp [sexpBranches, sexpOtherwise, branches?, eraseBranches, eraseOtherwise, hnode.read,
          hbody]
  | cons branch branches ih =>
    obtain ⟨hbranch, hrest⟩ := List.forall_mem_cons.mp hbranches
    obtain ⟨condition, body⟩ := branch
    have hcondition : condition.Legible := hbranch.condition
    obtain ⟨node, hnode, hbody⟩ : body.Legible := hbranch.body
    rw [sexpBranches, List.cons_append]
    -- If nothing follows, the branch could be an `else`, were it not for its condition.
    constructor
    · have hbranch : AllPlain [condition.sexp, body.sexp] :=
        .cons hcondition.plain (.cons hnode.plain .nil)
      exact .cons (.list hbranch) (ih hrest).plain
    · rw [branches?]
      · simp [hcondition.read, hnode.read, hbody, (ih hrest).read, eraseBranches]
      · exact fun _ helse => hbranch.ne_else helse

theorem shows_params {params : List (Param α)} (h : ∀ p ∈ params, IsWord p.name) :
    ShowsAll params? (params.flatMap Param.sexp) (params.map Param.erase) := by
  induction params with
  | nil => exact ⟨.nil, rfl⟩
  | cons p ps ih =>
    obtain ⟨hp, hps⟩ := List.forall_mem_cons.mp h
    have htype : IsWord p.type.word := .of_isMark (by cases p.type <;> rfl)
    constructor
    · exact .cons (.word htype) (.cons (.word hp) (ih hps).plain)
    · simp [Param.sexp, params?, Parser.ofWord?_word, (ih hps).read, Param.erase]

/-- So can a function that does not go by the name of those that have none. -/
structure FuncDef.Legible (f : FuncDef α) : Prop where
  name : ∀ name ∈ f.name, IsWord name ∧ name ≠ "<anonymous>"
  params : ∀ p ∈ f.params, IsWord p.name
  body : f.body.Legible

theorem FuncDef.Legible.shows {f : FuncDef α} (h : f.Legible) : ShowsAll func? f.sexp f.erase := by
  obtain ⟨name, params, body, autoReturn⟩ := f
  have hparams := shows_params h.params
  have hbody : body.Legible := h.body
  have hname : IsWord (name.getD "<anonymous>") ∧ (if name.getD "<anonymous>" = "<anonymous>"
      then none else some (name.getD "<anonymous>")) = name := by
    cases name with
    | none => exact ⟨.of_isMark rfl, rfl⟩
    | some name =>
      obtain ⟨hword, hne⟩ := h.name name rfl
      exact ⟨hword, if_neg hne⟩
  have harrow : Plain (.word "=>") := .word (.of_isMark rfl)
  have hplain : AllPlain ((if autoReturn then [Sexp.word "=>"] else []) ++ [body.sexp]) := by
    cases autoReturn
    · exact .cons hbody.plain .nil
    · exact .cons harrow (.cons hbody.plain .nil)
  constructor
  · exact .cons (.word hname.1) (.cons (.list hparams.plain) hplain)
  · have hread : params? (params.flatMap Param.sexp) = some (params.map Param.erase) := hparams.read
    cases autoReturn <;> simp [FuncDef.sexp, func?, hread, hbody.read, hname.2, FuncDef.erase]

theorem shows_methods {methods : List (FuncDef α)} (h : ∀ f ∈ methods, f.Legible) :
    ShowsAll methods? (sexpMethods methods) (eraseMethods methods) := by
  induction methods with
  | nil => exact ⟨.nil, rfl⟩
  | cons f fs ih =>
    obtain ⟨hf, hfs⟩ := List.forall_mem_cons.mp h
    have hmethod : Plain (.word "method") := .word (.of_isMark rfl)
    constructor
    · exact .cons (.list (AllPlain.cons hmethod hf.shows.plain)) (ih hfs).plain
    · simp [sexpMethods, methods?, hf.shows.read, (ih hfs).read, eraseMethods]

theorem legible_cls {tag : α} {name : String} {parent : Option String} {methods : List (FuncDef α)}
    (hname : IsWord name) (hparent : ∀ p ∈ parent, IsWord p) (h : ∀ f ∈ methods, f.Legible) :
    (Node.cls tag name parent methods).Legible := by
  have hmethods := shows_methods h
  have hclass : Plain (.word "class") := .word (.of_isMark rfl)
  cases parent with
  | none =>
    -- A method is no word, so it is not taken for a parent.
    have hmethod : ∀ p items, sexpMethods methods ≠ .word "extends" :: .word p :: items := by
      cases methods <;> nofun
    unfold Node.Legible
    rw [Node.sexp, Option.toList_none, List.flatMap_nil, List.nil_append]
    constructor
    · exact .list (AllPlain.cons hclass (.cons (.word hname) hmethods.plain))
    · rw [Sexp.node?]
      · rw [hmethods.read]
        rfl
      · exact fun p items h => hmethod p items h
  | some parent =>
    have hextends : Plain (.word "extends") := .word (.of_isMark rfl)
    constructor
    · have hextension : AllPlain (.word "extends" :: .word parent :: sexpMethods methods) :=
        .cons hextends (.cons (.word (hparent parent rfl)) hmethods.plain)
      exact .list (AllPlain.cons hclass (.cons (.word hname) hextension))
    · simp [Node.sexp, Sexp.node?, hmethods.read, Node.erase]

/-! ### Programs -/

theorem IsName.isWord {w : String} (h : IsName w) : IsWord w := by
  obtain ⟨⟨c, cs, hcs, hc, hrest⟩, _⟩ := h
  have hchar : ∀ d ∈ w.toList, d.isAlphanum = true ∨ d = '_' := by
    intro d hd
    rw [hcs] at hd
    rcases List.mem_cons.mp hd with rfl | hd
    · exact hc.imp_left fun halpha => by simp [Char.isAlphanum, halpha]
    · exact hrest d hd
  refine ⟨⟨?_, fun d hd => ?_⟩, ?_⟩
  · rw [hcs]
    exact List.cons_ne_nil c cs
  · rw [Bool.eq_false_iff]
    intro hdelimiter
    simp only [Sexp.isDelimiter, Bool.or_eq_true, beq_iff_eq] at hdelimiter
    rcases hchar d hd with halpha | rfl
    · rcases hdelimiter with ((rfl | rfl) | rfl) | rfl <;> cases halpha
    · simp at hdelimiter
  · rintro n rfl
    have hfirst : c ∈ (toString n.toInt).toList := by
      rw [hcs]
      exact List.mem_cons_self
    have hstart : Lexeme.isWordStart c = true := by simpa [Lexeme.isWordStart] using hc
    rcases Sexp.mem_toString hfirst with hdigit | rfl
    · exact Bool.false_ne_true ((Lexer.isDigit_of_isWordStart hstart).symm.trans hdigit)
    · cases hstart

theorem IsName.ne_anonymous {w : String} (h : IsName w) : w ≠ "<anonymous>" := by
  rintro rfl
  obtain ⟨⟨c, cs, hcs, hc, _⟩, _⟩ := h
  have hfirst : c = '<' := by simpa using (congrArg List.head? hcs).symm
  subst hfirst
  simp at hc

/-- Kinds of tokens of which the words are names, and which are no floats. -/
structure Worded (K : TokenKind → Prop) : Prop where
  name : ∀ w, K (.ident w) → IsName w
  float : ∀ x, ¬ K (.float x)

variable {K : TokenKind → Prop} {tree : Node Span}

theorem FuncDef.Legible.of_words (hK : Worded K) {f : FuncDef Span} (hwords : ∀ k ∈ f.words, K k)
    (hbody : f.body.Legible) : f.Legible := by
  refine ⟨fun name hname => ?_, fun p hp => ?_, hbody⟩
  · have hword : .ident name ∈ f.words :=
      List.mem_append_left _ (List.mem_map_of_mem (Option.mem_toList.mpr hname))
    have hname := hK.name name (hwords _ hword)
    exact ⟨hname.isWord, hname.ne_anonymous⟩
  · have hword : .ident p.name ∈ f.words :=
      List.mem_append_right _ (List.mem_map.mpr ⟨p, hp, rfl⟩)
    exact (hK.name p.name (hwords _ hword)).isWord

/-- Only a name is written as a word. -/
theorem Node.sexp_ne_else (hK : Worded K) (h : tree.Sound K) : tree.sexp ≠ .word "else" := by
  have hwords := h.self.words
  intro helse
  cases tree with
  | name _ name =>
    cases helse
    exact (hK.name _ (hwords _ List.mem_cons_self)).2 .elseWord rfl
  | float _ x => exact hK.float x (hwords _ List.mem_cons_self)
  | ret _ value => cases value <;> cases helse
  | _ => cases helse

theorem legible_cond {tag : Span} {branches : List (Branch Span)} {otherwise : Option (Body Span)}
    (hK : Worded K) (h : (Node.cond tag branches otherwise).Sound K)
    (hchild : ∀ sub ∈ (Node.cond tag branches otherwise).children, sub.Legible) :
    (Node.cond tag branches otherwise).Legible := by
  have hbody : ∀ body ∈ branches.map Branch.body ++ otherwise.toList, body.Legible := by
    intro body hbody
    refine .of_node (hchild body.node ?_) (h.self.marks body hbody)
    rcases List.mem_append.mp hbody with hmem | hmem
    · obtain ⟨b, hb, rfl⟩ := List.mem_map.mp hmem
      apply List.mem_append_left
      exact List.mem_flatMap.mpr ⟨b, hb, List.mem_cons_of_mem _ List.mem_cons_self⟩
    · exact List.mem_append_right _ (List.mem_map_of_mem hmem)
  have hbranches : ∀ b ∈ branches, b.Legible := by
    intro b hb
    have hcondition : b.condition ∈ (Node.cond tag branches otherwise).children :=
      List.mem_append_left _ (List.mem_flatMap.mpr ⟨b, hb, List.mem_cons_self⟩)
    refine ⟨hchild _ hcondition, Node.sexp_ne_else hK (h.child _ hcondition), hbody _ ?_⟩
    exact List.mem_append_left _ (List.mem_map_of_mem hb)
  have hotherwise : ∀ body ∈ otherwise, body.Legible := fun body hmem =>
    hbody body (List.mem_append_right _ (Option.mem_toList.mpr hmem))
  have hshows := shows_branches hbranches hotherwise
  constructor
  · exact .list (AllPlain.cons (.word (.of_isMark rfl)) hshows.plain)
  · rw [Node.sexp, Sexp.node?, hshows.read]
    rfl

/-- **What is written of a program can be read back**, up to its tags. -/
theorem Node.legible (hK : Worded K) (h : tree.Sound K) : tree.Legible := by
  induction h with
  | @mk tree hself hsubs ih =>
    have hwords := hself.words
    have hname : ∀ w, .ident w ∈ tree.words → (Sexp.word w).Shows (.name () w) := fun w hw =>
      shows_word (hK.name w (hwords _ hw)).isWord
    have hchild : ∀ sub ∈ tree.children, sub.Legible := fun sub hsub =>
      ih sub (List.mem_append_left _ (List.mem_append_left _ hsub))
    cases tree with
    | int => exact ⟨.number _, rfl⟩
    | float _ x => exact absurd (hwords _ List.mem_cons_self) (hK.float x)
    | string => exact ⟨.quote _, rfl⟩
    | name _ name => exact hname name List.mem_cons_self
    | list _ items | block _ items =>
      have hitems : ShowsAll nodes? (sexpAll items) _ := shows_sexpAll hchild
      exact hitems.form rfl (by decide) rfl
    | new _ cls args =>
      have hargs : ShowsAll nodes? (sexpAll args) _ := shows_sexpAll hchild
      exact ((hname cls List.mem_cons_self).cons hargs).form rfl (by decide) rfl
    | declare _ name type constant value =>
      have hvalue := hchild value (by simp [children])
      have hshows := (hname name List.mem_cons_self).cons (hvalue.cons shows_nil)
      cases type with
      | none =>
        cases constant <;>
          exact hshows.form rfl (by decide) (by simp [form?, declareWord, erase])
      | some type =>
        have htype : IsWord type.word := .of_isMark (by cases type <;> rfl)
        cases constant <;>
          exact ((shows_word htype).cons hshows).form rfl (by decide)
            (by simp [form?, declareWord, Parser.ofWord?_word, erase])
    | assign _ name value =>
      have hvalue := hchild value (by simp [children])
      exact ((hname name List.mem_cons_self).cons (hvalue.cons shows_nil)).form rfl (by decide) rfl
    | binary _ op left right =>
      have hleft := hchild left (by simp [children])
      have hright := hchild right (by simp [children])
      exact (hleft.cons (hright.cons shows_nil)).form (by cases op <;> rfl)
        (by cases op <;> decide) (form?_binary ..)
    | unary _ op operand =>
      have hoperand := hchild operand (by simp [children])
      exact (hoperand.cons shows_nil).form (by cases op <;> rfl) (by cases op <;> decide)
        (form?_unary ..)
    | cond => exact legible_cond hK (.mk hself hsubs) hchild
    | forLoop _ counter start stop step body =>
      have hcounter := hname counter List.mem_cons_self
      have hstart := hchild start (by simp [children])
      have hstop := hchild stop (by simp [children])
      have hlegible : body.Legible :=
        .of_node (ih body.node (by simp [subtrees, loopBody])) (hself.marks body List.mem_cons_self)
      obtain ⟨node, hbody, hmark⟩ := hlegible
      cases step with
      | none =>
        apply (hcounter.cons (hstart.cons (hstop.cons (hbody.cons shows_nil)))).form rfl (by decide)
        rw [form?, hmark]
        rfl
      | some step =>
        have hstep := hchild step (by simp [children])
        apply (hcounter.cons (hstart.cons (hstop.cons (hstep.cons (hbody.cons shows_nil))))).form
          rfl (by decide)
        rw [form?, hmark]
        rfl
    | whileLoop _ condition body =>
      have hcondition := hchild condition (by simp [children])
      have hlegible : body.Legible :=
        .of_node (ih body.node (by simp [subtrees, loopBody])) (hself.marks body List.mem_cons_self)
      obtain ⟨node, hbody, hmark⟩ := hlegible
      apply (hcondition.cons (hbody.cons shows_nil)).form rfl (by decide)
      rw [form?, hmark]
      rfl
    | func _ f =>
      have hf : f.Legible := .of_words hK hwords (ih f.body (by simp [subtrees, definitions]))
      refine ⟨.list (AllPlain.cons (.word (.of_isMark rfl)) hf.shows.plain), ?_⟩
      rw [Node.sexp, Sexp.node?, hf.shows.read]
      rfl
    | cls _ name parent methods =>
      have hcls : IsName name := hK.name name (hwords _ List.mem_cons_self)
      have hparent : ∀ p ∈ parent, IsWord p := by
        intro p hp
        refine (hK.name p (hwords _ ?_)).isWord
        apply List.mem_cons_of_mem
        exact List.mem_append_left _ (List.mem_map_of_mem (Option.mem_toList.mpr hp))
      refine legible_cls hcls.isWord hparent fun f hf => .of_words hK (fun k hk => hwords k ?_) ?_
      · apply List.mem_cons_of_mem
        exact List.mem_append_right _ (List.mem_flatMap.mpr ⟨f, hf, hk⟩)
      · exact ih f.body (List.mem_append_right _ (List.mem_map_of_mem hf))
    | call _ callee args =>
      have hcallee := hchild callee (by simp [children])
      have hargs : ShowsAll nodes? (sexpAll args) _ :=
        shows_sexpAll fun arg harg => hchild arg (List.mem_cons_of_mem _ harg)
      exact (hcallee.cons hargs).form rfl (by decide) rfl
    | index _ target index =>
      have htarget := hchild target (by simp [children])
      have hindex := hchild index (by simp [children])
      exact (htarget.cons (hindex.cons shows_nil)).form rfl (by decide) rfl
    | ret _ value =>
      cases value with
      | none => exact shows_nil.form rfl (by decide) rfl
      | some value =>
        have hvalue := hchild value (by simp [children])
        exact (hvalue.cons shows_nil).form rfl (by decide) rfl
    | exit _ exit => cases exit <;> exact shows_nil.form rfl (by decide) rfl
    | getAttr _ object name =>
      have hobject := hchild object (by simp [children])
      have hattr := hname name List.mem_cons_self
      exact (hobject.cons (hattr.cons shows_nil)).form rfl (by decide) rfl
    | setAttr _ object name value =>
      have hobject := hchild object (by simp [children])
      have hattr := hname name List.mem_cons_self
      have hvalue := hchild value (by simp [children])
      exact (hobject.cons (hattr.cons (hvalue.cons shows_nil))).form rfl (by decide) rfl
    | methodCall _ object name args =>
      have hobject := hchild object (by simp [children])
      have hattr := hname name List.mem_cons_self
      have hargs : ShowsAll nodes? (sexpAll args) _ :=
        shows_sexpAll fun arg harg => hchild arg (List.mem_cons_of_mem _ harg)
      exact (hobject.cons (hattr.cons hargs)).form rfl (by decide) rfl

/-! ### Names of a source -/

theorem Lexeme.isName_of_word {w name : String} {c : Char} {cs : List Char}
    (hw : w.toList = c :: cs) (hstart : isWordStart c = true)
    (hcs : ∀ d ∈ cs, isWordChar d = true) (h : word w = .ident name) : IsName name := by
  unfold word at h
  split at h
  · cases h
  · next hnone =>
    cases h
    refine ⟨⟨c, cs, hw, ?_, ?_⟩, fun k hk => ?_⟩
    · simpa [isWordStart] using hstart
    · simpa [isWordChar] using hcs
    · have hnot := List.find?_eq_none.mp hnone k k.mem_all
      simp [hk] at hnot

/-- A piece that is a name has the letters of one. -/
theorem Lexeme.isName_scan {c : Char} {cs : List Char} {name : String}
    (h : (scan c cs).lexeme = .token (.ident name)) : IsName name := by
  unfold scan at h
  split at h
  · next scanned hcomment =>
    unfold scanComment? at hcomment
    split at hcomment <;> cases hcomment <;> cases h
  · split at h
    · cases h
    · split at h
      · cases h
      · split at h
        · simp only [scanString] at h
          split at h <;> cases h
        · split at h
          · unfold scanNumber at h
            split at h
            · cases h
            · simp only [integer] at h
              cases hvalue : int64? (Text.digitsValue ((c :: cs).takeWhile Char.isDigit)) <;>
                rw [hvalue] at h <;> cases h
          · split at h
            · next hstart =>
              have hchar : isWordChar c = true := by
                simp only [isWordStart, isWordChar, Char.isAlphanum, Bool.or_eq_true] at hstart ⊢
                exact hstart.imp_left .inl
              have htaken : (c :: cs).takeWhile isWordChar = c :: cs.takeWhile isWordChar := by
                rw [List.takeWhile_cons_of_pos hchar]
              have hword : word (String.ofList ((c :: cs).takeWhile isWordChar)) = .ident name :=
                Lexeme.token.inj h
              apply isName_of_word _ hstart _ hword
              · exact cs.takeWhile isWordChar
              · rw [String.toList_ofList, htaken]
              · exact fun d hd => List.mem_takeWhile_imp hd
            · revert h
              fun_cases scanSymbol c cs <;> intro h <;> cases h

/-- A name in the stream of a lexer is that of a piece. -/
theorem Lexer.isName_emit {l : Lexer} {span : Span} {x : Lexeme} {token : Token} {name : String}
    (h : .ok token ∈ l.emit span x) (hkind : token.kind = .ident name)
    (hx : x = .token (.ident name) → IsName name) : IsName name := by
  have hmarker : .ok token ∉ l.marker := by
    intro hmem
    have hmark : token.kind.isNoBlankLine = true := (mem_marker hmem).1
    rw [hkind] at hmark
    cases hmark
  unfold emit at h
  split at h
  · cases h
  · exact absurd h hmarker
  · rcases List.mem_append.mp h with h | h
    · exact absurd h hmarker
    · cases List.mem_singleton.mp h
      cases hkind
  · cases List.mem_singleton.mp h
    cases hkind
    exact hx rfl
  · cases List.mem_singleton.mp h

theorem Lexer.isName_all (l : Lexer) {token : Token} {name : String} (h : .ok token ∈ l.all.1)
    (hkind : token.kind = .ident name) : IsName name := by
  induction l using all_induction with
  | done l hr =>
    rw [all_nil hr] at h
    cases h
  | step l c cs hr ih =>
    rw [all_cons hr] at h
    rcases List.mem_append.mp h with h | h
    · exact isName_emit h hkind Lexeme.isName_scan
    · exact ih h

def TokenKind.isFloat : TokenKind → Bool
  | .float _ => true
  | _ => false

namespace Source

variable {source other : Source} {tree tree' : Node Span}

/-- Whether there is no float literal in the text. -/
def isFloatFree (source : Source) : Bool :=
  source.scan.1.all fun
    | .ok token => !token.kind.isFloat
    | .error _ => true

theorem worded (h : source.isFloatFree = true) : Worded source.Holds := by
  constructor
  · rintro w ⟨token, hmem, hkind⟩
    exact (Lexer.ofSource source).isName_all hmem hkind
  · rintro x ⟨token, hmem, hkind⟩
    have hfree : (!token.kind.isFloat) = true := List.all_eq_true.mp h _ hmem
    rw [hkind] at hfree
    cases hfree

/-- **Programs that are written alike are equal.** Two texts without float literals whose
programs are shown as the same nested parentheses hold the same program up to its spans,
and the marks of bodies, which are not shown, are the same too. -/
theorem eq_of_dump (h : source.parse = .ok tree) (h' : other.parse = .ok tree')
    (hfree : source.isFloatFree = true) (hfree' : other.isFloatFree = true)
    (hdump : tree.dump = tree'.dump) : tree.erase = tree'.erase := by
  have hlegible := Node.legible (worded hfree) (parse_sound h)
  have hlegible' := Node.legible (worded hfree') (parse_sound h')
  have htext : tree.sexp.text = tree'.sexp.text := by
    rw [tree.text_sexp, tree'.text_sexp, hdump]
  have hsexp : tree.sexp = tree'.sexp := Sexp.eq_of_text hlegible.plain hlegible'.plain htext
  have hread := hlegible.read
  rw [hsexp, hlegible'.read] at hread
  exact (Option.some.inj hread).symm

/-- The program of a text, as it is shown. -/
def shown? (source : Source) : Option String :=
  match source.parse with
  | .ok tree => some tree.dump
  | .error _ => none

theorem of_shown? {text : String} (h : source.shown? = some text) :
    ∃ tree, source.parse = .ok tree ∧ tree.dump = text := by
  unfold shown? at h
  split at h
  · next tree hparse =>
    cases h
    exact ⟨tree, hparse, rfl⟩
  · cases h

/-- A conditional whose body is a sequence behind a colon. -/
def indented : Source := ⟨"<test>", "if a:\n  b\n"⟩

/-- The same between braces. -/
def braced : Source := ⟨"<test>", "if a \x7b\nb\n\x7d"⟩

theorem eq_of_dump_braced : ∃ tree tree', indented.parse = .ok tree ∧ braced.parse = .ok tree' ∧
    tree.dump = "(block (if (a (block b))))" ∧ tree.erase = tree'.erase := by
  have hindented : indented.shown? = some "(block (if (a (block b))))" := by decide +kernel
  have hbraced : braced.shown? = some "(block (if (a (block b))))" := by decide +kernel
  obtain ⟨tree, hparse, hdump⟩ := of_shown? hindented
  obtain ⟨tree', hparse', hdump'⟩ := of_shown? hbraced
  have herase : tree.erase = tree'.erase :=
    eq_of_dump hparse hparse' (by decide +kernel) (by decide +kernel) (hdump.trans hdump'.symm)
  exact ⟨tree, tree', hparse, hparse', hdump, herase⟩

end Source

end Script
