import Script.Proofs.Places

/-! What a node is made of: the nodes and parameters directly below it, in the order of the
text, the words it holds itself, and the bodies that it marks.

Parts lie in a row (`InRow`): each within the same bounds, and each behind the one before.
Two rows one behind the other are one row, so the row of a node is put together along the
text of its parser. There are two exceptions. The block of a function that is written as
one `return` starts with the word `func`, and so before the parameters (`ReturnsBehind`).
And a conditional whose last body has no statement in it ends before the place of that
body, which is where the next token starts (`TrailsOff`). -/
namespace Script

/-- A node or a parameter directly below a node. -/
inductive Part where
  | node (tree : Node Span)
  | param (declared : Param Span)

namespace Part

def span : Part → Span
  | .node tree => tree.tag
  | .param declared => declared.tag

/-- The byte offset at which a part starts. -/
def first (p : Part) : Nat := p.span.start.index

/-- The byte offset at which a part ends. -/
def last (p : Part) : Nat := p.span.stop.index

/-- A block around a parameter, of one `return` that stands behind the parameter. -/
def ReturnsBehind (p q : Part) : Prop :=
  ∃ declared tag returned value, p = .param declared ∧
    q = .node (.block tag [.ret returned (some value)]) ∧
    tag.start.index ≤ p.first ∧ p.last ≤ returned.start.index

/-- A part that ends before another starts. -/
def Before (p q : Part) : Prop := p.last ≤ q.first ∨ ReturnsBehind p q

end Part

open Script.Part (Before ReturnsBehind)

def FuncDef.parts (f : FuncDef Span) : List Part := f.params.map .param ++ [.node f.body]

/-- The parts of a conditional. -/
def condParts (branches : List (Branch Span)) (otherwise : Option (Body Span)) : List Part :=
  branches.flatMap (fun b => [.node b.condition, .node b.body.node]) ++
    otherwise.toList.map fun b => .node b.node

namespace Node

/-- What stands directly below a node, in the order of the text. -/
def parts : Node Span → List Part
  | .int .. | .float .. | .string .. | .name .. | .exit .. => []
  | .list _ items | .block _ items | .new _ _ items => items.map .node
  | .declare _ _ _ _ value | .assign _ _ value | .unary _ _ value | .getAttr _ value _ =>
    [.node value]
  | .binary _ _ left right | .index _ left right | .setAttr _ left _ right =>
    [.node left, .node right]
  | .cond _ branches otherwise => condParts branches otherwise
  | .forLoop _ _ start stop step body =>
    [.node start, .node stop] ++ step.toList.map .node ++ [.node body.node]
  | .whileLoop _ condition body => [.node condition, .node body.node]
  | .func _ definition => definition.parts
  | .cls _ _ _ methods => methods.flatMap FuncDef.parts
  | .call _ callee args | .methodCall _ callee _ args => .node callee :: args.map .node
  | .ret _ value => value.toList.map .node

/-- No node below another is left out of its parts. -/
theorem node_mem_parts {tree sub : Node Span} (h : sub ∈ tree.subtrees) :
    .node sub ∈ tree.parts := by
  cases tree with
  | cond _ branches otherwise =>
    simp only [subtrees, children, loopBody, definitions, Option.toList_none, List.map_nil,
      List.append_nil, List.mem_append, List.mem_flatMap, List.mem_map] at h
    simp only [parts, condParts, List.mem_append, List.mem_flatMap, List.mem_map]
    rcases h with ⟨b, hb, hsub⟩ | ⟨b, hb, rfl⟩
    · refine .inl ⟨b, hb, ?_⟩
      simpa using hsub
    · exact .inr ⟨b, hb, rfl⟩
  | cls _ _ _ methods =>
    simp only [subtrees, children, loopBody, definitions, Option.toList_none, List.nil_append,
      List.mem_map] at h
    obtain ⟨f, hf, rfl⟩ := h
    refine List.mem_flatMap.mpr ⟨f, hf, ?_⟩
    simp [FuncDef.parts]
  | int | float | string | name | exit => cases h
  | _ => simpa [subtrees, children, loopBody, definitions, parts, FuncDef.parts] using h

/-- Whether a node is a sequence of statements. -/
def isBlock : Node α → Bool
  | .block .. => true
  | _ => false

/-- The bodies that a node marks. -/
def bodies : Node α → List (Body α)
  | .cond _ branches otherwise => branches.map Branch.body ++ otherwise.toList
  | .forLoop _ _ _ _ _ body | .whileLoop _ _ body => [body]
  | _ => []

end Node

/-- The words of a function, apart from those of its body. -/
def FuncDef.words (f : FuncDef α) : List TokenKind :=
  f.name.toList.map .ident ++ f.params.map fun p => .ident p.name

/-- The literal or the names that a node holds itself. -/
def Node.words : Node α → List TokenKind
  | .int _ n => [.int n]
  | .float _ x => [.float x]
  | .string _ s => [.string s]
  | .name _ word | .declare _ word .. | .assign _ word _ | .forLoop _ word .. | .new _ word _
  | .getAttr _ _ word | .setAttr _ _ word _ | .methodCall _ _ word _ => [.ident word]
  | .func _ definition => definition.words
  | .cls _ word parent methods =>
    .ident word :: (parent.toList.map .ident ++ methods.flatMap FuncDef.words)
  | _ => []

/-! ### Nested spans -/

namespace Node

/-- A conditional whose last part is a block without statements. -/
def TrailsOff (tree : Node Span) (p : Part) : Prop :=
  (∃ tag branches otherwise, tree = .cond tag branches otherwise) ∧
    (∃ tag, p = .node (.block tag [])) ∧ tree.parts.getLast? = some p

/-- The span of a node covers its parts, and these lie one behind the other. -/
structure Nests (tree : Node Span) : Prop where
  ordered : tree.tag.start.index ≤ tree.tag.stop.index
  covers : ∀ p ∈ tree.parts, tree.tag.start.index ≤ p.first ∧ p.first ≤ p.last ∧
    (p.last ≤ tree.tag.stop.index ∨ tree.TrailsOff p)
  apart : tree.parts.Pairwise Before

variable {K : TokenKind → Prop} {tree : Node Span}

/-- A node whose parts are nested in it, whose words are of the kinds `K`, and whose bodies
are marked if they are blocks. -/
structure Built (K : TokenKind → Prop) (tree : Node Span) : Prop where
  nests : tree.Nests
  words : ∀ k ∈ tree.words, K k
  marks : ∀ body ∈ tree.bodies, body.emitsNull = body.node.isBlock

/-- Such a node, with such nodes below it. -/
abbrev Sound (K : TokenKind → Prop) (tree : Node Span) : Prop := tree.All (Built K)

end Node

open Node (Sound Built Nests)

/-! ### Rows -/

variable {K : TokenKind → Prop} {low mid high : Nat} {parts others : List Part} {p : Part}

def Part.Sound (K : TokenKind → Prop) (p : Part) : Prop := ∀ tree, p = .node tree → tree.Sound K

/-- Parts between two byte offsets, one behind the other. -/
structure InRow (K : TokenKind → Prop) (low high : Nat) (parts : List Part) : Prop where
  le : low ≤ high
  inside : ∀ p ∈ parts, low ≤ p.first ∧ p.first ≤ p.last ∧ p.last ≤ high
  apart : parts.Pairwise Before
  sound : ∀ p ∈ parts, p.Sound K

namespace InRow

theorem nil (h : low ≤ high) : InRow K low high [] := ⟨h, nofun, .nil, nofun⟩

theorem single (hlow : low ≤ p.first) (hle : p.first ≤ p.last) (hhigh : p.last ≤ high)
    (hsound : p.Sound K) : InRow K low high [p] := by
  refine ⟨by omega, fun q hq => ?_, List.pairwise_singleton _ _, fun q hq => ?_⟩
  · cases List.mem_singleton.mp hq
    exact ⟨hlow, hle, hhigh⟩
  · cases List.mem_singleton.mp hq
    exact hsound

theorem widen (h : InRow K low high parts) {low' high' : Nat} (hlow : low' ≤ low)
    (hhigh : high ≤ high') : InRow K low' high' parts := by
  refine ⟨Nat.le_trans hlow (Nat.le_trans h.le hhigh), fun p hp => ?_, h.apart, h.sound⟩
  obtain ⟨h₁, h₂, h₃⟩ := h.inside p hp
  exact ⟨Nat.le_trans hlow h₁, h₂, Nat.le_trans h₃ hhigh⟩

theorem append (h : InRow K low mid parts) (h' : InRow K mid high others) :
    InRow K low high (parts ++ others) := by
  constructor
  · exact Nat.le_trans h.le h'.le
  · intro p hp
    rcases List.mem_append.mp hp with hp | hp
    · exact (h.widen (Nat.le_refl _) h'.le).inside p hp
    · exact (h'.widen h.le (Nat.le_refl _)).inside p hp
  · refine List.pairwise_append.mpr ⟨h.apart, h'.apart, fun p hp q hq => .inl ?_⟩
    exact Nat.le_trans (h.inside p hp).2.2 (h'.inside q hq).1
  · intro p hp
    rcases List.mem_append.mp hp with hp | hp
    · exact h.sound p hp
    · exact h'.sound p hp

/-- A row behind another, with something in between. -/
theorem follow (h : InRow K low mid parts) {mid' : Nat} (hle : mid ≤ mid')
    (h' : InRow K mid' high others) : InRow K low high (parts ++ others) :=
  (h.widen (Nat.le_refl _) hle).append h'

theorem bounds (h : InRow K low high [p]) : low ≤ p.first ∧ p.first ≤ p.last ∧ p.last ≤ high :=
  h.inside p List.mem_cons_self

/-- A part on its own, within its own bounds. -/
theorem self (h : InRow K low high [p]) : InRow K p.first p.last [p] :=
  .single (Nat.le_refl _) h.bounds.2.1 (Nat.le_refl _) (h.sound p List.mem_cons_self)

/-- A block from where the parameters start on, of one `return` behind them. -/
theorem around {params : List (Param Span)} {tag returned : Span} {value : Node Span}
    (h : InRow K low mid (params.map .param))
    (hblock : InRow K low high [.node (.block tag [.ret returned (some value)])])
    (hstart : tag.start.index ≤ low) (hreturn : mid ≤ returned.start.index)
    (hle : mid ≤ high) :
    InRow K low high (params.map .param ++ [.node (.block tag [.ret returned (some value)])]) := by
  have hparams := h.widen (Nat.le_refl _) hle
  constructor
  · exact hblock.le
  · intro p hp
    rcases List.mem_append.mp hp with hp | hp
    · exact hparams.inside p hp
    · exact hblock.inside p hp
  · refine List.pairwise_append.mpr ⟨h.apart, hblock.apart, fun p hp q hq => .inr ?_⟩
    obtain ⟨declared, _, rfl⟩ := List.mem_map.mp hp
    obtain ⟨hfirst, _, hlast⟩ := h.inside _ hp
    cases List.mem_singleton.mp hq
    exact ⟨declared, tag, returned, value, rfl, rfl, Nat.le_trans hstart hfirst,
      Nat.le_trans hlast hreturn⟩
  · intro p hp
    rcases List.mem_append.mp hp with hp | hp
    · exact hparams.sound p hp
    · exact hblock.sound p hp

end InRow

/-- A node is sound if its parts are and are nested in it. -/
theorem Node.Sound.intro {tree : Node Span} (hnests : tree.Nests)
    (hsound : ∀ p ∈ tree.parts, p.Sound K) (hwords : ∀ k ∈ tree.words, K k)
    (hmarks : ∀ body ∈ tree.bodies, body.emitsNull = body.node.isBlock) : tree.Sound K :=
  .mk ⟨hnests, hwords, hmarks⟩ fun sub hsub => hsound _ (Node.node_mem_parts hsub) sub rfl

/-- Parts that lie in a row from the start of a node to its end are nested in it. -/
theorem InRow.nests {tree : Node Span}
    (h : InRow K tree.tag.start.index tree.tag.stop.index tree.parts) : tree.Nests := by
  refine ⟨h.le, fun p hp => ?_, h.apart⟩
  obtain ⟨h₁, h₂, h₃⟩ := h.inside p hp
  exact ⟨h₁, h₂, .inl h₃⟩

/-- A node whose parts lie in a row from its start to its end, as a part. -/
theorem InRow.node {tree : Node Span}
    (h : InRow K tree.tag.start.index tree.tag.stop.index tree.parts)
    (hlow : low ≤ tree.tag.start.index) (hhigh : tree.tag.stop.index ≤ high)
    (hwords : ∀ k ∈ tree.words, K k)
    (hmarks : ∀ body ∈ tree.bodies, body.emitsNull = body.node.isBlock) :
    InRow K low high [.node tree] := by
  have hle : (Part.node tree).first ≤ (Part.node tree).last := h.le
  apply InRow.single hlow hle hhigh
  rintro _ ⟨⟩
  exact .intro h.nests h.sound hwords hmarks

end Script
