import Script.Tree

/-! What stands directly below a node, sorted by how it is evaluated.

A node evaluates its `children` in its own context, and what stops a child stops the
node. The body of a loop is apart, since a loop exit that leaves it goes no further.
So are the functions that a node defines: their bodies run later, when they are
called. -/
namespace Script.Node

/-- The nodes that are evaluated with a node, but for the body of a loop. -/
def children : Node α → List (Node α)
  | .int .. | .float .. | .string .. | .name .. | .func .. | .exit .. | .cls .. => []
  | .list _ items | .block _ items | .new _ _ items => items
  | .declare _ _ _ _ value | .assign _ _ value | .unary _ _ value | .getAttr _ value _ => [value]
  | .binary _ _ left right | .index _ left right | .setAttr _ left _ right => [left, right]
  | .cond _ branches otherwise =>
    branches.flatMap (fun b => [b.condition, b.body.node]) ++ otherwise.toList.map Body.node
  | .forLoop _ _ start stop step _ => start :: stop :: step.toList
  | .whileLoop _ condition _ => [condition]
  | .call _ callee args | .methodCall _ callee _ args => callee :: args
  | .ret _ value => value.toList

/-- The body of a loop. -/
def loopBody : Node α → Option (Node α)
  | .forLoop _ _ _ _ _ body | .whileLoop _ _ body => some body.node
  | _ => none

/-- The functions that a node defines. -/
def definitions : Node α → List (FuncDef α)
  | .func _ definition => [definition]
  | .cls _ _ _ methods => methods
  | _ => []

/-- All nodes directly below a node. -/
def subtrees (tree : Node α) : List (Node α) :=
  tree.children ++ tree.loopBody.toList ++ tree.definitions.map FuncDef.body

/-- A property of a node and of all nodes below it. -/
inductive All (P : Node α → Prop) : Node α → Prop where
  | mk {tree : Node α} : P tree → (∀ sub ∈ tree.subtrees, All P sub) → All P tree

variable {P : Node α → Prop} {tree : Node α}

theorem All.self (h : tree.All P) : P tree := by
  cases h
  assumption

theorem All.subtree (h : tree.All P) : ∀ sub ∈ tree.subtrees, sub.All P := by
  cases h
  assumption

theorem All.imp {Q : Node α → Prop} (h : tree.All P) (hPQ : ∀ sub, P sub → Q sub) : tree.All Q := by
  induction h with
  | mk hself _ ih => exact .mk (hPQ _ hself) ih

/-- What holds of a node and of all nodes below it holds at every one. -/
theorem All.intro (h : P tree) (child : ∀ sub ∈ tree.children, sub.All P)
    (body : ∀ sub ∈ tree.loopBody, sub.All P) (definition : ∀ f ∈ tree.definitions, f.body.All P) :
    tree.All P := by
  refine .mk h fun sub hsub => ?_
  rcases List.mem_append.mp hsub with hsub | hsub
  · rcases List.mem_append.mp hsub with hsub | hsub
    · exact child sub hsub
    · exact body sub (Option.mem_toList.mp hsub)
  · obtain ⟨f, hf, rfl⟩ := List.mem_map.mp hsub
    exact definition f hf

theorem All.child (h : tree.All P) : ∀ child ∈ tree.children, child.All P :=
  fun child hc => h.subtree child (List.mem_append_left _ (List.mem_append_left _ hc))

theorem All.body (h : tree.All P) : ∀ body ∈ tree.loopBody, body.All P :=
  fun body hb => h.subtree body
    (List.mem_append_left _ (List.mem_append_right _ (Option.mem_toList.mpr hb)))

theorem All.definition (h : tree.All P) : ∀ f ∈ tree.definitions, f.body.All P :=
  fun _ hf => h.subtree _ (List.mem_append_right _ (List.mem_map_of_mem hf))

end Script.Node
