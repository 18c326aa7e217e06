import Script.Proofs.Discipline
import Script.Proofs.Places

/-! Loop exits end in loops.

A tree is loop-closed when every `break` and `continue` in it stands in the body of a
loop that belongs to the same function. What is evaluated with a loop but stands
outside its body, such as its bounds, belongs to whatever is around the loop.

If a program is loop-closed, and so are the functions it finds and the files it loads,
then no loop exit leaves a body (`Machine.exits_end_in_loops`): each ends in a loop of
the call that met it, through whatever is between the two. -/
namespace Script

/-! ### Loop-closed trees -/

mutual

/-- Whether every loop exit stands in the body of a loop, or may leave the tree because
the tree itself does. -/
def Node.loopClosed (inLoop : Bool) : Node α → Bool
  | .int .. | .float .. | .string .. | .name .. => true
  | .exit .. => inLoop
  | .list _ items | .block _ items | .new _ _ items => allLoopClosed inLoop items
  | .declare _ _ _ _ value | .assign _ _ value | .unary _ _ value | .getAttr _ value _ =>
    value.loopClosed inLoop
  | .binary _ _ left right | .index _ left right | .setAttr _ left _ right =>
    left.loopClosed inLoop && right.loopClosed inLoop
  | .cond _ branches otherwise =>
    branchesLoopClosed inLoop branches && otherwiseLoopClosed inLoop otherwise
  | .forLoop _ _ start stop step body =>
    start.loopClosed inLoop && stop.loopClosed inLoop && stepLoopClosed inLoop step &&
      body.loopClosed true
  | .whileLoop _ condition body => condition.loopClosed inLoop && body.loopClosed true
  | .func _ definition => definition.loopClosed
  | .call _ callee args | .methodCall _ callee _ args =>
    callee.loopClosed inLoop && allLoopClosed inLoop args
  | .ret _ (some value) => value.loopClosed inLoop
  | .ret _ none => true
  | .cls _ _ _ methods => methodsLoopClosed methods

def allLoopClosed (inLoop : Bool) : List (Node α) → Bool
  | [] => true
  | node :: nodes => node.loopClosed inLoop && allLoopClosed inLoop nodes

def Body.loopClosed (inLoop : Bool) : Body α → Bool
  | .mk node _ => node.loopClosed inLoop

def branchesLoopClosed (inLoop : Bool) : List (Branch α) → Bool
  | [] => true
  | .mk condition body :: branches =>
    condition.loopClosed inLoop && body.loopClosed inLoop && branchesLoopClosed inLoop branches

def otherwiseLoopClosed (inLoop : Bool) : Option (Body α) → Bool
  | none => true
  | some body => body.loopClosed inLoop

def stepLoopClosed (inLoop : Bool) : Option (Node α) → Bool
  | none => true
  | some step => step.loopClosed inLoop

/-- A function body is in no loop of the code around it. -/
def FuncDef.loopClosed : FuncDef α → Bool
  | .mk _ _ body _ => body.loopClosed false

def methodsLoopClosed : List (FuncDef α) → Bool
  | [] => true
  | method :: methods => method.loopClosed && methodsLoopClosed methods

end

variable {α : Type} {inLoop : Bool}

theorem Body.loopClosed_node (body : Body α) :
    body.node.loopClosed inLoop = body.loopClosed inLoop := by
  cases body
  rfl

theorem FuncDef.loopClosed_body (f : FuncDef α) : f.body.loopClosed false = f.loopClosed := by
  cases f
  rfl

theorem allLoopClosed_iff {items : List (Node α)} :
    allLoopClosed inLoop items = true ↔ ∀ item ∈ items, item.loopClosed inLoop = true := by
  induction items with
  | nil => simp [allLoopClosed]
  | cons item items ih => simp [allLoopClosed, ih]

theorem branchesLoopClosed_iff {branches : List (Branch α)} :
    branchesLoopClosed inLoop branches = true ↔ ∀ b ∈ branches,
      b.condition.loopClosed inLoop = true ∧ b.body.node.loopClosed inLoop = true := by
  induction branches with
  | nil => simp [branchesLoopClosed]
  | cons b branches ih =>
    obtain ⟨condition, body⟩ := b
    simp [branchesLoopClosed, ih, Branch.condition, Branch.body, Body.loopClosed_node, and_assoc]

theorem methodsLoopClosed_iff {methods : List (FuncDef α)} :
    methodsLoopClosed methods = true ↔ ∀ f ∈ methods, f.body.loopClosed false = true := by
  induction methods with
  | nil => simp [methodsLoopClosed]
  | cons f methods ih =>
    simp [methodsLoopClosed, ih, FuncDef.loopClosed_body]

namespace Node

variable {tree : Node α}

theorem loopClosed_child (h : tree.loopClosed inLoop = true) :
    ∀ sub ∈ tree.children, sub.loopClosed inLoop = true := by
  intro sub hsub
  cases tree with
  | int | float | string | name | func | exit | cls => cases hsub
  | list | block | new => exact allLoopClosed_iff.mp h sub hsub
  | declare | assign | unary | getAttr =>
    cases List.mem_singleton.mp hsub
    exact h
  | binary | index | setAttr => grind [children, loopClosed]
  | cond _ branches otherwise =>
    obtain ⟨hbranches, hotherwise⟩ := Bool.and_eq_true_iff.mp h
    rcases List.mem_append.mp hsub with hsub | hsub
    · obtain ⟨b, hb, hsub⟩ := List.mem_flatMap.mp hsub
      obtain ⟨hcondition, hbody⟩ := branchesLoopClosed_iff.mp hbranches b hb
      simp only [List.mem_cons, List.not_mem_nil, or_false] at hsub
      rcases hsub with rfl | rfl
      · exact hcondition
      · exact hbody
    · obtain ⟨body, hbody, rfl⟩ := List.mem_map.mp hsub
      cases Option.mem_toList.mp hbody
      exact body.loopClosed_node.trans hotherwise
  | forLoop _ _ start stop step body =>
    cases step <;> grind [children, loopClosed, stepLoopClosed]
  | whileLoop _ condition body =>
    cases List.mem_singleton.mp hsub
    exact (Bool.and_eq_true_iff.mp h).1
  | call | methodCall =>
    obtain ⟨hcallee, hargs⟩ := Bool.and_eq_true_iff.mp h
    rcases List.mem_cons.mp hsub with rfl | hsub
    · exact hcallee
    · exact allLoopClosed_iff.mp hargs sub hsub
  | ret _ value =>
    cases value with
    | none => cases hsub
    | some value =>
      cases List.mem_singleton.mp hsub
      exact h

/-- The body of a loop is in a loop, whatever the loop itself is in. -/
theorem loopClosed_body (h : tree.loopClosed inLoop = true) :
    ∀ sub ∈ tree.loopBody, sub.loopClosed true = true := by
  intro sub hsub
  cases tree with
  | forLoop _ _ start stop step body =>
    cases hsub
    exact body.loopClosed_node.trans (Bool.and_eq_true_iff.mp h).2
  | whileLoop _ condition body =>
    cases hsub
    exact body.loopClosed_node.trans (Bool.and_eq_true_iff.mp h).2
  | _ => cases hsub

theorem loopClosed_definition (h : tree.loopClosed inLoop = true) :
    ∀ f ∈ tree.definitions, f.body.loopClosed false = true := by
  intro f hf
  cases tree with
  | func _ definition =>
    cases List.mem_singleton.mp hf
    exact f.loopClosed_body.trans h
  | cls _ _ _ methods => exact methodsLoopClosed_iff.mp h f hf
  | _ => cases hf

end Node

/-- Whether the program in a source is loop-closed; a source without one is. -/
def Source.loopClosed (source : Source) : Bool :=
  match source.parse with
  | .ok tree => tree.loopClosed false
  | .error _ => true

/-! ### Runs -/

/-- A failure that is no escaped loop exit, nor quotes one: if it is of a script that
was loaded, that script did not fail so either. -/
inductive Failure.ExitFree : Failure → Prop where
  | own {f : Failure} : f.fault.isOwn = true → ExitFree f
  | quoting {f inner : Failure} {path : String} :
      f.fault = .scriptFailed path inner.report.render → ExitFree inner → ExitFree f

theorem Failure.ExitFree.fault_ne {f : Failure} (h : f.ExitFree) (e : LoopExit) :
    f.fault ≠ .outsideLoop e := by
  intro hf
  cases h with
  | own hown =>
    rw [hf] at hown
    cases hown
  | quoting hquoting _ =>
    rw [hf] at hquoting
    cases hquoting

theorem Fault.isOwn_of_isStatic {fault : Fault} (h : fault.kind.isStatic = true) :
    fault.isOwn = true := by
  cases fault <;> first | rfl | cases h

namespace Machine

/-- All functions in the store of a machine have loop-closed bodies. A store keeps every
function that was ever made, so this asks it of those as well that no name and no object
leads to any more. It is a condition on the store alone: a machine may as well have one
without them. -/
def LoopClosed (m : Machine) : Prop :=
  ∀ f ∈ m.store.functions, f.definition.body.loopClosed false = true

/-- The files that were opened on the way from `m` to `k` are loop-closed. -/
def LoadsLoopClosed (m k : Machine) : Prop :=
  ∀ opened path text, k.journal = opened ++ m.journal → .opened path ∈ opened →
    m.world.readFile path = .ok text → Source.loopClosed ⟨path, text⟩ = true

/-- Earlier on the way less was opened. -/
theorem LoadsLoopClosed.earlier {m k l : Machine} (h : LoadsLoopClosed m l) (hl : Grows k l) :
    LoadsLoopClosed m k := by
  intro opened path text hjournal hopened hread
  obtain ⟨more, hmore⟩ := hl.journal
  refine h (more ++ opened) path text ?_ (List.mem_append_right _ hopened) hread
  rw [← hmore, hjournal, List.append_assoc]

end Machine

open Machine (LoadsLoopClosed)

/-- As long as only loop-closed files are opened, only loop-closed trees are evaluated,
and a loop exit leaves a tree only towards the loop that the tree is in. -/
def Discipline.loopExits (origin : Machine) : Discipline where
  Mode := Bool
  top := false
  inside := true
  origin := origin
  node m inLoop tree := LoadsLoopClosed origin m → tree.loopClosed inLoop = true
  source m source := LoadsLoopClosed origin m → source.loopClosed = true
  place _ := True
  calls _ := True
  failure m f := LoadsLoopClosed origin m → f.ExitFree
  exit m inLoop _ := LoadsLoopClosed origin m → inLoop = true
  later hk h hloads := h (hloads.earlier hk)
  child h sub hsub hloads := Node.loopClosed_child (h hloads) sub hsub
  body h sub hsub hloads := Node.loopClosed_body (h hloads) sub hsub
  definition h f hf hloads := Node.loopClosed_definition (h hloads) f hf
  tag _ := trivial
  joined _ := trivial
  exits h hloads := h hloads
  program := trivial
  enter _ _ _ := trivial
  start _ := trivial
  raised _ _ hown _ := .own hown
  escaped _ _ hexit hloads := Bool.noConfusion (hexit hloads)
  quoted _ _ _ hinner hloads := .quoting rfl (hinner hloads)
  parsed := by
    intro m tree s hs hparse hloads
    have hclosed := hs hloads
    unfold Source.loopClosed at hclosed
    rw [hparse] at hclosed
    exact hclosed
  refused := by
    intro m f s hparse _
    have hplaced := s.parse_placed
    rw [hparse] at hplaced
    exact .own (Fault.isOwn_of_isStatic hplaced.kind)
  loaded := by
    intro m path text hgrows hread hloads
    obtain ⟨opened, hopened⟩ := hgrows.journal
    refine hloads (.opened path :: opened) path text ?_ List.mem_cons_self ?_
    · rw [← hopened]
      rfl
    · rw [← hgrows.readFile_eq path]
      exact hread

namespace Machine

theorem LoopClosed.keeps {m : Machine} (hm : m.LoopClosed) : (Discipline.loopExits m).Keeps m :=
  ⟨.refl, fun f hf _ => hm f hf⟩

/-- **Loop exits end in loops.** On a machine whose functions are loop-closed, no run of
a loop-closed source that loads only loop-closed files ends in an escaped loop exit, nor
does any script that it loads, and the functions it leaves are loop-closed again. No
loop-closed tree, be it a program or the body of a function, is left by a loop exit. -/
theorem exits_end_in_loops {m : Machine} (hm : m.LoopClosed) (n : Nat) :
    (∀ source outcome k, source.loopClosed = true → m.run n source = (outcome, k) →
      m.LoadsLoopClosed k → k.LoopClosed ∧
        ∀ f, outcome = .failure f → f.ExitFree ∧ ∀ e, f.fault ≠ .outsideLoop e) ∧
    ∀ tree c e span k, tree.loopClosed false = true →
      Task.perform n (.node tree c) m = .error (.exit e span) k → ¬ m.LoadsLoopClosed k := by
  refine ⟨fun source outcome k hsource hrun hloads => ?_,
    fun tree c e span k htree hexit hloads => ?_⟩
  · have hobeys := (Discipline.loopExits m).run_obeys n source hm.keeps fun _ => hsource
    rw [show run n m source = _ from hrun] at hobeys
    refine ⟨fun f hf => hobeys.1.functions f hf hloads, fun f hf => ?_⟩
    have hfree : f.ExitFree := hobeys.2 f hf hloads
    exact ⟨hfree, hfree.fault_ne⟩
  · have hobeys : (Discipline.loopExits m).Obeys false m (Task.perform n (.node tree c)) :=
      ((Discipline.loopExits m).performs n).node hm.keeps (fun _ => htree) trivial
    unfold Discipline.Obeys at hobeys
    rw [hexit] at hobeys
    exact Bool.noConfusion (hobeys.2.2 hloads)

/-! ### Exits from within a list and a sum, and in a file that is loaded -/

def loopFile : Source := ⟨"lib", "for i = 0 to 2: break"⟩

/-- A world in which every file holds the text of `loopFile`. -/
def looping : World :=
  { (default : World) with
    files := fun _ => .ok [102, 111, 114, 32, 105, 32, 61, 32, 48, 32, 116, 111, 32, 50, 58, 32,
      98, 114, 101, 97, 107] }

/-- A function that leaves its loop early, loads a file, and then fails. -/
def leaver : Source :=
  ⟨"<test>",
    "func f() \x7b; for i = 0 to 3 \x7b; [1 + (if i: break)]; \x7d; run(\"lib\"); 1 / 0; \x7d; f()"⟩

theorem opened_mem_openedFiles {m : Machine} {path : String} (h : .opened path ∈ m.journal) :
    path ∈ m.openedFiles :=
  List.mem_filterMap.mpr ⟨_, List.mem_reverse.mpr h, rfl⟩

def isFailure : Outcome → Bool
  | .failure _ => true
  | _ => false

theorem exits_end_in_loops_leaver : ∃ f k,
    (start looping).run 20 leaver = (.failure f, k) ∧ k.openedFiles = ["lib"] ∧
    k.LoopClosed ∧ ∀ e, f.fault ≠ .outsideLoop e := by
  have hm : (start looping).LoopClosed :=
    fun f hf => absurd hf (by simp [start, renew, Store.empty])
  have hleaver : leaver.loopClosed = true := by decide +kernel
  have hfile : loopFile.loopClosed = true := by decide +kernel
  have hread : (start looping).world.readFile "lib" = .ok loopFile.text := by rfl
  have hfails : isFailure ((start looping).run 20 leaver).1 = true := by decide +kernel
  have hopened : ((start looping).run 20 leaver).2.openedFiles = ["lib"] := by decide +kernel
  cases hrun : (start looping).run 20 leaver with
  | mk outcome k =>
    rw [hrun] at hfails hopened
    cases outcome with
    | failure f =>
      have hloads : (start looping).LoadsLoopClosed k := by
        intro opened path text hjournal hmem htext
        have hpath : path ∈ k.openedFiles :=
          opened_mem_openedFiles (hjournal ▸ List.mem_append_left _ hmem)
        rw [hopened] at hpath
        cases List.mem_singleton.mp hpath
        cases hread.symm.trans htext
        exact hfile
      obtain ⟨hclosed, hfree⟩ := (exits_end_in_loops hm 20).1 leaver _ k hleaver hrun hloads
      exact ⟨f, k, rfl, hopened, hclosed, (hfree f rfl).2⟩
    | value v => cases hfails
    | exhausted => cases hfails

end Machine

end Script
