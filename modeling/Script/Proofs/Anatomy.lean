import Script.Proofs.Laws
import Script.Proofs.Subtrees

/-! What a moment of a run comes to do.

The node of a moment has parts, which are evaluated in its context, and it may come
to call a value (`Calls`). These decide what the step of the moment may do: which
tasks it may ask for, what it may change, and in which frame it raises a failure
(`law`). Every step follows the law of its moment (`follows`). -/
namespace Script

/-! ### The law of a moment -/

/-- The name of the frame that a call enters. -/
inductive Machine.Enters (m : Machine) : Value → String → Prop where
  | function {callee f} : m.Runs callee f → Enters m callee f.definition.label
  | builtin (b : Builtin) : Enters m (.builtin b) b.name

namespace Moment

open Eval

/-- The nodes that a task evaluates in its own context. -/
def parts : Task → List (Node Span)
  | .node tree _ => tree.children ++ tree.loopBody.toList
  | .script source =>
    match source.parse with
    | .ok program => [program]
    | .error _ => []

/-- The context of what a moment does. -/
def context (a : Moment) : Context :=
  match a.task with
  | .node _ c => c
  | .script _ => topLevel a.machine.globals

/-- The moment comes to call a value with arguments, on the machine of the call. A
source file whose top level is done calls the `main` that it has bound. -/
inductive Calls : Moment → Span → Value → List Value → Machine → Prop where
  | call {n c m span callee args f vs k k'} :
      Task.perform n (.node callee c) m = .ok f k →
      evalAll (Task.perform n) c args k = .ok vs k' →
      Calls ⟨n + 1, .node (.call span callee args) c, m⟩ span f vs k'
  | methodCall {n c m span object name args o f vs k k' k''} :
      Task.perform n (.node object c) m = .ok o k →
      readAttribute c o name span k = .ok f k' →
      evalAll (Task.perform n) c args k' = .ok vs k'' →
      Calls ⟨n + 1, .node (.methodCall span object name args) c, m⟩ span f vs k''
  | new {n c m span cls args id vs k k'} :
      classNamed c cls span m = .ok id k →
      evalAll (Task.perform n) c args k = .ok vs k' →
      Calls ⟨n + 1, .node (.new span cls args) c, m⟩ span (.cls id) vs k'
  | main {n source m program v f k} :
      source.parse = .ok program → Path.isSourceFile source.name = true →
      Task.perform n (.node program (topLevel m.globals)) m = .ok v k →
      k.scopes.get? m.globals "main" = some f →
      (∀ old ∈ m.scopes.get? m.globals "main", k.store.equal old f = some false) →
      Calls ⟨n + 1, .script source, m⟩ (.point (.start source)) f [] k

/-- The moment raises a failure itself, in its own frame or in that of a call that it
has come to; the name of that frame is then given, with the place of the call. -/
inductive Raises (a : Moment) (f : Failure) : List (String × Span) → Prop where
  | uncalled : (∀ span callee args k, ¬ a.Calls span callee args k) → f.fault.blame = .running →
      Raises a f []
  | refused {span callee args k} : a.Calls span callee args k → f.fault.blame = .caller →
      Raises a f []
  | entered {span callee args k label} : a.Calls span callee args k → k.Enters callee label →
      f.fault.blame = .running → Raises a f [(label, span)]

/-- The moment has a list changed: a builtin that does so is called on it. -/
def ChangesList (a : Moment) (id : Nat) : Prop :=
  ∃ span b rest k, a.Calls span (.builtin b) (.list id :: rest) k ∧ b.changesList = true

/-- The moment has an attribute of an instance set. -/
inductive SetsAttribute : Moment → Nat → Prop where
  | builtin {a span id rest k} : a.Calls span (.builtin .setAttr) (.inst id :: rest) k →
      SetsAttribute a id
  | assigned {n c m span object name value id v k k'} :
      Task.perform n (.node object c) m = .ok (.inst id) k →
      Task.perform n (.node value c) k = .ok v k' →
      SetsAttribute ⟨n + 1, .node (.setAttr span object name value) c, m⟩ id

/-- The tasks that a moment may ask for: its parts in its own context, the body of a
function that it calls in a frame of the function, and a script that it loads. -/
inductive Admits (a : Moment) : Task → Prop where
  | part {tree} : tree ∈ parts a.task → Admits a (.node tree a.context)
  | body {span callee args k f scope} : a.Calls span callee args k → k.Runs callee f →
      Admits a (.node f.definition.body
        ⟨scope, ⟨f.definition.label, some span.start⟩ :: a.context.calls⟩)
  | script {span args k source} : a.Calls span (.builtin .run) args k →
      Admits a (.script source)

/-- The call that a frame stands for. -/
def frame (e : String × Span) : Call := ⟨e.1, some e.2.start⟩

/-- What the moment may do. A text that does not parse is refused; whatever else is
raised has the frames of the context in its traceback, and that of the call. -/
def law (a : Moment) : Law where
  nested := a.Admits
  lists := a.ChangesList
  instances := a.SetsAttribute
  raise f := (∃ source, a.task = .script source ∧ source.parse = .error f) ∨
    ∃ es, a.Raises f es ∧ f.traceback = traceback f.span.start (es.map frame ++ a.context.calls)

variable {a : Moment} {span : Span} {callee : Value} {args : List Value} {k : Machine}

theorem covers_of_uncalled (h : ∀ span callee args k, ¬ a.Calls span callee args k) :
    a.law.Covers a.context.calls :=
  fun _ _ hblame => .inr ⟨[], .uncalled h hblame, rfl⟩

/-- A call may do what the law of its moment says. -/
theorem Calls.lets (h : a.Calls span callee args k) : a.law.Lets a.context span k callee args where
  blames _ _ hblame := .inr ⟨[], .refused h hblame, rfl⟩
  runs _ hf :=
    { frame _ _ hblame := .inr ⟨[(_, span)], .entered h (.function hf) hblame, rfl⟩
      body _ := .body h hf }
  builtin b heq _ _ hblame := .inr ⟨[(_, span)], .entered h (heq ▸ .builtin b) hblame, rfl⟩
  script _ heq := .script (heq ▸ h)
  lists heq hb hargs := ⟨_, _, _, _, heq ▸ hargs ▸ h, hb⟩
  instances heq hargs := .builtin (heq ▸ hargs ▸ h)

/-- Whether a node may come to a call. -/
def mayCall : Node Span → Bool
  | .call .. | .methodCall .. | .new .. => true
  | _ => false

theorem not_calls_of_plain {n : Nat} {tree : Node Span} {c : Context} {m : Machine}
    (h : mayCall tree = false) : ¬ Calls ⟨n, .node tree c, m⟩ span callee args k := by
  intro hcalls
  cases hcalls with
  | call | methodCall | new => exact Bool.noConfusion h

section Node

variable {n : Nat} {c : Context} {tree : Node Span} {m : Machine}

theorem Admits.child {sub : Node Span} (h : sub ∈ tree.children) :
    Admits ⟨n, .node tree c, m⟩ (.node sub c) :=
  .part (List.mem_append_left _ h)

theorem Admits.loopBody {body : Node Span} (h : body ∈ tree.loopBody) :
    Admits ⟨n, .node tree c, m⟩ (.node body c) :=
  .part (List.mem_append_right _ (Option.mem_toList.mpr h))

theorem follows_call (callee : Node Span) (args : List (Node Span)) :
    Follows (law ⟨n + 1, .node (.call span callee args) c, m⟩) (Task.perform n) m
      fun q => evalNode q n c (.call span callee args) := by
  refine .bind (.node (.child List.mem_cons_self)) fun f k hf => ?_
  refine .bind (follows_evalAll fun arg ha => .child (List.mem_cons_of_mem _ ha)) ?_
  exact fun vs k' hvs => Eval.follows_call (Calls.call hf hvs).lets

/-- If the name does not stand for a class, no call is come to. -/
theorem follows_new (cls : String) (args : List (Node Span)) :
    Follows (law ⟨n + 1, .node (.new span cls args) c, m⟩) (Task.perform n) m
      fun q => evalNode q n c (.new span cls args) := by
  have hnamed : Own (law ⟨n + 1, .node (.new span cls args) c, m⟩) m (classNamed c cls span) := by
    refine .of_covering c.calls (own_classNamed Law.covers_covering cls) ?_
    intro f k hfails
    refine covers_of_uncalled (a := ⟨n + 1, .node (.new span cls args) c, m⟩) ?_
    intro _ _ _ _ hcalls
    cases hcalls with
    | new hnamed _ =>
      rw [hfails] at hnamed
      cases hnamed
  refine .after hnamed fun id k hid => ?_
  refine .bind (follows_evalAll fun arg ha => .child ha) fun vs k' hvs => ?_
  exact follows_instantiate (Calls.new hid hvs).lets

/-- If the object does not have the attribute, no call is come to. -/
theorem follows_methodCall (object : Node Span) (name : String) (args : List (Node Span)) :
    Follows (law ⟨n + 1, .node (.methodCall span object name args) c, m⟩) (Task.perform n) m
      fun q => evalNode q n c (.methodCall span object name args) := by
  refine .bind (.node (.child List.mem_cons_self)) fun o k ho => ?_
  have hread : Own (law ⟨n + 1, .node (.methodCall span object name args) c, m⟩) k
      (readAttribute c o name span) := by
    refine .of_covering c.calls (own_readAttribute Law.covers_covering o name) ?_
    intro f k' hfails
    refine covers_of_uncalled (a := ⟨n + 1, .node (.methodCall span object name args) c, m⟩) ?_
    intro _ _ _ _ hcalls
    cases hcalls with
    | methodCall ho' hread _ =>
      cases ho.symm.trans ho'
      rw [hfails] at hread
      cases hread
  refine .after hread fun f k' hf => ?_
  refine .bind (follows_evalAll fun arg ha => .child (List.mem_cons_of_mem _ ha)) ?_
  exact fun vs k'' hvs => Eval.follows_call (Calls.methodCall ho hf hvs).lets

/-- One case for each kind of node. -/
theorem follows_evalNode (n : Nat) (c : Context) (tree : Node Span) (m : Machine) :
    Follows (law ⟨n + 1, .node tree c, m⟩) (Task.perform n) m fun q => evalNode q n c tree := by
  have hplain : mayCall tree = false → (law ⟨n + 1, .node tree c, m⟩).Covers c.calls :=
    fun h => covers_of_uncalled fun _ _ _ _ => not_calls_of_plain h
  cases tree with
  | int | float | string => exact .own (.pure _)
  | list _ items =>
    exact .before (follows_evalAll fun _ hi => .child hi) fun _ _ _ => own_newList _
  | block _ items =>
    exact .before (follows_evalAll fun _ hi => .child hi) fun _ _ _ => own_newList _
  | name span name =>
    refine .before (.own (own_lookup c name)) fun found _ _ => ?_
    cases found with
    | some v => exact .pure v
    | none => exact .fail (hplain rfl) rfl
  | declare span name type constant value =>
    refine .before (.node (.child (by simp [Node.children]))) fun v k _ => ?_
    refine .bind (own_checkType (hplain rfl) type v) fun _ k' _ => ?_
    exact .bind (own_define (hplain rfl) ..) fun _ _ _ => .pure v
  | assign span name value =>
    refine .before (.node (.child (by simp [Node.children]))) fun v k _ => ?_
    exact .bind (own_assign (hplain rfl) ..) fun _ _ _ => .pure v
  | binary _ op left right =>
    refine .bind (.node (.child (by simp [Node.children]))) fun l k _ => ?_
    refine .before (.node (.child (by simp [Node.children]))) fun r k' _ => ?_
    exact own_applyBinary (hplain rfl) op left right l r
  | unary span op operand =>
    refine .before (.node (.child (by simp [Node.children]))) fun v k _ => ?_
    exact own_applyUnary (hplain rfl) op v
  | cond _ branches otherwise =>
    refine follows_choose (fun body hb => Admits.child ?_)
      fun b hb => ⟨Admits.child ?_, Admits.child ?_⟩
    · exact List.mem_append_right _ (List.mem_map_of_mem (Option.mem_toList.mpr hb))
    · exact List.mem_append_left _ (List.mem_flatMap.mpr ⟨b, hb, by simp⟩)
    · exact List.mem_append_left _ (List.mem_flatMap.mpr ⟨b, hb, by simp⟩)
  | forLoop span counter start stop step body =>
    have hc := hplain rfl
    refine .bind (follows_loopNumber hc (.child (by simp [Node.children]))) fun first k₁ _ => ?_
    refine .bind (follows_loopNumber hc (.child (by simp [Node.children]))) fun last k₂ _ => ?_
    refine .bind (follows_loopStep hc fun node hn => .child (by simp_all [Node.children])) ?_
    intro by_ k₃ _
    refine .before (follows_countFrom hc (.loopBody rfl) ..) fun results k _ => ?_
    exact own_loopValue body results
  | whileLoop span condition body =>
    have hcondition :
        Admits ⟨n + 1, .node (.whileLoop span condition body) c, m⟩ (.node condition c) :=
      .child (by simp [Node.children])
    refine .before (follows_repeatWhile hcondition (Admits.loopBody rfl) ..) fun results k _ => ?_
    exact own_loopValue body results
  | func span definition =>
    refine .before (.own (own_newFunction _)) fun id k _ => ?_
    dsimp only
    cases definition.name with
    | none => exact .pure _
    | some name => exact .bind (own_define (hplain rfl) ..) fun _ _ _ => .pure _
  | call span callee args => exact follows_call callee args
  | index _ target index =>
    refine .bind (.node (.child (by simp [Node.children]))) fun t k _ => ?_
    refine .before (.node (.child (by simp [Node.children]))) fun i k' _ => ?_
    exact own_applyIndex (hplain rfl) target index t i
  | ret _ value =>
    cases value with
    | none => exact .own (.throw fun _ h => nomatch h)
    | some value =>
      refine .before (.node (.child (by simp [Node.children]))) fun v k _ => ?_
      exact .throw fun _ h => nomatch h
  | exit span exit => exact .own (.throw fun _ h => nomatch h)
  | cls span name parent methods =>
    have hrest : ∀ (id : Option Nat) k,
        Own (law ⟨n + 1, .node (.cls span name parent methods) c, m⟩) k (do
          let methods ← makeMethods c methods .empty
          let id ← newClass ⟨name, methods, id⟩
          define c name (Value.cls id) false span
          return Value.cls id) := by
      intro parent k
      refine .bind (own_makeMethods c methods .empty) fun _ k₁ _ => ?_
      refine .bind (.quietly rfl rfl rfl) fun id k₂ _ => ?_
      exact .bind (own_define (hplain rfl) ..) fun _ _ _ => .pure _
    cases parent with
    | none => exact .own (hrest none m)
    | some parent =>
      exact .before (.own (own_classNamed (hplain rfl) parent)) fun id k _ => hrest (some id) k
  | new span cls args => exact follows_new cls args
  | getAttr span object name =>
    refine .before (.node (.child (by simp [Node.children]))) fun o k _ => ?_
    exact own_readAttribute (hplain rfl) o name
  | setAttr _ object name value =>
    refine .bind (.node (.child (by simp [Node.children]))) fun o k ho => ?_
    refine .before (.node (.child (by simp [Node.children]))) fun v k' hv => ?_
    cases o with
    | inst id =>
      refine .bind (own_setAttribute ?_ name v) fun _ _ _ => .pure v
      exact SetsAttribute.assigned ho hv
    | _ => exact .fail (hplain rfl) rfl
  | methodCall span object name args => exact follows_methodCall object name args

end Node

/-! ### Scripts -/

section Script

variable {n : Nat} {source : Source} {program : Node Span} {m : Machine}

/-- Where `main` is not what this script has bound, no call is come to. -/
theorem not_calls_of_noMain {k : Machine} {v : Value} (hparse : source.parse = .ok program)
    (hrun : Task.perform n (.node program (topLevel m.globals)) m = .ok v k)
    (h : ∀ f ∈ k.scopes.get? m.globals "main",
      ∃ old ∈ m.scopes.get? m.globals "main", k.store.equal old f ≠ some false)
    {span : Span} {callee : Value} {args : List Value} {k' : Machine} :
    ¬ Calls ⟨n + 1, .script source, m⟩ span callee args k' := by
  intro hcalls
  cases hcalls with
  | main hparse' _ hrun' hmain hnew =>
    cases hparse.symm.trans hparse'
    cases hrun.symm.trans hrun'
    obtain ⟨old, hold, hne⟩ := h _ hmain
    exact hne (hnew old hold)

theorem follows_callMain (hparse : source.parse = .ok program)
    (hfile : Path.isSourceFile source.name = true) {v : Value} {k : Machine}
    (hrun : Task.perform n (.node program (topLevel m.globals)) m = .ok v k) :
    Follows (law ⟨n + 1, .script source, m⟩) (Task.perform n) k
      fun q => callMain q (topLevel m.globals) source (m.scopes.get? m.globals "main") := by
  have hcovers : (∀ f ∈ k.scopes.get? m.globals "main",
        ∃ old ∈ m.scopes.get? m.globals "main", k.store.equal old f ≠ some false) →
      (law ⟨n + 1, .script source, m⟩).Covers (topLevel m.globals).calls :=
    fun h => covers_of_uncalled (a := ⟨n + 1, .script source, m⟩)
      fun _ _ _ _ => not_calls_of_noMain hparse hrun h
  refine .after (own_lookup _ "main") fun found k' hfound => ?_
  obtain ⟨rfl, rfl⟩ : k.scopes.get? m.globals "main" = found ∧ k = k' := by
    cases hfound
    exact ⟨rfl, rfl⟩
  cases hmain : k.scopes.get? m.globals "main" with
  | none =>
    refine .own (.fail (hcovers fun f hf => ?_) rfl)
    rw [hmain] at hf
    cases hf
  | some f =>
    cases hold : m.scopes.get? m.globals "main" with
    | none =>
      refine Eval.follows_call (Calls.main hparse hfile hrun hmain fun old h => ?_).lets
      rw [hold] at h
      cases h
    | some old =>
      refine .get ?_
      cases hequal : k.store.equal old f with
      | none => exact .own (.throw fun _ h => nomatch h)
      | some same =>
        cases same with
        | true =>
          refine .own (.fail (hcovers fun g hg => ⟨old, hold, ?_⟩) rfl)
          cases hmain.symm.trans hg
          rw [hequal]
          exact nofun
        | false =>
          refine Eval.follows_call (Calls.main hparse hfile hrun hmain fun old' h => ?_).lets
          cases hold.symm.trans h
          exact hequal

theorem follows_runScript (n : Nat) (source : Source) (m : Machine) :
    Follows (law ⟨n + 1, .script source, m⟩) (Task.perform n) m fun q => runScript q source := by
  unfold runScript
  cases hparse : source.parse with
  | error failure => exact .own (.throw fun f h => .inl ⟨source, rfl, Signal.failed.inj h ▸ hparse⟩)
  | ok program =>
    have hprogram : Admits ⟨n + 1, .script source, m⟩ (.node program (topLevel m.globals)) := by
      refine .part (a := ⟨n + 1, .script source, m⟩) ?_
      simp [parts, hparse]
    -- A top level that does not end with a value comes to no call of `main`.
    have hstopped : ∀ {e k}, Task.perform n (.node program (topLevel m.globals)) m = .error e k →
        (law ⟨n + 1, .script source, m⟩).Covers (topLevel m.globals).calls := by
      intro e k he
      refine covers_of_uncalled (a := ⟨n + 1, .script source, m⟩) ?_
      intro _ _ _ _ hcalls
      cases hcalls with
      | main hparse' _ hrun _ _ =>
        cases hparse.symm.trans hparse'
        cases he.symm.trans hrun
    refine .get (.after (own_lookup _ "main") fun inherited k hinherited => ?_)
    cases hinherited
    refine (Acts.task hprogram).continues (fun q k hq => ?_) (fun v k hv => ?_) fun e k he => ?_
    · rw [hq]
    · cases hfile : Path.isSourceFile source.name with
      | true =>
        refine ⟨_, fun q hq => ?_, follows_callMain hparse hfile hv⟩
        rw [hq]
        rfl
      | false =>
        refine ⟨fun _ => pure v, fun q hq => ?_, .own (.pure v)⟩
        rw [hq]
        rfl
    · match e with
      | .ret v =>
        refine ⟨pure v, fun q hq => ?_, .inl (.pure v)⟩
        rw [hq]
        rfl
      | .exit exit span =>
        refine ⟨fail (topLevel m.globals) (.outsideLoop exit) span, fun q hq => ?_,
          .inl (.fail (hstopped he) rfl)⟩
        rw [hq]
      | .failed _ | .exhausted =>
        refine ⟨throw _, fun q hq => ?_, .inr ⟨rfl, .node hprogram⟩⟩
        rw [hq]
        rfl

end Script

/-- **Every step follows the law of its moment.** -/
theorem follows (n : Nat) (t : Task) (m : Machine) :
    Follows (law ⟨n + 1, t, m⟩) (Task.perform n) m fun q => t.step q n := by
  cases t with
  | node tree c => exact follows_evalNode n c tree m
  | script source => exact follows_runScript n source m

end Moment

end Script
