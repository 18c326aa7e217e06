import Script.Proofs.Moments

/-! The predefined constants.

`Scopes.Rooted` is the invariant: one table is the root of all, holds the constants
and marks them; every other table lies below an older one and binds none of their
names. From it the walk of names from any table ends in the root, finds the value
that each constant was given, and finds it protected. Only moves that bind a name or
grow a table touch a scope, and they keep the invariant; so it holds at every moment
of every run in a session.

Main statement, `constants_stand`: whatever was run before, at every moment of a run
every table leads to the globals and finds the constants unchanged, and every form
that would bind one of their names ends the run in a refusal. -/
namespace Script

namespace Scopes

/-- All tables lie below `root`, which holds `fixed` as constants, and none of the
others binds one of these names. -/
structure Rooted (s : Scopes α) (root : ScopeId) (fixed : List (String × α)) : Prop where
  top : ∃ t, s.table? root = some t ∧ t.parent = none ∧
    ∀ e ∈ fixed, t.bindings.get? e.1 = some e.2 ∧ t.isConstant e.1 = true
  below : ∀ id t, s.table? id = some t → id ≠ root →
    (∃ parent < id, t.parent = some parent) ∧ ∀ e ∈ fixed, t.bindings.get? e.1 = none

variable {s : Scopes α} {root id : ScopeId} {fixed : List (String × α)} {e : String × α}

/-- Every walk that is long enough ends in the root, and comes there once. -/
theorem Rooted.walk_eq (h : s.Rooted root fixed) (n : Nat) (hn : id < n)
    (hid : id < s.tables.size) :
    ∃ inner, s.walk n id = inner ++ [root] ∧ root ∉ inner := by
  induction n generalizing id with
  | zero => exact absurd hn (Nat.not_lt_zero id)
  | succ n ih =>
    unfold walk
    by_cases hroot : id = root
    · obtain ⟨t, htop, hparent, _⟩ := h.top
      rw [hroot, htop]
      exact ⟨[], by simp only [hparent, List.nil_append], List.not_mem_nil⟩
    · have ht : s.table? id = some s.tables[id] := Array.getElem?_eq_getElem hid
      rw [ht]
      obtain ⟨⟨parent, hlt, hparent⟩, _⟩ := h.below id _ ht hroot
      obtain ⟨inner, hwalk, hnot⟩ :=
        ih (Nat.lt_of_lt_of_le hlt (Nat.le_of_lt_succ hn)) (Nat.lt_trans hlt hid)
      refine ⟨id :: inner, by simp only [hparent, hwalk, List.cons_append], ?_⟩
      simp only [List.mem_cons, not_or]
      exact ⟨Ne.symm hroot, hnot⟩

theorem Rooted.chain_eq (h : s.Rooted root fixed) (hid : id < s.tables.size) :
    ∃ inner, s.chain id = inner ++ [root] ∧ root ∉ inner :=
  h.walk_eq (id + 1) (Nat.lt_succ_self id) hid

/-- Only the root binds the name of a constant. -/
theorem Rooted.get?_level (h : s.Rooted root fixed) (he : e ∈ fixed) (level : ScopeId) :
    (s.table? level).bind (·.bindings.get? e.1) = if level = root then some e.2 else none := by
  split
  · next hroot =>
    obtain ⟨t, htop, _, hfixed⟩ := h.top
    rw [hroot, htop]
    exact (hfixed e he).1
  · next hroot =>
    cases ht : s.table? level with
    | none => rfl
    | some t => exact (h.below level t ht hroot).2 e he

/-- Every table finds the constants as they were given. -/
theorem Rooted.get?_eq (h : s.Rooted root fixed) (hid : id < s.tables.size) (he : e ∈ fixed) :
    s.get? id e.1 = some e.2 := by
  obtain ⟨inner, hchain, hnot⟩ := h.chain_eq hid
  have hnone : inner.findSome? (fun level => (s.table? level).bind (·.bindings.get? e.1)) = none := by
    rw [List.findSome?_eq_none_iff]
    intro level hlevel
    rw [h.get?_level he, if_neg]
    rintro rfl
    exact hnot hlevel
  unfold get?
  rw [hchain, List.findSome?_append, hnone]
  simp only [List.findSome?_cons, h.get?_level he, if_true, Option.none_or]

theorem Rooted.isConstant_root (h : s.Rooted root fixed) (he : e ∈ fixed) :
    s.isConstant root e.1 = true := by
  obtain ⟨t, htop, _, hfixed⟩ := h.top
  simp only [isConstant, htop, Option.any_some, (hfixed e he).2]

/-- A constant is protected in every table. -/
theorem Rooted.isProtected_eq (h : s.Rooted root fixed) (hid : id < s.tables.size)
    (he : e ∈ fixed) : s.isProtected id e.1 = true := by
  by_cases hroot : id = root
  · rw [hroot, isProtected, h.isConstant_root he, Bool.true_or]
  · have hbinds : s.bindsAt e.1 id = false := by
      have hlevel := h.get?_level he id
      rw [if_neg hroot] at hlevel
      unfold bindsAt Table.binds Bindings.binds
      cases ht : s.table? id with
      | none => rfl
      | some t =>
        rw [ht] at hlevel
        simp only [Option.any_some]
        rw [show t.bindings.get? e.1 = none from hlevel]
        rfl
    have htail : root ∈ (s.chain id).tail := by
      obtain ⟨inner, hchain, _⟩ := h.chain_eq hid
      have hhead : (s.chain id).head? = some id := by
        unfold chain walk
        rw [show s.table? id = some s.tables[id] from Array.getElem?_eq_getElem hid]
        dsimp only
        split <;> rfl
      rw [hchain] at hhead ⊢
      cases inner with
      | nil => exact absurd (Option.some.inj hhead).symm hroot
      | cons level inner => simp
    unfold isProtected
    rw [hbinds, Bool.not_false, Bool.true_and, Bool.or_eq_true, List.any_eq_true]
    exact .inr ⟨root, htail, h.isConstant_root he⟩

theorem table?_bind (s : Scopes α) (scope id : ScopeId) (name : String) (value : α)
    (constant : Bool) :
    (s.bind scope name value constant).table? id =
      if scope = id then (s.table? id).map (·.bind name value constant) else s.table? id := by
  simp only [bind, table?, Array.getElem?_modify]

/-- Binding another name keeps the constants. -/
theorem Rooted.bind (h : s.Rooted root fixed) {scope : ScopeId} {name : String}
    (hname : ∀ e ∈ fixed, e.1 ≠ name) (value : α) (constant : Bool) :
    (s.bind scope name value constant).Rooted root fixed := by
  have hget : ∀ (t : Table α), ∀ e ∈ fixed,
      (t.bind name value constant).bindings.get? e.1 = t.bindings.get? e.1 := by
    intro t e he
    simp only [Table.bind, Bindings.get?_insert, if_neg (Ne.symm (hname e he))]
  have hmark : ∀ (t : Table α) (n : String), t.isConstant n = true →
      (t.bind name value constant).isConstant n = true := by
    intro t n hn
    cases constant
    · exact hn
    · simp only [Table.isConstant, Table.bind, if_true, List.contains_cons, Bool.or_eq_true]
      exact .inr hn
  constructor
  · obtain ⟨t, htop, hparent, hfixed⟩ := h.top
    rw [table?_bind, htop]
    split
    · refine ⟨_, rfl, hparent, fun e he => ⟨?_, hmark t e.1 (hfixed e he).2⟩⟩
      rw [hget t e he, (hfixed e he).1]
    · exact ⟨t, rfl, hparent, hfixed⟩
  · intro id t ht hroot
    rw [table?_bind] at ht
    split at ht
    · obtain ⟨old, hold, rfl⟩ := Option.map_eq_some_iff.mp ht
      obtain ⟨hparent, hfixed⟩ := h.below id old hold hroot
      exact ⟨hparent, fun e he => (hget old e he).trans (hfixed e he)⟩
    · exact h.below id t ht hroot

/-- A new table below one that exists keeps the constants. -/
theorem Rooted.grow (h : s.Rooted root fixed) {parent : ScopeId} (hp : parent < s.tables.size) :
    (s.grow (some parent)).2.Rooted root fixed := by
  constructor
  · obtain ⟨t, htop, hrest⟩ := h.top
    have hlt : root < s.tables.size := (Array.getElem?_eq_some_iff.mp htop).1
    refine ⟨t, ?_, hrest⟩
    simp only [Scopes.grow, table?, Array.getElem?_push_lt hlt]
    rw [← Array.getElem?_eq_getElem hlt]
    exact htop
  · intro id t ht hroot
    simp only [Scopes.grow, table?, Array.getElem?_push] at ht
    split at ht
    · next heq =>
      cases ht
      exact ⟨⟨parent, heq ▸ hp, rfl⟩, fun _ _ => rfl⟩
    · exact h.below id t ht hroot

end Scopes

open Machine (Move Moves Placed)

/-! ### Machines that keep their constants -/

namespace Machine

/-- Every table leads to the globals, and only there the constants are bound. -/
structure Guarded (m : Machine) : Prop where
  placed : Placed m
  rooted : m.scopes.Rooted m.globals constants

variable {m k : Machine}

theorem Move.guarded (h : Move m k) (hm : Guarded m) : Guarded k := by
  refine ⟨h.placed hm.placed, ?_⟩
  cases h with
  | bind value constant hs hfree =>
    refine hm.rooted.bind (fun e he hname => ?_) value constant
    rw [← hname, hm.rooted.isProtected_eq hs he] at hfree
    exact Bool.noConfusion hfree
  | grow hp => exact hm.rooted.grow hp
  | _ => exact hm.rooted

theorem Moves.guarded (h : Moves m k) (hm : Guarded m) : Guarded k := h.keeps Move.guarded hm

theorem start_guarded (world : World) : Guarded (start world) := by
  have htable : ∀ id t, (start world).scopes.table? id = some t → id = 0 := by
    intro id t ht
    exact Nat.lt_one_iff.mp (Array.getElem?_eq_some_iff.mp ht).1
  refine ⟨⟨Nat.zero_lt_one, fun f hf => absurd hf (by simp [start, renew, Store.empty])⟩, ?_⟩
  refine ⟨⟨globalTable, rfl, by rfl, ?_⟩, fun id t ht hid => absurd (htable id t ht) hid⟩
  intro e he
  simp only [constants, List.mem_cons, List.not_mem_nil, or_false] at he
  rcases he with rfl | rfl | rfl | rfl <;> exact ⟨rfl, rfl⟩

/-- The machines between the programs of a session, where the output may be taken. -/
inductive Session (world : World) : Machine → Prop where
  | start : Session world (start world)
  | run {m : Machine} (n : Nat) (source : Source) :
      Session world m → Session world (m.run n source).2
  | takeOutput {m : Machine} : Session world m → Session world m.takeOutput.2

theorem run_moves (hm : Placed m) (n : Nat) (source : Source) : Moves m (m.run n source).2 := by
  have hmoves := Task.perform_moves n hm (t := .script source) trivial
  unfold run
  cases h : Task.perform n (.script source) m with
  | ok v k =>
    rw [h] at hmoves
    exact hmoves
  | error e k =>
    rw [h] at hmoves
    cases e <;> exact hmoves

theorem Session.spec {world : World} (h : Session world m) :
    Guarded m ∧ m.globals = (Machine.start world).globals := by
  induction h with
  | start => exact ⟨start_guarded world, rfl⟩
  | run n source _ ih =>
    have hmoves := run_moves ih.1.placed n source
    exact ⟨hmoves.guarded ih.1, hmoves.globals_eq.trans ih.2⟩
  | takeOutput _ ih => exact ⟨⟨⟨ih.1.placed.globals, ih.1.placed.closures⟩, ih.1.rooted⟩, ih.2⟩

end Machine

open Machine (Guarded)

/-! ### Refusals -/

namespace Eval

variable {α β : Type} {m k : Machine} {c : Context} {span : Span} {e : String × Value} {n : Nat}

/-- The refusal to bind a name. -/
def refusal (c : Context) (name : String) (span : Span) : Signal :=
  .failed (.ofCalls (.constant name) span c.calls)

theorem bindAt_of_protected {scope : ScopeId} {name : String} {value : Value} {constant : Bool}
    (h : m.scopes.isProtected scope name = true) :
    bindAt c scope name value constant span m = .error (refusal c name span) m := by
  refine (bind_get _).trans ?_
  dsimp only
  rw [h]
  rfl

theorem bindAt_of_free {scope : ScopeId} {name : String} {value : Value} {constant : Bool}
    (h : m.scopes.isProtected scope name = false) :
    bindAt c scope name value constant span m = .ok () { m with
      scopes := m.scopes.bind scope name value constant
      journal := .bound scope name :: m.journal } := by
  refine (bind_get _).trans ?_
  dsimp only
  rw [h]
  rfl

theorem define_refused (hm : Guarded m) (hc : c.In m) (he : e ∈ Machine.constants) (value : Value)
    (constant : Bool) :
    define c e.1 value constant span m = .error (refusal c e.1 span) m :=
  bindAt_of_protected (hm.rooted.isProtected_eq hc he)

theorem assign_refused (hm : Guarded m) (hc : c.In m) (he : e ∈ Machine.constants) (value : Value) :
    assign c e.1 value span m = .error (refusal c e.1 span) m :=
  (bind_get _).trans
    (bindAt_of_protected (hm.rooted.isProtected_eq (home_lt m.scopes e.1 hc) he))

/-- Binding arguments to parameters, one after the other, comes to the parameter of a
name: its argument and all before it are of the types of their parameters. Those behind
it are not looked at. -/
inductive ComesTo (name : String) : List (Param Span) → List Value → Prop where
  | here {p params v args} : p.name = name → v.conformsTo p.type = true →
      ComesTo name (p :: params) (v :: args)
  | behind {p params v args} : v.conformsTo p.type = true → ComesTo name params args →
      ComesTo name (p :: params) (v :: args)

/-- The parameter that is a constant is refused, if none before it is. -/
theorem bindParams_refused (caller : Context) (callee : Callee) (span : Span) (hm : Guarded m)
    (hc : c.In m) (he : e ∈ Machine.constants) {params : List (Param Span)} {args : List Value}
    (hcomes : ComesTo e.1 params args) :
    ∃ name k, bindParams caller c callee span params args m = .error (refusal c name span) k := by
  induction hcomes generalizing m with
  | here hname hv =>
    unfold bindParams
    rw [hv, hname]
    exact ⟨e.1, m, bind_error (define_refused hm hc he _ false)⟩
  | @behind p _ v _ hv _ ih =>
    unfold bindParams
    rw [hv]
    dsimp only [Bool.not_true]
    cases hfree : m.scopes.isProtected c.scope p.name with
    | true => exact ⟨p.name, m, bind_error (bindAt_of_protected hfree)⟩
    | false =>
      have hmove := Move.bind v false hc hfree
      obtain ⟨name, k, hk⟩ := ih (hmove.guarded hm) (hc.later (.single hmove))
      exact ⟨name, k, (bind_ok (bindAt_of_free hfree)).trans hk⟩

theorem checkArity_of_eq {callee : Callee} {wanted given : Nat} (h : wanted = given) :
    checkArity c callee wanted given span m = .ok () m := by
  unfold checkArity
  rw [if_neg (not_not_intro h)]
  rfl

/-- A call that would bind a constant is refused, in the frame of the call. -/
theorem callDefined_refused (p : Performer) (c : Context) (span : Span) (hm : Guarded m)
    {f : Function} (hf : f.closure < m.scopes.tables.size) (he : e ∈ Machine.constants)
    (receiver : Option Value) {args : List Value}
    (hlength : f.definition.params.length = args.length)
    (hcomes : ComesTo e.1 f.definition.params args) :
    ∃ inner name k, callDefined p c span f receiver.isSome (receiver.toList ++ args) m =
      .error (refusal inner name span) k := by
  let grown : Machine := { m with scopes := (m.scopes.grow (some f.closure)).2 }
  have hm' : Guarded grown := (Move.grow hf).guarded hm
  let inner : Context := ⟨m.scopes.tables.size, ⟨f.definition.label, some span.start⟩ :: c.calls⟩
  have hin : inner.In grown := by simp [Context.In, inner, grown, Scopes.grow]
  cases receiver with
  | none =>
    obtain ⟨name, k, hk⟩ :=
      bindParams_refused c (.function f.definition.label) span hm' hin he hcomes
    refine ⟨inner, name, k, ?_⟩
    refine (bind_ok (checkArity_of_eq hlength)).trans ?_
    exact (bind_ok rfl).trans (bind_error hk)
  | some receiver =>
    have harity : f.definition.params.length + 1 = (receiver :: args).length := by
      rw [List.length_cons, hlength]
    cases hfree : grown.scopes.isProtected inner.scope "self" with
    | true =>
      refine ⟨inner, "self", grown, ?_⟩
      refine (bind_ok (checkArity_of_eq harity)).trans ?_
      exact (bind_ok rfl).trans (bind_error (bindAt_of_protected hfree))
    | false =>
      have hself := Move.bind receiver false hin hfree
      obtain ⟨name, k, hk⟩ := bindParams_refused c (.method f.definition.label) span
        (hself.guarded hm') (hin.later (.single hself)) he hcomes
      refine ⟨inner, name, k, ?_⟩
      refine (bind_ok (checkArity_of_eq harity)).trans ?_
      refine (bind_ok rfl).trans ?_
      exact (bind_ok (bindAt_of_free hfree)).trans (bind_error hk)

end Eval

namespace Store

theorem ancestryFrom_newInstance (s : Store) (cls n id : Nat) :
    (s.newInstance cls).2.ancestryFrom n id = s.ancestryFrom n id := by
  induction n generalizing id with
  | zero => rfl
  | succ n ih =>
    unfold ancestryFrom
    simp only [ih]
    rfl

/-- Instances do not matter for what a class has. -/
theorem findMethod_newInstance (s : Store) (cls id : Nat) (name : String) :
    (s.newInstance cls).2.findMethod id name = s.findMethod id name := by
  unfold findMethod ancestry
  rw [ancestryFrom_newInstance]
  rfl

end Store

namespace Machine

/-- The function with a number has as many parameters as there are arguments, and binding
them comes to the parameter of this name. -/
def Takes (m : Machine) (name : String) (id : Nat) (args : List Value) : Prop :=
  ∃ f, m.store.function? id = some f ∧ f.definition.params.length = args.length ∧
    Eval.ComesTo name f.definition.params args

/-- A call that comes to binding a parameter of this name. -/
inductive Binds (m : Machine) (name : String) : Value → List Value → Prop where
  | function {id args} : m.Takes name id args → Binds m name (.function id) args
  | method {id receiver args} : m.Takes name id args →
      Binds m name (.method id) (receiver :: args)
  | bound {id receiver args} : m.Takes name id args → Binds m name (.bound receiver id) args
  | cls {id init args} : m.store.findMethod id "__init__" = some init → m.Takes name init args →
      Binds m name (.cls id) args

end Machine

namespace Eval

variable {m k : Machine} {c : Context} {span : Span} {e : String × Value} {n : Nat} {p : Performer}

theorem callFunction_refused (p : Performer) (c : Context) (span : Span) (hm : Guarded m)
    (he : e ∈ Machine.constants) {id : Nat} (receiver : Option Value) {args : List Value}
    (h : m.Takes e.1 id args) :
    ∃ inner name k, callFunction p c span id receiver.isSome (receiver.toList ++ args) m =
      .error (refusal inner name span) k := by
  obtain ⟨f, hf, hlength, hcomes⟩ := h
  have hclosure := hm.placed.closures f (Array.mem_of_getElem? hf)
  obtain ⟨inner, name, k, hk⟩ := callDefined_refused p c span hm hclosure he receiver hlength hcomes
  refine ⟨inner, name, k, (bind_get _).trans ?_⟩
  rw [hf]
  exact hk

theorem call_refused (p : Performer) (c : Context) (span : Span) (hm : Guarded m)
    (he : e ∈ Machine.constants) {callee : Value} {args : List Value}
    (h : m.Binds e.1 callee args) :
    ∃ inner name k, call p c span callee args m = .error (refusal inner name span) k := by
  cases h with
  | function h => exact callFunction_refused p c span hm he none h
  | method h => exact callFunction_refused p c span hm he (some _) h
  | bound h => exact callFunction_refused p c span hm he (some _) h
  | @cls id init args hinit h =>
    let made : Machine := { m with store := (m.store.newInstance id).2 }
    have hm' : Guarded made := (Move.inst id).guarded hm
    obtain ⟨inner, name, k, hk⟩ :=
      callFunction_refused p c span hm' he (some (.inst m.store.instances.size)) h
    refine ⟨inner, name, k, (bind_ok rfl).trans ((bind_get _).trans ?_)⟩
    dsimp only
    rw [show made.store.findMethod id "__init__" = some init by
      rw [← hinit]; exact Store.findMethod_newInstance ..]
    exact bind_error hk

theorem makeMethods_ok (c : Context) (definitions : List (FuncDef Span)) (methods : Bindings Nat)
    (m : Machine) : ∃ made k, makeMethods c definitions methods m = .ok made k := by
  induction definitions generalizing methods m with
  | nil => exact ⟨methods, m, rfl⟩
  | cons definition definitions ih =>
    unfold makeMethods
    cases definition.name with
    | none => exact ih methods m
    | some name => exact ih _ _

/-- A class is made, but its name is refused. -/
theorem makeClass_refused (hm : Guarded m) (hc : c.In m) (he : e ∈ Machine.constants) (span : Span)
    (definitions : List (FuncDef Span)) (parent : Option Nat) :
    ∃ k, (do
      let methods ← makeMethods c definitions .empty
      let id ← newClass ⟨e.1, methods, parent⟩
      define c e.1 (Value.cls id) false span
      return Value.cls id : Eval Value) m = .error (refusal c e.1 span) k := by
  obtain ⟨methods, k, hk⟩ := makeMethods_ok c definitions .empty m
  have hmoves : Moves m k := (agree_makeMethods hc definitions .empty).moves_of_ok hk
  let made : Machine := { k with store := (k.store.newClass ⟨e.1, methods, parent⟩).2 }
  have hmoves' : Moves m made := hmoves.tail (.cls _)
  refine ⟨made, (bind_ok hk).trans ((bind_ok (k := made) rfl).trans (bind_error ?_))⟩
  exact define_refused (hmoves'.guarded hm) (hc.later hmoves') he _ false

theorem checkType_of_conforms {type : Option DeclaredType} {v : Value}
    (h : ∀ wanted ∈ type, v.conformsTo wanted = true) : checkType c type v span m = .ok () m := by
  cases type with
  | none => rfl
  | some wanted =>
    unfold checkType
    dsimp only
    rw [h wanted rfl]
    rfl

end Eval

namespace Moment

open Eval

/-- The moments at which a name is to be bound in the scope of a context: the node of
the moment is of a form that binds it, and all that comes before the binding goes well. -/
inductive Attempts (name : String) : Moment → Prop where
  | declare {n c k span type constant value v k'} :
      Task.perform n (.node value c) k = .ok v k' →
      (∀ wanted ∈ type, v.conformsTo wanted = true) →
      Attempts name ⟨n + 1, .node (.declare span name type constant value) c, k⟩
  | assign {n c k span value v k'} :
      Task.perform n (.node value c) k = .ok v k' →
      Attempts name ⟨n + 1, .node (.assign span name value) c, k⟩
  | counter {n c k span start stop step body first last by_ k₁ k₂ k₃} :
      loopNumber (Task.perform n) c start k = .ok first k₁ →
      loopNumber (Task.perform n) c stop k₁ = .ok last k₂ →
      loopStep (Task.perform n) c step k₂ = .ok by_ k₃ →
      Number.isBefore by_.isPositive first last = true →
      Attempts name ⟨n + 1, .node (.forLoop span name start stop step body) c, k⟩
  | func {n c k span definition} :
      definition.name = some name →
      Attempts name ⟨n + 1, .node (.func span definition) c, k⟩
  | cls {n c k span parent methods} :
      (∀ p ∈ parent, ∃ id, k.scopes.get? c.scope p = some (.cls id)) →
      Attempts name ⟨n + 1, .node (.cls span name parent methods) c, k⟩
  | call {n c k span callee args f vs k₁ k₂} :
      Task.perform n (.node callee c) k = .ok f k₁ →
      evalAll (Task.perform n) c args k₁ = .ok vs k₂ →
      k₂.Binds name f vs →
      Attempts name ⟨n + 1, .node (.call span callee args) c, k⟩
  | methodCall {n c k span object attr args o f vs k₁ k₂ k₃} :
      Task.perform n (.node object c) k = .ok o k₁ →
      readAttribute c o attr span k₁ = .ok f k₂ →
      evalAll (Task.perform n) c args k₂ = .ok vs k₃ →
      k₃.Binds name f vs →
      Attempts name ⟨n + 1, .node (.methodCall span object attr args) c, k⟩
  | new {n c k span cls args id vs k₁ k₂} :
      classNamed c cls span k = .ok id k₁ →
      evalAll (Task.perform n) c args k₁ = .ok vs k₂ →
      k₂.Binds name (.cls id) vs →
      Attempts name ⟨n + 1, .node (.new span cls args) c, k⟩

/-- A moment whose task is refused. -/
def Refused (a : Moment) : Prop :=
  ∃ c name span k, a.outcome = .error (refusal c name span) k

theorem nested_perform {n : Nat} {m : Machine} {c : Context} {r : Cut} (hm : Placed m)
    (hc : c.In m) : Nested r m c (Task.perform n) (Task.perform n) :=
  ⟨fun _ _ _ hk ht => Task.agree_perform n hk ht, hm, hc⟩

variable {a : Moment} {e : String × Value}

/-- **Who attempts to bind a constant is refused.** -/
theorem Attempts.refused (h : a.Attempts e.1) (he : e ∈ Machine.constants)
    (hm : Guarded a.machine) (ha : a.Valid) : a.Refused := by
  obtain ⟨hplaced, hin⟩ := ha
  cases h with
  | @declare n c k span type constant value v k' hv htype =>
    have hk : Moves k k' := ((nested_perform hplaced hin).node value).moves_of_ok hv
    refine ⟨c, e.1, span, k', (bind_ok hv).trans ?_⟩
    refine (bind_ok (checkType_of_conforms htype)).trans ?_
    exact bind_error (define_refused (hk.guarded hm) (hin.later hk) he v constant)
  | @assign n c k span value v k' hv =>
    have hk : Moves k k' := ((nested_perform hplaced hin).node value).moves_of_ok hv
    refine ⟨c, e.1, span, k', (bind_ok hv).trans ?_⟩
    exact bind_error (assign_refused (hk.guarded hm) (hin.later hk) he v)
  | @counter n c k span start stop step body first last by_ k₁ k₂ k₃ h₁ h₂ h₃ hfirst =>
    have hnested : Nested (.never k) k c (Task.perform n) (Task.perform n) :=
      nested_perform hplaced hin
    have hk₁ : Moves k k₁ := (agree_loopNumber hnested start).moves_of_ok h₁
    have hnested₁ : Nested (.never k₁) k₁ c (Task.perform n) (Task.perform n) :=
      nested_perform (hk₁.placed hplaced) (hin.later hk₁)
    have hk₂ : Moves k k₂ := hk₁.trans ((agree_loopNumber hnested₁ stop).moves_of_ok h₂)
    have hnested₂ : Nested (.never k₂) k₂ c (Task.perform n) (Task.perform n) :=
      nested_perform (hk₂.placed hplaced) (hin.later hk₂)
    have hk₃ : Moves k k₃ := hk₂.trans ((agree_loopStep hnested₂ step).moves_of_ok h₃)
    cases n with
    | zero =>
      -- Without a step left, not even the first bound is known.
      have hnone : loopNumber (Task.perform 0) c start k = .error .exhausted k := rfl
      rw [hnone] at h₁
      cases h₁
    | succ n =>
      refine ⟨c, e.1, span, k₃, ?_⟩
      refine (bind_ok h₁).trans ((bind_ok h₂).trans ((bind_ok h₃).trans ?_))
      refine bind_error ?_
      unfold countFrom
      rw [if_pos hfirst]
      exact bind_error (define_refused (hk₃.guarded hm) (hin.later hk₃) he _ false)
  | @func n c k span definition hname =>
    let made : Machine := { k with store := (k.store.newFunction ⟨definition, c.scope⟩).2 }
    have hmove : Move k made := .function hin
    refine ⟨c, e.1, span, made, (bind_ok (k := made) rfl).trans ?_⟩
    rw [hname]
    exact bind_error (define_refused (hmove.guarded hm) (hin.later (.single hmove)) he _ false)
  | @cls n c k span parent methods hparent =>
    cases parent with
    | none =>
      obtain ⟨k', hk'⟩ := makeClass_refused hm hin he span methods none
      exact ⟨c, e.1, span, k', hk'⟩
    | some p =>
      obtain ⟨id, hid⟩ := hparent p rfl
      have hnamed : classNamed c p span k = .ok id k := by
        refine (bind_ok (lookup_eq p)).trans ?_
        rw [hid]
        rfl
      obtain ⟨k', hk'⟩ := makeClass_refused hm hin he span methods (some id)
      exact ⟨c, e.1, span, k', (bind_ok hnamed).trans hk'⟩
  | @call n c k span callee args f vs k₁ k₂ hf hvs hbinds =>
    have hk₁ : Moves k k₁ := ((nested_perform hplaced hin).node callee).moves_of_ok hf
    have hk₂ : Moves k₁ k₂ := (agree_evalAll
      (nested_perform (hk₁.placed hplaced) (hin.later hk₁)) args).moves_of_ok hvs
    obtain ⟨inner, name, k', hk'⟩ :=
      call_refused (Task.perform n) c span (hk₂.guarded (hk₁.guarded hm)) he hbinds
    exact ⟨inner, name, span, k', (bind_ok hf).trans ((bind_ok hvs).trans hk')⟩
  | @methodCall n c k span object attr args o f vs k₁ k₂ k₃ ho hf hvs hbinds =>
    have hk₁ : Moves k k₁ := ((nested_perform hplaced hin).node object).moves_of_ok ho
    have hk₂ : Moves k k₂ := hk₁.trans ((agree_readAttribute o attr).moves_of_ok hf)
    have hk₃ : Moves k k₃ := hk₂.trans ((agree_evalAll
      (nested_perform (hk₂.placed hplaced) (hin.later hk₂)) args).moves_of_ok hvs)
    obtain ⟨inner, name, k', hk'⟩ :=
      call_refused (Task.perform n) c span (hk₃.guarded hm) he hbinds
    exact ⟨inner, name, span, k', (bind_ok ho).trans ((bind_ok hf).trans ((bind_ok hvs).trans hk'))⟩
  | @new n c k span cls args id vs k₁ k₂ hcls hvs hbinds =>
    have hk₁ : Moves k k₁ := (agree_classNamed cls).moves_of_ok hcls
    have hk₂ : Moves k₁ k₂ := (agree_evalAll
      (nested_perform (hk₁.placed hplaced) (hin.later hk₁)) args).moves_of_ok hvs
    obtain ⟨inner, name, k', hk'⟩ :=
      call_refused (Task.perform n) c span (hk₂.guarded (hk₁.guarded hm)) he hbinds
    exact ⟨inner, name, span, k', (bind_ok hcls).trans ((bind_ok hvs).trans hk')⟩

end Moment

namespace Machine

/-- **The predefined constants can be neither changed nor shadowed.** At every moment
of a run, whatever the session has run before, all tables lead to the globals that it
began with and find the constants as they were given; and an attempt to bind one of
their names ends the run in its refusal. If it is made in a script that is being
loaded, the refusal ends that script, and what loads it fails and quotes it. -/
theorem constants_stand {world : World} {m : Machine} (hs : Session world m) (n : Nat)
    (source : Source) {d : Nat} {b : Moment} (hb : Moment.Reaches d ⟨n, .script source, m⟩ b) :
    b.Valid ∧
    (∀ scope < b.machine.scopes.tables.size,
      (b.machine.scopes.chain scope).getLast? = some (start world).globals ∧
      ∀ e ∈ constants, b.machine.scopes.get? scope e.1 = some e.2) ∧
    ∀ e ∈ constants, b.Attempts e.1 → ∃ name span calls outer k,
      b.outcome = .error (.failed (.ofCalls (.constant name) span calls)) k ∧
      Moment.Quotes d (.ofCalls (.constant name) span calls) outer ∧
      m.run n source = (.failure outer, k) ∧
      outer.fault.kind = if d = 0 then .constantReassignment else .runtime := by
  obtain ⟨hm, hglobals⟩ := hs.spec
  have hvalid : Moment.Valid ⟨n, .script source, m⟩ := ⟨hm.placed, trivial⟩
  obtain ⟨hmoves, hb'⟩ := hb.spec hvalid
  have hk := hmoves.guarded hm
  refine ⟨hb', fun scope hscope => ⟨?_, fun e he => hk.rooted.get?_eq hscope he⟩, ?_⟩
  · obtain ⟨inner, hchain, _⟩ := hk.rooted.chain_eq hscope
    rw [hchain, List.getLast?_concat, hmoves.globals_eq, hglobals]
  · intro e he hattempts
    obtain ⟨c, name, span, k, hrefused⟩ := hattempts.refused he hk hb'
    obtain ⟨outer, hquotes, houter⟩ := hb.fails hvalid hrefused
    refine ⟨name, span, c.calls, outer, k, hrefused, hquotes, ?_, ?_⟩
    · unfold run
      rw [show Task.perform n (.script source) m = _ from houter]
    · cases d with
      | zero =>
        rw [hquotes.eq_of_zero]
        rfl
      | succ d => exact hquotes.kind_of_pos

/-! ### A script that is loaded and declares a constant -/

/-- The kind of the failure in which a run ended. -/
def failureKind? : Outcome → Option FaultKind
  | .failure f => some f.fault.kind
  | _ => none

/-- A world in which every file holds `var null : 1`. -/
def redeclaring : World :=
  { (default : World) with
    files := fun _ => .ok [118, 97, 114, 32, 110, 117, 108, 108, 32, 58, 32, 49] }

def loader : Source := ⟨"<test>", "run(\"lib\")"⟩

def loaded : Source := ⟨"lib", "var null : 1"⟩

/-- Whether a program only loads `lib`. -/
def isLoader : Except Failure (Node Span) → Bool
  | .ok (.block _ [.call _ (.name _ "run") [.string _ "lib"]]) => true
  | _ => false

/-- Whether a program only declares `null`, as an integer. -/
def isRedeclaration : Except Failure (Node Span) → Bool
  | .ok (.block _ [.declare _ "null" none false (.int _ _)]) => true
  | _ => false

theorem loader_parse : ∃ s₁ s₂ s₃ s₄,
    loader.parse = .ok (.block s₁ [.call s₂ (.name s₃ "run") [.string s₄ "lib"]]) := by
  have h : isLoader loader.parse = true := by decide +kernel
  unfold isLoader at h
  split at h
  · next heq => exact ⟨_, _, _, _, heq⟩
  · exact Bool.noConfusion h

theorem loaded_parse : ∃ s₁ s₂ s₃ i,
    loaded.parse = .ok (.block s₁ [.declare s₂ "null" none false (.int s₃ i)]) := by
  have h : isRedeclaration loaded.parse = true := by decide +kernel
  unfold isRedeclaration at h
  split at h
  · next heq => exact ⟨_, _, _, _, heq⟩
  · exact Bool.noConfusion h

/-- The moment at which the loaded script is to bind `null`. -/
theorem loaded_attempts : ∃ b : Moment,
    Moment.Reaches 1 ⟨7, .script loader, start redeclaring⟩ b ∧ b.Attempts "null" := by
  obtain ⟨s₁, s₂, s₃, s₄, hloader⟩ := loader_parse
  obtain ⟨t₁, t₂, t₃, i, hloaded⟩ := loaded_parse
  let m := start redeclaring
  let noted : Machine := { m with journal := .opened "lib" :: m.journal }
  let c := Eval.topLevel m.globals
  have hcallee : Task.perform 4 (.node (.name s₃ "run") c) m = .ok (.builtin .run) m := rfl
  have hread : m.world.readFile "lib" = .ok loaded.text := by rfl
  refine ⟨⟨2, .node (.declare t₂ "null" none false (.int t₃ i)) c, noted⟩, ?_, ?_⟩
  · refine .nested (d := 1) (.program hloader) (.nested (d := 1) .item ?_)
    refine .nested (d := 0) (.loaded hcallee rfl hread) ?_
    exact .nested (d := 0) (.program hloaded) (.nested (d := 0) .item .start)
  · exact .declare rfl (fun _ h => nomatch h)

theorem constants_stand_loaded : ∃ b : Moment,
    Moment.Reaches 1 ⟨7, .script loader, start redeclaring⟩ b ∧ b.Attempts "null" ∧
    b.machine.scopes.get? b.machine.globals "null" = some .null ∧
    ∃ outer k, (start redeclaring).run 7 loader = (.failure outer, k) ∧
      outer.fault.kind = .runtime := by
  obtain ⟨b, hb, hattempts⟩ := loaded_attempts
  obtain ⟨hvalid, htables, hrefused⟩ := constants_stand .start 7 loader hb
  have hnull : ("null", Value.null) ∈ constants := List.mem_cons_self
  obtain ⟨_, _, _, outer, k, _, _, hrun, hkind⟩ := hrefused _ hnull hattempts
  exact ⟨b, hb, hattempts, (htables _ hvalid.placed.globals).2 _ hnull, outer, k, hrun, hkind⟩

/-- Not every attempt ends the run in a failure of its own kind: whatever loads a
script fails with a kind of its own. -/
theorem loaded_attempt_is_quoted : ¬ ∀ (world : World) (m : Machine) (n : Nat) (source : Source)
    (d : Nat) (b : Moment) (e : String × Value), Session world m →
    Moment.Reaches d ⟨n, .script source, m⟩ b → e ∈ constants → b.Attempts e.1 →
    ∃ failure k, m.run n source = (.failure failure, k) ∧
      failure.fault.kind = .constantReassignment := by
  intro hall
  obtain ⟨b, hb, hattempts⟩ := loaded_attempts
  obtain ⟨failure, k, hrun, hkind⟩ :=
    hall _ _ 7 loader 1 b ("null", .null) .start hb List.mem_cons_self hattempts
  have hruntime : failureKind? ((start redeclaring).run 7 loader).1 = some .runtime := by decide +kernel
  rw [hrun] at hruntime
  have hkind' : some failure.fault.kind = some .runtime := hruntime
  rw [hkind] at hkind'
  cases hkind'

end Machine

end Script
