import Script.Proofs.Intact

/-! Attributes, by a dot and by name.

An attribute is read as `v.n` or by builtins that are given its name, and set as `v.n : w` or
by another builtin. For instances the two ways are the same, and for values that have no
attributes both refuse. Only a class is different: a dot finds its methods, and the builtins
do not (`Eval.class_attributes_differ`).

Main statement, `Eval.attributes_agree`: the two ways agree on whatever an object expression
yields, at every moment of every session. -/
namespace Script

namespace Store

variable {s : Store} {x : Nat} {name : String} {v : Value}

theorem instance?_setAttribute_of_ne {y : Nat} (h : y ≠ x) :
    (s.setAttribute x name v).instance? y = s.instance? y := by
  show (s.instances.modify x _)[y]? = s.instances[y]?
  rw [Array.getElem?_modify, if_neg (Ne.symm h)]

theorem instance?_setAttribute_self : (s.setAttribute x name v).instance? x =
    (s.instance? x).map fun i => { i with attributes := i.attributes.insert name v } := by
  show (s.instances.modify x _)[x]? = _
  rw [Array.getElem?_modify, if_pos rfl]
  rfl

theorem ancestryFrom_of_classes {t : Store} (h : t.classes = s.classes) (n id : Nat) :
    t.ancestryFrom n id = s.ancestryFrom n id := by
  induction n generalizing id with
  | zero => rfl
  | succ n ih =>
    unfold ancestryFrom class?
    rw [h]
    split
    · rfl
    · split
      · rfl
      · rw [ih]

/-- Methods are found in the classes. -/
theorem findMethod_of_classes {t : Store} (h : t.classes = s.classes) (id : Nat) (name : String) :
    t.findMethod id name = s.findMethod id name := by
  unfold findMethod ancestry class?
  rw [ancestryFrom_of_classes h, h]

/-- Setting an attribute of an instance that exists sets that attribute and no other. -/
theorem attribute?_setAttribute (hx : x < s.instances.size) (other : String) :
    (s.setAttribute x name v).attribute? x other =
      if name = other then some v else s.attribute? x other := by
  have hi : s.instance? x = some s.instances[x] := Array.getElem?_eq_getElem hx
  have hmethod : ∀ cls, (s.setAttribute x name v).findMethod cls other = s.findMethod cls other :=
    fun cls => findMethod_of_classes (s := s) (t := s.setAttribute x name v) rfl cls other
  unfold attribute?
  rw [instance?_setAttribute_self, hi]
  by_cases hname : name = other <;> simp [hname, hmethod]

end Store

/-- Nothing but one attribute of one instance is different. -/
structure Machine.OnlyAttribute (m k : Machine) (x : Nat) (name : String) : Prop where
  scopes : k.scopes = m.scopes
  globals : k.globals = m.globals
  world : k.world = m.world
  lists : k.store.lists = m.store.lists
  functions : k.store.functions = m.store.functions
  classes : k.store.classes = m.store.classes
  others : ∀ y ≠ x, k.store.instance? y = m.store.instance? y
  cls : (k.store.instance? x).map Instance.cls = (m.store.instance? x).map Instance.cls
  attributes : ∀ other ≠ name, k.store.attribute? x other = m.store.attribute? x other

namespace Eval

variable {m m₀ m₁ : Machine} {n : Nat} {c : Context} {span : Span} {object value : Node Span}
  {v w : Value} {name : String} {x : Nat}

/-- A machine behind the setting of an attribute. -/
def withAttribute (m : Machine) (x : Nat) (name : String) (w : Value) : Machine :=
  { m with
    store := m.store.setAttribute x name w
    journal := .attributeSet x name :: m.journal }

theorem onlyAttribute_withAttribute (hx : x < m.store.instances.size) (name : String) (w : Value) :
    m.OnlyAttribute (withAttribute m x name w) x name where
  scopes := rfl
  globals := rfl
  world := rfl
  lists := rfl
  functions := rfl
  classes := rfl
  others y hy := Store.instance?_setAttribute_of_ne hy
  cls := by
    show ((m.store.setAttribute x name w).instance? x).map _ = _
    rw [Store.instance?_setAttribute_self, Option.map_map]
    rfl
  attributes other hother := by
    show (m.store.setAttribute x name w).attribute? x other = _
    rw [Store.attribute?_setAttribute hx, if_neg (Ne.symm hother)]

/-! ### By a dot -/

theorem readAttribute_inst : readAttribute c (.inst x) name span m =
    match m.store.attribute? x name with
    | some u => .ok u m
    | none => fail c (.noAttribute (m.store.instanceClassName x) name) span m := by
  unfold readAttribute
  rw [bind_get]
  dsimp only
  cases m.store.attribute? x name <;> rfl

theorem readAttribute_cls {id : Nat} : readAttribute c (.cls id) name span m =
    match m.store.findMethod id name with
    | some method => .ok (.method method) m
    | none => fail c (.noMethod (m.store.className id) name) span m := by
  unfold readAttribute
  rw [bind_get]
  dsimp only
  cases m.store.findMethod id name <;> rfl

theorem perform_getAttr (hv : Task.perform n (.node object c) m₀ = .ok v m) :
    Task.perform (n + 1) (.node (.getAttr span object name) c) m₀ = readAttribute c v name span m :=
  bind_ok hv

theorem perform_setAttr (hv : Task.perform n (.node object c) m₀ = .ok v m)
    (hw : Task.perform n (.node value c) m = .ok w m₁) :
    Task.perform (n + 1) (.node (.setAttr span object name value) c) m₀ =
      match v with
      | .inst x => .ok w (withAttribute m₁ x name w)
      | other => fail c (.attributeWrite name other.type) object.tag m₁ := by
  refine (bind_ok hv).trans ((bind_ok hw).trans ?_)
  cases v <;> rfl

/-! ### By name -/

/-- Whether a builtin finds an attribute, and what it reads instead of one. -/
theorem call_hasAttr (p : Performer) : call p c span (.builtin .hasAttr) [v, .string name] m =
    .ok (.ofBool (match v with
      | .inst x => (m.store.attribute? x name).isSome
      | _ => false)) m := by
  cases v <;> rfl

theorem call_setAttr (p : Performer) : call p c span (.builtin .setAttr) [v, .string name, w] m =
    match v with
    | .inst x => .ok .null (withAttribute m x name w)
    | other => fail ⟨m.globals, ⟨"setattr", some span.start⟩ :: c.calls⟩
        (.argument (.writeOfNonObject other.type)) span m := by
  cases v <;> rfl

/-- An instance that an expression yields still exists behind another. -/
theorem inst_lt {world : World} (hm : m₀.Reachable world)
    (hv : Task.perform n (.node object c) m₀ = .ok (.inst x) m)
    (hw : Task.perform n (.node value c) m = .ok w m₁) : x < m₁.store.instances.size := by
  obtain ⟨_, hintact, hx⟩ := (cares_perform n _ hm.intact).of_ok hv
  obtain ⟨hgrows, _⟩ := (cares_perform n _ hintact).of_ok hw
  exact Nat.lt_of_lt_of_le hx hgrows.instances_le

/-- What an object expression yields, at any moment, has the same attributes by a dot and by
name, unless it is a class: by a dot it has its methods and those of its ancestors, and by name
it has none. An attribute is set in both ways or in neither, with the same effect: it has its
new value then, and nothing else is different. -/
theorem attributes_agree {world : World} {m₀ m : Machine} (hm : m₀.Reachable world) {n : Nat}
    {c : Context} {object : Node Span} {v : Value}
    (hv : Task.perform n (.node object c) m₀ = .ok v m) (name : String) (span site : Span)
    (p : Performer) (outer : Context) :
    ((∀ id, v ≠ .cls id) →
      (∃ u, Task.perform (n + 1) (.node (.getAttr span object name) c) m₀ = .ok u m ∧
        call p outer site (.builtin .hasAttr) [v, .string name] m = .ok (.int 1) m ∧
        ∀ default, call p outer site (.builtin .getAttr) [v, .string name, default] m = .ok u m) ∨
      ∃ f, Task.perform (n + 1) (.node (.getAttr span object name) c) m₀ = .error (.failed f) m ∧
        call p outer site (.builtin .hasAttr) [v, .string name] m = .ok (.int 0) m) ∧
    (∀ id, v = .cls id →
      (∀ method, m.store.findMethod id name = some method →
        Task.perform (n + 1) (.node (.getAttr span object name) c) m₀ = .ok (.method method) m) ∧
      (m.store.findMethod id name = none → ∃ f,
        Task.perform (n + 1) (.node (.getAttr span object name) c) m₀ = .error (.failed f) m) ∧
      call p outer site (.builtin .hasAttr) [v, .string name] m = .ok (.int 0) m ∧
      ∀ default, ∃ f, f.report.details = "Cannot get attribute of non-object" ∧
        call p outer site (.builtin .getAttr) [v, .string name, default] m = .error (.failed f) m) ∧
    ∀ value w m₁, Task.perform n (.node value c) m = .ok w m₁ →
      (∃ x k, v = .inst x ∧
        Task.perform (n + 1) (.node (.setAttr span object name value) c) m₀ = .ok w k ∧
        call p outer site (.builtin .setAttr) [v, .string name, w] m₁ = .ok .null k ∧
        (∀ reader at_, readAttribute reader v name at_ k = .ok w k) ∧ m₁.OnlyAttribute k x name) ∨
      ∃ f g, (∀ x, v ≠ .inst x) ∧
        Task.perform (n + 1) (.node (.setAttr span object name value) c) m₀ =
          .error (.failed f) m₁ ∧
        call p outer site (.builtin .setAttr) [v, .string name, w] m₁ = .error (.failed g) m₁ := by
  refine ⟨fun hcls => ?_, ?_, fun value w m₁ hw => ?_⟩
  · rw [perform_getAttr hv, call_hasAttr]
    cases v with
    | cls id => exact absurd rfl (hcls id)
    | inst x =>
      have hget : ∀ default,
          call p outer site (.builtin .getAttr) [.inst x, .string name, default] m =
            .ok ((m.store.attribute? x name).getD default) m := fun _ => rfl
      simp only [readAttribute_inst, hget]
      cases m.store.attribute? x name with
      | some u => exact .inl ⟨u, rfl, rfl, fun _ => rfl⟩
      | none => exact .inr ⟨_, rfl, rfl⟩
    | _ => exact .inr ⟨_, rfl, rfl⟩
  · rintro id rfl
    rw [perform_getAttr hv, readAttribute_cls]
    refine ⟨fun method hmethod => ?_, fun hnone => ?_, rfl, fun default => ⟨_, rfl, rfl⟩⟩
    · rw [hmethod]
    · rw [hnone]
      exact ⟨_, rfl⟩
  · rw [perform_setAttr hv hw, call_setAttr]
    cases v with
    | inst x =>
      have hx := inst_lt hm hv hw
      refine .inl ⟨x, withAttribute m₁ x name w, rfl, rfl, rfl, fun reader at_ => ?_,
        onlyAttribute_withAttribute hx name w⟩
      have hset : (withAttribute m₁ x name w).store.attribute? x name = some w := by
        show (m₁.store.setAttribute x name w).attribute? x name = some w
        rw [Store.attribute?_setAttribute hx, if_pos rfl]
      rw [readAttribute_inst, hset]
    | _ => exact .inr ⟨_, _, fun _ => nofun, rfl, rfl⟩

/-- A class with a method, and an instance of it. -/
def instancing : Source := ⟨"<instancing>", "class A \x7b\nfunc f() => 1\n\x7d\nvar a : new A()"⟩

def afterInstancing : Machine := ((Machine.start default).run 9 instancing).2

def instancingTop : Context := topLevel afterInstancing.globals

theorem afterInstancing_reachable : afterInstancing.Reachable default := by
  unfold afterInstancing
  exact (Machine.Session.run 9 instancing .start).reachable

theorem perform_name (h : m.scopes.get? c.scope name = some v) :
    Task.perform (n + 1) (.node (.name span name) c) m = .ok v m := by
  refine (bind_ok (lookup_eq name)).trans ?_
  rw [h]
  rfl

/-- A value that a name stands for behind that program. -/
theorem afterInstancing_named {name : String} {type : ValueType}
    (h : (afterInstancing.scopes.get? instancingTop.scope name).map Value.type = some type) :
    ∃ v, v.type = type ∧ v.In afterInstancing.store ∧
      Task.perform 1 (.node (.name default name) instancingTop) afterInstancing =
        .ok v afterInstancing := by
  obtain ⟨v, hv, htype⟩ := Option.map_eq_some_iff.mp h
  exact ⟨v, htype, afterInstancing_reachable.intact.get? hv, perform_name hv⟩

/-- By a dot a class has its methods, and by name it has not. -/
theorem class_attributes_differ : ∃ (m : Machine) (c : Context) (object : Node Span) (id : Nat)
    (u : Value), m.Reachable default ∧ Task.perform 1 (.node object c) m = .ok (.cls id) m ∧
    (∀ span, Task.perform 2 (.node (.getAttr span object "f") c) m = .ok u m) ∧
    ∀ (p : Performer) (outer : Context) (site : Span),
      call p outer site (.builtin .hasAttr) [.cls id, .string "f"] m = .ok (.int 0) m ∧
      ∀ default, ∃ f,
        call p outer site (.builtin .getAttr) [.cls id, .string "f", default] m =
          .error (.failed f) m := by
  have htype : (afterInstancing.scopes.get? instancingTop.scope "A").map Value.type =
      some .cls := by
    decide +kernel
  have hsize : afterInstancing.store.classes.size = 1 := by decide +kernel
  have hmethods : (afterInstancing.store.findMethod 0 "f").isSome := by decide +kernel
  obtain ⟨v, hcls, hin, hv⟩ := afterInstancing_named htype
  cases v with
  | cls id =>
    have hlt : id < afterInstancing.store.classes.size := hin
    obtain rfl : id = 0 := by omega
    obtain ⟨method, hmethod⟩ := Option.isSome_iff_exists.mp hmethods
    refine ⟨afterInstancing, instancingTop, _, 0, .method method, afterInstancing_reachable, hv,
      fun span => ?_, fun p outer site => ⟨rfl, fun default => ⟨_, rfl⟩⟩⟩
    rw [perform_getAttr hv, readAttribute_cls, hmethod]
  | number n => cases n <;> cases hcls
  | _ => cases hcls

/-- An instance whose class has a method gets an attribute. -/
theorem attributes_agree_instance : afterInstancing.Reachable default ∧ ∃ x k,
    Task.perform 1 (.node (.name default "a") instancingTop) afterInstancing =
      .ok (.inst x) afterInstancing ∧
    Task.perform 2 (.node (.setAttr default (.name default "a") "n" (.int default 7)) instancingTop)
      afterInstancing = .ok (.int 7) k ∧
    call (Task.perform 1) instancingTop default (.builtin .setAttr) [.inst x, .string "n", .int 7]
      afterInstancing = .ok .null k ∧ afterInstancing.OnlyAttribute k x "n" := by
  refine ⟨afterInstancing_reachable, ?_⟩
  have htype : (afterInstancing.scopes.get? instancingTop.scope "a").map Value.type =
      some .inst := by
    decide +kernel
  obtain ⟨v, hinst, _, hv⟩ := afterInstancing_named htype
  cases v with
  | inst x =>
    rcases (attributes_agree afterInstancing_reachable hv "n" default default (Task.perform 1)
      instancingTop).2.2 (.int default 7) (.int 7) afterInstancing rfl with
      ⟨y, k, hy, hset, hcall, _, honly⟩ | ⟨_, _, hnot, _⟩
    · cases hy
      exact ⟨x, k, hv, hset, hcall, honly⟩
    · exact absurd rfl (hnot x)
  | number n => cases n <;> cases hinst
  | _ => cases hinst

end Eval

end Script
