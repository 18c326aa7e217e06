import Script.Proofs.Intact

/-! Instances and the classes they descend from.

`Store.Inherits` is the class chain: a class, its parent, the parent of that, and so on. The
walk that looks for methods and for names takes as many steps as the class has a number, and
that is enough, because a parent is always older than its class (`Intact.mem_ancestry`).

Classes are compared by name, so one that merely goes by the name of a class of the chain
passes for it. Main statement, `Eval.isinstance_by_name`: that is the only difference, at
every moment of every session. -/
namespace Script

namespace Store

variable {s : Store} {id d : Nat} {name : String}

/-- The class that a class inherits from. -/
def parent? (s : Store) (id : Nat) : Option Nat := (s.class? id).bind Class.parent

/-- The class itself, or one that parent links lead to. -/
def Inherits (s : Store) : Nat → Nat → Prop :=
  Relation.ReflTransGen fun id parent => s.parent? id = some parent

/-- An instance was made from this class. -/
def InstanceOf (s : Store) (x cls : Nat) : Prop := ∃ i, s.instance? x = some i ∧ i.cls = cls

/-! ### The walk along the chain -/

theorem Intact.parent?_lt (h : s.Intact) (hp : s.parent? id = some d) : d < id := by
  obtain ⟨c, hc, hparent⟩ := Option.bind_eq_some_iff.mp hp
  exact (h.classes hc).parent hparent

/-- The whole chain exists. -/
theorem Intact.inherits_lt (h : s.Intact) (hd : s.Inherits id d) (hid : id < s.classes.size) :
    d < s.classes.size := by
  induction hd with
  | refl => exact hid
  | tail _ hp ih => exact Nat.lt_trans (h.parent?_lt hp) ih

theorem ancestryFrom_succ (hid : id < s.classes.size) (n : Nat) :
    s.ancestryFrom (n + 1) id = id :: ((s.parent? id).map (s.ancestryFrom n)).getD [] := by
  have hc : s.class? id = some s.classes[id] := Array.getElem?_eq_getElem hid
  cases hp : s.classes[id].parent <;> simp [ancestryFrom, parent?, hc, hp]

/-- A walk of more steps than the class has a number comes to the end of the chain. -/
theorem Intact.mem_ancestryFrom (h : s.Intact) {n : Nat} (hn : id < n) (hid : id < s.classes.size) :
    d ∈ s.ancestryFrom n id ↔ s.Inherits id d := by
  induction n generalizing id with
  | zero => exact absurd hn (Nat.not_lt_zero id)
  | succ n ih =>
    rw [ancestryFrom_succ hid, List.mem_cons]
    constructor
    · rintro (rfl | hmem)
      · exact .refl
      · cases hp : s.parent? id with
        | none => simp [hp] at hmem
        | some parent =>
          have hlt := h.parent?_lt hp
          refine .head hp ((ih (by omega) (by omega)).mp ?_)
          simpa [hp] using hmem
    · intro hd
      rcases Relation.ReflTransGen.cases_head hd with rfl | ⟨parent, hp, hd⟩
      · exact .inl rfl
      · have hlt := h.parent?_lt hp
        refine .inr ?_
        rw [hp]
        exact (ih (by omega) (by omega)).mpr hd

theorem Intact.mem_ancestry (h : s.Intact) (hid : id < s.classes.size) :
    d ∈ s.ancestry id ↔ s.Inherits id d :=
  h.mem_ancestryFrom (Nat.lt_succ_self id) hid

/-- A class descends from a name if some class of its chain goes by it. -/
theorem Intact.descendsFrom_iff (h : s.Intact) (hid : id < s.classes.size) (name : String) :
    s.descendsFrom id name = true ↔
      ∃ d c, s.Inherits id d ∧ s.class? d = some c ∧ c.name = name := by
  unfold descendsFrom
  rw [List.any_eq_true]
  constructor
  · rintro ⟨d, hmem, hname⟩
    have hd := (h.mem_ancestry hid).mp hmem
    have hlt := h.inherits_lt hd hid
    have hc : s.class? d = some s.classes[d] := Array.getElem?_eq_getElem hlt
    refine ⟨d, _, hd, hc, ?_⟩
    simpa [className, hc] using hname
  · rintro ⟨d, c, hd, hc, rfl⟩
    exact ⟨d, (h.mem_ancestry hid).mpr hd, by simp [className, hc]⟩

/-- A method is found if some class of the chain has one. -/
theorem Intact.findMethod_isSome (h : s.Intact) (hid : id < s.classes.size) :
    (s.findMethod id name).isSome ↔
      ∃ d c, s.Inherits id d ∧ s.class? d = some c ∧ (c.methods.get? name).isSome := by
  unfold Store.findMethod
  rw [List.findSome?_isSome_iff]
  constructor
  · rintro ⟨d, hmem, hfound⟩
    obtain ⟨f, hf⟩ := Option.isSome_iff_exists.mp hfound
    obtain ⟨c, hc, hget⟩ := Option.bind_eq_some_iff.mp hf
    exact ⟨d, c, (h.mem_ancestry hid).mp hmem, hc, by rw [hget]; rfl⟩
  · rintro ⟨d, c, hd, hc, hfound⟩
    exact ⟨d, (h.mem_ancestry hid).mpr hd, by rw [hc]; exact hfound⟩

/-- What is found from a class of the chain is found from its start. -/
theorem Intact.findMethod_of_inherits (h : s.Intact) (hid : id < s.classes.size)
    (hd : s.Inherits id d) (hfound : (s.findMethod d name).isSome) :
    (s.findMethod id name).isSome := by
  obtain ⟨e, c, he, hc, hget⟩ := (h.findMethod_isSome (h.inherits_lt hd hid)).mp hfound
  exact (h.findMethod_isSome hid).mpr ⟨e, c, hd.trans he, hc, hget⟩

theorem Intact.instanceOf_lt (h : s.Intact) {x cls : Nat} (hx : s.InstanceOf x cls) :
    cls < s.classes.size := by
  obtain ⟨i, hi, rfl⟩ := hx
  exact (h.instances i (Array.mem_of_getElem? hi)).cls

end Store

namespace Eval

variable {m k : Machine} {c : Context} {span : Span} {x cls : Nat}

/-- An instance stays with its class, whatever is performed. -/
theorem instanceOf_stays (hm : m.Intact) (hx : m.store.InstanceOf x cls) {n : Nat} {t : Task}
    (hk : (∃ v, t.perform n m = .ok v k) ∨ ∃ e, t.perform n m = .error e k) :
    k.store.InstanceOf x cls := by
  obtain ⟨i, hi, rfl⟩ := hx
  have htidy := cares_perform n t hm
  rcases hk with ⟨v, hv⟩ | ⟨e, he⟩
  · exact (htidy.of_ok hv).1.instances hi
  · exact (htidy.of_error he).1.instances hi

/-- What a class is called for is an instance of that class. -/
theorem instanceOf_created (hm : m.Intact) (hcls : (Value.cls cls).In m.store) {args : List Value}
    (ha : ∀ v ∈ args, v.In m.store) {n : Nat} {v : Value}
    (hv : call (Task.perform n) c span (.cls cls) args m = .ok v k) :
    ∃ y, v = .inst y ∧ k.store.InstanceOf y cls := by
  obtain ⟨_, _, y, i, rfl, hi, hof⟩ := (tidy_instantiate (cares_perform n) hm hcls ha).of_ok hv
  exact ⟨y, rfl, i, hi, hof⟩

theorem call_isInstance (p : Performer) {i : Instance} (hx : m.store.instance? x = some i)
    {id : Nat} {target : Class} (hid : m.store.class? id = some target) :
    call p c span (.builtin .isInstance) [.inst x, .cls id] m =
      .ok (.int (if m.store.descendsFrom i.cls target.name then 1 else 0)) m := by
  have hcall : call p c span (.builtin .isInstance) [.inst x, .cls id] m = .ok (.ofBool
      ((m.store.instance? x).any fun i =>
        m.store.descendsFrom i.cls (m.store.className id))) m := rfl
  rw [hcall, hx, Option.any_some, Store.className, hid]
  rfl

/-- Asked whether an instance is one of a class, a program is told whether the class that it
was made from, or one that this inherits from, goes by the name of the class in question. So
it is told yes for every class of the chain, and for no others unless they share a name with
one. Every method that is found from a class of the chain is found from its start. An
instance stays with the class that was called for it. -/
theorem isinstance_by_name {world : World} {m : Machine} (hm : m.Reachable world) {x cls : Nat}
    (hx : m.store.InstanceOf x cls) {id : Nat} {target : Class}
    (hid : m.store.class? id = some target) (p : Performer) (c : Context) (span : Span) :
    (∃ answer : Bool, call p c span (.builtin .isInstance) [.inst x, .cls id] m =
        .ok (.int (if answer then 1 else 0)) m ∧
      (answer = true ↔ ∃ d named, m.store.Inherits cls d ∧ m.store.class? d = some named ∧
        named.name = target.name) ∧
      (m.store.Inherits cls id → answer = true) ∧
      ((∀ d named, m.store.Inherits cls d → m.store.class? d = some named →
          named.name = target.name → d = id) →
        (answer = true ↔ m.store.Inherits cls id))) ∧
    (∀ d name, m.store.Inherits cls d → (m.store.findMethod d name).isSome →
      (m.store.findMethod cls name).isSome) ∧
    (∀ n t k, ((∃ v, Task.perform n t m = .ok v k) ∨ ∃ e, Task.perform n t m = .error e k) →
      k.store.InstanceOf x cls) ∧
    ∀ n made args v k, (Value.cls made).In m.store → (∀ w ∈ args, w.In m.store) →
      call (Task.perform n) c span (.cls made) args m = .ok v k →
      ∃ y, v = .inst y ∧ k.store.InstanceOf y made := by
  have hintact := hm.intact
  have hcls := hintact.store.instanceOf_lt hx
  have hnamed := hintact.store.descendsFrom_iff hcls target.name
  refine ⟨?_, ?_, ?_, ?_⟩
  · obtain ⟨i, hi, rfl⟩ := hx
    refine ⟨_, call_isInstance p hi hid, hnamed, fun h => hnamed.mpr ⟨id, target, h, hid, rfl⟩,
      fun hunique => ?_⟩
    rw [hnamed]
    constructor
    · rintro ⟨d, named, hd, hc, hname⟩
      exact hunique d named hd hc hname ▸ hd
    · intro h
      exact ⟨id, target, h, hid, rfl⟩
  · exact fun d name hd hfound => hintact.store.findMethod_of_inherits hcls hd hfound
  · exact fun n t k hk => instanceOf_stays hintact hx hk
  · exact fun n made args v k hmade hargs hv => instanceOf_created hintact hmade hargs hv

/-- A class, an instance of it, and another class by its name, which has a method. -/
def homonyms : Source :=
  ⟨"<homonyms>", "class A \x7b\n\x7d\nvar x : new A()\nclass A \x7b\nfunc f() => 1\n\x7d"⟩

def afterHomonyms : Machine := ((Machine.start default).run 9 homonyms).2

theorem afterHomonyms_reachable : afterHomonyms.Reachable default := by
  unfold afterHomonyms
  exact (Machine.Session.run 9 homonyms .start).reachable

theorem afterHomonyms_instance : afterHomonyms.store.InstanceOf 0 0 := by
  have h : (afterHomonyms.store.instance? 0).map Instance.cls = some 0 := by decide +kernel
  exact Option.map_eq_some_iff.mp h

theorem afterHomonyms_named : ∃ target, afterHomonyms.store.class? 1 = some target ∧
    target.name = "A" := by
  have h : (afterHomonyms.store.class? 1).map Class.name = some "A" := by decide +kernel
  exact Option.map_eq_some_iff.mp h

/-- An instance can pass for one of a class that is not of its chain and has a method that the
instance does not have. -/
theorem isinstance_not_identity : ∃ (m : Machine) (x cls id : Nat) (target : Class),
    m.Reachable default ∧ m.store.InstanceOf x cls ∧ m.store.class? id = some target ∧
    (∀ (p : Performer) (c : Context) (span : Span),
      call p c span (.builtin .isInstance) [.inst x, .cls id] m = .ok (.int 1) m) ∧
    ¬ m.store.Inherits cls id ∧
    ∃ name, (m.store.findMethod id name).isSome ∧ ¬ (m.store.findMethod cls name).isSome := by
  obtain ⟨target, htarget, hname⟩ := afterHomonyms_named
  have hx := afterHomonyms_instance
  refine ⟨afterHomonyms, 0, 0, 1, target, afterHomonyms_reachable, hx, htarget,
    fun p c span => ?_, fun h => ?_, "f", by decide +kernel, by decide +kernel⟩
  · obtain ⟨i, hi, hcls⟩ := hx
    have hdescends : afterHomonyms.store.descendsFrom 0 "A" = true := by decide +kernel
    rw [call_isInstance p hi htarget, hcls, hname, hdescends]
    rfl
  · have hstore := afterHomonyms_reachable.intact.store
    have hmem := (hstore.mem_ancestry (hstore.instanceOf_lt hx)).mpr h
    exact absurd hmem (by decide +kernel)

/-- The later class of that name counts for the instance because of its name. -/
theorem isinstance_by_name_homonym : afterHomonyms.Reachable default ∧
    afterHomonyms.store.InstanceOf 0 0 ∧ ∃ target, afterHomonyms.store.class? 1 = some target ∧
    ∃ answer : Bool, call (fun _ => throw .exhausted) default default (.builtin .isInstance)
        [.inst 0, .cls 1] afterHomonyms = .ok (.int (if answer then 1 else 0)) afterHomonyms ∧
      (answer = true ↔ ∃ d named, afterHomonyms.store.Inherits 0 d ∧
        afterHomonyms.store.class? d = some named ∧ named.name = target.name) := by
  obtain ⟨target, htarget, _⟩ := afterHomonyms_named
  obtain ⟨⟨answer, hcall, hanswer, _⟩, _⟩ := isinstance_by_name afterHomonyms_reachable
    afterHomonyms_instance htarget (fun _ => throw .exhausted) default default
  exact ⟨afterHomonyms_reachable, afterHomonyms_instance, target, htarget, answer, hcall, hanswer⟩

end Eval

end Script
