import Script.Eval.Machine

/-! References from values to objects.

A value with an identity is only the number of an object. `Machine.Intact` says that all such
numbers stand for objects that exist, wherever a value is kept, and that a class is made
after the class it inherits from. Objects are never removed, and an instance stays with its
class (`Store.Grows`), so a value that refers to something goes on doing so.

There is one lemma here for each way of reading a value and for each change of names or
objects. -/
namespace Script

/-! ### References -/

namespace Store

/-- What is never undone: nothing is removed, a class stays what it is, and an instance stays
with its class. -/
structure Grows (s t : Store) : Prop where
  lists : s.lists.size ≤ t.lists.size
  functions : s.functions.size ≤ t.functions.size
  classes : ∀ {id c}, s.class? id = some c → t.class? id = some c
  instances : ∀ {id i}, s.instance? id = some i → ∃ j, t.instance? id = some j ∧ j.cls = i.cls

variable {s t u : Store}

theorem Grows.refl : Grows s s := ⟨Nat.le_refl _, Nat.le_refl _, id, fun h => ⟨_, h, rfl⟩⟩

theorem Grows.trans (h : Grows s t) (h' : Grows t u) : Grows s u := by
  refine ⟨Nat.le_trans h.lists h'.lists, Nat.le_trans h.functions h'.functions,
    fun hc => h'.classes (h.classes hc), fun hi => ?_⟩
  obtain ⟨j, hj, hcls⟩ := h.instances hi
  obtain ⟨l, hl, hcls'⟩ := h'.instances hj
  exact ⟨l, hl, hcls'.trans hcls⟩

theorem Grows.classes_le (h : Grows s t) : s.classes.size ≤ t.classes.size := by
  refine Nat.le_of_not_lt fun hlt => ?_
  have hold := h.classes (Array.getElem?_eq_getElem hlt)
  exact Nat.lt_irrefl _ (Array.getElem?_eq_some_iff.mp hold).1

theorem Grows.instances_le (h : Grows s t) : s.instances.size ≤ t.instances.size := by
  refine Nat.le_of_not_lt fun hlt => ?_
  obtain ⟨j, hj, _⟩ := h.instances (Array.getElem?_eq_getElem hlt)
  exact Nat.lt_irrefl _ (Array.getElem?_eq_some_iff.mp hj).1

end Store

open Store (Grows)

/-- What the value refers to exists. -/
def Value.In (s : Store) : Value → Prop
  | .number _ | .string _ | .builtin _ => True
  | .list id => id < s.lists.size
  | .function id | .method id => id < s.functions.size
  | .bound receiver id => receiver < s.instances.size ∧ id < s.functions.size
  | .cls id => id < s.classes.size
  | .inst id => id < s.instances.size

/-- An instance of a class that exists, with attributes that refer to what exists. -/
structure Instance.In (s : Store) (i : Instance) : Prop where
  cls : i.cls < s.classes.size
  attributes : ∀ {name v}, i.attributes.get? name = some v → v.In s

/-- A class as number `id`, with functions that exist and a parent that is older. -/
structure Class.In (s : Store) (id : Nat) (c : Class) : Prop where
  parent : ∀ {p}, c.parent = some p → p < id
  methods : ∀ {name f}, c.methods.get? name = some f → f < s.functions.size

/-- The elements that a new list is to have refer to what exists. -/
def Yield.In (s : Store) : Yield → Prop
  | .value v => v.In s
  | .list elements => ∀ v ∈ elements, v.In s

/-- What a computation returns early refers to what exists. -/
def Signal.In (s : Store) : Signal → Prop
  | .ret v => v.In s
  | .exit .. | .failed _ | .exhausted => True

section Later

variable {s t : Store}

theorem Value.In.later {v : Value} (h : v.In s) (hg : s.Grows t) : v.In t := by
  cases v with
  | number | string | builtin => trivial
  | list => exact Nat.lt_of_lt_of_le h hg.lists
  | function | method => exact Nat.lt_of_lt_of_le h hg.functions
  | bound => exact ⟨Nat.lt_of_lt_of_le h.1 hg.instances_le, Nat.lt_of_lt_of_le h.2 hg.functions⟩
  | cls => exact Nat.lt_of_lt_of_le h hg.classes_le
  | inst => exact Nat.lt_of_lt_of_le h hg.instances_le

theorem Instance.In.later {i : Instance} (h : i.In s) (hg : s.Grows t) : i.In t :=
  ⟨Nat.lt_of_lt_of_le h.cls hg.classes_le, fun hv => (h.attributes hv).later hg⟩

theorem Class.In.later {id : Nat} {c : Class} (h : c.In s id) (hg : s.Grows t) : c.In t id :=
  ⟨h.parent, fun hf => Nat.lt_of_lt_of_le (h.methods hf) hg.functions⟩

end Later

namespace Store

/-- Nothing in the store refers to what is not there. -/
structure Intact (s : Store) : Prop where
  lists : ∀ xs ∈ s.lists, ∀ v ∈ xs, v.In s
  instances : ∀ i ∈ s.instances, i.In s
  classes : ∀ {id c}, s.class? id = some c → c.In s id

variable {s t : Store}

/-- What is in a store that has grown was there before, or is in order itself. -/
theorem Intact.later (h : s.Intact) (hg : s.Grows t)
    (hlists : ∀ xs ∈ t.lists, xs ∈ s.lists ∨ ∀ v ∈ xs, v.In t)
    (hinstances : ∀ i ∈ t.instances, i ∈ s.instances ∨ i.In t)
    (hclasses : ∀ {id c}, t.class? id = some c → s.class? id = some c ∨ c.In t id) : t.Intact where
  lists xs hxs := by
    rcases hlists xs hxs with hold | hnew
    · exact fun v hv => (h.lists xs hold v hv).later hg
    · exact hnew
  instances i hi := by
    rcases hinstances i hi with hold | hnew
    · exact (h.instances i hold).later hg
    · exact hnew
  classes hc := by
    rcases hclasses hc with hold | hnew
    · exact (h.classes hold).later hg
    · exact hnew

/-! ### Reading -/

theorem Intact.elements (h : s.Intact) (id : Nat) : ∀ v ∈ s.elements id, v.In s := by
  unfold Store.elements
  cases hl : s.lists[id]? with
  | none => simp
  | some xs => exact h.lists xs (Array.mem_of_getElem? hl)

theorem Intact.findMethod (h : s.Intact) {id f : Nat} {name : String}
    (hf : s.findMethod id name = some f) : f < s.functions.size := by
  obtain ⟨d, _, hd⟩ := List.exists_of_findSome?_eq_some hf
  obtain ⟨c, hc, hget⟩ := Option.bind_eq_some_iff.mp hd
  exact (h.classes hc).methods hget

theorem Intact.attribute? (h : s.Intact) {id : Nat} {name : String} {v : Value}
    (hv : s.attribute? id name = some v) : v.In s := by
  obtain ⟨i, hi, hv⟩ := Option.bind_eq_some_iff.mp hv
  split at hv
  · next hown =>
    cases hv
    exact (h.instances i (Array.mem_of_getElem? hi)).attributes hown
  · obtain ⟨f, hf, rfl⟩ := Option.map_eq_some_iff.mp hv
    exact ⟨(Array.getElem?_eq_some_iff.mp hi).1, h.findMethod hf⟩

/-! ### Making and changing -/

theorem grows_newList (s : Store) (elements : Array Value) : s.Grows (s.newList elements).2 :=
  { Grows.refl with lists := by simp [newList] }

theorem grows_newFunction (s : Store) (f : Function) : s.Grows (s.newFunction f).2 :=
  { Grows.refl with functions := by simp [newFunction] }

theorem grows_newClass (s : Store) (c : Class) : s.Grows (s.newClass c).2 := by
  refine { Grows.refl with classes := fun {id d} hd => ?_ }
  obtain ⟨hlt, hget⟩ := Array.getElem?_eq_some_iff.mp hd
  show (s.classes.push c)[id]? = some d
  rw [Array.getElem?_push_lt hlt, hget]

theorem grows_newInstance (s : Store) (cls : Nat) : s.Grows (s.newInstance cls).2 := by
  refine { Grows.refl with instances := fun {id i} hi => ⟨i, ?_, rfl⟩ }
  obtain ⟨hlt, hget⟩ := Array.getElem?_eq_some_iff.mp hi
  show (s.instances.push _)[id]? = some i
  rw [Array.getElem?_push_lt hlt, hget]

theorem grows_modifyList (s : Store) (id : Nat) (f : Array Value → Array Value) :
    s.Grows (s.modifyList id f) :=
  { Grows.refl with lists := by simp [modifyList] }

theorem grows_setAttribute (s : Store) (id : Nat) (name : String) (value : Value) :
    s.Grows (s.setAttribute id name value) := by
  refine { Grows.refl with instances := fun {x i} hi => ?_ }
  by_cases hx : id = x
  · refine ⟨{ i with attributes := i.attributes.insert name value }, ?_, rfl⟩
    show (s.instances.modify id _)[x]? = _
    rw [Array.getElem?_modify, if_pos hx, show s.instances[x]? = some i from hi]
    rfl
  · refine ⟨i, ?_, rfl⟩
    show (s.instances.modify id _)[x]? = _
    rw [Array.getElem?_modify, if_neg hx]
    exact hi

theorem mem_of_mem_modify {xs : Array α} {id : Nat} {f : α → α} {x : α} (h : x ∈ xs.modify id f) :
    x ∈ xs ∨ ∃ y ∈ xs, x = f y := by
  obtain ⟨k, hk⟩ := Array.mem_iff_getElem?.mp h
  rw [Array.getElem?_modify] at hk
  split at hk
  · obtain ⟨y, hy, rfl⟩ := Option.map_eq_some_iff.mp hk
    exact .inr ⟨y, Array.mem_of_getElem? hy, rfl⟩
  · exact .inl (Array.mem_of_getElem? hk)

theorem Intact.newList (h : s.Intact) {elements : Array Value} (he : ∀ v ∈ elements, v.In s) :
    (s.newList elements).2.Intact := by
  have hg := s.grows_newList elements
  refine h.later hg (fun xs hxs => ?_) (fun i hi => .inl hi) fun hc => .inl hc
  rcases Array.mem_push.mp hxs with hxs | rfl
  · exact .inl hxs
  · exact .inr fun v hv => (he v hv).later hg

theorem Intact.newFunction (h : s.Intact) (f : Function) : (s.newFunction f).2.Intact :=
  h.later (s.grows_newFunction f) (fun _ hxs => .inl hxs) (fun _ hi => .inl hi) fun hc => .inl hc

theorem Intact.newClass (h : s.Intact) {c : Class} (hc : c.In s s.classes.size) :
    (s.newClass c).2.Intact := by
  have hg := s.grows_newClass c
  refine h.later hg (fun xs hxs => .inl hxs) (fun i hi => .inl hi) fun {id d} hd => ?_
  replace hd : (s.classes.push c)[id]? = some d := hd
  rw [Array.getElem?_push] at hd
  split at hd
  · next hid =>
    cases hd
    subst hid
    exact .inr (hc.later hg)
  · exact .inl hd

theorem Intact.newInstance (h : s.Intact) {cls : Nat} (hcls : cls < s.classes.size) :
    (s.newInstance cls).2.Intact := by
  refine h.later (s.grows_newInstance cls) (fun xs hxs => .inl hxs) (fun i hi => ?_)
    fun hc => .inl hc
  rcases Array.mem_push.mp hi with hi | rfl
  · exact .inl hi
  · exact .inr ⟨hcls, fun hv => nomatch hv⟩

theorem Intact.modifyList (h : s.Intact) (id : Nat) {f : Array Value → Array Value}
    (hf : ∀ xs ∈ s.lists, ∀ v ∈ f xs, v.In s) : (s.modifyList id f).Intact := by
  have hg := s.grows_modifyList id f
  refine h.later hg (fun xs hxs => ?_) (fun i hi => .inl hi) fun hc => .inl hc
  rcases mem_of_mem_modify hxs with hxs | ⟨ys, hys, rfl⟩
  · exact .inl hxs
  · exact .inr fun v hv => (hf ys hys v hv).later hg

theorem Intact.setAttribute (h : s.Intact) (id : Nat) (name : String) {value : Value}
    (hv : value.In s) : (s.setAttribute id name value).Intact := by
  have hg := s.grows_setAttribute id name value
  refine h.later hg (fun xs hxs => .inl hxs) (fun i hi => ?_) fun hc => .inl hc
  replace hi : i ∈ s.instances.modify id
      fun i => { i with attributes := i.attributes.insert name value } := hi
  rcases mem_of_mem_modify hi with hi | ⟨j, hj, rfl⟩
  · exact .inl hi
  · have hin := (h.instances j hj).later hg
    refine .inr ⟨hin.cls, fun {other w} hw => ?_⟩
    rw [Bindings.get?_insert] at hw
    split at hw
    · cases hw
      exact hv.later hg
    · exact hin.attributes hw

/-! ### Operators -/

theorem Intact.elementAt (h : s.Intact) {id : Nat} {n : Number} {v : Value}
    (hv : elementAt (s.elements id) n = .ok v) : v.In s := by
  unfold Script.elementAt at hv
  cases hp : placeOf (s.elements id).size n (.listBounds .retrieval) with
  | error => rw [hp] at hv; cases hv
  | ok place =>
    rw [hp] at hv
    cases hget : (s.elements id)[place]? with
    | none => simp [bind, Except.bind, hget] at hv
    | some w =>
      obtain rfl : w = v := by simpa [bind, Except.bind, hget] using hv
      exact h.elements id _ (Array.mem_of_getElem? hget)

theorem mem_of_mem_without {xs : Array Value} {k : Nat} {v : Value} (h : v ∈ without xs k) :
    v ∈ xs := by
  unfold without at h
  rcases Array.mem_append.mp h with h | h <;>
    · obtain ⟨j, hj⟩ := Array.mem_iff_getElem?.mp h
      simp only [Array.getElem?_extract] at hj
      split at hj
      · exact Array.mem_of_getElem? hj
      · cases hj

theorem Intact.removeAt (h : s.Intact) {id : Nat} {n : Number} {xs : Array Value}
    (hxs : removeAt (s.elements id) n = .ok xs) : ∀ v ∈ xs, v.In s := by
  unfold Script.removeAt at hxs
  cases hp : placeOf (s.elements id).size n (.listBounds .removal) with
  | error =>
    rw [hp] at hxs
    cases hxs
  | ok place =>
    rw [hp] at hxs
    cases hxs
    exact fun v hv => h.elements id v (mem_of_mem_without hv)

theorem map_eq_ok {x : Except OperationFault α} {f : α → β} {b : β} (h : x.map f = .ok b) :
    ∃ a, x = .ok a ∧ b = f a := by
  cases x with
  | error => cases h
  | ok a =>
    cases h
    exact ⟨a, rfl, rfl⟩

/-- An operator yields a number, a text, or something that its operands are or hold. -/
theorem Intact.binary (h : s.Intact) {op : BinaryOp} {l r : Value} (hr : r.In s) {y : Yield}
    (hy : s.binary op l r = .ok y) : y.In s := by
  unfold Store.binary at hy
  split at hy
  case h_6 =>
    split at hy
    · cases hy
      trivial
    · cases hy
  case h_9 =>
    obtain ⟨_, _, rfl⟩ := map_eq_ok hy
    trivial
  case h_10 id =>
    cases hy
    intro w hw
    rcases Array.mem_push.mp hw with hw | rfl
    · exact h.elements id w hw
    · exact hr
  case h_11 =>
    obtain ⟨xs, hxs, rfl⟩ := map_eq_ok hy
    exact h.removeAt hxs
  case h_12 a b =>
    cases hy
    intro w hw
    rcases Array.mem_append.mp hw with hw | hw
    · exact h.elements a w hw
    · exact h.elements b w hw
  case h_13 =>
    obtain ⟨v, hv, rfl⟩ := map_eq_ok hy
    exact h.elementAt hv
  all_goals
    cases hy
    try trivial

theorem characterAt_in {t : String} {n : Number} {v : Value} (hv : characterAt t n = .ok v) :
    v.In s := by
  unfold characterAt at hv
  cases hp : placeOf t.toList.length n .stringBounds with
  | error =>
    simp only [hp] at hv
    cases hv
  | ok place =>
    cases hget : t.toList[place]? with
    | none => simp [bind, Except.bind, hp, hget] at hv
    | some ch =>
      obtain rfl : Value.string ch.toString = v := by
        simpa [bind, Except.bind, hp, hget] using hv
      trivial

theorem Intact.index (h : s.Intact) {target index v : Value} (hv : s.index target index = .ok v) :
    v.In s := by
  unfold Store.index at hv
  split at hv
  · exact h.elementAt hv
  · exact characterAt_in hv
  all_goals cases hv

end Store

/-! ### Machines -/

namespace Machine

/-- Nothing on the machine refers to what is not there. -/
structure Intact (m : Machine) : Prop where
  names : ∀ t ∈ m.scopes.tables, ∀ {name v}, t.bindings.get? name = some v → v.In m.store
  store : m.store.Intact

variable {m k : Machine}

/-- A store that has grown and is in order itself leaves the names in order. -/
theorem Intact.later {s : Store} (h : m.Intact) (hg : m.store.Grows s) (hs : s.Intact) :
    Intact { m with store := s } :=
  ⟨fun t ht _ _ hv => (h.names t ht hv).later hg, hs⟩

theorem Intact.get? (h : m.Intact) {scope : ScopeId} {name : String} {v : Value}
    (hv : m.scopes.get? scope name = some v) : v.In m.store := by
  obtain ⟨level, _, hlevel⟩ := List.exists_of_findSome?_eq_some hv
  obtain ⟨t, ht, hget⟩ := Option.bind_eq_some_iff.mp hlevel
  exact h.names t (Array.mem_of_getElem? ht) hget

theorem Intact.bind (h : m.Intact) (scope : ScopeId) (name : String) {value : Value}
    (hv : value.In m.store) (constant : Bool) (journal : List Effect) :
    Intact { m with scopes := m.scopes.bind scope name value constant, journal } := by
  refine ⟨fun t ht other v hget => ?_, h.store⟩
  replace ht : t ∈ m.scopes.tables.modify scope (·.bind name value constant) := ht
  rcases Store.mem_of_mem_modify ht with ht | ⟨old, hold, rfl⟩
  · exact h.names t ht hget
  · replace hget : (old.bindings.insert name value).get? other = some v := hget
    rw [Bindings.get?_insert] at hget
    split at hget
    · cases hget
      exact hv
    · exact h.names old hold hget

theorem Intact.grow (h : m.Intact) (parent : Option ScopeId) :
    Intact { m with scopes := (m.scopes.grow parent).2 } := by
  refine ⟨fun t ht name v hget => ?_, h.store⟩
  rcases Array.mem_push.mp ht with ht | rfl
  · exact h.names t ht hget
  · cases hget

end Machine

end Script
