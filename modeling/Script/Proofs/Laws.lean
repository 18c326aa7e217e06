import Script.Proofs.Constants

/-! What a computation does itself, and what it leaves to nested tasks.

The evaluator performs nested tasks, and does a little between them. A `Law` says
what may be done: which tasks may be performed, which lists and instances may be
changed, and which failures may be raised. A computation without nested tasks keeps
to a law if all that it changes and raises is lawful (`Own`). One with nested tasks is
taken apart: the machine it leaves is reached by stretches that are its own and by
stretches that are a nested task's (`Acts`), and a failure is its own or that of a
nested node (`Follows`).

Each function of the evaluator follows every law that lets it do what it is there
for: a law that covers a frame lets it fail in that frame, and one that lets a call do
its work (`Lets`) lets it enter a frame of its own and run a body there. -/
namespace Script

/-! ### Faults of calls -/

/-- Whom a fault is blamed on: the text, before anything runs; a caller, who calls
what cannot be called so; or whatever is running. -/
inductive Blame where
  | text | caller | running
deriving DecidableEq, Repr

def Fault.blame : Fault → Blame
  | .illegalCharacter _ | .unrepresentable _ | .unclosedString | .loneBang | .expected _
  | .identifierBeforeEqual _ | .strayIdentifier _ | .strayEqual | .strayToken _
  | .misspelt .. => .text
  | .parameterType .. | .notCallable _ | .tooManyArguments .. | .tooFewArguments .. => .caller
  | _ => .running

theorem Fault.isStatic_iff (fault : Fault) :
    fault.kind.isStatic = true ↔ fault.blame = .text := by
  cases fault <;> simp [kind, FaultKind.isStatic, blame]

theorem Eval.blame_arityFault (callee : Callee) (wanted given : Nat) :
    (arityFault callee wanted given).blame = .caller := by
  unfold arityFault
  split <;> rfl

/-! ### Laws -/

/-- What a step may do. -/
structure Law where
  /-- The nested tasks that it may perform. -/
  nested : Task → Prop
  /-- The lists that it may change itself. -/
  lists : Nat → Prop
  /-- The instances whose attributes it may set itself. -/
  instances : Nat → Prop
  /-- The failures that it may raise itself. -/
  raise : Failure → Prop

namespace Law

/-- Whatever fails while these calls are active may fail, unless a caller is to blame. -/
def Covers (law : Law) (calls : List Call) : Prop :=
  ∀ fault span, fault.blame = .running → law.raise (.ofCalls fault span calls)

/-- A caller may be blamed while these calls are active. -/
def Blames (law : Law) (calls : List Call) : Prop :=
  ∀ fault span, fault.blame = .caller → law.raise (.ofCalls fault span calls)

/-- The law that lets fail whatever fails while these calls are active. -/
def covering (law : Law) (calls : List Call) : Law :=
  { law with
    raise := fun f => ∃ fault span, fault.blame = .running ∧ f = .ofCalls fault span calls }

theorem covers_covering {law : Law} {calls : List Call} : (law.covering calls).Covers calls :=
  fun fault span h => ⟨fault, span, h, rfl⟩

/-- All lists and instances that may not be changed stay as they are. -/
structure Spares (law : Law) (m k : Machine) : Prop where
  lists : ∀ {id l}, ¬ law.lists id → m.store.lists[id]? = some l → k.store.lists[id]? = some l
  instances : ∀ {id i}, ¬ law.instances id → m.store.instances[id]? = some i →
    k.store.instances[id]? = some i

variable {law : Law} {m k l : Machine}

theorem Spares.refl : law.Spares m m := ⟨fun _ h => h, fun _ h => h⟩

theorem Spares.trans (h : law.Spares m k) (h' : law.Spares k l) : law.Spares m l :=
  ⟨fun hid hl => h'.lists hid (h.lists hid hl),
    fun hid hi => h'.instances hid (h.instances hid hi)⟩

/-- A change of something else. -/
theorem Spares.of_eq (hl : k.store.lists = m.store.lists)
    (hi : k.store.instances = m.store.instances) : law.Spares m k := by
  constructor
  · rw [hl]
    exact fun _ h => h
  · rw [hi]
    exact fun _ h => h

theorem getElem?_push_of_some {xs : Array α} {id : Nat} {x y : α} (h : xs[id]? = some x) :
    (xs.push y)[id]? = some x := by
  have hlt : id < xs.size := (Array.getElem?_eq_some_iff.mp h).1
  rw [Array.getElem?_push_lt hlt, ← Array.getElem?_eq_getElem hlt, h]

theorem Spares.newList (elements : Array Value) :
    law.Spares m { m with store := (m.store.newList elements).2 } :=
  ⟨fun _ h => getElem?_push_of_some h, fun _ h => h⟩

theorem Spares.newInstance (cls : Nat) :
    law.Spares m { m with store := (m.store.newInstance cls).2 } :=
  ⟨fun _ h => h, fun _ h => getElem?_push_of_some h⟩

theorem getElem?_modify_of_ne {xs : Array α} {i id : Nat} {f : α → α} (h : i ≠ id) :
    (xs.modify i f)[id]? = xs[id]? := by
  rw [Array.getElem?_modify, if_neg h]

theorem Spares.changeList {id : Nat} (h : law.lists id) (f : Array Value → Array Value) :
    law.Spares m { m with store := m.store.modifyList id f } := by
  refine ⟨fun {j l} hj hl => ?_, fun _ h => h⟩
  have hne : id ≠ j := fun heq => hj (heq ▸ h)
  exact (getElem?_modify_of_ne hne).trans hl

theorem Spares.setAttribute {id : Nat} (h : law.instances id) (name : String) (value : Value) :
    law.Spares m { m with store := m.store.setAttribute id name value } := by
  refine ⟨fun _ h => h, fun {j i} hj hi => ?_⟩
  have hne : id ≠ j := fun heq => hj (heq ▸ h)
  exact (getElem?_modify_of_ne hne).trans hi

end Law

namespace Eval

variable {α β : Type} {law : Law} {m k : Machine}

/-- The machine that a computation leaves. -/
def left : EStateM.Result Signal Machine α → Machine
  | .ok _ k => k
  | .error _ k => k

/-! ### Computations without nested tasks -/

/-- A computation that changes and raises no more than it may. -/
structure Own (law : Law) (m : Machine) (x : Eval α) : Prop where
  spares : law.Spares m (left (x m))
  raises : ∀ {f k}, x m = .error (.failed f) k → law.raise f

namespace Own

theorem bind {x : Eval α} {f : α → Eval β} (hx : Own law m x)
    (hf : ∀ a k, x m = .ok a k → Own law k (f a)) : Own law m (x >>= f) := by
  have hspares := hx.spares
  cases hxm : x m with
  | ok a k =>
    rw [hxm] at hspares
    have hfa := hf a k hxm
    constructor
    · rw [bind_ok hxm]
      exact hspares.trans hfa.spares
    · rw [bind_ok hxm]
      exact hfa.raises
  | error e k =>
    rw [hxm] at hspares
    constructor
    · rw [bind_error hxm]
      exact hspares
    · rw [bind_error hxm]
      intro f k' h
      cases h
      exact hx.raises hxm

theorem get {f : Machine → Eval β} (h : Own law m (f m)) : Own law m (MonadState.get >>= f) :=
  ⟨h.spares, h.raises⟩

theorem pure (a : α) : Own law m (Pure.pure a) := ⟨.refl, nofun⟩

theorem throw {signal : Signal} (h : ∀ f, signal = .failed f → law.raise f) :
    Own (α := α) law m (MonadExcept.throw signal) := by
  refine ⟨.refl, fun {f k} heq => h f ?_⟩
  exact (EStateM.Result.error.inj heq).1

theorem raised {c : Context} {fault : Fault} {span : Span}
    (h : law.raise (.ofCalls fault span c.calls)) : Own (α := α) law m (Eval.fail c fault span) :=
  .throw fun _ heq => Signal.failed.inj heq ▸ h

theorem fail {c : Context} {fault : Fault} {span : Span} (hc : law.Covers c.calls)
    (hf : fault.blame = .running) : Own (α := α) law m (Eval.fail c fault span) :=
  .raised (hc fault span hf)

theorem blame {c : Context} {fault : Fault} {span : Span} (hc : law.Blames c.calls)
    (hf : fault.blame = .caller) : Own (α := α) law m (Eval.fail c fault span) :=
  .raised (hc fault span hf)

/-- A change, and what is returned with it. -/
theorem change {x : Eval α} {a : α} (hx : x m = .ok a k) (hk : law.Spares m k) : Own law m x := by
  constructor
  · rw [hx]
    exact hk
  · rw [hx]
    exact nofun

/-- A change of something else than lists and instances. -/
theorem quietly {x : Eval α} {a : α} (hx : x m = .ok a k) (hl : k.store.lists = m.store.lists)
    (hi : k.store.instances = m.store.instances) : Own law m x :=
  .change hx (.of_eq hl hi)

/-- What may fail has to be known only if the computation fails. -/
theorem of_covering {x : Eval α} (calls : List Call) (hx : Own (law.covering calls) m x)
    (h : ∀ {f k}, x m = .error (.failed f) k → law.Covers calls) : Own law m x := by
  refine ⟨⟨hx.spares.lists, hx.spares.instances⟩, fun {f k} hf => ?_⟩
  obtain ⟨fault, span, hblame, rfl⟩ := hx.raises hf
  exact h hf fault span hblame

end Own

/-! ### Names and objects -/

theorem own_note (effect : Effect) : Own law m (note effect) := .quietly rfl rfl rfl

theorem own_newList (elements : Array Value) : Own law m (newList elements) :=
  .change rfl (.newList elements)

theorem own_newFunction (f : Function) : Own law m (newFunction f) := .quietly rfl rfl rfl

theorem own_setAttribute {id : Nat} (h : law.instances id) (name : String) (value : Value) :
    Own law m (setAttribute id name value) :=
  .bind (own_note _) fun _ _ _ => .change rfl (.setAttribute h name value)

theorem own_changeList {id : Nat} (h : law.lists id) (f : Array Value → Array Value) :
    Own law m (changeList id f) :=
  .change rfl (.changeList h f)

theorem own_lookup (c : Context) (name : String) : Own law m (lookup c name) := .get (.pure _)

theorem own_className (id : Nat) : Own law m (className id) := .get (.pure _)

theorem own_settle (result : Yield) : Own law m (settle result) := by
  cases result with
  | value v => exact .pure v
  | list elements => exact own_newList elements

theorem own_display (v : Value) : Own law m (display v) := by
  refine .get ?_
  cases m.store.display v with
  | none => exact .throw fun _ h => nomatch h
  | some text => exact .pure text

section Covered

variable {c : Context} {span : Span} (hc : law.Covers c.calls)

include hc

theorem own_bindAt (scope : ScopeId) (name : String) (value : Value) (constant : Bool) :
    Own law m (bindAt c scope name value constant span) := by
  refine .get ?_
  cases m.scopes.isProtected scope name with
  | true => exact .bind (.fail hc rfl) fun _ _ _ => .quietly rfl rfl rfl
  | false => exact .quietly rfl rfl rfl

theorem own_define (name : String) (value : Value) (constant : Bool) :
    Own law m (define c name value constant span) :=
  own_bindAt hc ..

theorem own_assign (name : String) (value : Value) : Own law m (assign c name value span) :=
  .get (own_bindAt hc ..)

/-! ### Builtins -/

theorem own_write (text : String) : Own law m (write c span text) := by
  refine .bind (.quietly rfl rfl rfl) fun fault _ _ => ?_
  cases fault with
  | none => exact .pure ()
  | some fault => exact .fail hc rfl

theorem own_readLine : Own law m (readLine c span) := by
  refine .bind (.quietly rfl rfl rfl) fun answer _ _ => ?_
  match answer with
  | .error fault => exact .fail hc rfl
  | .ok none => exact .pure none
  | .ok (some line) => exact .pure _

theorem own_readInteger (n : Nat) : Own law m (readInteger c span n) := by
  induction n generalizing m with
  | zero => exact .fail hc rfl
  | succ n ih =>
    refine .bind (own_readLine hc) fun answer k _ => ?_
    cases answer with
    | none => exact .fail hc rfl
    | some line =>
      dsimp only
      cases integerLine? line with
      | some i => exact .pure _
      | none => exact .bind (own_write hc _) fun _ _ _ => ih

theorem own_append {target : Value} (h : ∀ id, target = .list id → law.lists id) (value : Value) :
    Own law m (append c span target value) := by
  cases target with
  | list id =>
    refine .bind (own_note _) fun _ _ _ => ?_
    exact .bind (own_changeList (h id rfl) _) fun _ _ _ => .pure _
  | _ => exact .fail hc rfl

theorem own_pop {target : Value} (h : ∀ id, target = .list id → law.lists id) (index : Value) :
    Own law m (pop c span target index) := by
  cases target with
  | list id =>
    cases index with
    | number n =>
      refine .bind (own_note _) fun _ k _ => .get ?_
      dsimp only
      cases placeOf (k.store.elements id).size n (.listBounds .removal) with
      | error fault => exact .fail hc rfl
      | ok place => exact .bind (own_changeList (h id rfl) _) fun _ _ _ => .pure _
    | _ => exact .fail hc rfl
  | _ => exact .fail hc rfl

theorem own_extend {target : Value} (h : ∀ id, target = .list id → law.lists id)
    (source : Value) : Own law m (extend c span target source) := by
  cases target with
  | list id =>
    cases source with
    | list other =>
      refine .bind (own_note _) fun _ k _ => .get ?_
      exact .bind (own_changeList (h id rfl) _) fun _ _ _ => .pure _
    | _ => exact .fail hc rfl
  | _ => exact .fail hc rfl

theorem own_len (v : Value) : Own law m (len c span v) := by
  cases v with
  | list id => exact .get (.pure _)
  | string s => exact .pure _
  | _ => exact .fail hc rfl

theorem own_attributeName (v : Value) : Own law m (attributeName c span v) := by
  cases v with
  | string name => exact .pure name
  | _ => exact .fail hc rfl

theorem own_hasAttr (v attr : Value) : Own law m (hasAttr c span v attr) := by
  refine .bind (own_attributeName hc attr) fun name k _ => ?_
  cases v with
  | inst id => exact .get (.pure _)
  | _ => exact .pure _

theorem own_getAttr (v attr default : Value) : Own law m (getAttr c span v attr default) := by
  refine .bind (own_attributeName hc attr) fun name k _ => ?_
  cases v with
  | inst id => exact .get (.pure _)
  | _ => exact .fail hc rfl

theorem own_setAttr {v : Value} (h : ∀ id, v = .inst id → law.instances id) (attr value : Value) :
    Own law m (setAttr c span v attr value) := by
  refine .bind (own_attributeName hc attr) fun name k _ => ?_
  cases v with
  | inst id => exact .bind (own_setAttribute (h id rfl) name value) fun _ _ _ => .pure _
  | _ => exact .fail hc rfl

/-! ### Parts of nodes -/

theorem own_classNamed (name : String) : Own law m (classNamed c name span) := by
  refine .bind (own_lookup c name) fun found _ _ => ?_
  match found with
  | some (.cls id) => exact .pure id
  | some (.number _) | some (.string _) | some (.list _) | some (.function _)
  | some (.method _) | some (.builtin _) | some (.bound ..) | some (.inst _) | none =>
    exact .fail hc rfl

theorem own_readAttribute (object : Value) (name : String) :
    Own law m (readAttribute c object name span) := by
  refine .get ?_
  dsimp only
  cases object with
  | cls id =>
    dsimp only
    cases m.store.findMethod id name with
    | some method => exact .pure _
    | none => exact .fail hc rfl
  | inst id =>
    dsimp only
    cases m.store.attribute? id name with
    | some v => exact .pure _
    | none => exact .fail hc rfl
  | _ => exact .fail hc rfl

theorem own_applyBinary (op : BinaryOp) (left right : Node Span) (v w : Value) :
    Own law m (applyBinary c op left right v w) := by
  refine .get ?_
  split
  · exact own_settle _
  · exact .fail hc rfl
  · exact .fail hc rfl

theorem own_applyUnary (op : UnaryOp) (v : Value) : Own law m (applyUnary c op v span) := by
  unfold applyUnary
  split
  · exact .pure _
  · exact .fail hc rfl

theorem own_applyIndex (target index : Node Span) (t i : Value) :
    Own law m (applyIndex c target index t i) := by
  refine .get ?_
  split
  · exact .pure _
  · exact .fail hc rfl
  · exact .fail hc rfl

theorem own_checkType (type : Option DeclaredType) (v : Value) :
    Own law m (checkType c type v span) := by
  cases type with
  | none => exact .pure ()
  | some wanted =>
    unfold checkType
    dsimp only
    split
    · exact .fail hc rfl
    · exact .pure _

/-- Arguments are bound in the frame of the function; a wrong type is blamed on the
caller. -/
theorem own_bindParams {caller : Context} (hcaller : law.Blames caller.calls) (callee : Callee)
    (params : List (Param Span)) (args : List Value) :
    Own law m (bindParams caller c callee span params args) := by
  induction params generalizing m args with
  | nil => exact .pure ()
  | cons param params ih =>
    cases args with
    | nil => exact .pure ()
    | cons v vs =>
      have hrest : ∀ k, Own law k (do
          define c param.name v false span
          bindParams caller c callee span params vs) :=
        fun k => .bind (own_define hc ..) fun _ _ _ => ih vs
      unfold bindParams
      dsimp only
      split
      · exact .bind (.blame hcaller rfl) fun _ k _ => hrest k
      · exact hrest m

end Covered

theorem own_isInstance (v cls : Value) : Own law m (isInstance v cls) := by
  refine .get ?_
  dsimp only
  split <;> exact .pure _

theorem own_checkArity {c : Context} {span : Span} (hc : law.Blames c.calls) (callee : Callee)
    (wanted given : Nat) : Own law m (checkArity c callee wanted given span) := by
  unfold checkArity
  split
  · exact .blame hc (blame_arityFault ..)
  · exact .pure _

theorem own_makeMethods (c : Context) (definitions : List (FuncDef Span))
    (methods : Bindings Nat) : Own law m (makeMethods c definitions methods) := by
  induction definitions generalizing m methods with
  | nil => exact .pure _
  | cons definition definitions ih =>
    unfold makeMethods
    cases definition.name with
    | none => exact ih methods
    | some name => exact .bind (own_newFunction _) fun id k _ => ih _

theorem own_loopValue (body : Body Span) (results : Array Value) :
    Own law m (loopValue body results) := by
  unfold loopValue
  split
  · exact .pure _
  · exact own_newList results

/-! ### Computations with nested tasks

From here on `x` is a computation that is given a performer. -/

/-- The computation comes to perform `t` on `m'`. -/
def Asked (p : Performer) (x : Performer → Eval α) (m : Machine) (t : Task) (m' : Machine) : Prop :=
  ∀ halted, x (p.cutShort t m' halted) m = .error .exhausted halted

/-- A stretch of a computation is its own, or that of a nested task. -/
inductive Stretch (law : Law) (p : Performer) (x : Performer → Eval α) (m : Machine) :
    Machine → Machine → Prop where
  | own {k k'} : law.Spares k k' → Stretch law p x m k k'
  | nested {t k} : Asked p x m t k → Stretch law p x m k (left (p t k))

abbrev Path (law : Law) (p : Performer) (x : Performer → Eval α) (m : Machine) :
    Machine → Machine → Prop :=
  Relation.ReflTransGen (Stretch law p x m)

/-- From `m` the computation performs and changes what the law lets it perform and
change. -/
structure Acts (law : Law) (p : Performer) (m : Machine) (x : Performer → Eval α) : Prop where
  /-- A nested task that is cut short either does not matter, or is one that it comes
  to. -/
  cut : ∀ t m', (∀ halted, x (p.cutShort t m' halted) m = x p m) ∨ Asked p x m t m'
  nested : ∀ {t m'}, Asked p x m t m' → law.nested t
  path : Path law p x m m (left (x p m))

/-- From `m` the computation does what the law lets it do, and what it fails with it
raises itself, or a nested node fails with it. -/
structure Follows (law : Law) (p : Performer) (m : Machine) (x : Performer → Eval α) : Prop
    extends Acts law p m x where
  raises : ∀ {f k}, x p m = .error (.failed f) k → law.raise f ∨
    ∃ tree c m', Asked p x m (.node tree c) m' ∧ p (.node tree c) m' = .error (.failed f) k

variable {p : Performer} {x : Performer → Eval α} {t : Task} {m' : Machine}

/-- What does not depend on what is cut short is not cut short. -/
theorem not_asked {r : EStateM.Result Signal Machine α}
    (h : ∀ halted, x (p.cutShort t m' halted) m = r) : ¬ Asked p x m t m' := by
  intro hasked
  exact Task.not_forall_halted r fun halted => (h halted).symm.trans (hasked halted)

/-- What is asked for in one computation may be asked for in another. -/
theorem Path.mono {y : Performer → Eval β} {m₀ k k' : Machine} (hpath : Path law p x m k k')
    (h : ∀ {t m'}, Asked p x m t m' → Asked p y m₀ t m') : Path law p y m₀ k k' := by
  induction hpath with
  | refl => exact .refl
  | tail _ hstretch ih =>
    cases hstretch with
    | own hk => exact ih.tail (.own hk)
    | nested ha => exact ih.tail (.nested (h ha))

namespace Acts

/-- A computation that performs nothing. -/
theorem alone {x : Eval α} (h : law.Spares m (left (x m))) : Acts law p m fun _ => x where
  cut _ _ := .inl fun _ => rfl
  nested h := absurd h (not_asked fun _ => rfl)
  path := .single (.own h)

theorem asked_self : Asked p (fun q => q t) m t m := fun _ => Performer.cutShort_self

/-- A nested task asks for itself only. -/
theorem task (ht : law.nested t) : Acts law p m fun q => q t := by
  have hother : ∀ t' m', (t' = t ∧ m' = m) ∨ ∀ halted, p.cutShort t' m' halted t m = p t m := by
    intro t' m'
    by_cases heq : t' = t ∧ m' = m
    · exact .inl heq
    · exact .inr fun halted => Performer.cutShort_of_ne fun h => heq ⟨h.1.symm, h.2.symm⟩
  constructor
  · intro t' m'
    rcases hother t' m' with ⟨rfl, rfl⟩ | hsame
    · exact .inr asked_self
    · exact .inl hsame
  · intro t' m' hasked
    rcases hother t' m' with ⟨rfl, _⟩ | hsame
    · exact ht
    · exact absurd hasked (not_asked hsame)
  · exact .single (.nested asked_self)

/-- A computation `y` that begins with `x`, and goes on from how that ends. What stops
`x` may stop `y` as well; that the steps are used up always does. -/
theorem continues {y : Performer → Eval β} (hx : Acts law p m x)
    (hcut : ∀ q k, x q m = .error .exhausted k → y q m = .error .exhausted k)
    (hok : ∀ a k, x p m = .ok a k → ∃ z : Performer → Eval β,
      (∀ q, x q m = .ok a k → y q m = z q k) ∧ Follows law p k z)
    (herror : ∀ e k, x p m = .error e k → ∃ z : Eval β,
      (∀ q, x q m = .error e k → y q m = z k) ∧
      (Own law k z ∨ z k = .error e k ∧ Follows law p m x)) : Follows law p m y := by
  -- What comes behind `x`, and where a failure then comes from.
  obtain ⟨z, hz, hacts, hraises⟩ : ∃ z : Performer → Eval β,
      (∀ q, x q m = x p m → y q m = z q (left (x p m))) ∧ Acts law p (left (x p m)) z ∧
      ∀ {f k}, y p m = .error (.failed f) k → law.raise f ∨ ∃ tree c m',
        (Asked p x m (.node tree c) m' ∨ Asked p z (left (x p m)) (.node tree c) m') ∧
        p (.node tree c) m' = .error (.failed f) k := by
    cases hxm : x p m with
    | ok a k =>
      obtain ⟨z, hz, hfollows⟩ := hok a k hxm
      refine ⟨z, hz, hfollows.toActs, fun {f k'} hf => ?_⟩
      rw [hz p hxm] at hf
      obtain hraise | ⟨tree, c, m', hasked, hfails⟩ := hfollows.raises hf
      · exact .inl hraise
      · exact .inr ⟨tree, c, m', .inr hasked, hfails⟩
    | error e k =>
      obtain ⟨z, hz, hown | ⟨hsame, hfollows⟩⟩ := herror e k hxm
      · refine ⟨fun _ => z, hz, .alone hown.spares, fun {f k'} hf => .inl ?_⟩
        rw [hz p hxm] at hf
        exact hown.raises hf
      · have hstill : law.Spares k (left (z k)) := by
          rw [hsame]
          exact .refl
        refine ⟨fun _ => z, hz, .alone hstill, fun {f k'} hf => ?_⟩
        rw [hz p hxm, hsame] at hf
        cases hf
        obtain hraise | ⟨tree, c, m', hasked, hfails⟩ := hfollows.raises hxm
        · exact .inl hraise
        · exact .inr ⟨tree, c, m', .inl hasked, hfails⟩
  have hfirst : ∀ {t m'}, Asked p x m t m' → Asked p y m t m' :=
    fun h halted => hcut _ _ (h halted)
  have hlater : ∀ {t m'}, Asked p z (left (x p m)) t m' → Asked p y m t m' := by
    intro t m' ha
    rcases hx.cut t m' with hsame | hasked
    · exact fun halted => (hz _ (hsame halted)).trans (ha halted)
    · exact hfirst hasked
  refine ⟨⟨fun t m' => ?_, fun {t m'} ha => ?_, ?_⟩, fun hf => ?_⟩
  · rw [hz p rfl]
    rcases hx.cut t m' with hsame | hasked
    · refine (hacts.cut t m').imp (fun h halted => ?_) hlater
      exact (hz _ (hsame halted)).trans (h halted)
    · exact .inr (hfirst hasked)
  · rcases hx.cut t m' with hsame | hasked
    · exact hacts.nested fun halted => (hz _ (hsame halted)).symm.trans (ha halted)
    · exact hx.nested hasked
  · rw [hz p rfl]
    exact (hx.path.mono hfirst).trans (hacts.path.mono hlater)
  · obtain hraise | ⟨tree, c, m', hasked, hfails⟩ := hraises hf
    · exact .inl hraise
    · exact .inr ⟨tree, c, m', hasked.elim hfirst hlater, hfails⟩

end Acts

namespace Follows

theorem own {x : Eval α} (h : Own law m x) : Follows law p m fun _ => x where
  toActs := .alone h.spares
  raises hf := .inl (h.raises hf)

theorem node {tree : Node Span} {c : Context} (h : law.nested (.node tree c)) :
    Follows law p m fun q => q (.node tree c) where
  toActs := .task h
  raises hf := .inr ⟨tree, c, m, Acts.asked_self, hf⟩

theorem bind {f : Performer → α → Eval β} (hx : Follows law p m x)
    (hf : ∀ a k, x p m = .ok a k → Follows law p k fun q => f q a) :
    Follows law p m fun q => x q >>= f q := by
  refine hx.continues (fun _ _ h => bind_error h) (fun a k h => ?_) fun e k _ => ?_
  · exact ⟨fun q => f q a, fun _ hq => bind_ok hq, hf a k h⟩
  · exact ⟨throw e, fun _ hq => bind_error hq, .inr ⟨rfl, hx⟩⟩

/-- A first part without nested tasks. -/
theorem after {x : Eval α} {f : Performer → α → Eval β} (hx : Own law m x)
    (hf : ∀ a k, x m = .ok a k → Follows law p k fun q => f q a) :
    Follows law p m fun q => x >>= f q :=
  .bind (.own hx) hf

/-- A last part without nested tasks. -/
theorem before {f : α → Eval β} (hx : Follows law p m x)
    (hf : ∀ a k, x p m = .ok a k → Own law k (f a)) : Follows law p m fun q => x q >>= f :=
  .bind hx fun a k h => .own (hf a k h)

theorem get {f : Performer → Machine → Eval β} (h : Follows law p m fun q => f q m) :
    Follows law p m fun q => MonadState.get >>= f q where
  cut := h.cut
  nested := h.nested
  path := h.path.mono fun ha => ha
  raises := h.raises

theorem ite {b : Prop} [Decidable b] {x y : Performer → Eval α} (hx : b → Follows law p m x)
    (hy : ¬ b → Follows law p m y) : Follows law p m fun q => if b then x q else y q := by
  by_cases h : b
  · simp only [if_pos h]
    exact hx h
  · simp only [if_neg h]
    exact hy h

/-- What holds before a computation holds behind it, or `Q` does, if that is so for its
own stretches and for the nested tasks that it asks for. -/
theorem keeps (h : Follows law p m x) {P : Machine → Prop} {Q : Prop}
    (own : ∀ {k k'}, law.Spares k k' → P k → P k')
    (nested : ∀ {t k}, Asked p x m t k → P k → P (left (p t k)) ∨ Q) (hm : P m) :
    P (left (x p m)) ∨ Q := by
  have hpath := h.path
  generalize left (x p m) = k at hpath
  induction hpath with
  | refl => exact .inl hm
  | tail _ hstretch ih =>
    rcases ih with hk | hq
    · cases hstretch with
      | own hspares => exact .inl (own hspares hk)
      | nested hasked => exact nested hasked hk
    · exact .inr hq

end Follows

section Nested

variable {c : Context} {span : Span}

/-! ### Loops -/

theorem follows_round {body : Body Span} (hb : law.nested (.node body.node c)) :
    Follows law p m fun q => round q c body := by
  refine (Acts.task hb).continues (fun q k hq => ?_) (fun v k _ => ?_) fun e k _ => ?_
  · unfold round
    rw [hq]
  · refine ⟨fun _ => pure (.value v), fun q hq => ?_, .own (.pure _)⟩
    unfold round
    rw [hq]
    rfl
  · match e with
    | .exit .continuing _ =>
      refine ⟨pure .continued, fun q hq => ?_, .inl (.pure _)⟩
      unfold round
      rw [hq]
      rfl
    | .exit .breaking _ =>
      refine ⟨pure .broken, fun q hq => ?_, .inl (.pure _)⟩
      unfold round
      rw [hq]
      rfl
    | .ret _ | .failed _ | .exhausted =>
      refine ⟨throw _, fun q hq => ?_, .inr ⟨rfl, .node hb⟩⟩
      unfold round
      rw [hq]
      rfl

theorem follows_countFrom (hc : law.Covers c.calls) {body : Body Span}
    (hb : law.nested (.node body.node c)) (counter : String) (stop step : Number) (n : Nat)
    (i : Number) (results : Array Value) :
    Follows law p m fun q => countFrom q c span counter stop step body n i results := by
  induction n generalizing m i results with
  | zero => exact .own (.throw fun _ h => nomatch h)
  | succ n ih =>
    refine .ite (fun _ => ?_) fun _ => .own (.pure _)
    refine .after (own_define hc ..) fun _ k _ => .bind (follows_round hb) fun r k' _ => ?_
    cases r with
    | value v => exact ih _ _
    | continued => exact ih _ _
    | broken => exact .own (.pure _)

theorem follows_repeatWhile {condition : Node Span} (hn : law.nested (.node condition c))
    {body : Body Span} (hb : law.nested (.node body.node c)) (n : Nat) (results : Array Value) :
    Follows law p m fun q => repeatWhile q c condition body n results := by
  induction n generalizing m results with
  | zero => exact .own (.throw fun _ h => nomatch h)
  | succ n ih =>
    refine .bind (.node hn) fun v k _ => .ite (fun _ => ?_) fun _ => .own (.pure _)
    refine .bind (follows_round hb) fun r k' _ => ?_
    cases r with
    | value v => exact ih _
    | continued => exact ih _
    | broken => exact .own (.pure _)

theorem follows_loopNumber (hc : law.Covers c.calls) {node : Node Span}
    (hn : law.nested (.node node c)) : Follows law p m fun q => loopNumber q c node := by
  refine .before (.node hn) fun v k _ => ?_
  cases v with
  | number n => exact .pure n
  | _ => exact .fail hc rfl

theorem follows_loopStep (hc : law.Covers c.calls) {node : Option (Node Span)}
    (hn : ∀ step ∈ node, law.nested (.node step c)) :
    Follows law p m fun q => loopStep q c node := by
  cases node with
  | none => exact .own (.pure _)
  | some node =>
    refine .before (follows_loopNumber hc (hn node rfl)) fun step k _ => ?_
    dsimp only
    split
    · exact .bind (.fail hc rfl) fun _ _ _ => .pure _
    · exact .pure _

/-! ### Nodes in order -/

theorem follows_evalAll {nodes : List (Node Span)}
    (hn : ∀ node ∈ nodes, law.nested (.node node c)) :
    Follows law p m fun q => evalAll q c nodes := by
  induction nodes generalizing m with
  | nil => exact .own (.pure _)
  | cons node nodes ih =>
    refine .bind (.node (hn node List.mem_cons_self)) fun v k _ => ?_
    exact .before (ih fun n hmem => hn n (List.mem_cons_of_mem _ hmem)) fun _ _ _ => .pure _

theorem follows_branchValue {body : Body Span} (hb : law.nested (.node body.node c)) :
    Follows law p m fun q => branchValue q c body :=
  .before (.node hb) fun _ _ _ => .pure _

theorem follows_choose {otherwise : Option (Body Span)}
    (ho : ∀ body ∈ otherwise, law.nested (.node body.node c)) {branches : List (Branch Span)}
    (hb : ∀ b ∈ branches, law.nested (.node b.condition c) ∧ law.nested (.node b.body.node c)) :
    Follows law p m fun q => choose q c otherwise branches := by
  induction branches generalizing m with
  | nil =>
    cases otherwise with
    | none => exact .own (.pure _)
    | some body => exact follows_branchValue (ho body rfl)
  | cons branch branches ih =>
    obtain ⟨hcondition, hbody⟩ := hb branch List.mem_cons_self
    refine .bind (.node hcondition) fun v k _ => ?_
    refine .ite (fun _ => follows_branchValue hbody) fun _ => ?_
    exact ih fun b hmem => hb b (List.mem_cons_of_mem _ hmem)

end Nested

end Eval

/-! ### Calls -/

/-- Whether a builtin changes the list that it is given first. -/
def Builtin.changesList : Builtin → Bool
  | .append | .pop | .extend => true
  | _ => false

namespace Machine

/-- The function whose body a call runs. -/
inductive Runs (m : Machine) : Value → Function → Prop where
  | function {id f} : m.store.function? id = some f → Runs m (.function id) f
  | method {id f} : m.store.function? id = some f → Runs m (.method id) f
  | bound {receiver id f} : m.store.function? id = some f → Runs m (.bound receiver id) f
  | cls {id init f} : m.store.findMethod id "__init__" = some init →
      m.store.function? init = some f → Runs m (.cls id) f

end Machine

namespace Law

/-- A function may be called from `c`: it may fail in a frame of its own, and its body
may run there. -/
structure LetsRun (law : Law) (c : Context) (span : Span) (f : Function) : Prop where
  frame : law.Covers (⟨f.definition.label, some span.start⟩ :: c.calls)
  body : ∀ scope, law.nested
    (.node f.definition.body ⟨scope, ⟨f.definition.label, some span.start⟩ :: c.calls⟩)

/-- A value may be called from `c`. Whoever calls may be blamed; all else that the call
raises, it raises in a frame of its own. -/
structure Lets (law : Law) (c : Context) (span : Span) (m : Machine) (callee : Value)
    (args : List Value) : Prop where
  blames : law.Blames c.calls
  runs : ∀ f, m.Runs callee f → law.LetsRun c span f
  builtin : ∀ b, callee = .builtin b → law.Covers (⟨b.name, some span.start⟩ :: c.calls)
  script : ∀ source, callee = .builtin .run → law.nested (.script source)
  lists : ∀ {b id rest}, callee = .builtin b → b.changesList = true → args = .list id :: rest →
    law.lists id
  instances : ∀ {id rest}, callee = .builtin .setAttr → args = .inst id :: rest →
    law.instances id

end Law

namespace Eval

variable {law : Law} {p : Performer} {m : Machine} {c : Context} {span : Span}

theorem follows_runBody (hc : law.Covers c.calls) {definition : FuncDef Span}
    (hb : law.nested (.node definition.body c)) :
    Follows law p m fun q => runBody q c definition := by
  refine (Acts.task hb).continues (fun q k hq => ?_) (fun v k _ => ?_) fun e k _ => ?_
  · unfold runBody
    rw [hq]
  · refine ⟨fun _ => pure (if definition.autoReturn then v else .null), fun q hq => ?_,
      .own (.pure _)⟩
    unfold runBody
    rw [hq]
    rfl
  · match e with
    | .ret v =>
      refine ⟨pure v, fun q hq => ?_, .inl (.pure v)⟩
      unfold runBody
      rw [hq]
      rfl
    | .exit exit span =>
      refine ⟨fail c (.outsideLoop exit) span, fun q hq => ?_, .inl (.fail hc rfl)⟩
      unfold runBody
      rw [hq]
    | .failed _ | .exhausted =>
      refine ⟨throw _, fun q hq => ?_, .inr ⟨rfl, .node hb⟩⟩
      unfold runBody
      rw [hq]
      rfl

theorem follows_callDefined (hblames : law.Blames c.calls) {f : Function}
    (hf : law.LetsRun c span f) (isMethod : Bool) (args : List Value) :
    Follows law p m fun q => callDefined q c span f isMethod args := by
  refine .after (own_checkArity hblames ..) fun _ k _ => ?_
  refine .after (.quietly rfl rfl rfl) fun scope k' _ => ?_
  let inner : Context := ⟨scope, ⟨f.definition.label, some span.start⟩ :: c.calls⟩
  have hrun : ∀ k, Follows law p k fun q => runBody q inner f.definition :=
    fun k => follows_runBody hf.frame (hf.body scope)
  have hbind : ∀ callee args k, Follows law p k fun q =>
      bindParams c inner callee span f.definition.params args >>= fun _ =>
        runBody q inner f.definition :=
    fun callee args k => .after (own_bindParams hf.frame hblames ..) fun _ k' _ => hrun k'
  cases isMethod with
  | false => exact hbind _ args k'
  | true =>
    cases args with
    | nil => exact hbind _ [] k'
    | cons receiver args => exact .after (own_define hf.frame ..) fun _ k _ => hbind _ args k

/-- Whoever calls a function that does not exist is to blame. -/
theorem follows_callFunction (hblames : law.Blames c.calls) {id : Nat}
    (hid : ∀ f, m.store.function? id = some f → law.LetsRun c span f) (isMethod : Bool)
    (args : List Value) : Follows law p m fun q => callFunction q c span id isMethod args := by
  refine .get ?_
  cases hf : m.store.function? id with
  | none => exact .own (.blame hblames rfl)
  | some f => exact follows_callDefined hblames (hid f hf) isMethod args

theorem follows_instantiate {cls : Nat} {args : List Value}
    (h : law.Lets c span m (.cls cls) args) :
    Follows law p m fun q => instantiate q c span cls args := by
  let made : Machine := { m with store := (m.store.newInstance cls).2 }
  refine .after (.change (k := made) rfl (.newInstance cls)) fun id k heq => .get ?_
  cases heq
  have hfind : made.store.findMethod cls "__init__" = m.store.findMethod cls "__init__" :=
    Store.findMethod_newInstance ..
  dsimp only
  rw [hfind]
  cases hinit : m.store.findMethod cls "__init__" with
  | some init =>
    refine .before (follows_callFunction h.blames (fun f hf => ?_) ..) fun _ _ _ => .pure _
    exact h.runs f (.cls hinit hf)
  | none =>
    refine .after (own_className cls) fun name _ _ => ?_
    exact .after (own_checkArity h.blames ..) fun _ _ _ => .own (.pure _)

/-- A script that is loaded fails as a fault of the call that loads it. -/
theorem follows_loadScript (hc : law.Covers c.calls)
    (hscript : ∀ source, law.nested (.script source)) (path : Value) :
    Follows law p m fun q => loadScript q c span path := by
  cases path with
  | string path =>
    refine .after (own_note _) fun _ k _ => .get ?_
    cases k.world.readFile path with
    | error fault => exact .own (.fail hc rfl)
    | ok text =>
      refine (Acts.task (hscript ⟨path, text⟩)).continues (fun q k hq => ?_) (fun v k _ => ?_)
        fun e k _ => ?_
      · dsimp only
        rw [hq]
      · refine ⟨fun _ => pure .null, fun q hq => ?_, .own (.pure _)⟩
        dsimp only
        rw [hq]
        rfl
      · by_cases hfailed : ∃ failure, e = .failed failure
        · obtain ⟨failure, rfl⟩ := hfailed
          refine ⟨fail c (.scriptFailed path failure.report.render) span, fun q hq => ?_,
            .inl (.fail hc rfl)⟩
          dsimp only
          rw [hq]
        · refine ⟨throw e, fun q hq => ?_, .inl (.throw fun f h => absurd ⟨f, h⟩ hfailed)⟩
          dsimp only
          rw [hq]
          cases e with
          | failed f => exact absurd ⟨f, rfl⟩ hfailed
          | _ => rfl
  | _ => exact .own (.fail hc rfl)

/-- All builtins but one perform nothing. -/
theorem own_native {b : Builtin} {args : List Value} (h : law.Lets c span m (.builtin b) args)
    (hb : b ≠ .run) : Own law m (native p c span b args) := by
  have hc := h.builtin b rfl
  refine .get ?_
  dsimp only
  split
  · refine .bind (own_display _) fun text _ _ => ?_
    exact .bind (own_write hc _) fun _ _ _ => .pure _
  · exact .bind (own_display _) fun _ _ _ => .pure _
  · exact .bind (own_display _) fun _ _ _ => .pure _
  · exact .bind (own_readLine hc) fun _ _ _ => .pure _
  · exact .get (own_readInteger hc _)
  · exact .bind (own_write hc _) fun _ _ _ => .pure _
  · exact .pure _
  · exact .pure _
  · exact .pure _
  · exact .pure _
  · exact own_append hc (fun _ hid => h.lists rfl rfl (by rw [hid])) _
  · exact own_pop hc (fun _ hid => h.lists rfl rfl (by rw [hid])) _
  · exact own_extend hc (fun _ hid => h.lists rfl rfl (by rw [hid])) _
  · exact own_len hc _
  · exact absurd rfl hb
  · exact .bind (own_isInstance ..) fun _ _ _ => .pure _
  · exact own_hasAttr hc ..
  · exact own_getAttr hc ..
  · exact own_setAttr hc (fun _ hid => h.instances rfl (by rw [hid])) ..
  · exact .blame h.blames (blame_arityFault ..)

theorem native_eq_of_ne {b : Builtin} (hb : b ≠ .run) (q p : Performer) (args : List Value) :
    native q c span b args = native p c span b args := by
  cases b with
  | run => exact absurd rfl hb
  | _ => rcases args with _ | ⟨_, _ | ⟨_, _ | ⟨_, _ | ⟨_, _⟩⟩⟩⟩ <;> rfl

theorem follows_native {b : Builtin} {args : List Value}
    (h : law.Lets c span m (.builtin b) args) :
    Follows law p m fun q => native q c span b args := by
  by_cases hb : b = .run
  · subst hb
    refine .get ?_
    match args with
    | [path] => exact follows_loadScript (h.builtin .run rfl) (h.script · rfl) path
    | [] | _ :: _ :: _ => exact .own (.blame h.blames (blame_arityFault ..))
  · simp only [native_eq_of_ne hb _ p]
    exact .own (own_native h hb)

theorem follows_call {callee : Value} {args : List Value} (h : law.Lets c span m callee args) :
    Follows law p m fun q => call q c span callee args := by
  cases callee with
  | function id => exact follows_callFunction h.blames (fun f hf => h.runs f (.function hf)) ..
  | method id => exact follows_callFunction h.blames (fun f hf => h.runs f (.method hf)) ..
  | bound receiver id => exact follows_callFunction h.blames (fun f hf => h.runs f (.bound hf)) ..
  | builtin b => exact follows_native h
  | cls id => exact follows_instantiate h
  | number | string | list | inst => exact .own (.blame h.blames rfl)

end Eval

end Script
