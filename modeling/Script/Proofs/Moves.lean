import Mathlib.Logic.Relation
import Script.Eval.Perform

/-! What a run can do to a machine.

`Move` lists the changes one by one, each with what is known when it is made: a
name is bound only where it is not protected, and nothing else is noted as a binding;
a table grows only under a table that exists, a function is made only in one. Whatever a task does is a sequence of
moves (`perform_moves`), so an invariant of machines has to be checked for the
moves only.

Nested tasks are performed by a parameter of the evaluator. `Tracks` therefore
compares two evaluations, whose performers have to agree only where a run can come
to. That is how `Proofs.Moments` finds out which tasks a run comes to at all. -/
namespace Script

/-! ### Moves -/

namespace Machine

/-- One change of a machine. -/
inductive Move (m : Machine) : Machine → Prop where
  | note {effect : Effect} : (∀ scope name, effect ≠ .bound scope name) →
      Move m { m with journal := effect :: m.journal }
  | bind {scope : ScopeId} {name : String} (value : Value) (constant : Bool) :
      scope < m.scopes.tables.size → m.scopes.isProtected scope name = false →
      Move m { m with
        scopes := m.scopes.bind scope name value constant
        journal := .bound scope name :: m.journal }
  | grow {parent : ScopeId} : parent < m.scopes.tables.size →
      Move m { m with scopes := (m.scopes.grow (some parent)).2 }
  | list (elements : Array Value) : Move m { m with store := (m.store.newList elements).2 }
  | function {f : Function} : f.closure < m.scopes.tables.size →
      Move m { m with store := (m.store.newFunction f).2 }
  | cls (c : Class) : Move m { m with store := (m.store.newClass c).2 }
  | inst (cls : Nat) : Move m { m with store := (m.store.newInstance cls).2 }
  | changeList {id : Nat} (f : Array Value → Array Value) : .listChange id ∈ m.journal →
      Move m { m with store := m.store.modifyList id f }
  | setAttribute {id : Nat} {name : String} (value : Value) :
      .attributeSet id name ∈ m.journal →
      Move m { m with store := m.store.setAttribute id name value }
  | write (text : String) : Move m { m with world := (m.world.write text).2 }
  | readLine : Move m { m with world := m.world.readLine.2 }

/-- Any number of changes. -/
abbrev Moves : Machine → Machine → Prop := Relation.ReflTransGen Move

/-- Every table that something refers to exists. -/
structure Placed (m : Machine) : Prop where
  globals : m.globals < m.scopes.tables.size
  closures : ∀ f ∈ m.store.functions, f.closure < m.scopes.tables.size

variable {m k : Machine}

theorem Move.globals_eq (h : Move m k) : k.globals = m.globals := by
  cases h <;> rfl

/-- Tables are never removed. -/
theorem Move.size_le (h : Move m k) : m.scopes.tables.size ≤ k.scopes.tables.size := by
  cases h with
  | bind | grow => simp [Scopes.bind, Scopes.grow]
  | _ => exact Nat.le_refl _

theorem Move.placed (h : Move m k) (hm : Placed m) : Placed k := by
  refine ⟨by rw [h.globals_eq]; exact Nat.lt_of_lt_of_le hm.globals h.size_le, ?_⟩
  intro f hf
  cases h with
  | function hc =>
    rcases Array.mem_push.mp hf with hf | rfl
    · exact hm.closures f hf
    · exact hc
  | bind | grow =>
    refine Nat.lt_of_lt_of_le (hm.closures f hf) ?_
    simp [Scopes.bind, Scopes.grow]
  | _ => exact hm.closures f hf

theorem Moves.globals_eq (h : Moves m k) : k.globals = m.globals := by
  induction h with
  | refl => rfl
  | tail _ hstep ih => rw [hstep.globals_eq, ih]

theorem Moves.size_le (h : Moves m k) : m.scopes.tables.size ≤ k.scopes.tables.size := by
  induction h with
  | refl => exact Nat.le_refl _
  | tail _ hstep ih => exact Nat.le_trans ih hstep.size_le

/-- An invariant of the moves is one of all that they lead to. -/
theorem Moves.keeps {P : Machine → Prop} (step : ∀ {m k}, Move m k → P m → P k)
    (h : Moves m k) (hm : P m) : P k := by
  induction h with
  | refl => exact hm
  | tail _ hstep ih => exact step hstep ih

theorem Moves.placed (h : Moves m k) (hm : Placed m) : Placed k := h.keeps Move.placed hm

end Machine

open Machine (Move Moves Placed)

/-- A context whose scope is a table of the machine. -/
def Context.In (c : Context) (m : Machine) : Prop := c.scope < m.scopes.tables.size

theorem Context.In.later {c : Context} {m k : Machine} (h : c.In m) (hk : Moves m k) : c.In k :=
  Nat.lt_of_lt_of_le h hk.size_le

/-- A task that a machine can be set to. -/
def Task.In (m : Machine) : Task → Prop
  | .node _ c => c.In m
  | .script _ => True

/-! ### Two evaluations side by side -/

/-- How two evaluations may part: the first fails, in a way that is admitted, and
the second is cut short. If that happens in a script that is being loaded, what the
loading fails with is admitted. -/
structure Cut where
  admits : Failure → Prop
  inScript : Source → Failure → Prop
  quoted : ∀ source failure, inScript source failure → ∀ span calls,
    admits (.ofCalls (.scriptFailed source.name failure.report.render) span calls)
  failed : Machine
  halted : Machine

namespace Cut

/-- The evaluations do not part. -/
def never (m : Machine) : Cut := ⟨fun _ => False, fun _ _ => False, fun _ _ h => h.elim, m, m⟩

/-- How the evaluations may part while they perform a nested task. -/
def inTask (r : Cut) : Task → Cut
  | .node .. => r
  | .script source =>
    { r with
      admits := r.inScript source
      inScript := fun _ _ => False
      quoted := fun _ _ h => h.elim }

/-- The two results of evaluations that parted. -/
def Parts (r : Cut) (x y : EStateM.Result Signal Machine α) : Prop :=
  ∃ failure, r.admits failure ∧ x = .error (.failed failure) r.failed ∧
    y = .error .exhausted r.halted

theorem never_parts {m : Machine} {x y : EStateM.Result Signal Machine α} :
    ¬ (never m).Parts x y :=
  fun ⟨_, h, _⟩ => h

end Cut

namespace Eval

variable {α β : Type} {m k : Machine} {r : Cut}

theorem bind_ok {x : Eval α} {f : α → Eval β} {a : α} (h : x m = .ok a k) :
    (x >>= f) m = f a k := by
  show EStateM.bind x f m = f a k
  unfold EStateM.bind
  rw [h]

theorem bind_error {x : Eval α} {f : α → Eval β} {signal : Signal} (h : x m = .error signal k) :
    (x >>= f) m = .error signal k := by
  show EStateM.bind x f m = .error signal k
  unfold EStateM.bind
  rw [h]

theorem bind_get (f : Machine → Eval β) : (get >>= f) m = f m m := rfl

/-- From `m` both evaluations do the same, and what they do is moves, unless they
part. If they yield a value, `post` holds of it and of the machine then. -/
def Tracks (r : Cut) (m : Machine) (x y : Eval α) (post : α → Machine → Prop) : Prop :=
  (x m = y m ∧
    match x m with
    | .ok a k => Moves m k ∧ post a k
    | .error _ k => Moves m k) ∨
  r.Parts (x m) (y m)

theorem Tracks.bind {x y : Eval α} {f g : α → Eval β} {P : α → Machine → Prop}
    {Q : β → Machine → Prop} (hx : Tracks r m x y P)
    (hf : ∀ a k, Moves m k → P a k → Tracks r k (f a) (g a) Q) :
    Tracks r m (x >>= f) (y >>= g) Q := by
  show Tracks r m (EStateM.bind x f) (EStateM.bind y g) Q
  unfold Tracks EStateM.bind
  rcases hx with ⟨heq, hpost⟩ | ⟨failure, hadmits, hx, hy⟩
  · rw [← heq]
    cases hxm : x m with
    | error e k =>
      rw [hxm] at hpost
      exact .inl ⟨rfl, hpost⟩
    | ok a k =>
      rw [hxm] at hpost
      rcases hf a k hpost.1 hpost.2 with ⟨hfg, hq⟩ | hparts
      · refine .inl ⟨hfg, ?_⟩
        dsimp only
        cases hfa : f a k <;> rw [hfa] at hq
        · exact ⟨hpost.1.trans hq.1, hq.2⟩
        · exact hpost.1.trans hq
      · exact .inr hparts
  · rw [hx, hy]
    exact .inr ⟨failure, hadmits, rfl, rfl⟩

theorem Tracks.pure (a : α) {P : α → Machine → Prop} (h : P a m) :
    Tracks r m (Pure.pure a) (Pure.pure a) P :=
  .inl ⟨rfl, .refl, h⟩

theorem Tracks.throw (signal : Signal) {P : α → Machine → Prop} :
    Tracks r m (MonadExcept.throw signal) (MonadExcept.throw signal) P :=
  .inl ⟨rfl, .refl⟩

theorem Tracks.get : Tracks r m get get fun a k => a = m ∧ k = m :=
  .inl ⟨rfl, .refl, rfl, rfl⟩

theorem Tracks.fail (c : Context) (fault : Fault) (span : Span) {P : α → Machine → Prop} :
    Tracks r m (fail c fault span) (fail c fault span) P :=
  .inl ⟨rfl, .refl⟩

/-- Nothing comes behind a failure. -/
theorem Tracks.fail_bind (c : Context) (fault : Fault) (span : Span) {f g : α → Eval β}
    {P : β → Machine → Prop} :
    Tracks r m (Eval.fail c fault span >>= f) (Eval.fail c fault span >>= g) P :=
  .inl ⟨rfl, .refl⟩

/-- One move, and what is returned with it. -/
theorem Tracks.move {a : α} {k : Machine} {x : Eval α} {P : α → Machine → Prop}
    (hx : x m = .ok a k) (hmove : Move m k) (h : P a k) : Tracks r m x x P := by
  refine .inl ⟨rfl, ?_⟩
  rw [hx]
  exact ⟨.single hmove, h⟩

/-- Both evaluations do the same, and what they do is moves, unless they part. -/
abbrev Agree (r : Cut) (m : Machine) (x y : Eval α) : Prop := Tracks r m x y fun _ _ => True

theorem agree_move {a : α} {k : Machine} {x : Eval α} (hx : x m = .ok a k) (hmove : Move m k) :
    Agree r m x x :=
  .move hx hmove trivial

theorem Tracks.moves_of_ok {x : Eval α} {a : α} (h : Agree (.never m) m x x) (hx : x m = .ok a k) :
    Moves m k := by
  rcases h with ⟨_, hmoves⟩ | hparts
  · rw [hx] at hmoves
    exact hmoves.1
  · exact absurd hparts Cut.never_parts

/-! ### Names and objects -/

variable {c : Context}

theorem agree_note {effect : Effect} (h : ∀ scope name, effect ≠ .bound scope name) :
    Tracks r m (note effect) (note effect) fun _ k => effect ∈ k.journal :=
  .move rfl (.note h) List.mem_cons_self

theorem lookup_eq (name : String) : lookup c name m = .ok (m.scopes.get? c.scope name) m := rfl

theorem agree_lookup (name : String) : Agree r m (lookup c name) (lookup c name) :=
  .bind .get fun _ _ _ _ => .pure _ trivial

theorem agree_bindAt {scope : ScopeId} (hs : scope < m.scopes.tables.size) (name : String)
    (value : Value) (constant : Bool) (span : Span) :
    Agree r m (bindAt c scope name value constant span) (bindAt c scope name value constant span) := by
  refine .bind .get fun a k _ hk => ?_
  obtain ⟨rfl, rfl⟩ := hk
  cases hp : k.scopes.isProtected scope name
  · exact agree_move rfl (.bind value constant hs hp)
  · exact .fail_bind ..

theorem agree_define (hc : c.In m) (name : String) (value : Value) (constant : Bool)
    (span : Span) :
    Agree r m (define c name value constant span) (define c name value constant span) :=
  agree_bindAt hc name value constant span

/-- The level on which an assignment binds is that of the context or one above. -/
theorem home_lt (s : Scopes Value) {id : ScopeId} (name : String) (h : id < s.tables.size) :
    s.home id name < s.tables.size := by
  unfold Scopes.home
  cases hf : (s.chain id).find? (s.bindsAt name) with
  | none => exact h
  | some level =>
    have hb := List.find?_some hf
    simp only [Scopes.bindsAt, Scopes.table?, Option.any_eq_true] at hb
    obtain ⟨t, ht, _⟩ := hb
    exact (Array.getElem?_eq_some_iff.mp ht).1

theorem agree_assign (hc : c.In m) (name : String) (value : Value) (span : Span) :
    Agree r m (assign c name value span) (assign c name value span) := by
  refine .bind .get fun a k _ hk => ?_
  obtain ⟨rfl, rfl⟩ := hk
  exact agree_bindAt (home_lt k.scopes name hc) name value false span

/-- A new table exists. -/
theorem tracks_growScope {parent : ScopeId} (h : parent < m.scopes.tables.size) :
    Tracks r m (growScope parent) (growScope parent) fun id k => id < k.scopes.tables.size :=
  .move rfl (.grow h) (by simp [Scopes.grow])

theorem agree_newList (elements : Array Value) : Agree r m (newList elements) (newList elements) :=
  agree_move rfl (.list elements)

theorem agree_newFunction (definition : FuncDef Span) (hc : c.In m) :
    Agree r m (newFunction ⟨definition, c.scope⟩) (newFunction ⟨definition, c.scope⟩) :=
  agree_move rfl (.function hc)

theorem agree_newClass (cls : Class) : Agree r m (newClass cls) (newClass cls) :=
  agree_move rfl (.cls cls)

theorem agree_newInstance (cls : Nat) : Agree r m (newInstance cls) (newInstance cls) :=
  agree_move rfl (.inst cls)

theorem agree_settle (result : Yield) : Agree r m (settle result) (settle result) := by
  cases result with
  | value v => exact .pure v trivial
  | list elements => exact agree_newList elements

/-- A list is changed behind a note that it is. -/
theorem agree_changeList {id : Nat} (f : Array Value → Array Value)
    (h : .listChange id ∈ m.journal) : Agree r m (changeList id f) (changeList id f) :=
  agree_move rfl (.changeList f h)

theorem agree_setAttribute (id : Nat) (name : String) (value : Value) :
    Agree r m (setAttribute id name value) (setAttribute id name value) :=
  .bind (agree_note nofun) fun _ _ _ h => agree_move rfl (.setAttribute value h)

theorem agree_className (id : Nat) : Agree r m (className id) (className id) :=
  .bind .get fun _ _ _ _ => .pure _ trivial

theorem agree_display (v : Value) : Agree r m (display v) (display v) := by
  refine .bind .get fun a k _ _ => ?_
  cases a.store.display v with
  | none => exact .throw _
  | some text => exact .pure text trivial

/-! ### Builtins -/

variable {span : Span}

theorem agree_write (text : String) : Agree r m (write c span text) (write c span text) := by
  refine .bind (agree_move rfl (.write text)) fun fault _ _ _ => ?_
  cases fault with
  | none => exact .pure () trivial
  | some fault => exact .fail ..

theorem agree_readLine : Agree r m (readLine c span) (readLine c span) := by
  refine .bind (agree_move rfl .readLine) fun answer _ _ _ => ?_
  match answer with
  | .error fault => exact .fail ..
  | .ok none => exact .pure none trivial
  | .ok (some line) => exact .pure _ trivial

theorem agree_readInteger (n : Nat) : Agree r m (readInteger c span n) (readInteger c span n) := by
  induction n generalizing m with
  | zero => exact .fail ..
  | succ n ih =>
    refine .bind agree_readLine fun answer k _ _ => ?_
    cases answer with
    | none => exact .fail ..
    | some line =>
      dsimp only
      cases integerLine? line with
      | some i => exact .pure _ trivial
      | none => exact .bind (agree_write _) fun _ _ _ _ => ih

theorem agree_append (target value : Value) :
    Agree r m (append c span target value) (append c span target value) := by
  cases target with
  | list id =>
    refine .bind (agree_note nofun) fun _ k _ h => ?_
    exact .bind (agree_changeList _ h) fun _ _ _ _ => .pure _ trivial
  | _ => exact .fail ..

theorem agree_pop (target index : Value) :
    Agree r m (pop c span target index) (pop c span target index) := by
  cases target with
  | list id =>
    cases index with
    | number n =>
      refine .bind (agree_note nofun) fun _ k _ h => .bind .get fun a k' _ ha => ?_
      obtain ⟨rfl, rfl⟩ := ha
      dsimp only
      cases placeOf (k'.store.elements id).size n (.listBounds .removal) with
      | error fault => exact .fail ..
      | ok place => exact .bind (agree_changeList _ h) fun _ _ _ _ => .pure _ trivial
    | _ => exact .fail ..
  | _ => exact .fail ..

theorem agree_extend (target source : Value) :
    Agree r m (extend c span target source) (extend c span target source) := by
  cases target with
  | list id =>
    cases source with
    | list other =>
      refine .bind (agree_note nofun) fun _ k _ h => .bind .get fun a k' _ ha => ?_
      obtain ⟨rfl, rfl⟩ := ha
      exact .bind (agree_changeList _ h) fun _ _ _ _ => .pure _ trivial
    | _ => exact .fail ..
  | _ => exact .fail ..

theorem agree_len (v : Value) : Agree r m (len c span v) (len c span v) := by
  cases v with
  | list id => exact .bind .get fun _ _ _ _ => .pure _ trivial
  | string s => exact .pure _ trivial
  | _ => exact .fail ..

theorem agree_isInstance (v cls : Value) : Agree r m (isInstance v cls) (isInstance v cls) := by
  refine .bind .get fun a k _ _ => ?_
  dsimp only
  split <;> exact .pure _ trivial

theorem agree_attributeName (v : Value) :
    Agree r m (attributeName c span v) (attributeName c span v) := by
  cases v with
  | string name => exact .pure _ trivial
  | _ => exact .fail ..

theorem agree_hasAttr (v attr : Value) : Agree r m (hasAttr c span v attr) (hasAttr c span v attr) := by
  refine .bind (agree_attributeName attr) fun name _ _ _ => ?_
  cases v with
  | inst id => exact .bind .get fun _ _ _ _ => .pure _ trivial
  | _ => exact .pure _ trivial

theorem agree_getAttr (v attr default : Value) :
    Agree r m (getAttr c span v attr default) (getAttr c span v attr default) := by
  refine .bind (agree_attributeName attr) fun name _ _ _ => ?_
  cases v with
  | inst id => exact .bind .get fun _ _ _ _ => .pure _ trivial
  | _ => exact .fail ..

theorem agree_setAttr (v attr value : Value) :
    Agree r m (setAttr c span v attr value) (setAttr c span v attr value) := by
  refine .bind (agree_attributeName attr) fun name _ _ _ => ?_
  cases v with
  | inst id => exact .bind (agree_setAttribute id name value) fun _ _ _ _ => .pure _ trivial
  | _ => exact .fail ..

theorem agree_checkArity (callee : Callee) (wanted given : Nat) :
    Agree r m (checkArity c callee wanted given span) (checkArity c callee wanted given span) := by
  unfold checkArity
  split
  · exact .fail ..
  · exact .pure _ trivial

/-! ### Nested tasks -/

/-- Two performers that do the same, in moves, on all machines to which moves lead
from `m`, where those are placed, unless they part. -/
def Alike (r : Cut) (m : Machine) (p q : Performer) : Prop :=
  ∀ k t, Moves m k → Placed k → t.In k → Agree (r.inTask t) k (p t) (q t)

/-- What is known of nested tasks: the performers do the same from here on, and the
context has a scope. -/
structure Nested (r : Cut) (m : Machine) (c : Context) (p q : Performer) : Prop where
  alike : Alike r m p q
  placed : Placed m
  inside : c.In m

variable {p q : Performer}

theorem Nested.later {k : Machine} (h : Nested r m c p q) (hk : Moves m k) : Nested r k c p q :=
  ⟨fun k' t hk' => h.alike k' t (hk.trans hk'), hk.placed h.placed, h.inside.later hk⟩

theorem Nested.node (h : Nested r m c p q) (tree : Node Span) :
    Agree r m (p (.node tree c)) (q (.node tree c)) :=
  h.alike m _ .refl h.placed h.inside

theorem Nested.script (h : Nested r m c p q) (source : Source) :
    Agree (r.inTask (.script source)) m (p (.script source)) (q (.script source)) :=
  h.alike m _ .refl h.placed trivial

/-- Another context. -/
theorem Nested.within {c' : Context} (h : Nested r m c p q) (hc : c'.In m) : Nested r m c' p q :=
  ⟨h.alike, h.placed, hc⟩

/-- What a nested task ends with decides what follows it. -/
theorem agree_after {r' : Cut} {x y : Eval Value} {x' y' : Eval α} (hx : Agree r' m x y)
    (hok : ∀ v k, Moves m k → x m = .ok v k → y m = .ok v k →
      ∃ z w : Eval α, x' m = z k ∧ y' m = w k ∧ Agree r k z w)
    (herror : ∀ e k, Moves m k → x m = .error e k → y m = .error e k →
      ∃ z w : Eval α, x' m = z k ∧ y' m = w k ∧ Agree r k z w)
    (hparts : ∀ failure, r'.admits failure → x m = .error (.failed failure) r'.failed →
      y m = .error .exhausted r'.halted → r.Parts (x' m) (y' m)) :
    Agree r m x' y' := by
  have hjoin : ∀ k, Moves m k → (∃ z w : Eval α, x' m = z k ∧ y' m = w k ∧ Agree r k z w) →
      Agree r m x' y' := by
    rintro k hk ⟨z, w, hz, hw, hzw⟩
    unfold Agree Tracks
    rw [hz, hw]
    rcases hzw with ⟨heq, hmoves⟩ | hparts
    · refine .inl ⟨heq, ?_⟩
      cases hzk : z k <;> rw [hzk] at hmoves
      · exact ⟨hk.trans hmoves.1, trivial⟩
      · exact hk.trans hmoves
    · exact .inr hparts
  rcases hx with ⟨heq, hpost⟩ | ⟨failure, hadmits, hx, hy⟩
  · cases hxm : x m <;> rw [hxm] at hpost
    · exact hjoin _ hpost.1 (hok _ _ hpost.1 hxm (heq ▸ hxm))
    · exact hjoin _ hpost (herror _ _ hpost hxm (heq ▸ hxm))
  · exact .inr (hparts failure hadmits hx hy)

/-! ### Loops -/

theorem agree_round (h : Nested r m c p q) (body : Body Span) :
    Agree r m (round p c body) (round q c body) := by
  refine agree_after (h.node body.node) (fun v k _ hx hy => ?_) (fun e k _ hx hy => ?_)
    fun failure hadmits hx hy => ?_
  · unfold round
    rw [hx, hy]
    exact ⟨pure _, pure _, rfl, rfl, .pure _ trivial⟩
  · unfold round
    rw [hx, hy]
    match e with
    | .exit .continuing _ => exact ⟨pure .continued, pure .continued, rfl, rfl, .pure _ trivial⟩
    | .exit .breaking _ => exact ⟨pure .broken, pure .broken, rfl, rfl, .pure _ trivial⟩
    | .ret _ | .failed _ | .exhausted => exact ⟨throw _, throw _, rfl, rfl, .throw _⟩
  · unfold round
    rw [hx, hy]
    exact ⟨failure, hadmits, rfl, rfl⟩

theorem agree_countFrom (h : Nested r m c p q) (counter : String) (stop step : Number)
    (body : Body Span) (n : Nat) (i : Number) (results : Array Value) :
    Agree r m (countFrom p c span counter stop step body n i results)
      (countFrom q c span counter stop step body n i results) := by
  induction n generalizing m i results with
  | zero => exact .throw _
  | succ n ih =>
    unfold countFrom
    split
    · refine .bind (agree_define h.inside ..) fun _ k hk _ => ?_
      refine .bind (agree_round (h.later hk) body) fun r k' hk' _ => ?_
      have h' := (h.later hk).later hk'
      cases r with
      | value v => exact ih h' _ _
      | continued => exact ih h' _ _
      | broken => exact .pure _ trivial
    · exact .pure _ trivial

theorem agree_repeatWhile (h : Nested r m c p q) (condition : Node Span) (body : Body Span) (n : Nat)
    (results : Array Value) :
    Agree r m (repeatWhile p c condition body n results)
      (repeatWhile q c condition body n results) := by
  induction n generalizing m results with
  | zero => exact .throw _
  | succ n ih =>
    refine .bind (h.node condition) fun v k hk _ => ?_
    split
    · refine .bind (agree_round (h.later hk) body) fun r k' hk' _ => ?_
      have h' := (h.later hk).later hk'
      cases r with
      | value v => exact ih h' _
      | continued => exact ih h' _
      | broken => exact .pure _ trivial
    · exact .pure _ trivial

theorem agree_loopNumber (h : Nested r m c p q) (node : Node Span) :
    Agree r m (loopNumber p c node) (loopNumber q c node) := by
  refine .bind (h.node node) fun v k _ _ => ?_
  cases v with
  | number n => exact .pure n trivial
  | _ => exact .fail ..

theorem agree_loopStep (h : Nested r m c p q) (node : Option (Node Span)) :
    Agree r m (loopStep p c node) (loopStep q c node) := by
  cases node with
  | none => exact .pure _ trivial
  | some node =>
    refine .bind (agree_loopNumber h node) fun step k _ _ => ?_
    dsimp only
    split
    · exact .fail_bind ..
    · exact .pure _ trivial

theorem agree_loopValue (body : Body Span) (results : Array Value) :
    Agree r m (loopValue body results) (loopValue body results) := by
  unfold loopValue
  split
  · exact .pure _ trivial
  · exact agree_newList results

/-! ### Calls -/

theorem agree_bindParams {caller : Context} {callee : Callee} (hc : c.In m)
    (params : List (Param Span)) (args : List Value) :
    Agree r m (bindParams caller c callee span params args)
      (bindParams caller c callee span params args) := by
  induction params generalizing m args with
  | nil => exact .pure () trivial
  | cons param params ih =>
    cases args with
    | nil => exact .pure () trivial
    | cons v vs =>
      unfold bindParams
      dsimp only
      split
      · exact .fail_bind ..
      · exact .bind (agree_define hc ..) fun _ k hk _ => ih (hc.later hk) vs

theorem agree_runBody (h : Nested r m c p q) (definition : FuncDef Span) :
    Agree r m (runBody p c definition) (runBody q c definition) := by
  refine agree_after (h.node definition.body) (fun v k _ hx hy => ?_) (fun e k _ hx hy => ?_)
    fun failure hadmits hx hy => ?_
  · unfold runBody
    rw [hx, hy]
    exact ⟨pure _, pure _, rfl, rfl, .pure _ trivial⟩
  · unfold runBody
    rw [hx, hy]
    match e with
    | .ret v => exact ⟨pure v, pure v, rfl, rfl, .pure _ trivial⟩
    | .exit exit span => exact ⟨fail c _ span, fail c _ span, rfl, rfl, .fail ..⟩
    | .failed _ | .exhausted => exact ⟨throw _, throw _, rfl, rfl, .throw _⟩
  · unfold runBody
    rw [hx, hy]
    exact ⟨failure, hadmits, rfl, rfl⟩

theorem agree_callDefined (h : Nested r m c p q) {f : Function}
    (hf : f.closure < m.scopes.tables.size) (isMethod : Bool) (args : List Value) :
    Agree r m (callDefined p c span f isMethod args) (callDefined q c span f isMethod args) := by
  refine .bind (agree_checkArity ..) fun _ k hk _ => ?_
  refine .bind (tracks_growScope (Nat.lt_of_lt_of_le hf hk.size_le)) fun scope k' hk' hs => ?_
  let inner : Context := ⟨scope, ⟨f.definition.label, some span.start⟩ :: c.calls⟩
  have h' : Nested r k' inner p q := ((h.later hk).later hk').within hs
  have hbody : ∀ k'', Moves k' k'' → Agree r k'' (runBody p inner f.definition)
      (runBody q inner f.definition) :=
    fun _ hk'' => agree_runBody (h'.later hk'') f.definition
  dsimp only
  split
  · refine .bind (agree_define h'.inside ..) fun _ k₁ hk₁ _ => ?_
    exact .bind (agree_bindParams (h'.later hk₁).inside _ _) fun _ k₂ hk₂ _ =>
      hbody k₂ (hk₁.trans hk₂)
  · exact .bind (agree_bindParams h'.inside _ _) fun _ k₁ hk₁ _ => hbody k₁ hk₁

theorem agree_callFunction (h : Nested r m c p q) (id : Nat) (isMethod : Bool) (args : List Value) :
    Agree r m (callFunction p c span id isMethod args) (callFunction q c span id isMethod args) := by
  refine .bind .get fun a k hk ha => ?_
  obtain ⟨rfl, rfl⟩ := ha
  cases hf : k.store.function? id with
  | none => exact .fail ..
  | some f =>
    have hmem : f ∈ k.store.functions := Array.mem_of_getElem? hf
    exact agree_callDefined h (h.placed.closures f hmem) isMethod args

theorem agree_instantiate (h : Nested r m c p q) (cls : Nat) (args : List Value) :
    Agree r m (instantiate p c span cls args) (instantiate q c span cls args) := by
  refine .bind (agree_newInstance cls) fun id k hk _ => .bind .get fun a k' hk' ha => ?_
  obtain ⟨rfl, rfl⟩ := ha
  dsimp only
  cases k'.store.findMethod cls "__init__" with
  | some init =>
    exact .bind (agree_callFunction (h.later hk) ..) fun _ _ _ _ => .pure _ trivial
  | none =>
    refine .bind (agree_className cls) fun name _ _ _ => ?_
    exact .bind (agree_checkArity ..) fun _ _ _ _ => .pure _ trivial

theorem agree_loadScript (h : Nested r m c p q) (path : Value) :
    Agree r m (loadScript p c span path) (loadScript q c span path) := by
  cases path with
  | string path =>
    refine .bind (agree_note nofun) fun _ k hk _ => .bind .get fun a k' hk' ha => ?_
    obtain ⟨rfl, rfl⟩ := ha
    cases k'.world.readFile path with
    | error fault => exact .fail ..
    | ok text =>
      refine agree_after ((h.later hk).script ⟨path, text⟩) (fun v k _ hx hy => ?_)
        (fun e k _ hx hy => ?_) fun failure hadmits hx hy => ?_
      · dsimp only
        rw [hx, hy]
        exact ⟨pure _, pure _, rfl, rfl, .pure _ trivial⟩
      · dsimp only
        rw [hx, hy]
        match e with
        | .failed failure => exact ⟨fail c _ span, fail c _ span, rfl, rfl, .fail ..⟩
        | .ret _ | .exit .. | .exhausted => exact ⟨throw _, throw _, rfl, rfl, .throw _⟩
      · dsimp only
        rw [hx, hy]
        exact ⟨_, r.quoted ⟨path, text⟩ failure hadmits span c.calls, rfl, rfl⟩
  | _ => exact .fail ..

theorem agree_native (h : Nested r m c p q) (b : Builtin) (args : List Value) :
    Agree r m (native p c span b args) (native q c span b args) := by
  refine .bind .get fun a k _ ha => ?_
  obtain ⟨rfl, rfl⟩ := ha
  have hframe : Context.In ⟨k.globals, ⟨b.name, some span.start⟩ :: c.calls⟩ k := h.placed.globals
  dsimp only
  split
  · refine .bind (agree_display _) fun text _ _ _ => ?_
    exact .bind (agree_write _) fun _ _ _ _ => .pure _ trivial
  · exact .bind (agree_display _) fun text _ _ _ => .pure _ trivial
  · exact .bind (agree_display _) fun text _ _ _ => .pure _ trivial
  · exact .bind agree_readLine fun line _ _ _ => .pure _ trivial
  · exact .bind .get fun a _ _ _ => agree_readInteger _
  · exact .bind (agree_write _) fun _ _ _ _ => .pure _ trivial
  · exact .pure _ trivial
  · exact .pure _ trivial
  · exact .pure _ trivial
  · exact .pure _ trivial
  · exact agree_append ..
  · exact agree_pop ..
  · exact agree_extend ..
  · exact agree_len _
  · exact agree_loadScript (h.within hframe) _
  · exact .bind (agree_isInstance ..) fun _ _ _ _ => .pure _ trivial
  · exact agree_hasAttr ..
  · exact agree_getAttr ..
  · exact agree_setAttr ..
  · exact .fail ..

theorem agree_call (h : Nested r m c p q) (callee : Value) (args : List Value) :
    Agree r m (call p c span callee args) (call q c span callee args) := by
  cases callee with
  | function id => exact agree_callFunction h ..
  | method id => exact agree_callFunction h ..
  | bound receiver method => exact agree_callFunction h ..
  | builtin b => exact agree_native h b args
  | cls id => exact agree_instantiate h id args
  | number | string | list | inst => exact .fail ..

/-! ### Nodes -/

theorem agree_evalAll (h : Nested r m c p q) (nodes : List (Node Span)) :
    Agree r m (evalAll p c nodes) (evalAll q c nodes) := by
  induction nodes generalizing m with
  | nil => exact .pure _ trivial
  | cons node nodes ih =>
    refine .bind (h.node node) fun v k hk _ => ?_
    exact .bind (ih (h.later hk)) fun _ _ _ _ => .pure _ trivial

theorem agree_branchValue (h : Nested r m c p q) (body : Body Span) :
    Agree r m (branchValue p c body) (branchValue q c body) :=
  .bind (h.node body.node) fun _ _ _ _ => .pure _ trivial

theorem agree_choose (h : Nested r m c p q) (otherwise : Option (Body Span))
    (branches : List (Branch Span)) :
    Agree r m (choose p c otherwise branches) (choose q c otherwise branches) := by
  induction branches generalizing m with
  | nil =>
    cases otherwise with
    | none => exact .pure _ trivial
    | some body => exact agree_branchValue h body
  | cons branch branches ih =>
    refine .bind (h.node branch.condition) fun v k hk _ => ?_
    split
    · exact agree_branchValue (h.later hk) branch.body
    · exact ih (h.later hk)

theorem agree_classNamed (name : String) :
    Agree r m (classNamed c name span) (classNamed c name span) := by
  refine .bind (agree_lookup name) fun found _ _ _ => ?_
  match found with
  | some (.cls id) => exact .pure id trivial
  | some (.number _) | some (.string _) | some (.list _) | some (.function _)
  | some (.method _) | some (.builtin _) | some (.bound ..) | some (.inst _) | none =>
    exact .fail ..

theorem agree_readAttribute (object : Value) (name : String) :
    Agree r m (readAttribute c object name span) (readAttribute c object name span) := by
  refine .bind .get fun a k _ _ => ?_
  dsimp only
  cases object with
  | cls id =>
    dsimp only
    cases a.store.findMethod id name with
    | some method => exact .pure _ trivial
    | none => exact .fail ..
  | inst id =>
    dsimp only
    cases a.store.attribute? id name with
    | some v => exact .pure _ trivial
    | none => exact .fail ..
  | _ => exact .fail ..

theorem agree_makeMethods (hc : c.In m) (definitions : List (FuncDef Span))
    (methods : Bindings Nat) :
    Agree r m (makeMethods c definitions methods) (makeMethods c definitions methods) := by
  induction definitions generalizing m methods with
  | nil => exact .pure _ trivial
  | cons definition definitions ih =>
    unfold makeMethods
    cases definition.name with
    | none => exact ih hc methods
    | some name =>
      exact .bind (agree_newFunction definition hc) fun id k hk _ => ih (hc.later hk) _

theorem agree_applyBinary (op : BinaryOp) (left right : Node Span) (v w : Value) :
    Agree r m (applyBinary c op left right v w) (applyBinary c op left right v w) := by
  refine .bind .get fun a k _ _ => ?_
  split
  · exact agree_settle _
  · exact .fail ..
  · exact .fail ..

theorem agree_applyUnary (op : UnaryOp) (v : Value) :
    Agree r m (applyUnary c op v span) (applyUnary c op v span) := by
  unfold applyUnary
  split
  · exact .pure _ trivial
  · exact .fail ..

theorem agree_applyIndex (target index : Node Span) (t i : Value) :
    Agree r m (applyIndex c target index t i) (applyIndex c target index t i) := by
  refine .bind .get fun a k _ _ => ?_
  split
  · exact .pure _ trivial
  · exact .fail ..
  · exact .fail ..

theorem agree_checkType (type : Option DeclaredType) (v : Value) :
    Agree r m (checkType c type v span) (checkType c type v span) := by
  cases type with
  | none => exact .pure () trivial
  | some wanted =>
    unfold checkType
    dsimp only
    split
    · exact .fail ..
    · exact .pure _ trivial

/-- One case for each kind of node. -/
theorem agree_evalNode (h : Nested r m c p q) (n : Nat) (node : Node Span) :
    Agree r m (evalNode p n c node) (evalNode q n c node) := by
  cases node with
  | int | float | string => exact .pure _ trivial
  | list _ items => exact .bind (agree_evalAll h items) fun _ _ _ _ => agree_newList _
  | block _ items => exact .bind (agree_evalAll h items) fun _ _ _ _ => agree_newList _
  | name span name =>
    refine .bind (agree_lookup name) fun found _ _ _ => ?_
    cases found with
    | some v => exact .pure v trivial
    | none => exact .fail ..
  | declare span name type constant value =>
    refine .bind (h.node value) fun v k hk _ => ?_
    refine .bind (agree_checkType type v) fun _ k' hk' _ => ?_
    exact .bind (agree_define ((h.later hk).later hk').inside ..) fun _ _ _ _ => .pure v trivial
  | assign span name value =>
    refine .bind (h.node value) fun v k hk _ => ?_
    exact .bind (agree_assign (h.later hk).inside ..) fun _ _ _ _ => .pure v trivial
  | binary _ op left right =>
    refine .bind (h.node left) fun l k hk _ => ?_
    exact .bind ((h.later hk).node right) fun r _ _ _ => agree_applyBinary ..
  | unary span op operand => exact .bind (h.node operand) fun v _ _ _ => agree_applyUnary op v
  | cond _ branches otherwise => exact agree_choose h otherwise branches
  | forLoop span counter start stop step body =>
    refine .bind (agree_loopNumber h start) fun first k₁ hk₁ _ => ?_
    have h₁ := h.later hk₁
    refine .bind (agree_loopNumber h₁ stop) fun last k₂ hk₂ _ => ?_
    have h₂ := h₁.later hk₂
    refine .bind (agree_loopStep h₂ step) fun by_ k₃ hk₃ _ => ?_
    refine .bind (agree_countFrom (h₂.later hk₃) ..) fun results _ _ _ => ?_
    exact agree_loopValue body results
  | whileLoop _ condition body =>
    refine .bind (agree_repeatWhile h ..) fun results _ _ _ => ?_
    exact agree_loopValue body results
  | func span definition =>
    refine .bind (agree_newFunction definition h.inside) fun id k hk _ => ?_
    dsimp only
    cases definition.name with
    | none => exact .pure _ trivial
    | some name => exact .bind (agree_define (h.later hk).inside ..) fun _ _ _ _ => .pure _ trivial
  | call span callee args =>
    refine .bind (h.node callee) fun f k hk _ => ?_
    refine .bind (agree_evalAll (h.later hk) args) fun vs k' hk' _ => ?_
    exact agree_call ((h.later hk).later hk') f vs
  | index _ target index =>
    refine .bind (h.node target) fun t k hk _ => ?_
    exact .bind ((h.later hk).node index) fun i _ _ _ => agree_applyIndex ..
  | ret _ value =>
    cases value with
    | none => exact .throw _
    | some value => exact .bind (h.node value) fun v _ _ _ => .throw _
  | exit span exit => exact .throw _
  | cls span name parent methods =>
    have hrest : ∀ (parent : Option Nat) k, Moves m k →
        Agree r k (do
          let methods ← makeMethods c methods .empty
          let id ← newClass ⟨name, methods, parent⟩
          define c name (Value.cls id) false span
          return Value.cls id) (do
          let methods ← makeMethods c methods .empty
          let id ← newClass ⟨name, methods, parent⟩
          define c name (Value.cls id) false span
          return Value.cls id) := by
      intro parent k hk
      have hc := (h.later hk).inside
      refine .bind (agree_makeMethods hc methods .empty) fun _ k₁ hk₁ _ => ?_
      refine .bind (agree_newClass _) fun id k₂ hk₂ _ => ?_
      refine .bind (agree_define ((hc.later hk₁).later hk₂) ..) fun _ _ _ _ => ?_
      exact .pure _ trivial
    cases parent with
    | none => exact hrest none m .refl
    | some parent => exact .bind (agree_classNamed parent) fun id k hk _ => hrest (some id) k hk
  | new span cls args =>
    refine .bind (agree_classNamed cls) fun id k hk _ => ?_
    refine .bind (agree_evalAll (h.later hk) args) fun vs k' hk' _ => ?_
    exact agree_instantiate ((h.later hk).later hk') id vs
  | getAttr span object name =>
    exact .bind (h.node object) fun o _ _ _ => agree_readAttribute o name
  | setAttr _ object name value =>
    refine .bind (h.node object) fun o k hk _ => ?_
    refine .bind ((h.later hk).node value) fun v _ _ _ => ?_
    cases o with
    | inst id => exact .bind (agree_setAttribute id name v) fun _ _ _ _ => .pure v trivial
    | _ => exact .fail ..
  | methodCall span object name args =>
    refine .bind (h.node object) fun o k hk _ => ?_
    have h₁ := h.later hk
    refine .bind (agree_readAttribute o name) fun f k₁ hk₁ _ => ?_
    have h₂ := h₁.later hk₁
    refine .bind (agree_evalAll h₂ args) fun vs k₂ hk₂ _ => ?_
    exact agree_call (h₂.later hk₂) f vs

/-! ### Scripts -/

theorem agree_callMain (h : Nested r m c p q) (source : Source) (inherited : Option Value) :
    Agree r m (callMain p c source inherited) (callMain q c source inherited) := by
  refine .bind (agree_lookup "main") fun found k hk _ => ?_
  have h' := h.later hk
  split
  · exact .fail ..
  · exact agree_call h' ..
  · refine .bind .get fun a k' hk' _ => ?_
    split
    · exact .fail ..
    · exact agree_call (h'.later hk') ..
    · exact .throw _

theorem agree_runScript (h : Nested r m c p q) (source : Source) :
    Agree r m (runScript p source) (runScript q source) := by
  unfold runScript
  cases source.parse with
  | error failure => exact .throw _
  | ok program =>
    refine .bind .get fun a k hk ha => ?_
    obtain ⟨rfl, rfl⟩ := ha
    have htop : Context.In (topLevel k.globals) k := h.placed.globals
    refine .bind (agree_lookup "main") fun inherited k' hk' _ => ?_
    have h' : Nested r k' (topLevel k.globals) p q := (h.within htop).later hk'
    refine agree_after (h'.node program) (fun v k₁ hk₁ hx hy => ?_) (fun e k₁ _ hx hy => ?_)
      fun failure hadmits hx hy => ?_
    · rw [hx, hy]
      dsimp only
      split
      · exact ⟨_, _, rfl, rfl, agree_callMain (h'.later hk₁) source inherited⟩
      · exact ⟨pure v, pure v, rfl, rfl, .pure v trivial⟩
    · rw [hx, hy]
      match e with
      | .ret v => exact ⟨pure v, pure v, rfl, rfl, .pure _ trivial⟩
      | .exit exit span => exact ⟨fail _ _ span, fail _ _ span, rfl, rfl, .fail ..⟩
      | .failed _ | .exhausted => exact ⟨throw _, throw _, rfl, rfl, .throw _⟩
    · rw [hx, hy]
      exact ⟨failure, hadmits, rfl, rfl⟩

end Eval

/-- One step of a task, with nested tasks performed by `p` and loops of at most `n`
rounds. -/
def Task.step (p : Performer) (n : Nat) : Task → Eval Value
  | .node tree c => Eval.evalNode p n c tree
  | .script source => Eval.runScript p source

theorem Task.perform_succ (n : Nat) (t : Task) :
    Task.perform (n + 1) t = t.step (Task.perform n) n := by
  cases t <;> rfl

open Eval (Agree Alike)

/-- Performers that are alike give steps that are. -/
theorem Task.agree_step {p q : Performer} {r : Cut} {m : Machine} (h : Alike r m p q)
    (hm : Placed m) {t : Task} (ht : t.In m) (n : Nat) :
    Agree r m (t.step p n) (t.step q n) := by
  cases t with
  | node tree c => exact Eval.agree_evalNode ⟨h, hm, ht⟩ n tree
  | script source =>
    have hc : Context.In ⟨m.globals, []⟩ m := hm.globals
    exact Eval.agree_runScript ⟨h, hm, hc⟩ source

theorem Task.agree_perform {r : Cut} (n : Nat) {m : Machine} (hm : Placed m) {t : Task}
    (ht : t.In m) : Agree r m (t.perform n) (t.perform n) := by
  induction n generalizing r m t with
  | zero => exact .throw _
  | succ n ih =>
    rw [Task.perform_succ]
    exact Task.agree_step (fun k t _ hk ht => ih hk ht) hm ht n

/-- **Whatever a task does to a machine is moves.** -/
theorem Task.perform_moves (n : Nat) {m : Machine} (hm : Placed m) {t : Task} (ht : t.In m) :
    match t.perform n m with
    | .ok _ k => Moves m k
    | .error _ k => Moves m k := by
  rcases Task.agree_perform (r := .never m) n hm ht with ⟨_, hmoves⟩ | hparts
  · cases h : t.perform n m <;> rw [h] at hmoves
    · exact hmoves.1
    · exact hmoves
  · exact absurd hparts Cut.never_parts

end Script
