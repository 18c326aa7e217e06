import Script.Proofs.Constants
import Script.Proofs.References

/-! No reference dangles.

An evaluation that starts on a machine on which nothing dangles leaves such a machine, and
what it yields or returns early refers to what exists then (`Eval.Tidy`). That is shown for
one step, given that nested tasks are performed so, and hence for every number of steps. It
holds in the middle of a run as well, at every moment that a program comes to
(`Machine.Reachable.intact`). -/
namespace Script

open Machine (Intact)

/-! ### Evaluations -/

namespace Eval

/-- From `m` an evaluation leaves a machine that has grown and on which nothing dangles. If it
yields a value, `post` holds of it and of the store then. -/
def Tidy (m : Machine) (x : Eval α) (post : α → Store → Prop) : Prop :=
  match x m with
  | .ok a k => m.store.Grows k.store ∧ k.Intact ∧ post a k.store
  | .error signal k => m.store.Grows k.store ∧ k.Intact ∧ signal.In k.store

variable {α β : Type} {m k : Machine} {P : α → Store → Prop} {Q : β → Store → Prop}

/-- An evaluation whose value does not matter. -/
abbrev Anything : α → Store → Prop := fun _ _ => True

/-- An evaluation that yields a value in order. -/
abbrev Existing : Value → Store → Prop := fun v s => v.In s

namespace Tidy

theorem bind {x : Eval α} {f : α → Eval β} (hx : Tidy m x P)
    (hf : ∀ a k, m.store.Grows k.store → k.Intact → P a k.store → Tidy k (f a) Q) :
    Tidy m (x >>= f) Q := by
  show Tidy m (EStateM.bind x f) Q
  unfold Tidy EStateM.bind at *
  cases hxm : x m with
  | error e k =>
    rw [hxm] at hx
    exact hx
  | ok a k =>
    rw [hxm] at hx
    have hfa := hf a k hx.1 hx.2.1 hx.2.2
    dsimp only
    cases hr : f a k <;> rw [hr] at hfa
    · exact ⟨hx.1.trans hfa.1, hfa.2⟩
    · exact ⟨hx.1.trans hfa.1, hfa.2⟩

theorem mono {x : Eval α} {R : α → Store → Prop} (hx : Tidy m x P) (h : ∀ a s, P a s → R a s) :
    Tidy m x R := by
  unfold Tidy at *
  cases hxm : x m <;> rw [hxm] at hx
  · exact ⟨hx.1, hx.2.1, h _ _ hx.2.2⟩
  · exact hx

theorem of_ok {x : Eval α} {a : α} (h : Tidy m x P) (hx : x m = .ok a k) :
    m.store.Grows k.store ∧ k.Intact ∧ P a k.store := by
  unfold Tidy at h
  rwa [hx] at h

theorem of_error {x : Eval α} {signal : Signal} (h : Tidy m x P) (hx : x m = .error signal k) :
    m.store.Grows k.store ∧ k.Intact ∧ signal.In k.store := by
  unfold Tidy at h
  rwa [hx] at h

theorem get {f : Machine → Eval β} (h : Tidy m (f m) Q) : Tidy m (MonadState.get >>= f) Q := h

theorem pure (hm : m.Intact) {a : α} (ha : P a m.store) : Tidy m (Pure.pure a) P := ⟨.refl, hm, ha⟩

theorem throw {signal : Signal} (hm : m.Intact) (hs : signal.In m.store) :
    Tidy (α := α) m (MonadExcept.throw signal) P :=
  ⟨.refl, hm, hs⟩

theorem fail (hm : m.Intact) (c : Context) (fault : Fault) (span : Span) :
    Tidy (α := α) m (Eval.fail c fault span) P :=
  throw hm trivial

/-- A change of neither the names nor the objects. -/
theorem quietly {x : Eval α} {a : α} (hm : m.Intact) (hx : x m = .ok a k)
    (hscopes : k.scopes = m.scopes) (hstore : k.store = m.store) (ha : P a m.store) :
    Tidy m x P := by
  unfold Tidy
  rw [hx]
  dsimp only
  rw [hstore]
  refine ⟨.refl, ⟨?_, ?_⟩, ha⟩
  · rw [hscopes, hstore]
    exact hm.names
  · rw [hstore]
    exact hm.store

/-- What a nested evaluation ends with decides what follows it. -/
theorem after {x : Eval α} {y : Eval β} (hx : Tidy m x P)
    (hok : ∀ a k, k.Intact → P a k.store → x m = .ok a k → ∃ z : Eval β, y m = z k ∧ Tidy k z Q)
    (herror : ∀ e k, k.Intact → e.In k.store → x m = .error e k →
      ∃ z : Eval β, y m = z k ∧ Tidy k z Q) : Tidy m y Q := by
  have hjoin : ∀ k, m.store.Grows k.store → (∃ z : Eval β, y m = z k ∧ Tidy k z Q) →
      Tidy m y Q := by
    rintro k hk ⟨z, hz, htidy⟩
    unfold Tidy at *
    rw [hz]
    cases hzk : z k <;> rw [hzk] at htidy
    · exact ⟨hk.trans htidy.1, htidy.2⟩
    · exact ⟨hk.trans htidy.1, htidy.2⟩
  unfold Tidy at hx
  cases hxm : x m <;> rw [hxm] at hx
  · exact hjoin _ hx.1 (hok _ _ hx.2.1 hx.2.2 hxm)
  · exact hjoin _ hx.1 (herror _ _ hx.2.1 hx.2.2 hxm)

end Tidy

/-! ### Names and objects -/

theorem tidy_note (hm : m.Intact) (effect : Effect) : Tidy m (note effect) Anything :=
  .quietly hm rfl rfl rfl trivial

theorem tidy_lookup (hm : m.Intact) (c : Context) (name : String) :
    Tidy m (lookup c name) fun found s => ∀ v ∈ found, v.In s :=
  ⟨.refl, hm, fun _ hv => hm.get? hv⟩

theorem tidy_growScope (hm : m.Intact) (parent : ScopeId) : Tidy m (growScope parent) Anything :=
  ⟨.refl, hm.grow (some parent), trivial⟩

theorem tidy_newList (hm : m.Intact) {elements : Array Value} (he : ∀ v ∈ elements, v.In m.store) :
    Tidy m (newList elements) Existing := by
  have hg := m.store.grows_newList elements
  refine ⟨hg, hm.later hg (hm.store.newList he), ?_⟩
  show m.store.lists.size < (m.store.lists.push elements).size
  rw [Array.size_push]
  exact Nat.lt_succ_self _

theorem tidy_newFunction (hm : m.Intact) (f : Function) :
    Tidy m (newFunction f) fun id s => id < s.functions.size := by
  have hg := m.store.grows_newFunction f
  refine ⟨hg, hm.later hg (hm.store.newFunction f), ?_⟩
  show m.store.functions.size < (m.store.functions.push f).size
  rw [Array.size_push]
  exact Nat.lt_succ_self _

theorem tidy_newClass (hm : m.Intact) {cls : Class} (hcls : cls.In m.store m.store.classes.size) :
    Tidy m (newClass cls) fun id s => id < s.classes.size := by
  have hg := m.store.grows_newClass cls
  refine ⟨hg, hm.later hg (hm.store.newClass hcls), ?_⟩
  show m.store.classes.size < (m.store.classes.push cls).size
  rw [Array.size_push]
  exact Nat.lt_succ_self _

/-- The one place where an instance gets its class. -/
theorem tidy_newInstance (hm : m.Intact) {cls : Nat} (hcls : cls < m.store.classes.size) :
    Tidy m (newInstance cls) fun id s => ∃ i, s.instance? id = some i ∧ i.cls = cls := by
  have hg := m.store.grows_newInstance cls
  refine ⟨hg, hm.later hg (hm.store.newInstance hcls), ⟨cls, .empty⟩, ?_, rfl⟩
  exact Array.getElem?_push_size

theorem tidy_changeList (hm : m.Intact) (id : Nat) {f : Array Value → Array Value}
    (hf : ∀ xs ∈ m.store.lists, ∀ v ∈ f xs, v.In m.store) : Tidy m (changeList id f) Anything := by
  have hg := m.store.grows_modifyList id f
  exact ⟨hg, hm.later hg (hm.store.modifyList id hf), trivial⟩

theorem tidy_settle (hm : m.Intact) {result : Yield} (h : result.In m.store) :
    Tidy m (settle result) Existing := by
  cases result with
  | value v => exact .pure hm h
  | list elements => exact tidy_newList hm h

theorem tidy_setAttribute (hm : m.Intact) (id : Nat) (name : String) {value : Value}
    (hv : value.In m.store) : Tidy m (setAttribute id name value) Anything := by
  refine .bind (tidy_note hm _) fun _ k hk hi _ => ?_
  have hg := k.store.grows_setAttribute id name value
  exact ⟨hg, hi.later hg (hi.store.setAttribute id name (hv.later hk)), trivial⟩

theorem tidy_display (hm : m.Intact) (v : Value) : Tidy m (display v) Anything := by
  refine .get ?_
  cases m.store.display v with
  | none => exact .throw hm trivial
  | some text => exact .pure hm trivial

section Builtins

variable {c : Context} {span : Span}

theorem tidy_bindAt (hm : m.Intact) (scope : ScopeId) (name : String) {value : Value}
    (hv : value.In m.store) (constant : Bool) :
    Tidy m (bindAt c scope name value constant span) Anything := by
  refine .get ?_
  cases m.scopes.isProtected scope name with
  | true => exact .bind (.fail (P := Anything) hm ..) fun _ k hk hi _ =>
      ⟨.refl, hi.bind scope name (hv.later hk) constant _, trivial⟩
  | false => exact ⟨.refl, hm.bind scope name hv constant _, trivial⟩

theorem tidy_define (hm : m.Intact) (name : String) {value : Value} (hv : value.In m.store)
    (constant : Bool) : Tidy m (define c name value constant span) Anything :=
  tidy_bindAt hm _ name hv constant

theorem tidy_assign (hm : m.Intact) (name : String) {value : Value} (hv : value.In m.store) :
    Tidy m (assign c name value span) Anything :=
  .get (tidy_bindAt hm _ name hv false)

theorem tidy_write (hm : m.Intact) (text : String) : Tidy m (write c span text) Anything := by
  refine .bind (.quietly (P := Anything) hm rfl rfl rfl trivial) fun fault _ _ hk _ => ?_
  cases fault with
  | none => exact .pure hk trivial
  | some fault => exact .fail hk ..

theorem tidy_readLine (hm : m.Intact) : Tidy m (readLine c span) Anything := by
  refine .bind (.quietly (P := Anything) hm rfl rfl rfl trivial) fun answer _ _ hk _ => ?_
  match answer with
  | .error fault => exact .fail hk ..
  | .ok none => exact .pure hk trivial
  | .ok (some line) => exact .pure hk trivial

theorem tidy_readInteger (hm : m.Intact) (n : Nat) : Tidy m (readInteger c span n) Existing := by
  induction n generalizing m with
  | zero => exact .fail hm ..
  | succ n ih =>
    refine .bind (tidy_readLine hm) fun answer k _ hk _ => ?_
    cases answer with
    | none => exact .fail hk ..
    | some line =>
      dsimp only
      cases integerLine? line with
      | some j => exact .pure hk trivial
      | none => exact .bind (tidy_write hk _) fun _ _ _ hk' _ => ih hk'

theorem tidy_append (hm : m.Intact) (target : Value) {value : Value} (hv : value.In m.store) :
    Tidy m (append c span target value) Existing := by
  cases target with
  | list id =>
    refine .bind (tidy_note hm _) fun _ k hg hk _ => ?_
    refine .bind (tidy_changeList hk id fun xs hxs v hmem => ?_)
      fun _ _ _ hk' _ => .pure hk' trivial
    rcases Array.mem_push.mp hmem with hmem | rfl
    · exact hk.store.lists xs hxs v hmem
    · exact hv.later hg
  | _ => exact .fail hm ..

theorem tidy_pop (hm : m.Intact) (target index : Value) :
    Tidy m (pop c span target index) Existing := by
  cases target with
  | list id =>
    cases index with
    | number n =>
      refine .bind (tidy_note hm _) fun _ k _ hk _ => .get ?_
      dsimp only
      cases placeOf (k.store.elements id).size n (.listBounds .removal) with
      | error fault => exact .fail hk ..
      | ok place =>
        refine .bind (tidy_changeList hk id fun xs hxs v hmem =>
          hk.store.lists xs hxs v (Store.mem_of_mem_without hmem)) fun _ k' hg hk' _ => ?_
        refine .pure hk' ?_
        cases hget : (k.store.elements id)[place]? with
        | none => trivial
        | some v => exact (hk.store.elements id v (Array.mem_of_getElem? hget)).later hg
    | _ => exact .fail hm ..
  | _ => exact .fail hm ..

theorem tidy_extend (hm : m.Intact) (target source : Value) :
    Tidy m (extend c span target source) Existing := by
  cases target with
  | list id =>
    cases source with
    | list other =>
      refine .bind (tidy_note hm _) fun _ k _ hk _ => .get ?_
      refine .bind (tidy_changeList hk id fun xs hxs v hmem => ?_) fun _ _ _ hk' _ =>
        .pure hk' trivial
      rcases Array.mem_append.mp hmem with hmem | hmem
      · exact hk.store.lists xs hxs v hmem
      · exact hk.store.elements other v hmem
    | _ => exact .fail hm ..
  | _ => exact .fail hm ..

theorem tidy_len (hm : m.Intact) (v : Value) : Tidy m (len c span v) Existing := by
  cases v with
  | list id => exact .get (.pure hm trivial)
  | string s => exact .pure hm trivial
  | _ => exact .fail hm ..

theorem tidy_isInstance (hm : m.Intact) (v cls : Value) : Tidy m (isInstance v cls) Anything := by
  refine .get ?_
  dsimp only
  split <;> exact .pure hm trivial

theorem tidy_attributeName (hm : m.Intact) (v : Value) :
    Tidy m (attributeName c span v) Anything := by
  cases v with
  | string name => exact .pure hm trivial
  | _ => exact .fail hm ..

theorem tidy_hasAttr (hm : m.Intact) (v attr : Value) :
    Tidy m (hasAttr c span v attr) Existing := by
  refine .bind (tidy_attributeName hm attr) fun name k _ hk _ => ?_
  cases v with
  | inst id => exact .get (.pure hk trivial)
  | _ => exact .pure hk trivial

theorem tidy_getAttr (hm : m.Intact) (v attr : Value) {default : Value} (hd : default.In m.store) :
    Tidy m (getAttr c span v attr default) Existing := by
  refine .bind (tidy_attributeName hm attr) fun name k hg hk _ => ?_
  cases v with
  | inst id =>
    refine .get (.pure hk ?_)
    cases hget : k.store.attribute? id name with
    | none => exact hd.later hg
    | some v => exact hk.store.attribute? hget
  | _ => exact .fail hk ..

theorem tidy_setAttr (hm : m.Intact) (v attr : Value) {value : Value} (hv : value.In m.store) :
    Tidy m (setAttr c span v attr value) Existing := by
  refine .bind (tidy_attributeName hm attr) fun name k hg hk _ => ?_
  cases v with
  | inst id =>
    exact .bind (tidy_setAttribute hk id name (hv.later hg)) fun _ _ _ hk' _ => .pure hk' trivial
  | _ => exact .fail hk ..

theorem tidy_checkArity (hm : m.Intact) (callee : Callee) (wanted given : Nat) :
    Tidy m (checkArity c callee wanted given span) Anything := by
  unfold checkArity
  split
  · exact .fail hm ..
  · exact .pure hm trivial

end Builtins

/-! ### Nested tasks -/

/-- What is asked of a performer of nested tasks. -/
def Cares (p : Performer) : Prop := ∀ {m : Machine} (t : Task), m.Intact → Tidy m (p t) Existing

section Nested

variable {p : Performer} {c : Context} {span : Span}

/-! ### Loops -/

/-- The value of a round refers to what exists. -/
def Round.In (r : Round) (s : Store) : Prop :=
  match r with
  | .value v => v.In s
  | .continued | .broken => True

theorem tidy_round (hp : Cares p) (hm : m.Intact) (body : Body Span) :
    Tidy m (round p c body) Round.In := by
  refine .after (hp (.node body.node c) hm) (fun v k hk hv hx => ?_) (fun e k hk he hx => ?_)
  · unfold round
    rw [hx]
    exact ⟨pure _, rfl, .pure hk hv⟩
  · unfold round
    rw [hx]
    match e with
    | .exit .continuing _ => exact ⟨pure .continued, rfl, .pure hk trivial⟩
    | .exit .breaking _ => exact ⟨pure .broken, rfl, .pure hk trivial⟩
    | .ret _ | .failed _ | .exhausted => exact ⟨throw _, rfl, .throw hk he⟩

/-- Values that refer to what exists. -/
abbrev AllExisting : Array Value → Store → Prop := fun results s => ∀ v ∈ results, v.In s

theorem collect_in {body : Body Span} {results : Array Value} {v : Value} {s : Store}
    (hr : AllExisting results s) (hv : v.In s) : AllExisting (collect body results v) s := by
  unfold collect
  split
  · exact hr
  · intro w hw
    rcases Array.mem_push.mp hw with hw | rfl
    · exact hr w hw
    · exact hv

theorem AllExisting.later {results : Array Value} {s t : Store} (h : AllExisting results s)
    (hg : s.Grows t) : AllExisting results t :=
  fun v hv => (h v hv).later hg

theorem tidy_countFrom (hp : Cares p) (hm : m.Intact) (counter : String) (stop step : Number)
    (body : Body Span) (n : Nat) (j : Number) {results : Array Value}
    (hr : AllExisting results m.store) :
    Tidy m (countFrom p c span counter stop step body n j results) AllExisting := by
  induction n generalizing m j results with
  | zero => exact .throw hm trivial
  | succ n ih =>
    unfold countFrom
    split
    · refine .bind (tidy_define hm counter (show (Value.number j).In _ from trivial) false)
        fun _ k hg hk _ => ?_
      refine .bind (tidy_round hp hk body) fun r k' hg' hk' hround => ?_
      have hr' := hr.later (hg.trans hg')
      cases r with
      | value v => exact ih hk' _ (collect_in hr' hround)
      | continued => exact ih hk' _ hr'
      | broken => exact .pure hk' hr'
    · exact .pure hm hr

theorem tidy_repeatWhile (hp : Cares p) (hm : m.Intact) (condition : Node Span) (body : Body Span)
    (n : Nat) {results : Array Value} (hr : AllExisting results m.store) :
    Tidy m (repeatWhile p c condition body n results) AllExisting := by
  induction n generalizing m results with
  | zero => exact .throw hm trivial
  | succ n ih =>
    refine .bind (hp _ hm) fun v k hg hk _ => ?_
    split
    · refine .bind (tidy_round hp hk body) fun r k' hg' hk' hround => ?_
      have hr' := hr.later (hg.trans hg')
      cases r with
      | value v => exact ih hk' (collect_in hr' hround)
      | continued => exact ih hk' hr'
      | broken => exact .pure hk' hr'
    · exact .pure hk (hr.later hg)

theorem tidy_loopNumber (hp : Cares p) (hm : m.Intact) (node : Node Span) :
    Tidy m (loopNumber p c node) Anything := by
  refine .bind (hp _ hm) fun v k _ hk _ => ?_
  cases v with
  | number n => exact .pure hk trivial
  | _ => exact .fail hk ..

theorem tidy_loopStep (hp : Cares p) (hm : m.Intact) (node : Option (Node Span)) :
    Tidy m (loopStep p c node) Anything := by
  cases node with
  | none => exact .pure hm trivial
  | some node =>
    refine .bind (tidy_loopNumber hp hm node) fun step k _ hk _ => ?_
    dsimp only
    split
    · exact .bind (.fail (P := Anything) hk ..) fun _ _ _ hk' _ => .pure hk' trivial
    · exact .pure hk trivial

theorem tidy_loopValue (hm : m.Intact) (body : Body Span) {results : Array Value}
    (hr : AllExisting results m.store) : Tidy m (loopValue body results) Existing := by
  unfold loopValue
  split
  · exact .pure hm trivial
  · exact tidy_newList hm hr

/-! ### Calls -/

theorem tidy_bindParams {caller : Context} (hm : m.Intact) (callee : Callee)
    (params : List (Param Span)) {args : List Value} (ha : ∀ v ∈ args, v.In m.store) :
    Tidy m (bindParams caller c callee span params args) Anything := by
  induction params generalizing m args with
  | nil => exact .pure hm trivial
  | cons param params ih =>
    cases args with
    | nil => exact .pure hm trivial
    | cons v vs =>
      obtain ⟨hv, hvs⟩ := List.forall_mem_cons.mp ha
      have hrest : ∀ k, m.store.Grows k.store → k.Intact → Tidy k (do
          define c param.name v false span
          bindParams caller c callee span params vs) Anything := by
        intro k hg hk
        refine .bind (tidy_define hk _ (hv.later hg) false) fun _ k' hg' hk' _ => ?_
        exact ih hk' fun w hw => (hvs w hw).later (hg.trans hg')
      unfold bindParams
      dsimp only
      split
      · exact .bind (.fail (P := Anything) hm ..) fun _ k hg hk _ => hrest k hg hk
      · exact hrest m .refl hm

theorem tidy_runBody (hp : Cares p) (hm : m.Intact) (definition : FuncDef Span) :
    Tidy m (runBody p c definition) Existing := by
  refine .after (hp (.node definition.body c) hm) (fun v k hk hv hx => ?_) (fun e k hk he hx => ?_)
  · unfold runBody
    rw [hx]
    refine ⟨pure _, rfl, .pure hk ?_⟩
    split
    · exact hv
    · trivial
  · unfold runBody
    rw [hx]
    match e with
    | .ret v => exact ⟨pure v, rfl, .pure hk he⟩
    | .exit exit span => exact ⟨fail c _ span, rfl, .fail hk ..⟩
    | .failed _ | .exhausted => exact ⟨throw _, rfl, .throw hk he⟩

theorem tidy_callDefined (hp : Cares p) (hm : m.Intact) (f : Function) (isMethod : Bool)
    {args : List Value} (ha : ∀ v ∈ args, v.In m.store) :
    Tidy m (callDefined p c span f isMethod args) Existing := by
  refine .bind (tidy_checkArity hm ..) fun _ k hg hk _ => ?_
  refine .bind (tidy_growScope hk _) fun scope k' hg' hk' _ => ?_
  have ha' : ∀ v ∈ args, v.In k'.store := fun v hv => (ha v hv).later (hg.trans hg')
  dsimp only
  split
  · obtain ⟨hreceiver, hargs⟩ := List.forall_mem_cons.mp ha'
    refine .bind (tidy_define hk' _ hreceiver false) fun _ k₁ hg₁ hk₁ _ => ?_
    refine .bind (tidy_bindParams hk₁ _ _ fun v hv => (hargs v hv).later hg₁) ?_
    exact fun _ _ _ hk₂ _ => tidy_runBody hp hk₂ _
  · exact .bind (tidy_bindParams hk' _ _ ha') fun _ _ _ hk₁ _ => tidy_runBody hp hk₁ _

theorem tidy_callFunction (hp : Cares p) (hm : m.Intact) (id : Nat) (isMethod : Bool)
    {args : List Value} (ha : ∀ v ∈ args, v.In m.store) :
    Tidy m (callFunction p c span id isMethod args) Existing := by
  refine .get ?_
  cases m.store.function? id with
  | none => exact .fail hm ..
  | some f => exact tidy_callDefined hp hm f isMethod ha

/-- A new instance is of the class it is made from, whatever its initializer does. -/
theorem tidy_instantiate (hp : Cares p) (hm : m.Intact) {cls : Nat}
    (hcls : cls < m.store.classes.size) {args : List Value} (ha : ∀ v ∈ args, v.In m.store) :
    Tidy m (instantiate p c span cls args) fun v s =>
      ∃ id i, v = .inst id ∧ s.instance? id = some i ∧ i.cls = cls := by
  refine .bind (tidy_newInstance hm hcls) fun id k hg hk ⟨i, hi, hof⟩ => .get ?_
  have hkept : ∀ {k'}, k.store.Grows k'.store → k'.Intact →
      Tidy k' (pure (Value.inst id)) fun v s =>
      ∃ id i, v = .inst id ∧ s.instance? id = some i ∧ i.cls = cls := by
    intro k' hg' hk'
    obtain ⟨j, hj, hsame⟩ := hg'.instances hi
    exact .pure hk' ⟨id, j, rfl, hj, hsame.trans hof⟩
  cases k.store.findMethod cls "__init__" with
  | some init =>
    have hself : (Value.inst id).In k.store := (Array.getElem?_eq_some_iff.mp hi).1
    refine .bind (tidy_callFunction hp hk _ _ (List.forall_mem_cons.mpr ⟨hself, ?_⟩)) ?_
    · exact fun v hv => (ha v hv).later hg
    · exact fun _ k' hg' hk' _ => hkept hg' hk'
  | none =>
    refine .get (.bind (tidy_checkArity hk ..) ?_)
    exact fun _ k' hg' hk' _ => hkept hg' hk'

theorem tidy_loadScript (hp : Cares p) (hm : m.Intact) (path : Value) :
    Tidy m (loadScript p c span path) Existing := by
  cases path with
  | string path =>
    refine .bind (tidy_note hm _) fun _ k _ hk _ => .get ?_
    cases k.world.readFile path with
    | error fault => exact .fail hk ..
    | ok text =>
      refine .after (hp (.script ⟨path, text⟩) hk) (fun v k hk _ hx => ?_) (fun e k hk he hx => ?_)
      · dsimp only
        rw [hx]
        exact ⟨pure _, rfl, .pure hk trivial⟩
      · dsimp only
        rw [hx]
        match e with
        | .failed failure => exact ⟨fail c _ span, rfl, .fail hk ..⟩
        | .ret _ | .exit .. | .exhausted => exact ⟨throw _, rfl, .throw hk he⟩
  | _ => exact .fail hm ..

theorem tidy_native (hp : Cares p) (hm : m.Intact) (b : Builtin) {args : List Value}
    (ha : ∀ v ∈ args, v.In m.store) : Tidy m (native p c span b args) Existing := by
  refine .get ?_
  dsimp only
  split
  · refine .bind (tidy_display hm _) fun text _ _ hk _ => ?_
    exact .bind (tidy_write hk _) fun _ _ _ hk' _ => .pure hk' trivial
  · exact .bind (tidy_display hm _) fun _ _ _ hk _ => .pure hk trivial
  · exact .bind (tidy_display hm _) fun _ _ _ hk _ => .pure hk trivial
  · exact .bind (tidy_readLine hm) fun _ _ _ hk _ => .pure hk trivial
  · exact .get (tidy_readInteger hm _)
  · exact .bind (tidy_write hm _) fun _ _ _ hk _ => .pure hk trivial
  · exact .pure hm trivial
  · exact .pure hm trivial
  · exact .pure hm trivial
  · exact .pure hm trivial
  · exact tidy_append hm _ (ha _ (by simp))
  · exact tidy_pop hm ..
  · exact tidy_extend hm ..
  · exact tidy_len hm _
  · exact tidy_loadScript hp hm _
  · exact .bind (tidy_isInstance hm ..) fun _ _ _ hk _ => .pure hk trivial
  · exact tidy_hasAttr hm ..
  · exact tidy_getAttr hm _ _ (ha _ (by simp))
  · exact tidy_setAttr hm _ _ (ha _ (by simp))
  · exact .fail hm ..

theorem tidy_call (hp : Cares p) (hm : m.Intact) {callee : Value} (hc : callee.In m.store)
    {args : List Value} (ha : ∀ v ∈ args, v.In m.store) :
    Tidy m (call p c span callee args) Existing := by
  cases callee with
  | function id => exact tidy_callFunction hp hm id false ha
  | method id => exact tidy_callFunction hp hm id true ha
  | bound receiver id =>
    exact tidy_callFunction hp hm id true (List.forall_mem_cons.mpr ⟨hc.1, ha⟩)
  | builtin b => exact tidy_native hp hm b ha
  | cls id =>
    refine (tidy_instantiate hp hm hc ha).mono ?_
    rintro v s ⟨x, i, rfl, hi, _⟩
    exact (Array.getElem?_eq_some_iff.mp hi).1
  | number | string | list | inst => exact .fail hm ..

/-! ### Nodes -/

theorem tidy_evalAll (hp : Cares p) (hm : m.Intact) (nodes : List (Node Span)) :
    Tidy m (evalAll p c nodes) fun vs s => ∀ v ∈ vs, v.In s := by
  induction nodes generalizing m with
  | nil => exact .pure hm (by simp)
  | cons node nodes ih =>
    refine .bind (hp _ hm) fun v k _ hk hv => .bind (ih hk) fun vs k' hg hk' hvs => ?_
    exact .pure hk' (List.forall_mem_cons.mpr ⟨hv.later hg, hvs⟩)

theorem tidy_branchValue (hp : Cares p) (hm : m.Intact) (body : Body Span) :
    Tidy m (branchValue p c body) Existing := by
  refine .bind (hp _ hm) fun v k _ hk hv => .pure hk ?_
  split
  · trivial
  · exact hv

theorem tidy_choose (hp : Cares p) (hm : m.Intact) (otherwise : Option (Body Span))
    (branches : List (Branch Span)) : Tidy m (choose p c otherwise branches) Existing := by
  induction branches generalizing m with
  | nil =>
    cases otherwise with
    | none => exact .pure hm trivial
    | some body => exact tidy_branchValue hp hm body
  | cons branch branches ih =>
    refine .bind (hp _ hm) fun v k _ hk _ => ?_
    split
    · exact tidy_branchValue hp hk branch.body
    · exact ih hk

theorem tidy_classNamed (hm : m.Intact) (name : String) :
    Tidy m (classNamed c name span) fun id s => id < s.classes.size := by
  refine .bind (tidy_lookup hm c name) fun found _ _ hk hfound => ?_
  match found with
  | some (.cls id) => exact .pure hk (hfound _ rfl)
  | some (.number _) | some (.string _) | some (.list _) | some (.function _)
  | some (.method _) | some (.builtin _) | some (.bound ..) | some (.inst _) | none =>
    exact .fail hk ..

theorem tidy_readAttribute (hm : m.Intact) (object : Value) (name : String) :
    Tidy m (readAttribute c object name span) Existing := by
  refine .get ?_
  dsimp only
  cases object with
  | cls id =>
    dsimp only
    cases hf : m.store.findMethod id name with
    | some f => exact .pure hm (hm.store.findMethod hf)
    | none => exact .fail hm ..
  | inst id =>
    dsimp only
    cases hv : m.store.attribute? id name with
    | some v => exact .pure hm (hm.store.attribute? hv)
    | none => exact .fail hm ..
  | _ => exact .fail hm ..

theorem tidy_makeMethods (hm : m.Intact) (definitions : List (FuncDef Span))
    {methods : Bindings Nat}
    (hmethods : ∀ {name f}, methods.get? name = some f → f < m.store.functions.size) :
    Tidy m (makeMethods c definitions methods) fun methods s =>
      ∀ {name f}, methods.get? name = some f → f < s.functions.size := by
  induction definitions generalizing m methods with
  | nil => exact .pure hm hmethods
  | cons definition definitions ih =>
    unfold makeMethods
    cases definition.name with
    | none => exact ih hm hmethods
    | some name =>
      refine .bind (tidy_newFunction hm _) fun id k hg hk hid => ih hk fun {other f} hf => ?_
      rw [Bindings.get?_insert] at hf
      split at hf
      · cases hf
        exact hid
      · exact Nat.lt_of_lt_of_le (hmethods hf) hg.functions

theorem tidy_applyBinary (hm : m.Intact) (op : BinaryOp) (left right : Node Span) (l : Value)
    {r : Value} (hr : r.In m.store) : Tidy m (applyBinary c op left right l r) Existing := by
  refine .get ?_
  split
  · next hy => exact tidy_settle hm (hm.store.binary hr hy)
  · exact .fail hm ..
  · exact .fail hm ..

theorem tidy_applyUnary (hm : m.Intact) (op : UnaryOp) (v : Value) :
    Tidy m (applyUnary c op v span) Existing := by
  unfold applyUnary
  split
  · next result hresult =>
    refine .pure hm ?_
    unfold Value.unary at hresult
    split at hresult <;> cases hresult <;> trivial
  · exact .fail hm ..

theorem tidy_applyIndex (hm : m.Intact) (target index : Node Span) (t j : Value) :
    Tidy m (applyIndex c target index t j) Existing := by
  refine .get ?_
  split
  · next hv => exact .pure hm (hm.store.index hv)
  · exact .fail hm ..
  · exact .fail hm ..

theorem tidy_checkType (hm : m.Intact) (type : Option DeclaredType) (v : Value) :
    Tidy m (checkType c type v span) Anything := by
  cases type with
  | none => exact .pure hm trivial
  | some wanted =>
    unfold checkType
    dsimp only
    split
    · exact .fail hm ..
    · exact .pure hm trivial

/-- A class under its name, once its parent is known. -/
def definedClass (c : Context) (span : Span) (name : String) (methods : List (FuncDef Span))
    (parent : Option Nat) : Eval Value := do
  let methods ← makeMethods c methods .empty
  let id ← newClass ⟨name, methods, parent⟩
  define c name (.cls id) false span
  return .cls id

theorem tidy_definedClass (hm : m.Intact) (span : Span) (name : String)
    (methods : List (FuncDef Span)) {parent : Option Nat}
    (hparent : ∀ p ∈ parent, p < m.store.classes.size) :
    Tidy m (definedClass c span name methods parent) Existing := by
  have hnone : ∀ {name f}, (Bindings.empty : Bindings Nat).get? name = some f →
      f < m.store.functions.size := fun h => nomatch h
  refine .bind (tidy_makeMethods hm methods hnone) fun made k hg hk hmade => ?_
  have hcls : Class.In k.store k.store.classes.size ⟨name, made, parent⟩ :=
    ⟨fun hp => Nat.lt_of_lt_of_le (hparent _ hp) hg.classes_le, hmade⟩
  refine .bind (tidy_newClass hk hcls) fun id k₁ _ hk₁ hid => ?_
  have hid : (Value.cls id).In k₁.store := hid
  exact .bind (tidy_define hk₁ name hid false) fun _ _ hg₂ hk₂ _ => .pure hk₂ (hid.later hg₂)

/-- One case for each kind of node. -/
theorem tidy_evalNode (hp : Cares p) (hm : m.Intact) (n : Nat) (tree : Node Span) :
    Tidy m (evalNode p n c tree) Existing := by
  have hlist : ∀ items, Tidy m (do newList (← evalAll p c items).toArray) Existing :=
    fun items => .bind (tidy_evalAll hp hm items) fun vs _ _ hk hvs =>
      tidy_newList hk fun v hv => hvs v (List.mem_toArray.mp hv)
  cases tree with
  | int | float | string => exact .pure hm trivial
  | list _ items => exact hlist items
  | block _ items => exact hlist items
  | name span name =>
    refine .bind (tidy_lookup hm c name) fun found _ _ hk hfound => ?_
    cases found with
    | some v => exact .pure hk (hfound v rfl)
    | none => exact .fail hk ..
  | declare span name type constant value =>
    refine .bind (hp _ hm) fun v k _ hk hv => ?_
    refine .bind (tidy_checkType hk type v) fun _ k₁ hg₁ hk₁ _ => ?_
    refine .bind (tidy_define hk₁ name (hv.later hg₁) constant) fun _ k₂ hg₂ hk₂ _ => ?_
    exact .pure hk₂ (hv.later (hg₁.trans hg₂))
  | assign span name value =>
    refine .bind (hp _ hm) fun v k _ hk hv => ?_
    exact .bind (tidy_assign hk name hv) fun _ _ hg hk' _ => .pure hk' (hv.later hg)
  | binary _ op left right =>
    refine .bind (hp _ hm) fun l k _ hk _ => .bind (hp _ hk) fun r _ _ hk' hr => ?_
    exact tidy_applyBinary hk' op left right l hr
  | unary span op operand => exact .bind (hp _ hm) fun v _ _ hk _ => tidy_applyUnary hk op v
  | cond _ branches otherwise => exact tidy_choose hp hm otherwise branches
  | forLoop span counter start stop step body =>
    refine .bind (tidy_loopNumber hp hm start) fun first k₁ _ hk₁ _ => ?_
    refine .bind (tidy_loopNumber hp hk₁ stop) fun last k₂ _ hk₂ _ => ?_
    refine .bind (tidy_loopStep hp hk₂ step) fun by_ k₃ _ hk₃ _ => ?_
    refine .bind (tidy_countFrom hp hk₃ counter last by_ body n first fun _ h => nomatch h) ?_
    exact fun results _ _ hk hr => tidy_loopValue hk body hr
  | whileLoop _ condition body =>
    refine .bind (tidy_repeatWhile hp hm condition body n fun _ h => nomatch h) ?_
    exact fun results _ _ hk hr => tidy_loopValue hk body hr
  | func span definition =>
    refine .bind (tidy_newFunction hm _) fun id k _ hk hid => ?_
    dsimp only
    cases definition.name with
    | none => exact .pure hk hid
    | some name =>
      have hf : (Value.function id).In k.store := hid
      exact .bind (tidy_define hk name hf false) fun _ _ hg hk' _ => .pure hk' (hf.later hg)
  | call span callee args =>
    refine .bind (hp _ hm) fun f k _ hk hf => ?_
    exact .bind (tidy_evalAll hp hk args) fun vs _ hg hk' hvs =>
      tidy_call hp hk' (hf.later hg) hvs
  | index _ target index =>
    exact .bind (hp _ hm) fun t k _ hk _ => .bind (hp _ hk) fun j _ _ hk' _ =>
      tidy_applyIndex hk' target index t j
  | ret _ value =>
    cases value with
    | none => exact .throw hm trivial
    | some value => exact .bind (hp _ hm) fun v _ _ hk hv => .throw hk hv
  | exit span exit => exact .throw hm trivial
  | cls span name parent methods =>
    cases parent with
    | none => exact tidy_definedClass hm span name methods (by simp)
    | some parent =>
      refine .bind (tidy_classNamed hm parent) fun id k _ hk hid => ?_
      refine tidy_definedClass hk span name methods ?_
      rintro p ⟨⟩
      exact hid
  | new span cls args =>
    refine .bind (tidy_classNamed hm cls) fun id k _ hk hid => ?_
    refine .bind (tidy_evalAll hp hk args) fun vs k' hg hk' hvs => ?_
    have hid : (Value.cls id).In k'.store := Nat.lt_of_lt_of_le hid hg.classes_le
    exact tidy_call hp hk' hid hvs
  | getAttr span object name =>
    exact .bind (hp _ hm) fun o _ _ hk _ => tidy_readAttribute hk o name
  | setAttr _ object name value =>
    refine .bind (hp _ hm) fun o k _ hk _ => .bind (hp _ hk) fun v _ _ hk' hv => ?_
    cases o with
    | inst id =>
      exact .bind (tidy_setAttribute hk' id name hv) fun _ _ hg hk'' _ => .pure hk'' (hv.later hg)
    | _ => exact .fail hk' ..
  | methodCall span object name args =>
    refine .bind (hp _ hm) fun o k _ hk _ => ?_
    refine .bind (tidy_readAttribute hk o name) fun f k₁ _ hk₁ hf => ?_
    exact .bind (tidy_evalAll hp hk₁ args) fun vs _ hg hk₂ hvs => tidy_call hp hk₂ (hf.later hg) hvs

/-! ### Scripts -/

theorem tidy_callMain (hp : Cares p) (hm : m.Intact) (source : Source) (inherited : Option Value) :
    Tidy m (callMain p c source inherited) Existing := by
  refine .bind (tidy_lookup hm c "main") fun found k _ hk hfound => ?_
  split
  · exact .fail hk ..
  · exact tidy_call hp hk (hfound _ rfl) (by simp)
  · refine .get ?_
    split
    · exact .fail hk ..
    · exact tidy_call hp hk (hfound _ rfl) (by simp)
    · exact .throw hk trivial

theorem tidy_runScript (hp : Cares p) (hm : m.Intact) (source : Source) :
    Tidy m (runScript p source) Existing := by
  unfold runScript
  cases source.parse with
  | error failure => exact .throw hm trivial
  | ok program =>
    refine .get (.bind (tidy_lookup hm _ "main") fun inherited k _ hk _ => ?_)
    refine .after (hp (.node program (topLevel m.globals)) hk) (fun v k hk hv hx => ?_)
      (fun e k hk he hx => ?_)
    · rw [hx]
      dsimp only
      split
      · exact ⟨_, rfl, tidy_callMain hp hk source inherited⟩
      · exact ⟨pure v, rfl, .pure hk hv⟩
    · rw [hx]
      match e with
      | .ret v => exact ⟨pure v, rfl, .pure hk he⟩
      | .exit exit span => exact ⟨fail _ _ span, rfl, .fail hk ..⟩
      | .failed _ | .exhausted => exact ⟨throw _, rfl, .throw hk he⟩

theorem tidy_step (hp : Cares p) (hm : m.Intact) (n : Nat) (t : Task) :
    Tidy m (t.step p n) Existing := by
  cases t with
  | node tree c => exact tidy_evalNode hp hm n tree
  | script source => exact tidy_runScript hp hm source

end Nested

/-- Every number of steps gives a performer after which nothing dangles. -/
theorem cares_perform (n : Nat) : Cares (Task.perform n) := by
  induction n with
  | zero => exact fun t hm => .throw hm trivial
  | succ n ih =>
    intro m t hm
    rw [Task.perform_succ]
    exact tidy_step ih hm n t

end Eval

/-! ### Sessions -/

section Start

variable {s : Store}

theorem foldl_bind_in {entries : List β} (name : β → String) (value : β → Value) {constant : Bool}
    (h : ∀ e ∈ entries, (value e).In s) {t : Table Value}
    (ht : ∀ {n v}, t.bindings.get? n = some v → v.In s) {n : String} {v : Value}
    (hv : (entries.foldl (fun t e => t.bind (name e) (value e) constant) t).bindings.get? n =
      some v) :
    v.In s := by
  induction entries generalizing t with
  | nil => exact ht hv
  | cons e entries ih =>
    obtain ⟨he, hrest⟩ := List.forall_mem_cons.mp h
    refine ih hrest (t := t.bind (name e) (value e) constant) (fun {other w} hw => ?_) hv
    replace hw : (t.bindings.insert (name e) (value e)).get? other = some w := hw
    rw [Bindings.get?_insert] at hw
    split at hw
    · cases hw
      exact he
    · exact ht hw

/-- The global names of a new session stand for numbers and builtins. -/
theorem globalTable_in {name : String} {v : Value}
    (hv : Machine.globalTable.bindings.get? name = some v) : v.In s := by
  have hfixed : ∀ {n w}, (Machine.constants.foldl (fun t e => t.bind e.1 e.2 true)
      (Table.empty none)).bindings.get? n = some w → w.In s := by
    intro n w hw
    refine foldl_bind_in Prod.fst Prod.snd (fun e he => ?_) ?_ hw
    · simp only [Machine.constants, List.mem_cons, List.not_mem_nil, or_false] at he
      rcases he with rfl | rfl | rfl | rfl <;> trivial
    · intro _ _ hnone
      cases hnone
  exact foldl_bind_in Prod.fst (fun e => .builtin e.2) (fun _ _ => trivial) hfixed hv

end Start

namespace Machine

theorem start_intact (world : World) : (start world).Intact where
  names t ht _ _ hv := by
    rcases Array.mem_push.mp ht with ht | rfl
    · exact absurd ht (Array.not_mem_empty t)
    · exact globalTable_in hv
  store :=
    { lists := fun xs h => absurd h (Array.not_mem_empty xs)
      instances := fun i h => absurd h (Array.not_mem_empty i)
      classes := by
        intro _ _ h
        cases h }

theorem Session.intact {world : World} {m : Machine} (h : Session world m) : m.Intact := by
  induction h with
  | start => exact start_intact world
  | @run m n source _ ih =>
    have htidy := Eval.cares_perform n (.script source) ih
    unfold Machine.run
    cases hr : Task.perform n (.script source) m with
    | ok v k => exact (htidy.of_ok hr).2.1
    | error e k =>
      have hk := (htidy.of_error hr).2.1
      cases e <;> exact hk
  | takeOutput _ ih => exact ⟨ih.names, ih.store⟩

end Machine

/-- What a step asks for is asked on a machine on which nothing dangles: otherwise what is
asked for there could leave any machine, and so could the step. -/
theorem Task.Asks.intact {p : Performer} {n : Nat} {t t' : Task} {m m' : Machine}
    (h : t.Asks p n m t' m') (hp : Eval.Cares p) (hm : m.Intact) : m'.Intact := by
  refine Classical.byContradiction fun hnot => ?_
  have hcut : Eval.Cares (Performer.cutShort p t' m' m') := by
    intro k u hk
    have hne : ¬ (u = t' ∧ k = m') := fun heq => hnot (heq.2 ▸ hk)
    have htidy := hp u hk
    unfold Eval.Tidy at htidy ⊢
    rwa [Performer.cutShort_of_ne hne]
  exact hnot ((Eval.tidy_step hcut hm n t).of_error (h m')).2.1

theorem Moment.Reaches.intact {d : Nat} {a b : Moment} (h : Moment.Reaches d a b)
    (ha : a.machine.Intact) : b.machine.Intact := by
  induction h with
  | start => exact ha
  | nested hasks _ ih => exact ih (hasks.intact (Eval.cares_perform _) ha)

namespace Machine

/-- The machines that a session comes to: where a task is begun in one of its programs, and
where one has ended. -/
inductive Reachable (world : World) : Machine → Prop where
  | begins {m n source d b} : Session world m → Moment.Reaches d ⟨n, .script source, m⟩ b →
      Reachable world b.machine
  | yields {m n source d b v k} : Session world m → Moment.Reaches d ⟨n, .script source, m⟩ b →
      b.outcome = .ok v k → Reachable world k
  | stops {m n source d b signal k} : Session world m → Moment.Reaches d ⟨n, .script source, m⟩ b →
      b.outcome = .error signal k → Reachable world k

theorem Session.reachable {world : World} {m : Machine} (h : Session world m) :
    Reachable world m :=
  .begins (b := ⟨0, .script default, m⟩) h .start

/-- **Nothing ever dangles.** -/
theorem Reachable.intact {world : World} {m : Machine} (h : Reachable world m) : m.Intact := by
  cases h with
  | begins hs hb => exact hb.intact hs.intact
  | yields hs hb hk => exact ((Eval.cares_perform _ _ (hb.intact hs.intact)).of_ok hk).2.1
  | stops hs hb hk => exact ((Eval.cares_perform _ _ (hb.intact hs.intact)).of_error hk).2.1

end Machine

end Script
