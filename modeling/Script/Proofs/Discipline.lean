import Script.Proofs.Moves
import Script.Proofs.Subtrees
import Script.Session

/-! Invariants that hold through every run, as a parameter.

A `Discipline` says which trees may be evaluated, which calls may be active, which
places may be blamed, and what a computation may stop with. Its laws are what the
evaluator relies on: a tree that may be evaluated hands its permission on to what is
below it, and what a permitted tree fails with is a permitted failure. Trees are
permitted in a mode, so that the body of a loop may do what a function body may not.

Permission may also depend on the machine, if what is permitted stays so while the
machine grows (`Grows`): files stay what they are and the journal is only added to.
So a discipline can say what holds as long as nothing was loaded that breaks it.

From the laws every function of a machine stays permitted through a whole run, and
the run ends as the discipline says (`Discipline.run_obeys`), proved once. -/
namespace Script

/-! ### Growth -/

namespace Machine

/-- What a run only adds to, and what it leaves as it is. -/
structure Grows (m k : Machine) : Prop where
  journal : m.journal <:+ k.journal
  files : k.world.files = m.world.files

variable {m k l : Machine}

theorem Grows.refl : Grows m m := ⟨List.suffix_rfl, rfl⟩

theorem Grows.trans (h : Grows m k) (h' : Grows k l) : Grows m l :=
  ⟨h.journal.trans h'.journal, h'.files.trans h.files⟩

theorem Grows.note (effect : Effect) : Grows m { m with journal := effect :: m.journal } :=
  ⟨List.suffix_cons .., rfl⟩

/-- A file is read the same as long as the machine only grows. -/
theorem Grows.readFile_eq (h : Grows m k) (path : String) :
    k.world.readFile path = m.world.readFile path := by
  unfold World.readFile
  rw [h.files]

end Machine

theorem World.write_files (w : World) (text : String) : (w.write text).2.files = w.files := by
  unfold World.write
  cases w.sink <;> rfl

theorem World.readLine_files (w : World) : w.readLine.2.files = w.files := by
  unfold World.readLine
  split <;> rfl

open Machine (Grows)

/-! ### Disciplines -/

/-- Whether a fault is of the computation itself: no loop exit that escaped from a body,
and not the failure of a script that was loaded. -/
def Fault.isOwn : Fault → Bool
  | .outsideLoop _ | .scriptFailed .. => false
  | _ => true

structure Discipline where
  /-- Where a tree stands, as far as that matters. -/
  Mode : Type
  /-- The mode of programs and function bodies. -/
  top : Mode
  /-- The mode of loop bodies. -/
  inside : Mode
  /-- The machine that the run is followed from. -/
  origin : Machine
  /-- The trees that may be evaluated. -/
  node : Machine → Mode → Node Span → Prop
  /-- The sources that may be run. -/
  source : Machine → Source → Prop
  /-- The places that may be blamed. -/
  place : Span → Prop
  /-- The calls that may be active. -/
  calls : List Call → Prop
  /-- What a computation may fail with. -/
  failure : Machine → Failure → Prop
  /-- The loop exits that may leave a tree. -/
  exit : Machine → Mode → Span → Prop
  later : ∀ {m k i tree}, Grows m k → node m i tree → node k i tree
  child : ∀ {m i tree}, node m i tree → ∀ sub ∈ tree.children, node m i sub
  body : ∀ {m i tree}, node m i tree → ∀ sub ∈ tree.loopBody, node m inside sub
  definition : ∀ {m i tree}, node m i tree → ∀ f ∈ tree.definitions, node m top f.body
  tag : ∀ {m i tree}, node m i tree → place tree.tag
  joined : ∀ {m i span op left right}, node m i (.binary span op left right) →
    place (left.tag.through right.tag)
  exits : ∀ {m i span e}, node m i (.exit span e) → exit m i span
  program : calls [⟨"<program>", none⟩]
  enter : ∀ {cs span} label, calls cs → place span → calls (⟨label, some span.start⟩ :: cs)
  start : ∀ s, place (.point (.start s))
  raised : ∀ {m cs span fault}, calls cs → place span → fault.isOwn = true →
    failure m (.ofCalls fault span cs)
  /-- A loop exit that leaves a program or a function body is a failure of it. -/
  escaped : ∀ {m cs span} e, calls cs → exit m top span →
    failure m (.ofCalls (.outsideLoop e) span cs)
  /-- What loads a script that fails quotes its report. -/
  quoted : ∀ {m cs span inner} path, calls cs → place span → failure m inner →
    failure m (.ofCalls (.scriptFailed path inner.report.render) span cs)
  parsed : ∀ {m tree} {s : Source}, source m s → s.parse = .ok tree → node m top tree
  refused : ∀ {m f} {s : Source}, s.parse = .error f → failure m f
  loaded : ∀ {m path text}, Grows origin m → m.world.readFile path = .ok text →
    source { m with journal := .opened path :: m.journal } ⟨path, text⟩

namespace Discipline

variable (d : Discipline)

/-- The machine stems from the origin, and all functions on it are permitted. -/
structure Keeps (m : Machine) : Prop where
  stems : d.origin.Grows m
  functions : ∀ f ∈ m.store.functions, d.node m d.top f.definition.body

/-- What a computation may stop with. -/
def Ends (m : Machine) (i : d.Mode) : Signal → Prop
  | .exit _ span => d.exit m i span
  | .failed f => d.failure m f
  | .ret _ | .exhausted => True

/-- From `m` a computation leaves a machine that has grown and keeps the discipline,
and it stops only as it may. -/
def Obeys (i : d.Mode) (m : Machine) (x : Eval α) : Prop :=
  match x m with
  | .ok _ k => m.Grows k ∧ d.Keeps k
  | .error signal k => m.Grows k ∧ d.Keeps k ∧ d.Ends k i signal

variable {d} {α β : Type} {i : d.Mode} {m k : Machine}

/-- A machine that has grown without new functions keeps the discipline. -/
theorem Keeps.later (h : d.Keeps m) (hk : m.Grows k)
    (hf : k.store.functions = m.store.functions) : d.Keeps k := by
  refine ⟨h.stems.trans hk, ?_⟩
  rw [hf]
  exact fun f hmem => d.later hk (h.functions f hmem)

namespace Obeys

theorem bind {x : Eval α} {f : α → Eval β} (hx : d.Obeys i m x)
    (hf : ∀ a k, m.Grows k → d.Keeps k → d.Obeys i k (f a)) : d.Obeys i m (x >>= f) := by
  show d.Obeys i m (EStateM.bind x f)
  unfold Obeys EStateM.bind at *
  cases hxm : x m with
  | error e k =>
    rw [hxm] at hx
    exact hx
  | ok a k =>
    rw [hxm] at hx
    have hfa := hf a k hx.1 hx.2
    dsimp only
    cases hr : f a k <;> rw [hr] at hfa
    · exact ⟨hx.1.trans hfa.1, hfa.2⟩
    · exact ⟨hx.1.trans hfa.1, hfa.2⟩

/-- A first step whose end is known. -/
theorem step {x : Eval α} {f : α → Eval β} {a : α} (hx : x m = .ok a k) (hk : m.Grows k)
    (hf : d.Obeys i k (f a)) : d.Obeys i m (x >>= f) := by
  unfold Obeys at *
  rw [Eval.bind_ok hx]
  cases hr : f a k <;> rw [hr] at hf
  · exact ⟨hk.trans hf.1, hf.2⟩
  · exact ⟨hk.trans hf.1, hf.2⟩

theorem get {f : Machine → Eval β} (h : d.Obeys i m (f m)) : d.Obeys i m (MonadState.get >>= f) := h

theorem pure (hm : d.Keeps m) (a : α) : d.Obeys i m (Pure.pure a) := ⟨.refl, hm⟩

theorem throw {signal : Signal} (hm : d.Keeps m) (hs : d.Ends m i signal) :
    d.Obeys (α := α) i m (MonadExcept.throw signal) :=
  ⟨.refl, hm, hs⟩

theorem fail {c : Context} {fault : Fault} {span : Span} (hm : d.Keeps m)
    (hc : d.calls c.calls) (hs : d.place span) (hf : fault.isOwn = true) :
    d.Obeys (α := α) i m (Eval.fail c fault span) :=
  throw hm (d.raised hc hs hf)

/-- A change that makes no function. -/
theorem change {x : Eval α} {a : α} (hm : d.Keeps m) (hx : x m = .ok a k) (hk : m.Grows k)
    (hf : k.store.functions = m.store.functions) : d.Obeys i m x := by
  unfold Obeys
  rw [hx]
  exact ⟨hk, hm.later hk hf⟩

/-- A change of something else than the journal and the files. -/
theorem quietly {x : Eval α} {a : α} (hm : d.Keeps m) (hx : x m = .ok a k)
    (hj : k.journal = m.journal) (hw : k.world.files = m.world.files)
    (hf : k.store.functions = m.store.functions) : d.Obeys i m x :=
  change hm hx ⟨hj ▸ List.suffix_rfl, hw⟩ hf

end Obeys

end Discipline

namespace Eval

variable {α β : Type} {d : Discipline} {i : d.Mode} {m k : Machine}

/-! ### Names and objects -/

theorem obeys_note (hm : d.Keeps m) (effect : Effect) : d.Obeys i m (note effect) :=
  .change hm rfl (.note effect) rfl

theorem obeys_lookup (hm : d.Keeps m) (c : Context) (name : String) :
    d.Obeys i m (lookup c name) :=
  .get (.pure hm _)

theorem obeys_growScope (hm : d.Keeps m) (parent : ScopeId) : d.Obeys i m (growScope parent) :=
  .quietly hm rfl rfl rfl rfl

theorem obeys_newList (hm : d.Keeps m) (elements : Array Value) : d.Obeys i m (newList elements) :=
  .quietly hm rfl rfl rfl rfl

theorem obeys_newClass (hm : d.Keeps m) (cls : Class) : d.Obeys i m (newClass cls) :=
  .quietly hm rfl rfl rfl rfl

theorem obeys_newInstance (hm : d.Keeps m) (cls : Nat) : d.Obeys i m (newInstance cls) :=
  .quietly hm rfl rfl rfl rfl

theorem obeys_changeList (hm : d.Keeps m) (id : Nat) (f : Array Value → Array Value) :
    d.Obeys i m (changeList id f) :=
  .quietly hm rfl rfl rfl rfl

/-- The one change that makes a function. -/
theorem obeys_newFunction (hm : d.Keeps m) {f : Function}
    (hf : d.node m d.top f.definition.body) : d.Obeys i m (newFunction f) := by
  have hgrows : m.Grows { m with store := (m.store.newFunction f).2 } := ⟨List.suffix_rfl, rfl⟩
  refine ⟨hgrows, hm.stems.trans hgrows, fun g hg => d.later hgrows ?_⟩
  rcases Array.mem_push.mp hg with hg | rfl
  · exact hm.functions g hg
  · exact hf

theorem obeys_settle (hm : d.Keeps m) (result : Yield) : d.Obeys i m (settle result) := by
  cases result with
  | value v => exact .pure hm v
  | list elements => exact obeys_newList hm elements

theorem obeys_setAttribute (hm : d.Keeps m) (id : Nat) (name : String) (value : Value) :
    d.Obeys i m (setAttribute id name value) :=
  .bind (obeys_note hm _) fun _ _ _ hk => .quietly hk rfl rfl rfl rfl

theorem obeys_className (hm : d.Keeps m) (id : Nat) : d.Obeys i m (className id) :=
  .get (.pure hm _)

theorem obeys_display (hm : d.Keeps m) (v : Value) : d.Obeys i m (display v) := by
  refine .get ?_
  cases m.store.display v with
  | none => exact .throw hm trivial
  | some text => exact .pure hm text

/-! From here on a context is given whose calls may be active, and a place that may be
blamed. -/

section Builtins

variable {c : Context} {span : Span}

theorem obeys_bindAt (hm : d.Keeps m) (hc : d.calls c.calls) (hs : d.place span)
    (scope : ScopeId) (name : String) (value : Value) (constant : Bool) :
    d.Obeys i m (bindAt c scope name value constant span) := by
  have hbind : ∀ k, d.Keeps k → d.Obeys i k (modify fun m => { m with
      scopes := m.scopes.bind scope name value constant
      journal := .bound scope name :: m.journal }) :=
    fun k hk => .change hk rfl ⟨List.suffix_cons .., rfl⟩ rfl
  refine .get ?_
  cases m.scopes.isProtected scope name with
  | true => exact .bind (.fail hm hc hs rfl) fun _ k _ hk => hbind k hk
  | false => exact hbind m hm

theorem obeys_define (hm : d.Keeps m) (hc : d.calls c.calls) (hs : d.place span) (name : String)
    (value : Value) (constant : Bool) : d.Obeys i m (define c name value constant span) :=
  obeys_bindAt hm hc hs ..

theorem obeys_assign (hm : d.Keeps m) (hc : d.calls c.calls) (hs : d.place span) (name : String)
    (value : Value) : d.Obeys i m (assign c name value span) :=
  .get (obeys_bindAt hm hc hs ..)

theorem obeys_write (hm : d.Keeps m) (hc : d.calls c.calls) (hs : d.place span) (text : String) :
    d.Obeys i m (write c span text) := by
  refine .bind (.quietly hm rfl rfl (World.write_files ..) rfl) fun fault _ _ hk => ?_
  cases fault with
  | none => exact .pure hk ()
  | some fault => exact .fail hk hc hs rfl

theorem obeys_readLine (hm : d.Keeps m) (hc : d.calls c.calls) (hs : d.place span) :
    d.Obeys i m (readLine c span) := by
  refine .bind (.quietly hm rfl rfl (World.readLine_files _) rfl) fun answer _ _ hk => ?_
  match answer with
  | .error fault => exact .fail hk hc hs rfl
  | .ok none => exact .pure hk none
  | .ok (some line) => exact .pure hk _

theorem obeys_readInteger (hm : d.Keeps m) (hc : d.calls c.calls) (hs : d.place span) (n : Nat) :
    d.Obeys i m (readInteger c span n) := by
  induction n generalizing m with
  | zero => exact .fail hm hc hs rfl
  | succ n ih =>
    refine .bind (obeys_readLine hm hc hs) fun answer k _ hk => ?_
    cases answer with
    | none => exact .fail hk hc hs rfl
    | some line =>
      dsimp only
      cases integerLine? line with
      | some j => exact .pure hk _
      | none => exact .bind (obeys_write hk hc hs _) fun _ _ _ hk' => ih hk'

theorem obeys_append (hm : d.Keeps m) (hc : d.calls c.calls) (hs : d.place span)
    (target value : Value) : d.Obeys i m (append c span target value) := by
  cases target with
  | list id =>
    refine .bind (obeys_note hm _) fun _ k _ hk => ?_
    exact .bind (obeys_changeList hk ..) fun _ _ _ hk' => .pure hk' _
  | _ => exact .fail hm hc hs rfl

theorem obeys_pop (hm : d.Keeps m) (hc : d.calls c.calls) (hs : d.place span)
    (target index : Value) : d.Obeys i m (pop c span target index) := by
  cases target with
  | list id =>
    cases index with
    | number n =>
      refine .bind (obeys_note hm _) fun _ k _ hk => .get ?_
      dsimp only
      cases placeOf (k.store.elements id).size n (.listBounds .removal) with
      | error fault => exact .fail hk hc hs rfl
      | ok place => exact .bind (obeys_changeList hk ..) fun _ _ _ hk' => .pure hk' _
    | _ => exact .fail hm hc hs rfl
  | _ => exact .fail hm hc hs rfl

theorem obeys_extend (hm : d.Keeps m) (hc : d.calls c.calls) (hs : d.place span)
    (target source : Value) : d.Obeys i m (extend c span target source) := by
  cases target with
  | list id =>
    cases source with
    | list other =>
      refine .bind (obeys_note hm _) fun _ k _ hk => .get ?_
      exact .bind (obeys_changeList hk ..) fun _ _ _ hk' => .pure hk' _
    | _ => exact .fail hm hc hs rfl
  | _ => exact .fail hm hc hs rfl

theorem obeys_len (hm : d.Keeps m) (hc : d.calls c.calls) (hs : d.place span) (v : Value) :
    d.Obeys i m (len c span v) := by
  cases v with
  | list id => exact .get (.pure hm _)
  | string s => exact .pure hm _
  | _ => exact .fail hm hc hs rfl

theorem obeys_isInstance (hm : d.Keeps m) (v cls : Value) : d.Obeys i m (isInstance v cls) := by
  refine .get ?_
  dsimp only
  split <;> exact .pure hm _

theorem obeys_attributeName (hm : d.Keeps m) (hc : d.calls c.calls) (hs : d.place span)
    (v : Value) : d.Obeys i m (attributeName c span v) := by
  cases v with
  | string name => exact .pure hm name
  | _ => exact .fail hm hc hs rfl

theorem obeys_hasAttr (hm : d.Keeps m) (hc : d.calls c.calls) (hs : d.place span)
    (v attr : Value) : d.Obeys i m (hasAttr c span v attr) := by
  refine .bind (obeys_attributeName hm hc hs attr) fun name k _ hk => ?_
  cases v with
  | inst id => exact .get (.pure hk _)
  | _ => exact .pure hk _

theorem obeys_getAttr (hm : d.Keeps m) (hc : d.calls c.calls) (hs : d.place span)
    (v attr default : Value) : d.Obeys i m (getAttr c span v attr default) := by
  refine .bind (obeys_attributeName hm hc hs attr) fun name k _ hk => ?_
  cases v with
  | inst id => exact .get (.pure hk _)
  | _ => exact .fail hk hc hs rfl

theorem obeys_setAttr (hm : d.Keeps m) (hc : d.calls c.calls) (hs : d.place span)
    (v attr value : Value) : d.Obeys i m (setAttr c span v attr value) := by
  refine .bind (obeys_attributeName hm hc hs attr) fun name k _ hk => ?_
  cases v with
  | inst id => exact .bind (obeys_setAttribute hk ..) fun _ _ _ hk' => .pure hk' _
  | _ => exact .fail hk hc hs rfl

theorem isOwn_arityFault (callee : Callee) (wanted given : Nat) :
    (arityFault callee wanted given).isOwn = true := by
  unfold arityFault
  split <;> rfl

theorem obeys_checkArity (hm : d.Keeps m) (hc : d.calls c.calls) (hs : d.place span)
    (callee : Callee) (wanted given : Nat) :
    d.Obeys i m (checkArity c callee wanted given span) := by
  unfold checkArity
  split
  · exact .fail hm hc hs (isOwn_arityFault ..)
  · exact .pure hm _

end Builtins

/-! ### Nested tasks -/

/-- What is asked of a performer of nested tasks. Nothing but a failure or an end of
the steps stops a script, whatever mode it is loaded in. -/
structure Performs (d : Discipline) (p : Performer) : Prop where
  node : ∀ {m i tree c}, d.Keeps m → d.node m i tree → d.calls c.calls →
    d.Obeys i m (p (.node tree c))
  script : ∀ {m i source}, d.Keeps m → d.source m source → d.Obeys i m (p (.script source))

/-- What a nested task ends with decides what follows it. -/
theorem obeys_after {j : d.Mode} {x : Eval Value} {y : Eval α} (hx : d.Obeys j m x)
    (hok : ∀ v k, m.Grows k → d.Keeps k → x m = .ok v k → ∃ z : Eval α, y m = z k ∧ d.Obeys i k z)
    (herror : ∀ e k, m.Grows k → d.Keeps k → d.Ends k j e → x m = .error e k →
      ∃ z : Eval α, y m = z k ∧ d.Obeys i k z) : d.Obeys i m y := by
  have hjoin : ∀ k, m.Grows k → (∃ z : Eval α, y m = z k ∧ d.Obeys i k z) → d.Obeys i m y := by
    rintro k hk ⟨z, hz, hobeys⟩
    unfold Discipline.Obeys at *
    rw [hz]
    cases hzk : z k <;> rw [hzk] at hobeys
    · exact ⟨hk.trans hobeys.1, hobeys.2⟩
    · exact ⟨hk.trans hobeys.1, hobeys.2⟩
  unfold Discipline.Obeys at hx
  cases hxm : x m <;> rw [hxm] at hx
  · exact hjoin _ hx.1 (hok _ _ hx.1 hx.2 hxm)
  · exact hjoin _ hx.1 (herror _ _ hx.1 hx.2.1 hx.2.2 hxm)

section Nested

variable {p : Performer} {c : Context} {span : Span}

/-! ### Loops -/

/-- A loop exit that leaves the body of a loop goes no further. -/
theorem obeys_round (hp : Performs d p) (hm : d.Keeps m) (hc : d.calls c.calls)
    {body : Body Span} (hb : d.node m d.inside body.node) : d.Obeys i m (round p c body) := by
  refine obeys_after (hp.node hm hb hc) (fun v k _ hk hx => ?_) (fun e k _ hk he hx => ?_)
  · unfold round
    rw [hx]
    exact ⟨pure _, rfl, .pure hk _⟩
  · unfold round
    rw [hx]
    match e with
    | .exit .continuing _ => exact ⟨pure .continued, rfl, .pure hk _⟩
    | .exit .breaking _ => exact ⟨pure .broken, rfl, .pure hk _⟩
    | .ret _ | .failed _ | .exhausted => exact ⟨throw _, rfl, .throw hk he⟩

theorem obeys_countFrom (hp : Performs d p) (hm : d.Keeps m) (hc : d.calls c.calls)
    (hs : d.place span) {body : Body Span} (hb : d.node m d.inside body.node) (counter : String)
    (stop step : Number) (n : Nat) (j : Number) (results : Array Value) :
    d.Obeys i m (countFrom p c span counter stop step body n j results) := by
  induction n generalizing m j results with
  | zero => exact .throw hm trivial
  | succ n ih =>
    unfold countFrom
    split
    · refine .bind (obeys_define hm hc hs ..) fun _ k hg hk => ?_
      have hb' := d.later hg hb
      refine .bind (obeys_round hp hk hc hb') fun r k' hg' hk' => ?_
      cases r with
      | value v => exact ih hk' (d.later hg' hb') _ _
      | continued => exact ih hk' (d.later hg' hb') _ _
      | broken => exact .pure hk' _
    · exact .pure hm _

theorem obeys_repeatWhile (hp : Performs d p) (hm : d.Keeps m) (hc : d.calls c.calls)
    {condition : Node Span} (hn : d.node m i condition) {body : Body Span}
    (hb : d.node m d.inside body.node) (n : Nat) (results : Array Value) :
    d.Obeys i m (repeatWhile p c condition body n results) := by
  induction n generalizing m results with
  | zero => exact .throw hm trivial
  | succ n ih =>
    refine .bind (hp.node hm hn hc) fun v k hg hk => ?_
    split
    · refine .bind (obeys_round hp hk hc (d.later hg hb)) fun r k' hg' hk' => ?_
      have hn' := d.later (hg.trans hg') hn
      have hb' := d.later (hg.trans hg') hb
      cases r with
      | value v => exact ih hk' hn' hb' _
      | continued => exact ih hk' hn' hb' _
      | broken => exact .pure hk' _
    · exact .pure hk _

theorem obeys_loopNumber (hp : Performs d p) (hm : d.Keeps m) (hc : d.calls c.calls)
    {node : Node Span} (hn : d.node m i node) : d.Obeys i m (loopNumber p c node) := by
  refine .bind (hp.node hm hn hc) fun v k _ hk => ?_
  cases v with
  | number n => exact .pure hk n
  | _ => exact .fail hk hc (d.tag hn) rfl

theorem obeys_loopStep (hp : Performs d p) (hm : d.Keeps m) (hc : d.calls c.calls)
    {node : Option (Node Span)} (hn : ∀ step ∈ node, d.node m i step) :
    d.Obeys i m (loopStep p c node) := by
  cases node with
  | none => exact .pure hm _
  | some node =>
    have hnode := hn node rfl
    refine .bind (obeys_loopNumber hp hm hc hnode) fun step k _ hk => ?_
    dsimp only
    split
    · exact .bind (.fail hk hc (d.tag hnode) rfl) fun _ _ _ hk' => .pure hk' _
    · exact .pure hk _

theorem obeys_loopValue (hm : d.Keeps m) (body : Body Span) (results : Array Value) :
    d.Obeys i m (loopValue body results) := by
  unfold loopValue
  split
  · exact .pure hm _
  · exact obeys_newList hm results

/-! ### Calls -/

theorem obeys_bindParams {caller : Context} (hm : d.Keeps m) (hcaller : d.calls caller.calls)
    (hc : d.calls c.calls) (hs : d.place span) (callee : Callee) (params : List (Param Span))
    (args : List Value) : d.Obeys i m (bindParams caller c callee span params args) := by
  induction params generalizing m args with
  | nil => exact .pure hm ()
  | cons param params ih =>
    cases args with
    | nil => exact .pure hm ()
    | cons v vs =>
      have hrest : ∀ k, d.Keeps k → d.Obeys i k (do
          define c param.name v false span
          bindParams caller c callee span params vs) :=
        fun k hk => .bind (obeys_define hk hc hs ..) fun _ _ _ hk' => ih hk' vs
      unfold bindParams
      dsimp only
      split
      · exact .bind (.fail hm hcaller hs rfl) fun _ k _ hk => hrest k hk
      · exact hrest m hm

/-- A loop exit that leaves the body of a function becomes a failure. -/
theorem obeys_runBody (hp : Performs d p) (hm : d.Keeps m) (hc : d.calls c.calls)
    {definition : FuncDef Span} (hb : d.node m d.top definition.body) :
    d.Obeys i m (runBody p c definition) := by
  refine obeys_after (hp.node hm hb hc) (fun v k _ hk hx => ?_) (fun e k _ hk he hx => ?_)
  · unfold runBody
    rw [hx]
    exact ⟨pure _, rfl, .pure hk _⟩
  · unfold runBody
    rw [hx]
    match e with
    | .ret v => exact ⟨pure v, rfl, .pure hk v⟩
    | .exit exit span => exact ⟨fail c _ span, rfl, .throw hk (d.escaped exit hc he)⟩
    | .failed _ | .exhausted => exact ⟨throw _, rfl, .throw hk he⟩

theorem obeys_callDefined (hp : Performs d p) (hm : d.Keeps m) (hc : d.calls c.calls)
    (hs : d.place span) {f : Function} (hf : d.node m d.top f.definition.body) (isMethod : Bool)
    (args : List Value) : d.Obeys i m (callDefined p c span f isMethod args) := by
  refine .bind (obeys_checkArity hm hc hs ..) fun _ k hg hk => ?_
  refine .bind (obeys_growScope hk _) fun scope k' hg' hk' => ?_
  have hinner := d.enter f.definition.label hc hs
  have hbody := d.later (hg.trans hg') hf
  dsimp only
  split
  · refine .bind (obeys_define hk' hinner hs ..) fun _ k₁ hg₁ hk₁ => ?_
    refine .bind (obeys_bindParams hk₁ hc hinner hs ..) fun _ k₂ hg₂ hk₂ => ?_
    exact obeys_runBody hp hk₂ hinner (d.later (hg₁.trans hg₂) hbody)
  · refine .bind (obeys_bindParams hk' hc hinner hs ..) fun _ k₁ hg₁ hk₁ => ?_
    exact obeys_runBody hp hk₁ hinner (d.later hg₁ hbody)

theorem obeys_callFunction (hp : Performs d p) (hm : d.Keeps m) (hc : d.calls c.calls)
    (hs : d.place span) (id : Nat) (isMethod : Bool) (args : List Value) :
    d.Obeys i m (callFunction p c span id isMethod args) := by
  refine .get ?_
  cases hf : m.store.function? id with
  | none => exact .fail hm hc hs rfl
  | some f =>
    exact obeys_callDefined hp hm hc hs (hm.functions f (Array.mem_of_getElem? hf)) isMethod args

theorem obeys_instantiate (hp : Performs d p) (hm : d.Keeps m) (hc : d.calls c.calls)
    (hs : d.place span) (cls : Nat) (args : List Value) :
    d.Obeys i m (instantiate p c span cls args) := by
  refine .bind (obeys_newInstance hm cls) fun id k _ hk => .get ?_
  cases k.store.findMethod cls "__init__" with
  | some init => exact .bind (obeys_callFunction hp hk hc hs ..) fun _ _ _ hk' => .pure hk' _
  | none =>
    refine .bind (obeys_className hk cls) fun name _ _ hk₁ => ?_
    exact .bind (obeys_checkArity hk₁ hc hs ..) fun _ _ _ hk₂ => .pure hk₂ _

theorem obeys_loadScript (hp : Performs d p) (hm : d.Keeps m) (hc : d.calls c.calls)
    (hs : d.place span) (path : Value) : d.Obeys i m (loadScript p c span path) := by
  cases path with
  | string path =>
    have hk := hm.later (.note (.opened path)) rfl
    refine .step rfl (.note _) (.get ?_)
    cases hread : m.world.readFile path with
    | error fault =>
      exact .fail hk hc hs rfl
    | ok text =>
      -- What is read has just been noted as opened, and so may be run.
      refine obeys_after (hp.script (i := i) hk (d.loaded hm.stems hread)) (fun v k _ hk hx => ?_)
        (fun e k _ hk he hx => ?_)
      · dsimp only
        rw [hx]
        exact ⟨pure _, rfl, .pure hk _⟩
      · dsimp only
        rw [hx]
        match e with
        | .failed failure => exact ⟨fail c _ span, rfl, .throw hk (d.quoted path hc hs he)⟩
        | .ret _ | .exit .. | .exhausted => exact ⟨throw _, rfl, .throw hk he⟩
  | _ => exact .fail hm hc hs rfl

theorem obeys_native (hp : Performs d p) (hm : d.Keeps m) (hc : d.calls c.calls)
    (hs : d.place span) (b : Builtin) (args : List Value) :
    d.Obeys i m (native p c span b args) := by
  have hf := d.enter b.name hc hs
  refine .get ?_
  dsimp only
  split
  · refine .bind (obeys_display hm _) fun text _ _ hk => ?_
    exact .bind (obeys_write hk hf hs _) fun _ _ _ hk' => .pure hk' _
  · exact .bind (obeys_display hm _) fun _ _ _ hk => .pure hk _
  · exact .bind (obeys_display hm _) fun _ _ _ hk => .pure hk _
  · exact .bind (obeys_readLine hm hf hs) fun _ _ _ hk => .pure hk _
  · exact .get (obeys_readInteger hm hf hs _)
  · exact .bind (obeys_write hm hf hs _) fun _ _ _ hk => .pure hk _
  · exact .pure hm _
  · exact .pure hm _
  · exact .pure hm _
  · exact .pure hm _
  · exact obeys_append hm hf hs ..
  · exact obeys_pop hm hf hs ..
  · exact obeys_extend hm hf hs ..
  · exact obeys_len hm hf hs _
  · exact obeys_loadScript hp hm hf hs _
  · exact .bind (obeys_isInstance hm ..) fun _ _ _ hk => .pure hk _
  · exact obeys_hasAttr hm hf hs ..
  · exact obeys_getAttr hm hf hs ..
  · exact obeys_setAttr hm hf hs ..
  · exact .fail hm hc hs (isOwn_arityFault ..)

theorem obeys_call (hp : Performs d p) (hm : d.Keeps m) (hc : d.calls c.calls)
    (hs : d.place span) (callee : Value) (args : List Value) :
    d.Obeys i m (call p c span callee args) := by
  cases callee with
  | function id => exact obeys_callFunction hp hm hc hs ..
  | method id => exact obeys_callFunction hp hm hc hs ..
  | bound receiver method => exact obeys_callFunction hp hm hc hs ..
  | builtin b => exact obeys_native hp hm hc hs b args
  | cls id => exact obeys_instantiate hp hm hc hs id args
  | number | string | list | inst => exact .fail hm hc hs rfl

/-! ### Nodes -/

theorem obeys_evalAll (hp : Performs d p) (hm : d.Keeps m) (hc : d.calls c.calls)
    {nodes : List (Node Span)} (hn : ∀ node ∈ nodes, d.node m i node) :
    d.Obeys i m (evalAll p c nodes) := by
  induction nodes generalizing m with
  | nil => exact .pure hm _
  | cons node nodes ih =>
    refine .bind (hp.node hm (hn node List.mem_cons_self) hc) fun v k hg hk => ?_
    refine .bind (ih hk fun n hmem => d.later hg (hn n (List.mem_cons_of_mem _ hmem))) ?_
    exact fun _ _ _ hk' => .pure hk' _

theorem obeys_branchValue (hp : Performs d p) (hm : d.Keeps m) (hc : d.calls c.calls)
    {body : Body Span} (hb : d.node m i body.node) : d.Obeys i m (branchValue p c body) :=
  .bind (hp.node hm hb hc) fun _ _ _ hk => .pure hk _

theorem obeys_choose (hp : Performs d p) (hm : d.Keeps m) (hc : d.calls c.calls)
    {otherwise : Option (Body Span)} (ho : ∀ body ∈ otherwise, d.node m i body.node)
    {branches : List (Branch Span)}
    (hb : ∀ b ∈ branches, d.node m i b.condition ∧ d.node m i b.body.node) :
    d.Obeys i m (choose p c otherwise branches) := by
  induction branches generalizing m with
  | nil =>
    cases otherwise with
    | none => exact .pure hm _
    | some body => exact obeys_branchValue hp hm hc (ho body rfl)
  | cons branch branches ih =>
    obtain ⟨hcondition, hbody⟩ := hb branch List.mem_cons_self
    refine .bind (hp.node hm hcondition hc) fun v k hg hk => ?_
    split
    · exact obeys_branchValue hp hk hc (d.later hg hbody)
    · refine ih hk (fun body hmem => d.later hg (ho body hmem)) fun b hmem => ?_
      obtain ⟨h₁, h₂⟩ := hb b (List.mem_cons_of_mem _ hmem)
      exact ⟨d.later hg h₁, d.later hg h₂⟩

theorem obeys_classNamed (hm : d.Keeps m) (hc : d.calls c.calls) (hs : d.place span)
    (name : String) : d.Obeys i m (classNamed c name span) := by
  refine .bind (obeys_lookup hm c name) fun found _ _ hk => ?_
  match found with
  | some (.cls id) => exact .pure hk id
  | some (.number _) | some (.string _) | some (.list _) | some (.function _)
  | some (.method _) | some (.builtin _) | some (.bound ..) | some (.inst _) | none =>
    exact .fail hk hc hs rfl

theorem obeys_readAttribute (hm : d.Keeps m) (hc : d.calls c.calls) (hs : d.place span)
    (object : Value) (name : String) : d.Obeys i m (readAttribute c object name span) := by
  refine .get ?_
  dsimp only
  cases object with
  | cls id =>
    dsimp only
    cases m.store.findMethod id name with
    | some method => exact .pure hm _
    | none => exact .fail hm hc hs rfl
  | inst id =>
    dsimp only
    cases m.store.attribute? id name with
    | some v => exact .pure hm _
    | none => exact .fail hm hc hs rfl
  | _ => exact .fail hm hc hs rfl

theorem obeys_makeMethods (hm : d.Keeps m) {definitions : List (FuncDef Span)}
    (hd : ∀ f ∈ definitions, d.node m d.top f.body) (methods : Bindings Nat) :
    d.Obeys i m (makeMethods c definitions methods) := by
  induction definitions generalizing m methods with
  | nil => exact .pure hm _
  | cons definition definitions ih =>
    have hrest := fun f hf => hd f (List.mem_cons_of_mem definition hf)
    unfold makeMethods
    cases definition.name with
    | none => exact ih hm hrest methods
    | some name =>
      refine .bind (obeys_newFunction hm (hd definition List.mem_cons_self)) fun id k hg hk => ?_
      exact ih hk (fun f hf => d.later hg (hrest f hf)) _

theorem obeys_applyBinary (hm : d.Keeps m) (hc : d.calls c.calls) {left right : Node Span}
    (hj : d.place (left.tag.through right.tag)) (hr : d.place right.tag) (op : BinaryOp)
    (v w : Value) : d.Obeys i m (applyBinary c op left right v w) := by
  refine .get ?_
  split
  · exact obeys_settle hm _
  · exact .fail hm hc hj rfl
  · exact .fail hm hc hr rfl

theorem obeys_applyUnary (hm : d.Keeps m) (hc : d.calls c.calls) (hs : d.place span)
    (op : UnaryOp) (v : Value) : d.Obeys i m (applyUnary c op v span) := by
  unfold applyUnary
  split
  · exact .pure hm _
  · exact .fail hm hc hs rfl

theorem obeys_applyIndex (hm : d.Keeps m) (hc : d.calls c.calls) {target index : Node Span}
    (ht : d.place target.tag) (hi : d.place index.tag) (t j : Value) :
    d.Obeys i m (applyIndex c target index t j) := by
  refine .get ?_
  split
  · exact .pure hm _
  · exact .fail hm hc ht rfl
  · exact .fail hm hc hi rfl

theorem obeys_checkType (hm : d.Keeps m) (hc : d.calls c.calls) (hs : d.place span)
    (type : Option DeclaredType) (v : Value) : d.Obeys i m (checkType c type v span) := by
  cases type with
  | none => exact .pure hm ()
  | some wanted =>
    unfold checkType
    dsimp only
    split
    · exact .fail hm hc hs rfl
    · exact .pure hm _

/-- One case for each kind of node. -/
theorem obeys_evalNode (hp : Performs d p) (hm : d.Keeps m) (hc : d.calls c.calls)
    {tree : Node Span} (ht : d.node m i tree) (n : Nat) : d.Obeys i m (evalNode p n c tree) := by
  have hs := d.tag ht
  have hsub := d.child ht
  cases tree with
  | int | float | string => exact .pure hm _
  | list _ items =>
    exact .bind (obeys_evalAll hp hm hc hsub) fun _ _ _ hk => obeys_newList hk _
  | block _ items =>
    exact .bind (obeys_evalAll hp hm hc hsub) fun _ _ _ hk => obeys_newList hk _
  | name span name =>
    refine .bind (obeys_lookup hm c name) fun found _ _ hk => ?_
    cases found with
    | some v => exact .pure hk v
    | none => exact .fail hk hc hs rfl
  | declare span name type constant value =>
    refine .bind (hp.node hm (hsub value (by simp [Node.children])) hc) fun v k _ hk => ?_
    refine .bind (obeys_checkType hk hc hs type v) fun _ k' _ hk' => ?_
    exact .bind (obeys_define hk' hc hs ..) fun _ _ _ hk'' => .pure hk'' v
  | assign span name value =>
    refine .bind (hp.node hm (hsub value (by simp [Node.children])) hc) fun v k _ hk => ?_
    exact .bind (obeys_assign hk hc hs ..) fun _ _ _ hk' => .pure hk' v
  | binary _ op left right =>
    have hright := hsub right (by simp [Node.children])
    refine .bind (hp.node hm (hsub left (by simp [Node.children])) hc) fun l k hg hk => ?_
    refine .bind (hp.node hk (d.later hg hright) hc) fun r _ _ hk' => ?_
    exact obeys_applyBinary hk' hc (d.joined ht) (d.tag hright) ..
  | unary span op operand =>
    refine .bind (hp.node hm (hsub operand (by simp [Node.children])) hc) fun v _ _ hk => ?_
    exact obeys_applyUnary hk hc hs op v
  | cond _ branches otherwise =>
    refine obeys_choose hp hm hc (fun body hb => hsub _ ?_) fun b hb => ⟨hsub _ ?_, hsub _ ?_⟩
    · exact List.mem_append_right _ (List.mem_map_of_mem (Option.mem_toList.mpr hb))
    · exact List.mem_append_left _ (List.mem_flatMap.mpr ⟨b, hb, by simp⟩)
    · exact List.mem_append_left _ (List.mem_flatMap.mpr ⟨b, hb, by simp⟩)
  | forLoop span counter start stop step body =>
    have hstop := hsub stop (by simp [Node.children])
    have hstep : ∀ node ∈ step, d.node m i node :=
      fun node hn => hsub node (by simp_all [Node.children])
    have hbody := d.body ht body.node rfl
    refine .bind (obeys_loopNumber hp hm hc (hsub start (by simp [Node.children]))) ?_
    intro first k₁ hg₁ hk₁
    refine .bind (obeys_loopNumber hp hk₁ hc (d.later hg₁ hstop)) fun last k₂ hg₂ hk₂ => ?_
    have hg₂ := hg₁.trans hg₂
    refine .bind (obeys_loopStep hp hk₂ hc fun node hn => d.later hg₂ (hstep node hn)) ?_
    intro by_ k₃ hg₃ hk₃
    refine .bind (obeys_countFrom hp hk₃ hc hs (d.later (hg₂.trans hg₃) hbody) ..) ?_
    exact fun results _ _ hk => obeys_loopValue hk body results
  | whileLoop _ condition body =>
    have hcondition := hsub condition (by simp [Node.children])
    refine .bind (obeys_repeatWhile hp hm hc hcondition (d.body ht body.node rfl) ..) ?_
    exact fun results _ _ hk => obeys_loopValue hk body results
  | func span definition =>
    have hbody := d.definition ht definition (by simp [Node.definitions])
    refine .bind (obeys_newFunction hm hbody) fun id k _ hk => ?_
    dsimp only
    cases definition.name with
    | none => exact .pure hk _
    | some name => exact .bind (obeys_define hk hc hs ..) fun _ _ _ hk' => .pure hk' _
  | call span callee args =>
    have hargs : ∀ arg ∈ args, d.node m i arg := fun arg ha => hsub arg (List.mem_cons_of_mem _ ha)
    refine .bind (hp.node hm (hsub callee List.mem_cons_self) hc) fun f k hg hk => ?_
    refine .bind (obeys_evalAll hp hk hc fun arg ha => d.later hg (hargs arg ha)) ?_
    exact fun vs _ _ hk' => obeys_call hp hk' hc hs f vs
  | index _ target index =>
    have htarget := hsub target (by simp [Node.children])
    have hindex := hsub index (by simp [Node.children])
    refine .bind (hp.node hm htarget hc) fun t k hg hk => ?_
    refine .bind (hp.node hk (d.later hg hindex) hc) fun j _ _ hk' => ?_
    exact obeys_applyIndex hk' hc (d.tag htarget) (d.tag hindex) t j
  | ret _ value =>
    cases value with
    | none => exact .throw hm trivial
    | some value =>
      refine .bind (hp.node hm (hsub value (by simp [Node.children])) hc) ?_
      exact fun v _ _ hk => .throw hk trivial
  | exit span exit => exact .throw hm (d.exits ht)
  | cls span name parent methods =>
    have hrest : ∀ (parent : Option Nat) k, m.Grows k → d.Keeps k → d.Obeys i k (do
        let methods ← makeMethods c methods .empty
        let id ← newClass ⟨name, methods, parent⟩
        define c name (Value.cls id) false span
        return Value.cls id) := by
      intro parent k hg hk
      have hmethods := fun f hf => d.later hg (d.definition ht f hf)
      refine .bind (obeys_makeMethods hk hmethods .empty) fun _ k₁ _ hk₁ => ?_
      refine .bind (obeys_newClass hk₁ _) fun id k₂ _ hk₂ => ?_
      exact .bind (obeys_define hk₂ hc hs ..) fun _ _ _ hk₃ => .pure hk₃ _
    cases parent with
    | none => exact hrest none m .refl hm
    | some parent =>
      exact .bind (obeys_classNamed hm hc hs parent) fun id k hg hk => hrest (some id) k hg hk
  | new span cls args =>
    refine .bind (obeys_classNamed hm hc hs cls) fun id k hg hk => ?_
    refine .bind (obeys_evalAll hp hk hc fun arg ha => d.later hg (hsub arg ha)) ?_
    exact fun vs _ _ hk' => obeys_instantiate hp hk' hc hs id vs
  | getAttr span object name =>
    refine .bind (hp.node hm (hsub object (by simp [Node.children])) hc) fun o _ _ hk => ?_
    exact obeys_readAttribute hk hc hs o name
  | setAttr _ object name value =>
    have hobject := hsub object (by simp [Node.children])
    have hvalue := hsub value (by simp [Node.children])
    refine .bind (hp.node hm hobject hc) fun o k hg hk => ?_
    refine .bind (hp.node hk (d.later hg hvalue) hc) fun v _ _ hk' => ?_
    cases o with
    | inst id => exact .bind (obeys_setAttribute hk' id name v) fun _ _ _ hk'' => .pure hk'' v
    | _ => exact .fail hk' hc (d.tag hobject) rfl
  | methodCall span object name args =>
    have hargs : ∀ arg ∈ args, d.node m i arg := fun arg ha => hsub arg (List.mem_cons_of_mem _ ha)
    refine .bind (hp.node hm (hsub object List.mem_cons_self) hc) fun o k hg hk => ?_
    refine .bind (obeys_readAttribute hk hc hs o name) fun f k₁ hg₁ hk₁ => ?_
    refine .bind (obeys_evalAll hp hk₁ hc fun arg ha => d.later (hg.trans hg₁) (hargs arg ha)) ?_
    exact fun vs _ _ hk₂ => obeys_call hp hk₂ hc hs f vs

/-! ### Scripts -/

theorem obeys_callMain (hp : Performs d p) (hm : d.Keeps m) (hc : d.calls c.calls)
    (source : Source) (inherited : Option Value) :
    d.Obeys i m (callMain p c source inherited) := by
  have hs := d.start source
  refine .bind (obeys_lookup hm c "main") fun found k _ hk => ?_
  split
  · exact .fail hk hc hs rfl
  · exact obeys_call hp hk hc hs ..
  · refine .get ?_
    split
    · exact .fail hk hc hs rfl
    · exact obeys_call hp hk hc hs ..
    · exact .throw hk trivial

/-- A loop exit that leaves the top level of a script becomes a failure. -/
theorem obeys_runScript (hp : Performs d p) (hm : d.Keeps m) {source : Source}
    (hsource : d.source m source) : d.Obeys i m (runScript p source) := by
  unfold runScript
  cases hparse : source.parse with
  | error failure => exact .throw hm (d.refused hparse)
  | ok program =>
    have htree := d.parsed hsource hparse
    refine .get (.bind (obeys_lookup hm _ "main") fun inherited k hg hk => ?_)
    have hx := hp.node (c := topLevel m.globals) hk (d.later hg htree) d.program
    refine obeys_after hx (fun v k _ hk hx => ?_) (fun e k _ hk he hx => ?_)
    · rw [hx]
      dsimp only
      split
      · exact ⟨_, rfl, obeys_callMain hp hk d.program source inherited⟩
      · exact ⟨pure v, rfl, .pure hk v⟩
    · rw [hx]
      match e with
      | .ret v => exact ⟨pure v, rfl, .pure hk v⟩
      | .exit exit span => exact ⟨fail _ _ span, rfl, .throw hk (d.escaped exit d.program he)⟩
      | .failed _ | .exhausted => exact ⟨throw _, rfl, .throw hk he⟩

end Nested

end Eval

namespace Discipline

variable {d : Discipline} {i : d.Mode} {m : Machine}

/-- Every number of steps gives a performer that obeys. -/
theorem performs (d : Discipline) (n : Nat) : Eval.Performs d (Task.perform n) := by
  induction n with
  | zero => exact ⟨fun hm _ _ => .throw hm trivial, fun hm _ => .throw hm trivial⟩
  | succ n ih =>
    exact ⟨fun hm ht hc => Eval.obeys_evalNode ih hm hc ht n,
      fun hm hs => Eval.obeys_runScript ih hm hs⟩

/-- **A run of a permitted source keeps the discipline**, and if it fails, it fails as
it may. -/
theorem run_obeys (n : Nat) (source : Source) (hm : d.Keeps m) (hs : d.source m source) :
    d.Keeps (m.run n source).2 ∧
      ∀ f, (m.run n source).1 = .failure f → d.failure (m.run n source).2 f := by
  have hrun := (performs d n).script (i := d.top) hm hs
  unfold Obeys at hrun
  unfold Machine.run
  cases hr : Task.perform n (.script source) m with
  | ok v k =>
    rw [hr] at hrun
    exact ⟨hrun.2, fun f hf => Outcome.noConfusion hf⟩
  | error signal k =>
    rw [hr] at hrun
    obtain ⟨_, hkeeps, hends⟩ := hrun
    match signal with
    | .failed failure => exact ⟨hkeeps, fun f hf => Outcome.failure.inj hf ▸ hends⟩
    | .ret _ | .exit .. | .exhausted => exact ⟨hkeeps, fun f hf => Outcome.noConfusion hf⟩

end Discipline

end Script
