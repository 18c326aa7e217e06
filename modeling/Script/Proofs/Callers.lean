import Script.Eval.Perform

/-! The calls that are active when a node is evaluated matter for tracebacks only.

`Matches` compares two ends of a computation: the same value or the same reason to
stop, and the same machine; two failures may differ in their tracebacks. Evaluations
that match go on to match (`Same.bind`), so it is enough to see that every function
of the evaluator uses the active calls in its failures, and hands them on, and does
nothing else with them.

Main statement, `context_is_diagnostic`: a node does the same in every context with
the same scope, and a function does the same whoever calls it. -/
namespace Script

/-- Two reasons to stop that differ in a traceback at most. -/
inductive Signal.Matches : Signal → Signal → Prop where
  | ret (v : Value) : Matches (.ret v) (.ret v)
  | exit (exit : LoopExit) (span : Span) : Matches (.exit exit span) (.exit exit span)
  | failed {f g : Failure} : f.fault = g.fault → f.span = g.span →
      Matches (.failed f) (.failed g)
  | exhausted : Matches .exhausted .exhausted

theorem Signal.Matches.refl (signal : Signal) : signal.Matches signal := by
  cases signal with
  | ret v => exact .ret v
  | exit exit span => exact .exit exit span
  | failed f => exact .failed rfl rfl
  | exhausted => exact .exhausted

namespace Eval

/-- Two ends that differ in a traceback at most. -/
inductive Matches : EStateM.Result Signal Machine α → EStateM.Result Signal Machine α → Prop where
  | ok (a : α) (m : Machine) : Matches (.ok a m) (.ok a m)
  | error {s t : Signal} (m : Machine) : s.Matches t → Matches (.error s m) (.error t m)

/-- Two computations that end the same way from every machine. -/
structure Same (x y : Eval α) : Prop where
  ends : ∀ m, Matches (x m) (y m)

variable {α β : Type} {p : Performer} {span : Span}

theorem Same.refl (x : Eval α) : Same x x := by
  constructor
  intro m
  cases x m with
  | ok a k => exact .ok a k
  | error s k => exact .error k (.refl s)

theorem Same.bind {x y : Eval α} {f g : α → Eval β} (hx : Same x y)
    (hf : ∀ a, Same (f a) (g a)) : Same (x >>= f) (y >>= g) := by
  constructor
  intro m
  show Matches (EStateM.bind x f m) (EStateM.bind y g m)
  unfold EStateM.bind
  have h := hx.ends m
  generalize x m = r at h ⊢
  generalize y m = r' at h ⊢
  cases h with
  | ok a k => exact (hf a).ends k
  | error k hs => exact .error k hs

/-- What is done with the same value goes on the same way. -/
theorem Same.after (x : Eval α) {f g : α → Eval β} (hf : ∀ a, Same (f a) (g a)) :
    Same (x >>= f) (x >>= g) :=
  .bind (.refl x) hf

/-- What is done behind two computations that end the same way. -/
theorem Same.before {x y : Eval α} (hx : Same x y) (f : α → Eval β) :
    Same (x >>= f) (y >>= f) :=
  .bind hx fun a => .refl (f a)

/-- A failure is the same in every context. -/
theorem same_fail (c c' : Context) (fault : Fault) (span : Span) :
    Same (fail c fault span : Eval α) (fail c' fault span) :=
  ⟨fun m => .error m (.failed rfl rfl)⟩

/-! ### Contexts of one scope

From here on two contexts `⟨s, l⟩` and `⟨s, l'⟩` share their scope. -/

variable {s : ScopeId} {l l' : List Call}

theorem same_bindAt (c c' : Context) (scope : ScopeId) (name : String) (value : Value)
    (constant : Bool) :
    Same (bindAt c scope name value constant span) (bindAt c' scope name value constant span) := by
  refine .after _ fun m => ?_
  split
  · exact .before (same_fail ..) _
  · exact .refl _

theorem same_define (name : String) (value : Value) (constant : Bool) :
    Same (define ⟨s, l⟩ name value constant span) (define ⟨s, l'⟩ name value constant span) :=
  same_bindAt ..

theorem same_assign (name : String) (value : Value) :
    Same (assign ⟨s, l⟩ name value span) (assign ⟨s, l'⟩ name value span) :=
  .after _ fun _ => same_bindAt ..

/-! ### Builtins -/

section Native

variable (c c' : Context)

theorem same_write (text : String) : Same (write c span text) (write c' span text) := by
  refine .after _ fun fault => ?_
  cases fault with
  | none => exact .refl _
  | some fault => exact same_fail ..

theorem same_readLine : Same (readLine c span) (readLine c' span) := by
  refine .after _ fun answer => ?_
  match answer with
  | .error fault => exact same_fail ..
  | .ok none | .ok (some _) => exact .refl _

theorem same_readInteger (n : Nat) : Same (readInteger c span n) (readInteger c' span n) := by
  induction n with
  | zero => exact same_fail ..
  | succ n ih =>
    refine .bind (same_readLine c c') fun answer => ?_
    cases answer with
    | none => exact same_fail ..
    | some line =>
      dsimp only
      cases integerLine? line with
      | some i => exact .refl _
      | none => exact .bind (same_write ..) fun _ => ih

theorem same_append (target value : Value) :
    Same (append c span target value) (append c' span target value) := by
  cases target with
  | list id => exact .refl _
  | _ => exact same_fail ..

theorem same_pop (target index : Value) :
    Same (pop c span target index) (pop c' span target index) := by
  cases target with
  | list id =>
    cases index with
    | number n =>
      refine .after _ fun _ => .after _ fun m => ?_
      dsimp only
      cases placeOf (m.store.elements id).size n (.listBounds .removal) with
      | error fault => exact same_fail ..
      | ok place => exact .refl _
    | _ => exact same_fail ..
  | _ => exact same_fail ..

theorem same_extend (target source : Value) :
    Same (extend c span target source) (extend c' span target source) := by
  cases target with
  | list id =>
    cases source with
    | list other => exact .refl _
    | _ => exact same_fail ..
  | _ => exact same_fail ..

theorem same_len (v : Value) : Same (len c span v) (len c' span v) := by
  cases v with
  | list id => exact .refl _
  | string s => exact .refl _
  | _ => exact same_fail ..

theorem same_attributeName (v : Value) :
    Same (attributeName c span v) (attributeName c' span v) := by
  cases v with
  | string name => exact .refl _
  | _ => exact same_fail ..

theorem same_hasAttr (v attr : Value) : Same (hasAttr c span v attr) (hasAttr c' span v attr) :=
  .before (same_attributeName c c' attr) _

theorem same_getAttr (v attr default : Value) :
    Same (getAttr c span v attr default) (getAttr c' span v attr default) := by
  refine .bind (same_attributeName c c' attr) fun name => ?_
  cases v with
  | inst id => exact .refl _
  | _ => exact same_fail ..

theorem same_setAttr (v attr value : Value) :
    Same (setAttr c span v attr value) (setAttr c' span v attr value) := by
  refine .bind (same_attributeName c c' attr) fun name => ?_
  cases v with
  | inst id => exact .refl _
  | _ => exact same_fail ..

/-- A script is performed in a context of its own, so even the report that is quoted
when it fails is the same. -/
theorem same_loadScript (path : Value) :
    Same (loadScript p c span path) (loadScript p c' span path) := by
  cases path with
  | string path =>
    refine .after _ fun _ => .after _ fun m => ?_
    cases m.world.readFile path with
    | error fault => exact same_fail ..
    | ok text =>
      constructor
      intro k
      dsimp only
      cases p (.script ⟨path, text⟩) k with
      | ok v k => exact .ok _ k
      | error e k =>
        cases e with
        | failed failure => exact (same_fail c c' _ span).ends k
        | ret | exit | exhausted => exact .error k (.refl _)
  | _ => exact same_fail ..

theorem same_checkArity (callee : Callee) (wanted given : Nat) :
    Same (checkArity c callee wanted given span) (checkArity c' callee wanted given span) := by
  unfold checkArity
  split
  · exact same_fail ..
  · exact .refl _

theorem same_native (b : Builtin) (args : List Value) :
    Same (native p c span b args) (native p c' span b args) := by
  refine .after _ fun m => ?_
  dsimp only
  split
  · exact .after _ fun text => .before (same_write ..) _
  · exact .refl _
  · exact .refl _
  · exact .before (same_readLine ..) _
  · exact .after _ fun _ => same_readInteger ..
  · exact .before (same_write ..) _
  · exact .refl _
  · exact .refl _
  · exact .refl _
  · exact .refl _
  · exact same_append ..
  · exact same_pop ..
  · exact same_extend ..
  · exact same_len ..
  · exact same_loadScript ..
  · exact .refl _
  · exact same_hasAttr ..
  · exact same_getAttr ..
  · exact same_setAttr ..
  · exact same_fail ..

end Native

/-! ### Calls -/

/-- A performer to whom the calls of a context are for tracebacks only. -/
def Oblivious (p : Performer) : Prop :=
  ∀ tree s l l', Same (p (.node tree ⟨s, l⟩)) (p (.node tree ⟨s, l'⟩))

theorem same_bindParams (c c' : Context) (callee : Callee) (params : List (Param Span))
    (args : List Value) :
    Same (bindParams c ⟨s, l⟩ callee span params args)
      (bindParams c' ⟨s, l'⟩ callee span params args) := by
  induction params generalizing args with
  | nil => exact .refl _
  | cons param params ih =>
    cases args with
    | nil => exact .refl _
    | cons v vs =>
      unfold bindParams
      dsimp only
      split
      · exact .bind (same_fail ..) fun _ => .bind (same_define ..) fun _ => ih vs
      · exact .bind (same_define ..) fun _ => ih vs

theorem same_runBody (hp : Oblivious p) (definition : FuncDef Span) :
    Same (runBody p ⟨s, l⟩ definition) (runBody p ⟨s, l'⟩ definition) := by
  constructor
  intro m
  unfold runBody
  have h := (hp definition.body s l l').ends m
  generalize p (.node definition.body ⟨s, l⟩) m = r at h ⊢
  generalize p (.node definition.body ⟨s, l'⟩) m = r' at h ⊢
  cases h with
  | ok v k => exact .ok _ k
  | error k hs =>
    cases hs with
    | ret v => exact .ok v k
    | exit exit span => exact (same_fail _ _ _ span).ends k
    | failed hfault hspan => exact .error k (.failed hfault hspan)
    | exhausted => exact .error k .exhausted

theorem same_callDefined (hp : Oblivious p) (c c' : Context) (f : Function) (isMethod : Bool)
    (args : List Value) :
    Same (callDefined p c span f isMethod args) (callDefined p c' span f isMethod args) := by
  refine .bind (same_checkArity ..) fun _ => .after _ fun scope => ?_
  dsimp only
  split
  · refine .bind (same_define ..) fun _ => .bind (same_bindParams ..) fun _ => ?_
    exact same_runBody hp f.definition
  · exact .bind (same_bindParams ..) fun _ => same_runBody hp f.definition

theorem same_callFunction (hp : Oblivious p) (c c' : Context) (id : Nat) (isMethod : Bool)
    (args : List Value) :
    Same (callFunction p c span id isMethod args) (callFunction p c' span id isMethod args) := by
  refine .after _ fun m => ?_
  cases m.store.function? id with
  | none => exact same_fail ..
  | some f => exact same_callDefined hp c c' f isMethod args

theorem same_instantiate (hp : Oblivious p) (c c' : Context) (cls : Nat) (args : List Value) :
    Same (instantiate p c span cls args) (instantiate p c' span cls args) := by
  refine .after _ fun id => .after _ fun m => ?_
  dsimp only
  cases m.store.findMethod cls "__init__" with
  | some init => exact .before (same_callFunction hp ..) _
  | none => exact .after _ fun name => .before (same_checkArity ..) _

/-- Whoever calls, and whatever names he has, a call does the same. -/
theorem same_call (hp : Oblivious p) (c c' : Context) (callee : Value) (args : List Value) :
    Same (call p c span callee args) (call p c' span callee args) := by
  cases callee with
  | function id => exact same_callFunction hp ..
  | method id => exact same_callFunction hp ..
  | bound receiver method => exact same_callFunction hp ..
  | builtin b => exact same_native c c' b args
  | cls id => exact same_instantiate hp c c' id args
  | number | string | list | inst => exact same_fail ..

/-! ### Loops -/

theorem same_round (hp : Oblivious p) (body : Body Span) :
    Same (round p ⟨s, l⟩ body) (round p ⟨s, l'⟩ body) := by
  constructor
  intro m
  unfold round
  have h := (hp body.node s l l').ends m
  generalize p (.node body.node ⟨s, l⟩) m = r at h ⊢
  generalize p (.node body.node ⟨s, l'⟩) m = r' at h ⊢
  cases h with
  | ok v k => exact .ok _ k
  | error k hs =>
    cases hs with
    | ret v => exact .error k (.ret v)
    | exit exit span => cases exit <;> exact .ok _ k
    | failed hfault hspan => exact .error k (.failed hfault hspan)
    | exhausted => exact .error k .exhausted

theorem same_countFrom (hp : Oblivious p) (counter : String) (stop step : Number)
    (body : Body Span) (n : Nat) (i : Number) (results : Array Value) :
    Same (countFrom p ⟨s, l⟩ span counter stop step body n i results)
      (countFrom p ⟨s, l'⟩ span counter stop step body n i results) := by
  induction n generalizing i results with
  | zero => exact .refl _
  | succ n ih =>
    unfold countFrom
    split
    · refine .bind (same_define ..) fun _ => .bind (same_round hp body) fun r => ?_
      cases r with
      | value v => exact ih _ _
      | continued => exact ih _ _
      | broken => exact .refl _
    · exact .refl _

theorem same_repeatWhile (hp : Oblivious p) (condition : Node Span) (body : Body Span) (n : Nat)
    (results : Array Value) :
    Same (repeatWhile p ⟨s, l⟩ condition body n results)
      (repeatWhile p ⟨s, l'⟩ condition body n results) := by
  induction n generalizing results with
  | zero => exact .refl _
  | succ n ih =>
    refine .bind (hp ..) fun v => ?_
    split
    · refine .bind (same_round hp body) fun r => ?_
      cases r with
      | value v => exact ih _
      | continued => exact ih _
      | broken => exact .refl _
    · exact .refl _

theorem same_loopNumber (hp : Oblivious p) (node : Node Span) :
    Same (loopNumber p ⟨s, l⟩ node) (loopNumber p ⟨s, l'⟩ node) := by
  refine .bind (hp ..) fun v => ?_
  cases v with
  | number n => exact .refl _
  | _ => exact same_fail ..

theorem same_loopStep (hp : Oblivious p) (node : Option (Node Span)) :
    Same (loopStep p ⟨s, l⟩ node) (loopStep p ⟨s, l'⟩ node) := by
  cases node with
  | none => exact .refl _
  | some node =>
    refine .bind (same_loopNumber hp node) fun step => ?_
    dsimp only
    split
    · exact .before (same_fail ..) _
    · exact .refl _

/-! ### Nodes -/

theorem same_evalAll (hp : Oblivious p) (nodes : List (Node Span)) :
    Same (evalAll p ⟨s, l⟩ nodes) (evalAll p ⟨s, l'⟩ nodes) := by
  induction nodes with
  | nil => exact .refl _
  | cons node nodes ih => exact .bind (hp ..) fun v => .before ih _

theorem same_branchValue (hp : Oblivious p) (body : Body Span) :
    Same (branchValue p ⟨s, l⟩ body) (branchValue p ⟨s, l'⟩ body) :=
  .before (hp ..) _

theorem same_choose (hp : Oblivious p) (otherwise : Option (Body Span))
    (branches : List (Branch Span)) :
    Same (choose p ⟨s, l⟩ otherwise branches) (choose p ⟨s, l'⟩ otherwise branches) := by
  induction branches with
  | nil =>
    cases otherwise with
    | none => exact .refl _
    | some body => exact same_branchValue hp body
  | cons branch branches ih =>
    refine .bind (hp ..) fun v => ?_
    split
    · exact same_branchValue hp branch.body
    · exact ih

theorem same_classNamed (name : String) :
    Same (classNamed ⟨s, l⟩ name span) (classNamed ⟨s, l'⟩ name span) := by
  refine .after (lookup ⟨s, l⟩ name) fun found => ?_
  match found with
  | some (.cls id) => exact .refl _
  | some (.number _) | some (.string _) | some (.list _) | some (.function _)
  | some (.method _) | some (.builtin _) | some (.bound ..) | some (.inst _) | none =>
    exact same_fail ..

theorem same_readAttribute (c c' : Context) (object : Value) (name : String) :
    Same (readAttribute c object name span) (readAttribute c' object name span) := by
  refine .after _ fun m => ?_
  dsimp only
  cases object with
  | cls id =>
    dsimp only
    cases m.store.findMethod id name with
    | some method => exact .refl _
    | none => exact same_fail ..
  | inst id =>
    dsimp only
    cases m.store.attribute? id name with
    | some v => exact .refl _
    | none => exact same_fail ..
  | _ => exact same_fail ..

theorem makeMethods_eq (l l' : List Call) (definitions : List (FuncDef Span))
    (methods : Bindings Nat) :
    makeMethods ⟨s, l⟩ definitions methods = makeMethods ⟨s, l'⟩ definitions methods := by
  induction definitions generalizing methods with
  | nil => rfl
  | cons definition definitions ih =>
    unfold makeMethods
    cases definition.name with
    | none => exact ih methods
    | some name => simp only [ih]

theorem same_applyBinary (c c' : Context) (op : BinaryOp) (left right : Node Span) (v w : Value) :
    Same (applyBinary c op left right v w) (applyBinary c' op left right v w) := by
  refine .after _ fun m => ?_
  split
  · exact .refl _
  · exact same_fail ..
  · exact same_fail ..

theorem same_applyUnary (c c' : Context) (op : UnaryOp) (v : Value) :
    Same (applyUnary c op v span) (applyUnary c' op v span) := by
  unfold applyUnary
  split
  · exact .refl _
  · exact same_fail ..

theorem same_applyIndex (c c' : Context) (target index : Node Span) (t i : Value) :
    Same (applyIndex c target index t i) (applyIndex c' target index t i) := by
  refine .after _ fun m => ?_
  split
  · exact .refl _
  · exact same_fail ..
  · exact same_fail ..

theorem same_checkType (c c' : Context) (type : Option DeclaredType) (v : Value) :
    Same (checkType c type v span) (checkType c' type v span) := by
  cases type with
  | none => exact .refl _
  | some wanted =>
    unfold checkType
    dsimp only
    split
    · exact same_fail ..
    · exact .refl _

/-- One case for each kind of node. -/
theorem same_evalNode (hp : Oblivious p) (n : Nat) (tree : Node Span) :
    Same (evalNode p n ⟨s, l⟩ tree) (evalNode p n ⟨s, l'⟩ tree) := by
  cases tree with
  | int | float | string => exact .refl _
  | list _ items => exact .before (same_evalAll hp items) _
  | block _ items => exact .before (same_evalAll hp items) _
  | name span name =>
    refine .after (lookup ⟨s, l⟩ name) fun found => ?_
    cases found with
    | some v => exact .refl _
    | none => exact same_fail ..
  | declare span name type constant value =>
    refine .bind (hp ..) fun v => .bind (same_checkType ..) fun _ => ?_
    exact .before (same_define ..) _
  | assign span name value => exact .bind (hp ..) fun v => .before (same_assign ..) _
  | binary _ op left right =>
    exact .bind (hp ..) fun v => .bind (hp ..) fun w => same_applyBinary ..
  | unary span op operand => exact .bind (hp ..) fun v => same_applyUnary ..
  | cond _ branches otherwise => exact same_choose hp otherwise branches
  | forLoop span counter start stop step body =>
    refine .bind (same_loopNumber hp start) fun first => ?_
    refine .bind (same_loopNumber hp stop) fun last => ?_
    refine .bind (same_loopStep hp step) fun by_ => ?_
    exact .before (same_countFrom hp ..) _
  | whileLoop _ condition body => exact .before (same_repeatWhile hp ..) _
  | func span definition =>
    refine .after (newFunction ⟨definition, s⟩) fun id => ?_
    dsimp only
    cases definition.name with
    | none => exact .refl _
    | some name => exact .before (same_define ..) _
  | call span callee args =>
    refine .bind (hp ..) fun f => .bind (same_evalAll hp args) fun vs => ?_
    exact same_call hp _ _ f vs
  | index _ target index =>
    exact .bind (hp ..) fun t => .bind (hp ..) fun i => same_applyIndex ..
  | ret _ value =>
    cases value with
    | none => exact .refl _
    | some value => exact .before (hp ..) _
  | exit span exit => exact .refl _
  | cls span name parent methods =>
    have hrest : ∀ parent : Option Nat, Same (do
        let methods ← makeMethods ⟨s, l⟩ methods .empty
        let id ← newClass ⟨name, methods, parent⟩
        define ⟨s, l⟩ name (Value.cls id) false span
        return Value.cls id) (do
        let methods ← makeMethods ⟨s, l'⟩ methods .empty
        let id ← newClass ⟨name, methods, parent⟩
        define ⟨s, l'⟩ name (Value.cls id) false span
        return Value.cls id) := by
      intro parent
      rw [makeMethods_eq l l']
      exact .after _ fun methods => .after _ fun id => .before (same_define ..) _
    cases parent with
    | none => exact hrest none
    | some parent => exact .bind (same_classNamed parent) fun id => hrest (some id)
  | new span cls args =>
    refine .bind (same_classNamed cls) fun id => .bind (same_evalAll hp args) fun vs => ?_
    exact same_instantiate hp _ _ id vs
  | getAttr span object name => exact .bind (hp ..) fun o => same_readAttribute ..
  | setAttr _ object name value =>
    refine .bind (hp ..) fun o => .bind (hp ..) fun v => ?_
    cases o with
    | inst id => exact .refl _
    | _ => exact same_fail ..
  | methodCall span object name args =>
    refine .bind (hp ..) fun o => .bind (same_readAttribute ..) fun f => ?_
    exact .bind (same_evalAll hp args) fun vs => same_call hp _ _ f vs

/-- The evaluator uses the active calls for tracebacks only. -/
theorem oblivious_perform (n : Nat) : Oblivious (Task.perform n) := by
  induction n with
  | zero => exact fun _ _ _ _ => .refl _
  | succ n ih => exact fun tree s l l' => same_evalNode ih n tree

/-! ### Any number of steps -/

/-- A computation that comes to no end, whatever number of steps it is given. -/
def Diverges (x : Nat → Eval α) (m : Machine) : Prop := ∀ n, ∃ k, x n m = .error .exhausted k

theorem Matches.exhausted_iff {x y : EStateM.Result Signal Machine α} (h : Matches x y) :
    (∃ k, x = .error .exhausted k) ↔ ∃ k, y = .error .exhausted k := by
  cases h with
  | ok a m => exact Iff.rfl
  | error m hs => cases hs <;> simp

theorem diverges_iff {x y : Nat → Eval α} (h : ∀ n, Same (x n) (y n)) (m : Machine) :
    Diverges x m ↔ Diverges y m :=
  forall_congr' fun n => ((h n).ends m).exhausted_iff

/-- **The calling context is purely diagnostic.** A node that is evaluated in two
contexts of the same scope, whatever calls are active in them, comes to no end in both,
or ends the same way within any number of steps: in the same value or with the same
signal, and leaves the same machine; of two failures only the tracebacks may differ.
So does a value that is called with the same arguments at the same place by two callers,
whatever their scopes are. -/
theorem context_is_diagnostic (m : Machine) :
    (∀ (tree : Node Span) (scope : ScopeId) (calls calls' : List Call),
      (Diverges (fun n => Task.perform n (.node tree ⟨scope, calls⟩)) m ↔
        Diverges (fun n => Task.perform n (.node tree ⟨scope, calls'⟩)) m) ∧
      ∀ n, Matches (Task.perform n (.node tree ⟨scope, calls⟩) m)
        (Task.perform n (.node tree ⟨scope, calls'⟩) m)) ∧
    ∀ (callee : Value) (args : List Value) (span : Span) (caller caller' : Context),
      (Diverges (fun n => call (Task.perform n) caller span callee args) m ↔
        Diverges (fun n => call (Task.perform n) caller' span callee args) m) ∧
      ∀ n, Matches (call (Task.perform n) caller span callee args m)
        (call (Task.perform n) caller' span callee args m) := by
  constructor
  · intro tree scope calls calls'
    have h := fun n => oblivious_perform n tree scope calls calls'
    exact ⟨diverges_iff h m, fun n => (h n).ends m⟩
  · intro callee args span caller caller'
    have h : ∀ n, Same (call (Task.perform n) caller span callee args)
        (call (Task.perform n) caller' span callee args) :=
      fun n => same_call (oblivious_perform n) caller caller' callee args
    exact ⟨diverges_iff h m, fun n => (h n).ends m⟩

end Eval

end Script
