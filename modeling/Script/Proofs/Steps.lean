import Script.Proofs.Callers
import Script.Session

/-! The number of steps that a run is given decides whether it comes to an end, and
nothing else.

`Within x y` compares a computation with one that may go on for longer: wherever the
first comes to an end, the second ends the same way and leaves the same machine.
Computations compare so if their parts do (`Within.bind`), and no handler of the
evaluator takes running out of steps for anything else. So the evaluator is monotone in
how nested tasks are performed and in the rounds that its loops may take
(`within_evalNode`, `within_runScript`), and an induction on the steps gives
`within_perform`.

Main statements: `Task.perform_of_le`, with which `Task.EndsIn` says how a task ends and
speaks of no number of steps (`Task.EndsIn.unique`, `Task.diverges_iff_not_endsIn`), and
for whole programs `Machine.run_of_le` and `Machine.run_agrees`. -/
namespace Script

namespace Eval

/-- Wherever `x` comes to an end, `y` ends the same way. -/
structure Within (x y : Eval α) : Prop where
  ends : ∀ m, (∃ k, x m = .error .exhausted k) ∨ y m = x m

/-- Every task that `p` performs to an end, `q` performs in the same way. -/
def Performer.Within (p q : Performer) : Prop := ∀ t, Eval.Within (p t) (q t)

variable {α β : Type} {p q : Performer} {c : Context} {span : Span}

theorem Within.refl (x : Eval α) : Within x x := ⟨fun _ => .inr rfl⟩

theorem Within.bind {x y : Eval α} {f g : α → Eval β} (hx : Within x y)
    (hf : ∀ a, Within (f a) (g a)) : Within (x >>= f) (y >>= g) := by
  constructor
  intro m
  show (∃ k, EStateM.bind x f m = _) ∨ EStateM.bind y g m = EStateM.bind x f m
  unfold EStateM.bind
  obtain ⟨k, hk⟩ | heq := hx.ends m
  · exact .inl ⟨k, by rw [hk]⟩
  · rw [heq]
    cases x m with
    | ok a k => exact (hf a).ends k
    | error s k => exact .inr rfl

/-- What is done with the same value. -/
theorem Within.after (x : Eval α) {f g : α → Eval β} (hf : ∀ a, Within (f a) (g a)) :
    Within (x >>= f) (x >>= g) :=
  .bind (.refl x) hf

/-- What is done behind both computations. -/
theorem Within.before {x y : Eval α} (hx : Within x y) (f : α → Eval β) :
    Within (x >>= f) (y >>= f) :=
  .bind hx fun a => .refl (f a)

/-- Running out at once promises nothing. -/
theorem Within.exhausted (y : Eval α) : Within (throw .exhausted) y :=
  ⟨fun m => .inl ⟨m, rfl⟩⟩

/-! ### Loops -/

theorem within_round (hp : Performer.Within p q) (body : Body Span) :
    Within (round p c body) (round q c body) := by
  constructor
  intro m
  unfold round
  obtain ⟨k, hk⟩ | heq := (hp (.node body.node c)).ends m
  · exact .inl ⟨k, by rw [hk]⟩
  · exact .inr (by rw [heq])

theorem within_countFrom (hp : Performer.Within p q) (counter : String) (stop step : Number)
    (body : Body Span) {n n' : Nat} (h : n ≤ n') (i : Number) (results : Array Value) :
    Within (countFrom p c span counter stop step body n i results)
      (countFrom q c span counter stop step body n' i results) := by
  induction n generalizing n' i results with
  | zero => exact .exhausted _
  | succ n ih =>
    obtain ⟨n', rfl⟩ := Nat.exists_eq_add_one_of_ne_zero (Nat.ne_zero_of_lt h)
    have hn : n ≤ n' := Nat.le_of_succ_le_succ h
    unfold countFrom
    split
    · refine .after _ fun _ => .bind (within_round hp body) fun r => ?_
      cases r with
      | value v => exact ih hn _ _
      | continued => exact ih hn _ _
      | broken => exact .refl _
    · exact .refl _

theorem within_repeatWhile (hp : Performer.Within p q) (condition : Node Span) (body : Body Span)
    {n n' : Nat} (h : n ≤ n') (results : Array Value) :
    Within (repeatWhile p c condition body n results)
      (repeatWhile q c condition body n' results) := by
  induction n generalizing n' results with
  | zero => exact .exhausted _
  | succ n ih =>
    obtain ⟨n', rfl⟩ := Nat.exists_eq_add_one_of_ne_zero (Nat.ne_zero_of_lt h)
    have hn : n ≤ n' := Nat.le_of_succ_le_succ h
    refine .bind (hp _) fun v => ?_
    split
    · refine .bind (within_round hp body) fun r => ?_
      cases r with
      | value v => exact ih hn _
      | continued => exact ih hn _
      | broken => exact .refl _
    · exact .refl _

theorem within_loopNumber (hp : Performer.Within p q) (node : Node Span) :
    Within (loopNumber p c node) (loopNumber q c node) :=
  .before (hp _) _

theorem within_loopStep (hp : Performer.Within p q) (node : Option (Node Span)) :
    Within (loopStep p c node) (loopStep q c node) := by
  cases node with
  | none => exact .refl _
  | some node => exact .before (within_loopNumber hp node) _

/-! ### Calls -/

theorem within_loadScript (hp : Performer.Within p q) (path : Value) :
    Within (loadScript p c span path) (loadScript q c span path) := by
  cases path with
  | string path =>
    refine .after _ fun _ => .after _ fun m => ?_
    cases m.world.readFile path with
    | error fault => exact .refl _
    | ok text =>
      constructor
      intro m
      dsimp only
      obtain ⟨k, hk⟩ | heq := (hp (.script ⟨path, text⟩)).ends m
      · exact .inl ⟨k, by rw [hk]⟩
      · exact .inr (by rw [heq])
  | _ => exact .refl _

/-- Of the builtins only the one that performs scripts has nested tasks. -/
theorem within_native (hp : Performer.Within p q) (b : Builtin) (args : List Value) :
    Within (native p c span b args) (native q c span b args) := by
  refine .after _ fun m => ?_
  dsimp only
  split
  all_goals first
    | exact .refl _
    | exact within_loadScript hp _

theorem within_runBody (hp : Performer.Within p q) (definition : FuncDef Span) :
    Within (runBody p c definition) (runBody q c definition) := by
  constructor
  intro m
  unfold runBody
  obtain ⟨k, hk⟩ | heq := (hp (.node definition.body c)).ends m
  · exact .inl ⟨k, by rw [hk]⟩
  · exact .inr (by rw [heq])

theorem within_callDefined (hp : Performer.Within p q) (f : Function) (isMethod : Bool)
    (args : List Value) :
    Within (callDefined p c span f isMethod args) (callDefined q c span f isMethod args) := by
  refine .after _ fun _ => .after _ fun scope => ?_
  dsimp only
  split
  · exact .after _ fun _ => .after _ fun _ => within_runBody hp f.definition
  · exact .after _ fun _ => within_runBody hp f.definition

theorem within_callFunction (hp : Performer.Within p q) (id : Nat) (isMethod : Bool)
    (args : List Value) :
    Within (callFunction p c span id isMethod args) (callFunction q c span id isMethod args) := by
  refine .after _ fun m => ?_
  cases m.store.function? id with
  | none => exact .refl _
  | some f => exact within_callDefined hp f isMethod args

theorem within_instantiate (hp : Performer.Within p q) (cls : Nat) (args : List Value) :
    Within (instantiate p c span cls args) (instantiate q c span cls args) := by
  refine .after _ fun id => .after _ fun m => ?_
  dsimp only
  cases m.store.findMethod cls "__init__" with
  | some init => exact .before (within_callFunction hp ..) _
  | none => exact .refl _

theorem within_call (hp : Performer.Within p q) (callee : Value) (args : List Value) :
    Within (call p c span callee args) (call q c span callee args) := by
  cases callee with
  | function id => exact within_callFunction hp ..
  | method id => exact within_callFunction hp ..
  | bound receiver method => exact within_callFunction hp ..
  | builtin b => exact within_native hp b args
  | cls id => exact within_instantiate hp id args
  | number | string | list | inst => exact .refl _

/-! ### Nodes -/

theorem within_evalAll (hp : Performer.Within p q) (nodes : List (Node Span)) :
    Within (evalAll p c nodes) (evalAll q c nodes) := by
  induction nodes with
  | nil => exact .refl _
  | cons node nodes ih => exact .bind (hp _) fun v => .before ih _

theorem within_branchValue (hp : Performer.Within p q) (body : Body Span) :
    Within (branchValue p c body) (branchValue q c body) :=
  .before (hp _) _

theorem within_choose (hp : Performer.Within p q) (otherwise : Option (Body Span))
    (branches : List (Branch Span)) :
    Within (choose p c otherwise branches) (choose q c otherwise branches) := by
  induction branches with
  | nil =>
    cases otherwise with
    | none => exact .refl _
    | some body => exact within_branchValue hp body
  | cons branch branches ih =>
    refine .bind (hp _) fun v => ?_
    split
    · exact within_branchValue hp branch.body
    · exact ih

/-- One case for each kind of node that has others below it. -/
theorem within_evalNode (hp : Performer.Within p q) {n n' : Nat} (h : n ≤ n')
    (tree : Node Span) : Within (evalNode p n c tree) (evalNode q n' c tree) := by
  cases tree with
  | list _ items => exact .before (within_evalAll hp items) _
  | block _ items => exact .before (within_evalAll hp items) _
  | declare span name type constant value => exact .before (hp _) _
  | assign span name value => exact .before (hp _) _
  | binary _ op left right => exact .bind (hp _) fun l => .before (hp _) _
  | unary span op operand => exact .before (hp _) _
  | cond _ branches otherwise => exact within_choose hp otherwise branches
  | forLoop span counter start stop step body =>
    refine .bind (within_loopNumber hp start) fun first => ?_
    refine .bind (within_loopNumber hp stop) fun last => ?_
    refine .bind (within_loopStep hp step) fun by_ => ?_
    exact .before (within_countFrom hp counter last by_ body h first #[]) _
  | whileLoop _ condition body => exact .before (within_repeatWhile hp condition body h #[]) _
  | call span callee args =>
    refine .bind (hp _) fun f => .bind (within_evalAll hp args) fun vs => ?_
    exact within_call hp f vs
  | index _ target index => exact .bind (hp _) fun t => .before (hp _) _
  | ret _ value =>
    cases value with
    | none => exact .refl _
    | some value => exact .before (hp _) _
  | new span cls args =>
    refine .after _ fun id => .bind (within_evalAll hp args) fun vs => ?_
    exact within_instantiate hp id vs
  | getAttr span object name => exact .before (hp _) _
  | setAttr _ object name value => exact .bind (hp _) fun o => .before (hp _) _
  | methodCall span object name args =>
    refine .bind (hp _) fun o => .after _ fun f => ?_
    exact .bind (within_evalAll hp args) fun vs => within_call hp f vs
  | int | float | string | name | func | exit | cls => exact .refl _

/-! ### Scripts -/

theorem within_callMain (hp : Performer.Within p q) (source : Source) (inherited : Option Value) :
    Within (callMain p c source inherited) (callMain q c source inherited) := by
  refine .after _ fun found => ?_
  cases found with
  | none => exact .refl _
  | some main =>
    cases inherited with
    | none => exact within_call hp main []
    | some old =>
      refine .after _ fun m => ?_
      split
      · exact .refl _
      · exact within_call hp main []
      · exact .refl _

theorem within_runScript (hp : Performer.Within p q) (source : Source) :
    Within (runScript p source) (runScript q source) := by
  unfold runScript
  cases source.parse with
  | error failure => exact .refl _
  | ok program =>
    refine .after _ fun m => .after _ fun inherited => ?_
    constructor
    intro m'
    obtain ⟨k, hk⟩ | heq := (hp (.node program (topLevel m.globals))).ends m'
    · exact .inl ⟨k, by rw [hk]⟩
    · rw [heq]
      cases p (.node program (topLevel m.globals)) m' with
      | error signal k => cases signal <;> exact .inr rfl
      | ok v k =>
        dsimp only
        split
        · exact (within_callMain hp source inherited).ends k
        · exact .inr rfl

/-- More steps perform every task that fewer perform, and in the same way. -/
theorem within_perform {n n' : Nat} (h : n ≤ n') :
    Performer.Within (Task.perform n) (Task.perform n') := by
  induction n generalizing n' with
  | zero => exact fun _ => .exhausted _
  | succ n ih =>
    obtain ⟨n', rfl⟩ := Nat.exists_eq_add_one_of_ne_zero (Nat.ne_zero_of_lt h)
    have hn : n ≤ n' := Nat.le_of_succ_le_succ h
    intro t
    cases t with
    | node tree c => exact within_evalNode (ih hn) hn tree
    | script source => exact within_runScript (ih hn) source

end Eval

/-! ### The end of a task -/

namespace Task

variable {t : Task} {m : Machine} {r r' : EStateM.Result Signal Machine Value}

/-- A task that comes to an end from a machine, within some number of steps. -/
structure EndsIn (t : Task) (m : Machine) (r : EStateM.Result Signal Machine Value) : Prop where
  reached : ∃ n, perform n t m = r
  final : ∀ k, r ≠ .error .exhausted k

/-- **More steps change nothing** about a task that has come to an end. -/
theorem perform_of_le {n n' : Nat} (h : n ≤ n')
    (hends : ∀ k, perform n t m ≠ .error .exhausted k) : perform n' t m = perform n t m := by
  obtain ⟨k, hk⟩ | heq := (Eval.within_perform h t).ends m
  · exact absurd hk (hends k)
  · exact heq

/-- From some number of steps on, a task that ends is performed to that end. -/
theorem EndsIn.stable (h : EndsIn t m r) : ∃ n, ∀ n', n ≤ n' → perform n' t m = r := by
  obtain ⟨⟨n, rfl⟩, hfinal⟩ := h
  exact ⟨n, fun n' hn => perform_of_le hn hfinal⟩

/-- A task has one end, however many steps it is given to reach it. -/
theorem EndsIn.unique (h : EndsIn t m r) (h' : EndsIn t m r') : r = r' := by
  obtain ⟨n, hn⟩ := h.stable
  obtain ⟨n', hn'⟩ := h'.stable
  calc r = perform (max n n') t m := (hn _ (Nat.le_max_left ..)).symm
    _ = r' := hn' _ (Nat.le_max_right ..)

/-- A task comes to an end, or to none with any number of steps. -/
theorem diverges_iff_not_endsIn :
    Eval.Diverges (fun n => perform n t) m ↔ ¬ ∃ r, EndsIn t m r := by
  constructor
  · rintro hdiverges ⟨r, ⟨n, rfl⟩, hfinal⟩
    obtain ⟨k, hk⟩ := hdiverges n
    exact hfinal k hk
  · intro hnone n
    refine Classical.byContradiction fun hends => hnone ⟨perform n t m, ⟨n, rfl⟩, ?_⟩
    exact fun k hk => hends ⟨k, hk⟩

end Task

namespace Machine

variable {m : Machine} {source : Source}

/-- **A program that comes to an end does so whatever more steps it is given**: the
outcome is the same, and so is all that is left behind. -/
theorem run_of_le {n n' : Nat} (h : n ≤ n') (hends : (m.run n source).1 ≠ .exhausted) :
    m.run n' source = m.run n source := by
  have heq : Task.perform n' (.script source) m = Task.perform n (.script source) m := by
    refine Task.perform_of_le h fun k hk => hends ?_
    rw [run, hk]
  unfold run
  rw [heq]

/-- Two numbers of steps that are enough for a program are equally good. -/
theorem run_agrees {n n' : Nat} (hends : (m.run n source).1 ≠ .exhausted)
    (hends' : (m.run n' source).1 ≠ .exhausted) : m.run n source = m.run n' source := by
  obtain hle | hle := Nat.le_total n n'
  · exact (run_of_le hle hends).symm
  · exact run_of_le hle hends'

end Machine

end Script
