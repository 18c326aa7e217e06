import Script.Proofs.Moves
import Script.Session

/-! The moments of a run: a task that is to be performed, on the machine of that
moment, within the steps that are left.

A step does not tell which nested tasks it performs. That shows when one of them is
cut short instead: the step is then cut short as well, whatever machine that leaves
(`Asks`). The moments of a task are its start and the moments of what it asks for
(`Reaches`). At every moment of a run the machine is one that moves lead to, and the
task is one that it can be set to (`Reaches.spec`). A task that fails at a moment
fails the tasks around it, in the same way up to the script it belongs to; a failure
of a loaded script is quoted by whatever loads it (`Reaches.fails`). -/
namespace Script

open Machine (Move Moves Placed)
open Eval (Agree Alike)

/-- `p`, except that `t` on `m` is cut short and leaves `halted`. -/
noncomputable def Performer.cutShort (p : Performer) (t : Task) (m halted : Machine) : Performer :=
  open Classical in
  fun t' m' => if t' = t ∧ m' = m then .error .exhausted halted else p t' m'

namespace Performer

variable {p : Performer} {t : Task} {m halted : Machine}

theorem cutShort_self : cutShort p t m halted t m = .error .exhausted halted := by
  simp [cutShort]

theorem cutShort_of_ne {t' : Task} {m' : Machine} (h : ¬ (t' = t ∧ m' = m)) :
    cutShort p t m halted t' m' = p t' m' := by
  simp only [cutShort, if_neg h]

end Performer

namespace Task

/-- The step of `t` on `m` comes to perform `t'` on `m'`. -/
def Asks (p : Performer) (n : Nat) (t : Task) (m : Machine) (t' : Task) (m' : Machine) : Prop :=
  ∀ halted, t.step (Performer.cutShort p t' m' halted) n m = .error .exhausted halted

variable {n : Nat} {t t' : Task} {m m' : Machine}

/-- Where nested tasks are performed, the two performers part, or are the same. -/
theorem alike_cutShort {r : Cut}
    (h : Moves m m' → Placed m' → t'.In m' → ∃ failure, (r.inTask t').admits failure ∧
      t'.perform n m' = .error (.failed failure) r.failed) :
    Alike r m (perform n) (Performer.cutShort (perform n) t' m' r.halted) := by
  intro k u hk hplaced hu
  by_cases heq : u = t' ∧ k = m'
  · obtain ⟨rfl, rfl⟩ := heq
    obtain ⟨failure, hadmits, hfails⟩ := h hk hplaced hu
    refine .inr ⟨failure, hadmits, ?_, ?_⟩
    · rw [hfails]
      cases u <;> rfl
    · rw [Performer.cutShort_self]
      cases u <;> rfl
  · have hsame := agree_perform (r := r.inTask u) n hplaced hu
    unfold Agree Eval.Tracks at hsame ⊢
    rw [Performer.cutShort_of_ne heq]
    exact hsame

/-- A step does not end in every machine. -/
theorem not_forall_halted {α : Type} (x : EStateM.Result Signal Machine α) :
    ¬ ∀ halted, x = .error .exhausted halted := by
  intro h
  let m : Machine := default
  have heq := (h m).symm.trans (h { m with journal := .opened "" :: m.journal })
  have hlen := congrArg (fun k => k.journal.length) (EStateM.Result.error.inj heq).2
  simp at hlen

/-- What is asked for is a task that the machine of that moment can be set to. -/
theorem Asks.spec (h : t.Asks (perform n) n m t' m') (hm : Placed m) (ht : t.In m) :
    Moves m m' ∧ Placed m' ∧ t'.In m' := by
  refine Classical.byContradiction fun hnot => ?_
  -- The task at which it is cut short is never performed, so the step is what it is
  -- without, whatever is left.
  refine not_forall_halted (t.step (perform n) n m) fun halted => ?_
  have halike := alike_cutShort (r := .never halted) (n := n) fun h₁ h₂ h₃ =>
    absurd ⟨h₁, h₂, h₃⟩ hnot
  rcases agree_step halike hm ht n with ⟨heq, _⟩ | hparts
  · exact heq.trans (h halted)
  · exact absurd hparts Cut.never_parts

/-- What a task fails with when one that it asks for fails. -/
def Passes : Task → Failure → Failure → Prop
  | .node .., failure, outer => outer = failure
  | .script source, failure, outer => ∃ span calls,
    outer = .ofCalls (.scriptFailed source.name failure.report.render) span calls

/-- Nothing that asks for a task survives its failure. -/
theorem Asks.fails (h : t.Asks (perform n) n m t' m') (hm : Placed m) (ht : t.In m)
    {failure : Failure} {k : Machine} (hfails : t'.perform n m' = .error (.failed failure) k) :
    ∃ outer, t'.Passes failure outer ∧ t.perform (n + 1) m = .error (.failed outer) k := by
  let r (halted : Machine) : Cut :=
    { admits := t'.Passes failure
      inScript := fun source f => t' = .script source ∧ f = failure
      quoted := by
        rintro source f ⟨rfl, rfl⟩ span calls
        exact ⟨span, calls, rfl⟩
      failed := k
      halted }
  have hr : ∀ halted, ((r halted).inTask t').admits failure := by
    intro halted
    cases t' with
    | node => rfl
    | script => exact ⟨rfl, rfl⟩
  rw [perform_succ]
  refine Classical.byContradiction fun hnot => ?_
  refine not_forall_halted (t.step (perform n) n m) fun halted => ?_
  have halike := alike_cutShort (m := m) (r := r halted) fun _ _ _ => ⟨failure, hr halted, hfails⟩
  rcases agree_step halike hm ht n with ⟨heq, _⟩ | ⟨outer, hpasses, hstep, _⟩
  · exact heq.trans (h halted)
  · exact absurd ⟨outer, hpasses, hstep⟩ hnot

/-! ### What is asked for -/

section Forms

variable {p : Performer} {c : Context} {k k' : Machine} {span : Span}

/-- A script asks for its program, at the top level. -/
theorem Asks.program {source : Source} {tree : Node Span} (h : source.parse = .ok tree) :
    (Task.script source).Asks p n m (.node tree (Eval.topLevel m.globals)) m := by
  intro halted
  show Eval.runScript _ source m = _
  unfold Eval.runScript
  rw [h]
  refine (Eval.bind_get _).trans ((Eval.bind_ok (Eval.lookup_eq _)).trans ?_)
  rw [Performer.cutShort_self]

/-- A sequence asks for its first item. -/
theorem Asks.item {item : Node Span} {items : List (Node Span)} :
    (Task.node (.block span (item :: items)) c).Asks p n m (.node item c) m := by
  intro halted
  exact Eval.bind_error (Eval.bind_error Performer.cutShort_self)

/-- A call of the builtin that loads a script asks for the script. -/
theorem Asks.loaded {callee arg : Node Span} {path text : String}
    (hf : p (.node callee c) m = .ok (.builtin .run) k)
    (ha : p (.node arg c) k = .ok (.string path) k') (hread : k'.world.readFile path = .ok text) :
    (Task.node (.call span callee [arg]) c).Asks p n m (.script ⟨path, text⟩)
      { k' with journal := .opened path :: k'.journal } := by
  intro halted
  let noted : Machine := { k' with journal := .opened path :: k'.journal }
  have hnode : ∀ tree j, Performer.cutShort p (.script ⟨path, text⟩) noted halted (.node tree c) j =
      p (.node tree c) j :=
    fun tree j => Performer.cutShort_of_ne fun h => Task.noConfusion h.1
  refine (Eval.bind_ok ((hnode callee m).trans hf)).trans ?_
  have hargs : Eval.evalAll (Performer.cutShort p (.script ⟨path, text⟩) noted halted) c [arg] k =
      .ok [.string path] k' :=
    (Eval.bind_ok ((hnode arg k).trans ha)).trans rfl
  refine (Eval.bind_ok hargs).trans ?_
  refine (Eval.bind_get _).trans ((Eval.bind_ok (k := noted) rfl).trans ((Eval.bind_get _).trans ?_))
  rw [show noted.world.readFile path = .ok text from hread]
  dsimp only
  rw [Performer.cutShort_self]

end Forms

end Task

/-! ### Moments -/

structure Moment where
  steps : Nat
  task : Task
  machine : Machine

namespace Moment

/-- How the task of the moment ends. -/
def outcome (a : Moment) : EStateM.Result Signal Machine Value := a.task.perform a.steps a.machine

/-- A task that the machine can be set to. -/
structure Valid (a : Moment) : Prop where
  placed : Placed a.machine
  inside : a.task.In a.machine

/-- One script deeper, if a script is to be performed. -/
def depth : Task → Nat
  | .node .. => 0
  | .script _ => 1

/-- The moments of performing a task. They are counted by the scripts that are being
loaded. -/
inductive Reaches : Nat → Moment → Moment → Prop where
  | start {a} : Reaches 0 a a
  | nested {n t m t' m' d b} : t.Asks (Task.perform n) n m t' m' → Reaches d ⟨n, t', m'⟩ b →
      Reaches (d + depth t') ⟨n + 1, t, m⟩ b

variable {d : Nat} {a b : Moment}

/-- At every moment the machine is one that moves lead to, and the task is one that
it can be set to. -/
theorem Reaches.spec (h : Reaches d a b) (ha : a.Valid) : Moves a.machine b.machine ∧ b.Valid := by
  induction h with
  | start => exact ⟨.refl, ha⟩
  | nested hasks _ ih =>
    obtain ⟨hmoves, hplaced, hin⟩ := hasks.spec ha.placed ha.inside
    obtain ⟨hmoves', hvalid⟩ := ih ⟨hplaced, hin⟩
    exact ⟨hmoves.trans hmoves', hvalid⟩

/-- A failure in `d` scripts, each of which was loaded by the one before: whatever
loads a script that fails quotes its report. -/
inductive Quotes : Nat → Failure → Failure → Prop where
  | same {failure} : Quotes 0 failure failure
  | loaded {d failure inner} (source : Source) (span : Span) (calls : List Call) :
      Quotes d failure inner →
      Quotes (d + 1) failure (.ofCalls (.scriptFailed source.name inner.report.render) span calls)

/-- **A failure at a moment is the failure of the whole task**, as the scripts that
are being loaded quote it. -/
theorem Reaches.fails (h : Reaches d a b) (ha : a.Valid) {failure : Failure} {k : Machine}
    (hfails : b.outcome = .error (.failed failure) k) :
    ∃ outer, Quotes d failure outer ∧ a.outcome = .error (.failed outer) k := by
  induction h with
  | start => exact ⟨failure, .same, hfails⟩
  | @nested n t m t' m' d b hasks _ ih =>
    obtain ⟨_, hplaced, hin⟩ := hasks.spec ha.placed ha.inside
    obtain ⟨inner, hquotes, hinner⟩ := ih ⟨hplaced, hin⟩ hfails
    obtain ⟨outer, hpasses, houter⟩ := hasks.fails ha.placed ha.inside hinner
    refine ⟨outer, ?_, houter⟩
    cases t' with
    | node =>
      cases hpasses
      exact hquotes
    | script source =>
      obtain ⟨span, calls, rfl⟩ := hpasses
      exact .loaded source span calls hquotes

/-- A failure that nothing loaded quotes is itself. -/
theorem Quotes.eq_of_zero {failure outer : Failure} (h : Quotes 0 failure outer) :
    outer = failure := by
  cases h
  rfl

/-- What loads a failing script is stopped by that, whatever stopped the script. -/
theorem Quotes.kind_of_pos {failure outer : Failure} (h : Quotes (d + 1) failure outer) :
    outer.fault.kind = .runtime := by
  cases h
  rfl

end Moment

end Script
