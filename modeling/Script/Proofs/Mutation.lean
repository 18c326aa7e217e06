import Script.Proofs.Anatomy

/-! Which operations change objects that others can reach.

Lists and instances are shared: names, closures, attributes and other lists refer to
them by number. A step changes a list only by a call of a builtin that does so on that
very list, and sets attributes only of an instance that it is told to; all else is done
by nested tasks. By induction over the steps the same holds of a whole evaluation.

Main statement, `objects_kept`: a list or an instance that exists is the same behind
an evaluation, unless one of these operations was performed on it. -/
namespace Script.Moment

open Eval

/-- What no step changes by itself is not changed, unless a moment comes that touches
it. -/
theorem kept {P : Machine → Prop} {touches : Moment → Prop}
    (own : ∀ {a k k'}, ¬ touches a → a.law.Spares k k' → P k → P k') (a : Moment)
    (ha : P a.machine) : P (left a.outcome) ∨ ∃ d b, Reaches d a b ∧ touches b := by
  obtain ⟨n, t, m⟩ := a
  show P (left (t.perform n m)) ∨ _
  induction n generalizing t m with
  | zero => exact .inl ha
  | succ n ih =>
    by_cases htouch : touches ⟨n + 1, t, m⟩
    · exact .inr ⟨0, _, .start, htouch⟩
    · rw [Task.perform_succ]
      refine (follows n t m).keeps (own htouch) (fun {t' m'} hasks hm' => ?_) ha
      obtain hkept | ⟨d, b, hreaches, hb⟩ := ih t' m' hm'
      · exact .inl hkept
      · exact .inr ⟨_, b, .nested hasks hreaches, hb⟩

/-- Whether a node calls a value that it evaluates. -/
def callsValue : Node Span → Bool
  | .call .. | .methodCall .. => true
  | _ => false

/-- Only nodes that call a value have a list changed: classes and `main` are called with
other things. -/
theorem ChangesList.callsValue {a : Moment} {id : Nat} (h : a.ChangesList id) :
    ∃ tree c, a.task = .node tree c ∧ callsValue tree = true := by
  obtain ⟨span, b, rest, k, hcalls, _⟩ := h
  cases hcalls with
  | call => exact ⟨_, _, rfl, rfl⟩
  | methodCall => exact ⟨_, _, rfl, rfl⟩

/-- **Only the designated operations change shared objects.** Whatever is evaluated, on
whatever machine, and however it ends, a list that exists has the same elements as
before, unless at some moment of the evaluation `append`, `pop` or `extend` is called
with that list as its first argument; and an instance that exists has the same
attributes, unless at some moment one of them is assigned, or `setattr` is called with
the instance as its first argument. Nothing but a call of a value has a list changed: no
operator, index, literal, loop or constructor does, nor does the passing of arguments. -/
theorem objects_kept (a : Moment) :
    (∀ id elements, a.machine.store.lists[id]? = some elements →
      (left a.outcome).store.lists[id]? = some elements ∨
        ∃ d b, Reaches d a b ∧ b.ChangesList id) ∧
    (∀ id object, a.machine.store.instances[id]? = some object →
      (left a.outcome).store.instances[id]? = some object ∨
        ∃ d b, Reaches d a b ∧ b.SetsAttribute id) ∧
    ∀ (b : Moment) id, b.ChangesList id →
      ∃ tree c, b.task = .node tree c ∧ callsValue tree = true := by
  refine ⟨fun id elements h => ?_, fun id object h => ?_, fun b id h => h.callsValue⟩
  · exact kept (fun htouch hspares hk => hspares.lists htouch hk) a h
  · exact kept (fun htouch hspares hk => hspares.instances htouch hk) a h

/-! ### A list that is given to `append`, and one that is only used -/

def listing : Source := ⟨"<test>", "var a : [1]; var b : [2]"⟩

def appending : Source := ⟨"<test>", "append(a, b); b + b; b[0]; for i = 0 to 2: b"⟩

/-- The moment at which the second program begins, behind the first. -/
def beforeAppending : Moment :=
  ⟨12, .script appending, ((Machine.start default).run 12 listing).2⟩

/-- How many elements the list with a number has. -/
def listSize? (m : Machine) (id : Nat) : Option Nat := m.store.lists[id]?.map Array.size

theorem objects_kept_appending :
    listSize? beforeAppending.machine 0 = some 1 ∧
    listSize? (left beforeAppending.outcome) 0 = some 2 ∧
    ∃ d b, Reaches d beforeAppending b ∧ b.ChangesList 0 := by
  have hbefore : listSize? beforeAppending.machine 0 = some 1 := by decide +kernel
  have hafter : listSize? (left beforeAppending.outcome) 0 = some 2 := by decide +kernel
  refine ⟨hbefore, hafter, ?_⟩
  obtain ⟨elements, hlist, hsize⟩ := Option.map_eq_some_iff.mp hbefore
  obtain hkept | hchanged := (objects_kept beforeAppending).1 0 elements hlist
  · rw [listSize?, hkept, Option.map_some, hsize] at hafter
    cases hafter
  · exact hchanged

end Script.Moment
