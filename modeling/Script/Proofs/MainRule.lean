import Mathlib.Tactic.ByContra
import Script.Proofs.Constants
import Script.Proofs.Forest

/-! Which `main` a source file calls.

Behind its top level a source file calls the value of `main`, unless that is the value
which it found there: only a `main` that the file binds itself is meant to count. What
a run binds is in the journal, and the journal tells exactly which names of a table have
a new value (`Moves.bindings`). Values are compared by `Store.equal`, so a file that binds
`main` to something equal to what it found is taken for one that binds none
(`rebound_main_is_missed`); and a NaN that it found, which equals nothing, for its own.

Main statement, `main_rule`: apart from these two, a file that binds `main` ends as the
call of that value does, and a file that does not is refused where its top level ended. -/
namespace Script

open Machine (Moves Move Guarded Session)

/-! ### What was bound -/

namespace Machine

variable {m k : Machine} {scope : ScopeId} {name : String}

/-- Between two machines the name was bound in the table. -/
def Bound (m k : Machine) (scope : ScopeId) (name : String) : Prop :=
  ∃ effects, k.journal = effects ++ m.journal ∧ .bound scope name ∈ effects

/-- What happened to a name of a table while `effects` were noted. -/
structure Since (m k : Machine) (scope : ScopeId) (name : String) (effects : List Effect) :
    Prop where
  journal : k.journal = effects ++ m.journal
  bound : .bound scope name ∈ effects → (k.scopes.own? scope name).isSome = true
  kept : .bound scope name ∉ effects → k.scopes.own? scope name = m.scopes.own? scope name

theorem Move.bindings (h : Move m k) (hs : scope < m.scopes.tables.size) (name : String) :
    ∃ effects, Since m k scope name effects := by
  cases h with
  | @note effect hnot =>
    refine ⟨[effect], rfl, fun hmem => ?_, fun _ => rfl⟩
    exact absurd (List.mem_singleton.mp hmem).symm (hnot scope name)
  | @bind target other value constant _ _ =>
    refine ⟨[.bound target other], rfl, fun hmem => ?_, fun hmem => ?_⟩
    · cases List.mem_singleton.mp hmem
      have htable : m.scopes.table? scope = some m.scopes.tables[scope] :=
        Array.getElem?_eq_getElem hs
      rw [Scopes.own?_bind, if_pos ⟨rfl, rfl⟩, htable]
      rfl
    · apply (Scopes.own?_bind ..).trans
      rw [if_neg]
      rintro ⟨rfl, rfl⟩
      exact hmem List.mem_cons_self
  | grow _ =>
    refine ⟨[], rfl, nofun, fun _ => ?_⟩
    apply (Scopes.own?_grow ..).trans
    rw [if_neg (Nat.ne_of_lt hs)]
  | _ => exact ⟨[], rfl, nofun, fun _ => rfl⟩

/-- The journal tells what became of a name: it was bound, or has the value it had. -/
theorem Moves.bindings (h : Moves m k) (hs : scope < m.scopes.tables.size) (name : String) :
    ∃ effects, Since m k scope name effects := by
  induction h with
  | refl => exact ⟨[], rfl, nofun, fun _ => rfl⟩
  | @tail j k hmoves hmove ih =>
    obtain ⟨earlier, hearlier⟩ := ih
    have hs' : scope < j.scopes.tables.size := Nat.lt_of_lt_of_le hs (Moves.size_le hmoves)
    obtain ⟨later, hlater⟩ := hmove.bindings hs' name
    refine ⟨later ++ earlier, ?_, fun hmem => ?_, fun hmem => ?_⟩
    · rw [hlater.journal, hearlier.journal, List.append_assoc]
    · by_cases hlast : .bound scope name ∈ later
      · exact hlater.bound hlast
      · rw [hlater.kept hlast]
        exact hearlier.bound ((List.mem_append.mp hmem).resolve_left hlast)
    · rw [List.mem_append, not_or] at hmem
      rw [hlater.kept hmem.1, hearlier.kept hmem.2]

/-- The global names of a machine are those of the one table that has no parent. -/
theorem Guarded.get?_globals (hm : Guarded m) (name : String) :
    m.scopes.get? m.globals name = m.scopes.own? m.globals name := by
  obtain ⟨t, htop, hparent, _⟩ := hm.rooted.top
  have hchain : m.scopes.chain m.globals = [m.globals] := by
    unfold Scopes.chain Scopes.walk
    rw [htop]
    dsimp only
    rw [hparent]
  unfold Scopes.get? Scopes.own?
  rw [hchain]
  simp

/-- What a run of moves did to a global name. -/
theorem Moves.global_bindings (h : Moves m k) (hm : Guarded m) (name : String) :
    (Bound m k m.globals name → ∃ v, k.scopes.get? m.globals name = some v) ∧
    (¬ Bound m k m.globals name →
      k.scopes.get? m.globals name = m.scopes.get? m.globals name) := by
  obtain ⟨effects, hsince⟩ := h.bindings hm.placed.globals name
  have hk : k.scopes.get? m.globals name = k.scopes.own? m.globals name := by
    have hget := (h.guarded hm).get?_globals name
    rw [h.globals_eq] at hget
    exact hget
  rw [hk, hm.get?_globals]
  constructor
  · rintro ⟨effects', hjournal, hmem⟩
    have heq : effects' = effects :=
      List.append_cancel_right (hjournal.symm.trans hsince.journal)
    rw [heq] at hmem
    exact Option.isSome_iff_exists.mp (hsince.bound hmem)
  · intro hnot
    exact hsince.kept fun hmem => hnot ⟨effects, hsince.journal, hmem⟩

end Machine

/-! ### Values and themselves -/

/-- A float that differs from itself. -/
def Value.IsNaN (v : Value) : Prop :=
  ∃ x : Float, v = .float x ∧ Number.same (.float x) (.float x) = false

/-- Every value equals itself, but a NaN. -/
theorem Store.equal_self (s : Store) (v : Value) :
    (¬ v.IsNaN → s.equal v v = some true) ∧ (v.IsNaN → s.equal v v = some false) := by
  constructor
  · intro hv
    unfold Store.equal
    cases v with
    | number n =>
      cases n with
      | int n => simp [Store.equalTo, Number.same, Number.compare]
      | float x =>
        have hsame : Number.same (.float x) (.float x) = true := by
          by_contra hnot
          exact hv ⟨x, rfl, Bool.eq_false_iff.mpr hnot⟩
        simp [Store.equalTo, hsame]
    | _ => simp [Store.equalTo]
  · rintro ⟨x, rfl, hx⟩
    simp [Store.equal, Store.equalTo, Value.float, hx]

/-! ### The end of a source file -/

namespace Eval

variable {m k : Machine} {source : Source} {program : Node Span} {perform : Performer} {v : Value}

/-- What a source file without a `main` of its own ends with. -/
def withoutMain (source : Source) (globals : ScopeId) : Signal :=
  .failed (.ofCalls .noMain (.point (.start source)) (topLevel globals).calls)

/-- Behind the top level of a source file `main` is called. -/
theorem runScript_file (hparse : source.parse = .ok program)
    (hfile : Path.isSourceFile source.name = true)
    (h : perform (.node program (topLevel m.globals)) m = .ok v k) :
    runScript perform source m =
      callMain perform (topLevel m.globals) source (m.scopes.get? m.globals "main") k := by
  unfold runScript
  rw [hparse]
  dsimp only
  rw [bind_get]
  refine (bind_ok (lookup_eq "main")).trans ?_
  rw [h]
  simp only [hfile, if_true]
  rfl

variable {globals : ScopeId} {inherited : Option Value} {main : Value}

theorem callMain_missing (h : k.scopes.get? globals "main" = none) :
    callMain perform (topLevel globals) source inherited k =
      .error (withoutMain source globals) k := by
  unfold callMain
  refine (bind_ok (lookup_eq "main")).trans ?_
  rw [show k.scopes.get? (topLevel globals).scope "main" = none from h]
  rfl

/-- A value that is not what was inherited is called. -/
theorem callMain_new (h : k.scopes.get? globals "main" = some main)
    (hnew : ∀ old ∈ inherited, k.store.equal old main = some false) :
    callMain perform (topLevel globals) source inherited k =
      call perform (topLevel globals) (.point (.start source)) main [] k := by
  unfold callMain
  refine (bind_ok (lookup_eq "main")).trans ?_
  rw [show k.scopes.get? (topLevel globals).scope "main" = some main from h]
  cases inherited with
  | none => rfl
  | some old =>
    dsimp only
    rw [bind_get, hnew old rfl]

/-- A value that equals what was inherited is not. -/
theorem callMain_same (h : k.scopes.get? globals "main" = some main)
    (hsame : ∃ old ∈ inherited, k.store.equal old main = some true) :
    callMain perform (topLevel globals) source inherited k =
      .error (withoutMain source globals) k := by
  obtain ⟨old, hold, hequal⟩ := hsame
  cases hold
  unfold callMain
  refine (bind_ok (lookup_eq "main")).trans ?_
  rw [show k.scopes.get? (topLevel globals).scope "main" = some main from h]
  dsimp only
  rw [bind_get, hequal]
  rfl

end Eval

namespace Machine

open Moment (Reaches)

/-- How a source file ends within `n + 1` steps behind its top level, which leads from
`m` to `k`. -/
structure EndsByMain (n : Nat) (source : Source) (m k : Machine) : Prop where
  bound : Bound m k m.globals "main" → ∃ main, k.scopes.get? m.globals "main" = some main ∧
    ((∀ old ∈ m.scopes.get? m.globals "main", k.store.equal old main = some false) →
      Task.perform (n + 1) (.script source) m =
        Eval.call (Task.perform n) (Eval.topLevel m.globals) (.point (.start source)) main [] k) ∧
    ((∃ old ∈ m.scopes.get? m.globals "main", k.store.equal old main = some true) →
      Task.perform (n + 1) (.script source) m = .error (Eval.withoutMain source m.globals) k)
  unbound : ¬ Bound m k m.globals "main" →
    (∀ old ∈ m.scopes.get? m.globals "main", ¬ old.IsNaN) →
      Task.perform (n + 1) (.script source) m = .error (Eval.withoutMain source m.globals) k
  nan : ¬ Bound m k m.globals "main" → ∀ old ∈ m.scopes.get? m.globals "main", old.IsNaN →
    Task.perform (n + 1) (.script source) m =
      Eval.call (Task.perform n) (Eval.topLevel m.globals) (.point (.start source)) old [] k

variable {m k : Machine} {n : Nat} {source : Source} {program : Node Span} {v : Value}

theorem Guarded.endsByMain (hm : Guarded m) (hparse : source.parse = .ok program)
    (hfile : Path.isSourceFile source.name = true)
    (htop : Task.perform n (.node program (Eval.topLevel m.globals)) m = .ok v k) :
    EndsByMain n source m k := by
  have hmoves : Moves m k := by
    have hperform := Task.perform_moves n hm.placed (t := .node program (Eval.topLevel m.globals))
      hm.placed.globals
    rw [htop] at hperform
    exact hperform
  have hscript : Task.perform (n + 1) (.script source) m = Eval.callMain (Task.perform n)
      (Eval.topLevel m.globals) source (m.scopes.get? m.globals "main") k :=
    Eval.runScript_file hparse hfile htop
  obtain ⟨hbound, hkept⟩ := hmoves.global_bindings hm "main"
  constructor
  · intro hwrote
    obtain ⟨main, hmain⟩ := hbound hwrote
    rw [hscript]
    exact ⟨main, hmain, Eval.callMain_new hmain, Eval.callMain_same hmain⟩
  · intro hnot hnan
    rw [hscript]
    cases hold : m.scopes.get? m.globals "main" with
    | none => exact Eval.callMain_missing ((hkept hnot).trans hold)
    | some old =>
      have hequal := (k.store.equal_self old).1 (hnan old hold)
      exact Eval.callMain_same ((hkept hnot).trans hold) ⟨old, rfl, hequal⟩
  · intro hnot old hold hnan
    have hequal := (k.store.equal_self old).2 hnan
    rw [hscript, show m.scopes.get? m.globals "main" = some old from hold]
    apply Eval.callMain_new ((hkept hnot).trans hold)
    rintro _ ⟨rfl⟩
    exact hequal

/-- **The rule of `main`.** In any session, whether a source file is run or loaded, and
behind any top level of it that ends normally. If the top level bound `main`, the file
ends as the call of that value does, unless the value equals the one that was found; then
the file fails and does no more. It also fails so if the top level did not bind `main`,
unless a NaN was found. -/
theorem main_rule {world : World} {m₀ : Machine} {d n₀ : Nat} {s₀ : Source}
    (hsession : Session world m₀)
    (hreach : Moment.Reaches d ⟨n₀, .script s₀, m₀⟩ ⟨n + 1, .script source, m⟩)
    (hparse : source.parse = .ok program) (hfile : Path.isSourceFile source.name = true)
    (htop : Task.perform n (.node program (Eval.topLevel m.globals)) m = .ok v k) :
    EndsByMain n source m k := by
  have hguarded : Guarded m₀ := hsession.spec.1
  obtain ⟨hmoves, _⟩ := hreach.spec ⟨hguarded.placed, trivial⟩
  exact (hmoves.guarded hguarded).endsByMain hparse hfile htop

/-! ### A file that binds `main` anew, and one that binds it to what it was -/

/-- The machine behind the top level of a program, if that ends normally. -/
def behindTop? (n : Nat) (source : Source) (m : Machine) : Option Machine :=
  match source.parse with
  | .ok program =>
    match Task.perform n (.node program (Eval.topLevel m.globals)) m with
    | .ok _ k => some k
    | .error .. => none
  | .error _ => none

theorem behindTop?_eq_some (h : behindTop? n source m = some k) :
    ∃ program v, source.parse = .ok program ∧
      Task.perform n (.node program (Eval.topLevel m.globals)) m = .ok v k := by
  unfold behindTop? at h
  split at h
  · next program hparse =>
    split at h
    · next v _ htop =>
      cases h
      exact ⟨program, v, hparse, htop⟩
    · cases h
  · cases h

/-- Whether `k` has only one more binding in its journal, that of `main`. -/
def bindsMain (m k : Machine) : Bool := k.journal = .bound m.globals "main" :: m.journal

theorem bound_of_bindsMain (h : bindsMain m k = true) : Bound m k m.globals "main" :=
  ⟨[.bound m.globals "main"], of_decide_eq_true h, List.mem_cons_self⟩

def returning : Source := ⟨"a.jc", "func main() return 1"⟩

def returningOther : Source := ⟨"b.jc", "func main() return 2"⟩

/-- Behind the first of the two files. -/
def afterReturning : Machine := ((start default).run 9 returning).2

theorem main_rule_anew : ∃ k, Bound afterReturning k afterReturning.globals "main" ∧
    EndsByMain 8 returningOther afterReturning k := by
  have htest : (behindTop? 8 returningOther afterReturning).any (bindsMain afterReturning) = true := by
    decide +kernel
  obtain ⟨k, hk, hbinds⟩ := (Option.any_eq_true ..).mp htest
  obtain ⟨program, v, hparse, htop⟩ := behindTop?_eq_some hk
  have hsession : Session default afterReturning := .run 9 returning .start
  exact ⟨k, bound_of_bindsMain hbinds, main_rule hsession .start hparse rfl htop⟩

def reading : Source := ⟨"a.jc", "var main : input"⟩

def readingAgain : Source := ⟨"b.jc", "var main : input"⟩

def afterReading : Machine := ((start default).run 9 reading).2

/-- Whether the `main` behind a top level that binds it equals the one before, and would
yield a value. -/
def rebinds (n : Nat) (source : Source) (m k : Machine) : Bool :=
  bindsMain m k && (k.scopes.get? m.globals "main").any fun main =>
    ((m.scopes.get? m.globals "main").any fun old => k.store.equal old main = some true) &&
    match Eval.call (Task.perform n) (Eval.topLevel m.globals) (.point (.start source)) main [] k with
    | .ok .. => true
    | .error .. => false

/-- **A source file that binds `main` need not end as the call of it**: if `main` had an
equal value before, the file is taken for one without. -/
theorem rebound_main_is_missed : ¬ ∀ {m k : Machine} {n : Nat} {source : Source}
    {program : Node Span} {v : Value}, Session default m → source.parse = .ok program →
    Path.isSourceFile source.name = true →
    Task.perform n (.node program (Eval.topLevel m.globals)) m = .ok v k →
    Bound m k m.globals "main" → ∃ main, k.scopes.get? m.globals "main" = some main ∧
      Task.perform (n + 1) (.script source) m =
        Eval.call (Task.perform n) (Eval.topLevel m.globals) (.point (.start source)) main [] k := by
  intro hall
  have htest : (behindTop? 8 readingAgain afterReading).any
      (rebinds 8 readingAgain afterReading) = true := by decide +kernel
  obtain ⟨k, hk, hrebinds⟩ := (Option.any_eq_true ..).mp htest
  obtain ⟨program, v, hparse, htop⟩ := behindTop?_eq_some hk
  obtain ⟨hbinds, hmain⟩ := Bool.and_eq_true_iff.mp hrebinds
  obtain ⟨main, hget, hmain⟩ := (Option.any_eq_true ..).mp hmain
  obtain ⟨hold, hcall⟩ := Bool.and_eq_true_iff.mp hmain
  obtain ⟨old, hbefore, hequal⟩ := (Option.any_eq_true ..).mp hold
  have hsession : Session default afterReading := .run 9 reading .start
  have hbound := bound_of_bindsMain hbinds
  -- The file fails, as the value is the one it was; its call yields a value.
  obtain ⟨main', hget', _, hsame⟩ :=
    (hsession.spec.1.endsByMain hparse rfl htop).bound hbound
  obtain ⟨main'', hget'', hfile⟩ := hall hsession hparse rfl htop hbound
  cases hget.symm.trans hget'
  cases hget.symm.trans hget''
  have hfails := hsame ⟨old, hbefore, of_decide_eq_true hequal⟩
  rw [← hfile, hfails] at hcall
  cases hcall

end Machine

end Script
