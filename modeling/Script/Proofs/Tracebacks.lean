import Script.CommandLine
import Script.Proofs.Anatomy
import Script.Proofs.Places

/-! Tracebacks tell the calls that were active.

`Moment.Active` follows a run into the moment at which a failure is raised. It counts
the frames that are entered on the way from what the moments call and which function
that runs; the calls that contexts carry do not come into it. That the two agree is
what has to be shown: a failure that nothing below a moment fails with is raised at
the moment itself, in its own frame or in that of a call (`Moment.Raises`), and its
traceback lists the frames on the way there.

Main statement, `failures_traced`: a failure of a run is found in the text, and then
has no traceback, or its traceback is the chain of active calls. -/
namespace Script

/-! ### Chains of frames -/

/-- The traceback of frames in a program: the program comes first, each frame where
the next was entered, and the last where execution is. -/
theorem traceback_frames (p : Position) (es : List (String × Span)) :
    (traceback p (es.map Moment.frame ++ [⟨"<program>", none⟩])).map Frame.label =
      "<program>" :: es.reverse.map Prod.fst ∧
    (traceback p (es.map Moment.frame ++ [⟨"<program>", none⟩])).map Frame.position =
      es.reverse.map (·.2.start) ++ [p] := by
  induction es generalizing p with
  | nil => exact ⟨rfl, rfl⟩
  | cons e es ih =>
    obtain ⟨hlabels, hpositions⟩ := ih e.2.start
    simp only [List.map_cons, List.cons_append, traceback, Moment.frame, Option.getD_some,
      List.map_append, List.reverse_cons, List.map_nil] at hlabels hpositions ⊢
    constructor
    · rw [hlabels, List.cons_append]
    · rw [hpositions]

namespace Moment

/-! ### The way to a failure -/

/-- Performing a task comes to a moment of the same script, with these frames entered
on the way, the innermost first: a part of a node is performed in the frame of the
node, and the body of a function in a frame of its own. -/
inductive Active : Moment → List (String × Span) → Moment → Prop where
  | start {a} : Active a [] a
  | within {n t m tree c m' es b} : tree ∈ parts t → c.scope = (context ⟨n + 1, t, m⟩).scope →
      t.Asks (Task.perform n) n m (.node tree c) m' → Active ⟨n, .node tree c, m'⟩ es b →
      Active ⟨n + 1, t, m⟩ es b
  | entered {n t m span callee args k f c m' es b} :
      Calls ⟨n + 1, t, m⟩ span callee args k → k.Runs callee f →
      t.Asks (Task.perform n) n m (.node f.definition.body c) m' →
      Active ⟨n, .node f.definition.body c, m'⟩ es b →
      Active ⟨n + 1, t, m⟩ (es ++ [(f.definition.label, span)]) b

/-- No node fails that the moment asks for. -/
def Innermost (b : Moment) : Prop :=
  ∀ {n tree c m' f k}, b.steps = n + 1 →
    b.task.Asks (Task.perform n) n b.machine (.node tree c) m' →
    Task.perform n (.node tree c) m' ≠ .error (.failed f) k

/-- What a nested node fails with is what the task around it fails with. -/
theorem failing_node_of_not_innermost {n : Nat} {t : Task} {m k : Machine} {f : Failure}
    (hvalid : Valid ⟨n + 1, t, m⟩) (hfails : t.perform (n + 1) m = .error (.failed f) k)
    (h : ¬ Innermost ⟨n + 1, t, m⟩) : ∃ tree c m',
      t.Asks (Task.perform n) n m (.node tree c) m' ∧
      Task.perform n (.node tree c) m' = .error (.failed f) k := by
  simp only [Innermost, not_forall, ne_eq, not_not] at h
  obtain ⟨_, tree, c, m', g, k', hsteps, hasks, hnested⟩ := h
  cases hsteps
  obtain ⟨outer, rfl, houter⟩ := hasks.fails hvalid.placed hvalid.inside hnested
  cases hfails.symm.trans houter
  exact ⟨tree, c, m', hasks, hnested⟩

/-- A failure leads to the moment that raises it. -/
theorem failure_raised {n : Nat} {t : Task} {m k : Machine} {f : Failure}
    (hvalid : Valid ⟨n, t, m⟩) (hfails : t.perform n m = .error (.failed f) k) :
    (∃ source, t = .script source ∧ source.parse = .error f) ∨
    ∃ es b entered, Active ⟨n, t, m⟩ es b ∧ b.outcome = .error (.failed f) k ∧ b.Innermost ∧
      b.Raises f entered ∧ f.traceback =
        traceback f.span.start ((entered ++ es).map frame ++ (context ⟨n, t, m⟩).calls) := by
  induction n generalizing t m with
  | zero => cases hfails
  | succ n ih =>
    by_cases hinner : Innermost ⟨n + 1, t, m⟩
    · rw [Task.perform_succ] at hfails
      obtain hraise | ⟨tree, c, m', hasks, hnested⟩ := (follows n t m).raises hfails
      · obtain hparse | ⟨entered, hraises, htrace⟩ := hraise
        · exact .inl hparse
        · refine .inr ⟨[], ⟨n + 1, t, m⟩, entered, .start, ?_, hinner, hraises, ?_⟩
          · show t.perform (n + 1) m = _
            rw [Task.perform_succ, hfails]
          · rw [List.append_nil, htrace]
      · exact absurd hnested (hinner rfl hasks)
    · obtain ⟨tree, c, m', hasks, hnested⟩ := failing_node_of_not_innermost hvalid hfails hinner
      obtain ⟨_, hplaced, hin⟩ := hasks.spec hvalid.placed hvalid.inside
      obtain ⟨source, htask, _⟩ | ⟨es, b, entered, hactive, hb, hinner, hraises, htrace⟩ :=
        ih ⟨hplaced, hin⟩ hnested
      · cases htask
      -- The node is a part of the task, or the body of a function that it calls.
      · have hadmits : Admits ⟨n + 1, t, m⟩ (.node tree c) := (follows n t m).nested hasks
        refine .inr ?_
        cases hadmits with
        | part hpart =>
          exact ⟨es, b, entered, .within hpart rfl hasks hactive, hb, hinner, hraises, htrace⟩
        | @body span callee args k' g scope hcalls hruns =>
          refine ⟨es ++ [(g.definition.label, span)], b, entered,
            .entered hcalls hruns hasks hactive, hb, hinner, hraises, ?_⟩
          rw [htrace]
          simp [context, frame]

/-- What a moment raises is not found in the text. -/
theorem Raises.isStatic_eq {a : Moment} {f : Failure} {es : List (String × Span)}
    (h : a.Raises f es) : f.report.isStatic = false := by
  show f.fault.kind.isStatic = false
  rw [← Bool.not_eq_true, Fault.isStatic_iff]
  cases h with
  | uncalled _ hblame | refused _ hblame | entered _ _ hblame =>
    rw [hblame]
    decide

end Moment

/-! ### Reports -/

namespace Report

/-- What the report of a failure of a running program begins with. -/
def tracebackHead : String := "Traceback (most recent call last):\n"

/-- A report begins with its traceback if it has one, and otherwise with its kind. -/
theorem render_head (r : Report) (h : r.isStatic = true ↔ r.traceback = []) :
    (∃ rest, r.render = tracebackHead ++ rest) ↔ r.isStatic = false := by
  constructor
  · rintro ⟨rest, hrest⟩
    by_contra hstatic
    rw [Bool.not_eq_false] at hstatic
    have hfirst := congrArg (fun s => s.toList.head?) hrest
    unfold render headline at hfirst
    rw [h.mp hstatic] at hfirst
    unfold isStatic at hstatic
    cases hkind : r.kind <;> rw [hkind] at hstatic hfirst <;>
      simp [FaultKind.isStatic, FaultKind.text, tracebackHead] at hstatic hfirst
  · intro hrunning
    have hne : r.traceback.isEmpty = false := by
      rw [List.isEmpty_eq_false_iff]
      intro hempty
      rw [h.mpr hempty] at hrunning
      cases hrunning
    unfold render
    rw [hne]
    exact ⟨_, by simp only [Bool.false_eq_true, if_false, String.append_assoc]; rfl⟩

end Report

namespace Machine

variable {world : World} {m k : Machine} {n : Nat} {source : Source} {f : Failure}

theorem perform_of_run_failure (h : m.run n source = (.failure f, k)) :
    Task.perform n (.script source) m = .error (.failed f) k := by
  unfold run at h
  split at h <;> cases h
  assumption

/-- A failure of a run is found in the text, or is raised at a moment of the run. -/
theorem run_failure_cases (hs : Session world m) (h : m.run n source = (.failure f, k)) :
    (f.report.isStatic = true ∧ source.parse = .error f ∧ f.traceback = []) ∨
    f.report.isStatic = false ∧ ∃ es b entered, Moment.Active ⟨n, .script source, m⟩ es b ∧
      b.outcome = .error (.failed f) k ∧ b.Innermost ∧ b.Raises f entered ∧
      f.traceback = traceback f.span.start
        ((entered ++ es).map Moment.frame ++ [⟨"<program>", none⟩]) := by
  have hvalid : Moment.Valid ⟨n, .script source, m⟩ := ⟨hs.spec.1.placed, trivial⟩
  obtain ⟨_, htask, hparse⟩ | ⟨es, b, entered, hactive, hb, hinner, hraises, htrace⟩ :=
    Moment.failure_raised hvalid (perform_of_run_failure h)
  · cases htask
    have hstatic := source.parse_placed
    rw [hparse] at hstatic
    exact .inl ⟨hstatic.kind, hparse, hstatic.traceback⟩
  · exact .inr ⟨hraises.isStatic_eq, es, b, entered, hactive, hb, hinner, hraises, htrace⟩

/-- **The traceback is the chain of active calls.** What a run fails with is found in
the text, and then has no traceback, or it is raised at a moment of the run. In its
traceback the program comes first and then the frames that are entered on the way to
that moment, the outermost first; the last frame is where the failure lies, and every
other where the next was entered. So the traceback is empty exactly if the program did
not run, and the exit code tells the same as the form of the report. -/
theorem failures_traced (hs : Session world m) (h : m.run n source = (.failure f, k)) :
    (f.report.isStatic = true → source.parse = .error f ∧ f.traceback = []) ∧
    (f.report.isStatic = false → ∃ es b entered, Moment.Active ⟨n, .script source, m⟩ es b ∧
      b.outcome = .error (.failed f) k ∧ b.Innermost ∧ b.Raises f entered ∧
      f.traceback.map Frame.label = "<program>" :: (entered ++ es).reverse.map Prod.fst ∧
      f.traceback.map Frame.position =
        (entered ++ es).reverse.map (·.2.start) ++ [f.span.start]) ∧
    (f.report.isStatic = true ↔ f.traceback = []) ∧
    (Response.failureCode f = 70 ∧ (∃ rest, f.report.render = Report.tracebackHead ++ rest) ∨
      Response.failureCode f = 65 ∧ ¬ ∃ rest, f.report.render = Report.tracebackHead ++ rest) := by
  obtain ⟨hstatic, hparse, hnone⟩ |
      ⟨hrunning, es, b, entered, hactive, hb, hinner, hraises, htrace⟩ := run_failure_cases hs h
  · have hiff : f.report.isStatic = true ↔ f.traceback = [] := iff_of_true hstatic hnone
    refine ⟨fun _ => ⟨hparse, hnone⟩, fun hrunning => ?_, hiff, .inr ⟨?_, ?_⟩⟩
    · rw [hstatic] at hrunning
      cases hrunning
    · simp [Response.failureCode, hstatic]
    · simp [f.report.render_head hiff, hstatic]
  · obtain ⟨hlabels, hpositions⟩ := traceback_frames f.span.start (entered ++ es)
    rw [← htrace] at hlabels hpositions
    have hiff : f.report.isStatic = true ↔ f.traceback = [] := by
      refine iff_of_false (by simp [hrunning]) fun hnone => ?_
      rw [hnone] at hlabels
      cases hlabels
    refine ⟨fun hstatic => ?_, fun _ => ⟨es, b, entered, hactive, hb, hinner, hraises, hlabels,
      hpositions⟩, hiff, .inl ⟨?_, ?_⟩⟩
    · rw [hrunning] at hstatic
      cases hstatic
    · simp [Response.failureCode, hrunning]
    · exact (f.report.render_head hiff).mpr hrunning

/-! ### A constructor that calls a function that calls a builtin -/

def constructing : Source :=
  ⟨"<test>",
    "class A \x7b; func __init__() => f([]); \x7d; func f(list x) => len(1 + 0); new A()"⟩

/-- Whether a failure is found in the text, its frames, and the bytes where they are. -/
def traced : Outcome → Option (Bool × List String × List Nat)
  | .failure f =>
    some (f.report.isStatic, f.traceback.map Frame.label, f.traceback.map (·.position.index))
  | _ => none

theorem failures_traced_constructing : ∃ f k es b entered,
    (start default).run 20 constructing = (.failure f, k) ∧
    Moment.Active ⟨20, .script constructing, start default⟩ es b ∧ b.Raises f entered ∧
    (entered ++ es).reverse.map Prod.fst = ["__init__", "f", "len"] ∧
    (entered ++ es).reverse.map (·.2.start.index) = [70, 30, 58] ∧ f.span.start.index = 58 := by
  have htraced : traced ((start default).run 20 constructing).1 =
      some (false, ["<program>", "__init__", "f", "len"], [70, 30, 58] ++ [58]) := by
    decide +kernel
  cases hrun : (start default).run 20 constructing with
  | mk outcome k =>
    rw [hrun] at htraced
    cases outcome with
    | failure f =>
      simp only [traced, Option.some.injEq, Prod.mk.injEq] at htraced
      obtain ⟨hrunning, hnames, hbytes⟩ := htraced
      obtain ⟨_, hchain, _⟩ := failures_traced .start hrun
      obtain ⟨es, b, entered, hactive, _, _, hraises, hlabels, hpositions⟩ := hchain hrunning
      have hindices := congrArg (List.map Position.index) hpositions
      simp only [List.map_map, List.map_append, List.map_cons, List.map_nil] at hindices
      obtain ⟨hentries, hplace⟩ := List.append_inj' (hindices.symm.trans hbytes) rfl
      refine ⟨f, k, es, b, entered, rfl, hactive, hraises, ?_, hentries, ?_⟩
      · exact (List.cons.inj (hlabels.symm.trans hnames)).2
      · exact (List.cons.inj hplace).1
    | value v => cases htraced
    | exhausted => cases htraced

end Machine

end Script
