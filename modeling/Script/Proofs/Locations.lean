import Script.Proofs.Constants
import Script.Proofs.Discipline
import Script.Proofs.Places

/-! Every location that is reported is real.

A failure names a span and, for each active call, a position. The span is that of a
token or a node, or reaches from one node to another one; a position is the start of
such a span. All nodes lie in their sources (`Source.parse_placed`), functions that
outlive their program keep the nodes they were written with, and calls are entered at
nodes. So whatever fails, at any depth and in any source, is blamed on places that
exist (`Machine.failures_located`), and a report finds the lines it shows. -/
namespace Script

/-! ### Places and what is shown of them -/

namespace Position

/-- A place of the text of its own source. -/
abbrev Real (p : Position) : Prop := InText p.source p

theorem after_source (source : Source) (cs : List Char) : (after source cs).source = source := by
  rw [after_eq]

variable {source : Source} {p : Position}

theorem InText.source_eq (h : InText source p) : p.source = source := by
  obtain ⟨cs, _, rfl, _⟩ := h
  exact after_source source cs

theorem InText.real (h : InText source p) : p.Real := by
  unfold Real
  rw [h.source_eq]
  exact h

theorem real_start (source : Source) : (start source).Real := by
  have h : InText source (after source []) := inText_after List.nil_prefix
  exact h.real

/-- A place is not behind the end of the text. -/
theorem InText.index_le (h : InText source p) : p.index ≤ source.text.utf8ByteSize := by
  obtain ⟨cs, ⟨ds, hds⟩, rfl, _⟩ := h
  have hle := after_index_le source cs ds
  rw [hds, after_eq source source.text.toList] at hle
  simpa using hle

/-- A place is on one of the lines of the text. -/
theorem InText.line_le (h : InText source p) : p.line ≤ source.text.toList.count '\n' := by
  obtain ⟨cs, hprefix, _, _, hline, _⟩ := h
  rw [hline]
  exact hprefix.sublist.count_le _

end Position

/-- A text has one line more than line feeds. -/
theorem Text.length_split (separator : Char) (cs : List Char) :
    (split separator cs).length = cs.count separator + 1 := by
  induction cs with
  | nil => rfl
  | cons c cs ih =>
    unfold split
    by_cases hc : c = separator
    · simp [hc, ih]
    · rw [if_neg hc, List.count_cons_of_ne (by simpa using hc)]
      split
      · rename_i hnil
        rw [hnil] at ih
        cases ih
      · rename_i hcons
        rw [hcons] at ih
        exact ih

namespace Span

/-- A span of one source. -/
def Real (s : Span) : Prop := ∃ source, Span.In source s

variable {source : Source} {s : Span}

/-- The lines between the first and the last of an excerpt are lines of the text. -/
theorem In.line_exists (h : s.In source) {n : Nat} (hn : n ≤ s.lastLine.1) :
    ∃ line, (Text.split '\n' source.text.toList)[n]? = some line := by
  have hstart := h.start.line_le
  have hstop := h.stop.line_le
  have hlast : s.lastLine.1 ≤ source.text.toList.count '\n' := by
    unfold lastLine
    split
    · exact Nat.le_trans (Nat.sub_le _ _) hstop
    · exact Nat.max_le.mpr ⟨hstop, hstart⟩
  refine ⟨_, List.getElem?_eq_getElem ?_⟩
  rw [Text.length_split]
  omega

/-- The bytes that a span covers are bytes of the text. -/
theorem In.label_le (h : s.In source) :
    s.start.index + s.byteLength ≤ source.text.utf8ByteSize := by
  have hordered := h.ordered
  have hstop := h.stop.index_le
  unfold byteLength
  omega

end Span

/-! ### Failures -/

/-- A failure that is blamed on places that exist. -/
structure Failure.Located (f : Failure) : Prop where
  span : f.span.Real
  frames : ∀ frame ∈ f.traceback, frame.position.Real

theorem Failure.Static.located {source : Source} {f : Failure} (h : f.Static source) :
    f.Located := by
  refine ⟨⟨source, h.place⟩, ?_⟩
  rw [h.traceback]
  nofun

/-- Calls that were entered at places that exist. -/
def EnteredAtPlaces (calls : List Call) : Prop := ∀ c ∈ calls, ∀ p ∈ c.entry, p.Real

/-- Every frame is at the given position, or where the next call was entered. -/
theorem real_traceback {calls : List Call} (hcalls : EnteredAtPlaces calls) {p : Position}
    (hp : p.Real) : ∀ frame ∈ traceback p calls, frame.position.Real := by
  induction calls generalizing p with
  | nil => nofun
  | cons c cs ih =>
    intro frame hframe
    rcases List.mem_append.mp hframe with hframe | hframe
    · refine ih (fun c' hc' => hcalls c' (List.mem_cons_of_mem _ hc')) ?_ frame hframe
      cases hentry : c.entry with
      | none => exact hp
      | some entry => exact hcalls c List.mem_cons_self entry hentry
    · cases List.mem_singleton.mp hframe
      exact hp

theorem located_ofCalls {calls : List Call} (hcalls : EnteredAtPlaces calls) {span : Span}
    (hspan : span.Real) (fault : Fault) : (Failure.ofCalls fault span calls).Located := by
  refine ⟨hspan, real_traceback hcalls ?_⟩
  obtain ⟨source, hin⟩ := hspan
  exact hin.start.real

/-! ### Runs -/

/-- All trees lie in sources, and all failures are located. -/
def Discipline.located (origin : Machine) : Discipline where
  Mode := Unit
  top := ()
  inside := ()
  origin := origin
  node _ _ tree := ∃ source, tree.In source
  source _ _ := True
  place := Span.Real
  calls := EnteredAtPlaces
  failure _ := Failure.Located
  exit _ _ := Span.Real
  later _ h := h
  child := fun ⟨s, h⟩ sub hsub => ⟨s, h.child sub hsub⟩
  body := fun ⟨s, h⟩ sub hsub => ⟨s, h.body sub hsub⟩
  definition := fun ⟨s, h⟩ f hf => ⟨s, h.definition f hf⟩
  tag := fun ⟨s, h⟩ => ⟨s, h.self.place⟩
  joined := fun ⟨s, h⟩ => ⟨s, h.self.operands ▸ h.self.place⟩
  exits := fun ⟨s, h⟩ => ⟨s, h.self.place⟩
  program := by
    intro c hc p hp
    cases List.mem_singleton.mp hc
    cases hp
  enter := by
    intro cs span label hcs ⟨source, hspan⟩ c hc
    rcases List.mem_cons.mp hc with rfl | hc
    · rintro p ⟨⟩
      exact hspan.start.real
    · exact hcs c hc
  start s := ⟨s, Span.in_point (Position.real_start s)⟩
  raised hcalls hspan _ := located_ofCalls hcalls hspan _
  escaped _ hcalls hspan := located_ofCalls hcalls hspan _
  quoted _ hcalls hspan _ := located_ofCalls hcalls hspan _
  parsed := by
    intro m tree s _ hparse
    have hplaced := s.parse_placed
    rw [hparse] at hplaced
    exact ⟨s, hplaced⟩
  refused := by
    intro m f s hparse
    have hplaced := s.parse_placed
    rw [hparse] at hplaced
    exact hplaced.located
  loaded _ _ := trivial

namespace Machine

/-- All functions on a machine lie in sources. -/
def FunctionsIn (m : Machine) : Prop :=
  ∀ f ∈ m.store.functions, ∃ source, f.definition.body.In source

theorem Session.functionsIn {world : World} {m : Machine} (h : Session world m) :
    m.FunctionsIn := by
  induction h with
  | start => nofun
  | @run m n source _ ih =>
    exact ((Discipline.located m).run_obeys n _ ⟨.refl, ih⟩ trivial).1.functions
  | takeOutput _ ih => exact ih

/-- **Every reported location is real.** If a run fails, whatever the session has run
before, both ends of the failure's span are places of one source, in order; every frame
of its traceback is at a place of its own source; the lines that are shown are lines of
the text; and the bytes that are marked are bytes of it. -/
theorem failures_located {world : World} {m k : Machine} (hs : Session world m) {n : Nat}
    {source : Source} {f : Failure} (hrun : m.run n source = (.failure f, k)) :
    f.span.stop.source = f.span.start.source ∧
    f.span.start.Real ∧ f.span.stop.Real ∧ f.span.start.index ≤ f.span.stop.index ∧
    (∀ frame ∈ f.traceback, frame.position.Real) ∧
    (∀ n ≤ f.span.lastLine.1,
      ∃ line, (Text.split '\n' f.span.source.text.toList)[n]? = some line) ∧
    f.span.start.index + f.span.byteLength ≤ f.span.source.text.utf8ByteSize := by
  have hobeys := (Discipline.located m).run_obeys n source ⟨.refl, hs.functionsIn⟩
    trivial
  obtain ⟨⟨origin, hspan⟩, hframes⟩ : f.Located := hobeys.2 f (congrArg Prod.fst hrun)
  have hsource : f.span.source = origin := hspan.start.source_eq
  refine ⟨?_, hspan.start.real, hspan.stop.real, hspan.ordered, hframes, ?_, ?_⟩
  · rw [hspan.stop.source_eq, hspan.start.source_eq]
  · rw [hsource]
    exact fun n hn => hspan.line_exists hn
  · rw [hsource]
    exact hspan.label_le

/-! ### A function that fails in a later program -/

def definer : Source := ⟨"lib", "func f() => 1 / 0"⟩

def caller : Source := ⟨"<test>", "f()"⟩

/-- The sources that a failure names: that of its span, and those of its frames. -/
def blamed : Outcome → Option (Source × List Source)
  | .failure f => some (f.span.source, f.traceback.map (·.position.source))
  | _ => none

theorem failures_located_later : ∃ f k,
    ((start default).run 9 definer).2.run 9 caller = (.failure f, k) ∧
    f.span.source = definer ∧ f.traceback.map (·.position.source) = [caller, definer] ∧
    f.span.start.Real ∧ f.span.stop.Real ∧ ∀ frame ∈ f.traceback, frame.position.Real := by
  have hs : Session default ((start default).run 9 definer).2 := .run 9 definer .start
  have hblamed : blamed (((start default).run 9 definer).2.run 9 caller).1 =
      some (definer, [caller, definer]) := by decide +kernel
  cases hrun : ((start default).run 9 definer).2.run 9 caller with
  | mk outcome k =>
    rw [hrun] at hblamed
    cases outcome with
    | failure f =>
      obtain ⟨hsource, hframes⟩ := Prod.mk.inj (Option.some.inj hblamed)
      obtain ⟨_, hstart, hstop, _, hreal, _⟩ := failures_located hs hrun
      exact ⟨f, k, rfl, hsource, hframes, hstart, hstop, hreal⟩
    | value v => cases hblamed
    | exhausted => cases hblamed

end Machine

end Script
