import Script.Proofs.Partition
import Script.Proofs.Subtrees
import Script.Parser.Expression

/-! Where the nodes of a program lie.

The tokens of a source lie in its text one behind the other, and a parser only moves
forward over them, or back to where an attempt began. Whatever it does, the current
token is never before the one it started at, and what it reads lies between the two
(`Places`). So every node of a program is tagged with a span of its source, and an
operator with the span from its left operand to its right one; and a source that is
refused is refused at one of its own places (`Source.parse_placed`). -/
namespace Script

variable {α β : Type} {source : Source}

/-! ### Spans -/

/-- Both ends are places of the source, and the first is not behind the second. -/
structure Span.In (source : Source) (s : Span) : Prop where
  start : Position.InText source s.start
  stop : Position.InText source s.stop
  ordered : s.start.index ≤ s.stop.index

theorem Span.in_point {p : Position} (h : Position.InText source p) : Span.In source (.point p) :=
  ⟨h, h, Nat.le_refl _⟩

/-- Two spans of which the first does not start behind the end of the second. -/
theorem Span.In.through {s t : Span} (hs : Span.In source s) (ht : Span.In source t)
    (h : s.start.index ≤ t.stop.index) : Span.In source (s.through t) :=
  ⟨hs.start, ht.stop, h⟩

/-- A fault that is found before the program runs, at a place of the source. -/
structure Failure.Static (source : Source) (f : Failure) : Prop where
  place : Span.In source f.span
  kind : f.fault.kind.isStatic = true
  traceback : f.traceback = []

/-! ### Cursors -/

namespace Cursor

/-- The byte offset of the current token. -/
def index (c : Cursor) : Nat := c.current.span.start.index

/-- The tokens to come lie in the source one behind the other, the last one passed
before them and the end token behind them. -/
structure In (source : Source) (c : Cursor) : Prop where
  token : ∀ t ∈ c.rest, Span.In source t.span
  eof : Span.In source c.eof.span
  ordered : c.rest.Pairwise fun t u => t.span.stop.index ≤ u.span.start.index
  last : ∀ t ∈ c.rest, t.span.stop.index ≤ c.eof.span.start.index
  empty : c.eof.span.stop.index ≤ c.eof.span.start.index
  previous : ∀ p ∈ c.previous, Position.InText source p ∧ p.index ≤ c.index

variable {c : Cursor}

theorem In.current (h : c.In source) : Span.In source c.current.span := by
  unfold Cursor.current
  cases hr : c.rest with
  | nil => exact h.eof
  | cons t ts => exact h.token t (by rw [hr]; exact List.mem_cons_self)

/-- The current token ends before the one behind it starts. -/
theorem In.current_le (h : c.In source) : c.current.span.stop.index ≤ c.advance.index := by
  unfold Cursor.index Cursor.advance Cursor.current
  cases hr : c.rest with
  | nil => simpa [hr] using h.empty
  | cons t ts =>
    cases hts : ts with
    | nil => exact h.last t (by rw [hr]; exact List.mem_cons_self)
    | cons u us =>
      have hp := h.ordered
      rw [hr, hts] at hp
      exact List.rel_of_pairwise_cons hp List.mem_cons_self

theorem In.index_le (h : c.In source) : c.index ≤ c.advance.index :=
  Nat.le_trans h.current.ordered h.current_le

theorem In.advance (h : c.In source) : c.advance.In source := by
  have hle := h.current_le
  have hcurrent := h.current
  unfold Cursor.advance at *
  cases hr : c.rest with
  | nil =>
    rw [hr] at hle
    exact h
  | cons t ts =>
    have ht : c.current = t := by rw [Cursor.current, hr]; rfl
    rw [hr, ht] at hle
    rw [ht] at hcurrent
    have hmem : ∀ u ∈ ts, u ∈ c.rest := fun u hu => hr ▸ List.mem_cons_of_mem t hu
    refine ⟨fun u hu => h.token u (hmem u hu), h.eof, (List.pairwise_cons.mp (hr ▸ h.ordered)).2,
      fun u hu => h.last u (hmem u hu), h.empty, fun p hp => ?_⟩
    cases hp
    exact ⟨hcurrent.stop, hle⟩

theorem In.skipNewlines (h : c.In source) (n : Nat) :
    (c.skipNewlines n).In source ∧ c.index ≤ (c.skipNewlines n).index := by
  induction n generalizing c with
  | zero => exact ⟨h, Nat.le_refl _⟩
  | succ n ih =>
    unfold Cursor.skipNewlines
    split
    · obtain ⟨hin, hle⟩ := ih h.advance
      exact ⟨hin, Nat.le_trans h.index_le hle⟩
    · exact ⟨h, Nat.le_refl _⟩

theorem In.previousEnd (h : c.In source) :
    Position.InText source c.previousEnd ∧ c.previousEnd.index ≤ c.index := by
  unfold Cursor.previousEnd
  cases hp : c.previous with
  | none => exact ⟨h.current.start, Nat.le_refl _⟩
  | some p => exact h.previous p hp

end Cursor

/-! ### Parsers -/

namespace ParseState

/-- The tokens to come lie in the source, and so do the errors so far. -/
structure In (source : Source) (s : ParseState) : Prop where
  cursor : s.cursor.In source
  furthest : ∀ f ∈ s.furthest, f.Static source

def index (s : ParseState) : Nat := s.cursor.index

/-- Behind the current token. -/
def pass (s : ParseState) : ParseState := { s with cursor := s.cursor.advance }

/-- In the same source, and not before `s`. -/
structure Ahead (source : Source) (s t : ParseState) : Prop where
  state : t.In source
  index : s.index ≤ t.index

variable {s t u : ParseState}

theorem Ahead.refl (h : s.In source) : Ahead source s s := ⟨h, Nat.le_refl _⟩

theorem Ahead.trans (h : Ahead source s t) (h' : Ahead source t u) : Ahead source s u :=
  ⟨h'.state, Nat.le_trans h.index h'.index⟩

theorem In.pass (h : s.In source) : Ahead source s s.pass :=
  ⟨⟨h.cursor.advance, h.furthest⟩, h.cursor.index_le⟩

/-- Back to an earlier cursor, with the errors so far. -/
theorem In.rewind (h : s.In source) {c : Cursor} (hc : c.In source) :
    ParseState.In source { s with cursor := c } :=
  ⟨hc, h.furthest⟩

end ParseState

open ParseState (Ahead)

namespace Parser

variable {s : ParseState} {P : α → ParseState → Prop} {R : β → ParseState → Prop}

/-- From `s` on a parser stays in the source and goes no way back. If it succeeds,
`post` holds of the result and of the state then; it fails at a place of the source. -/
def Stays (source : Source) (s : ParseState) (p : Parser α) (post : α → ParseState → Prop) :
    Prop :=
  match p s with
  | .ok a t => Ahead source s t ∧ post a t
  | .error f t => Ahead source s t ∧ f.Static source

namespace Stays

theorem bind {p : Parser α} {f : α → Parser β} (hp : Stays source s p P)
    (hf : ∀ a t, Ahead source s t → P a t → Stays source t (f a) R) :
    Stays source s (p >>= f) R := by
  show Stays source s (EStateM.bind p f) R
  unfold Stays EStateM.bind at *
  cases hps : p s with
  | error e t =>
    rw [hps] at hp
    exact hp
  | ok a t =>
    rw [hps] at hp
    have hfa := hf a t hp.1 hp.2
    dsimp only
    cases hr : f a t <;> rw [hr] at hfa
    · exact ⟨hp.1.trans hfa.1, hfa.2⟩
    · exact ⟨hp.1.trans hfa.1, hfa.2⟩

theorem pure {a : α} (hs : s.In source) (h : P a s) : Stays source s (Pure.pure a) P :=
  ⟨.refl hs, h⟩

/-- A first step that moves to `t`. -/
theorem step {p : Parser α} {f : α → Parser β} {a : α} {t : ParseState} (hp : p s = .ok a t)
    (ht : Ahead source s t) (hf : Stays source t (f a) R) : Stays source s (p >>= f) R := by
  refine bind (P := fun b u => b = a ∧ u = t) ?_ ?_
  · unfold Stays
    rw [hp]
    exact ⟨ht, rfl, rfl⟩
  · rintro _ _ _ ⟨rfl, rfl⟩
    exact hf

theorem get {f : ParseState → Parser β} (h : Stays source s (f s) R) :
    Stays source s (MonadState.get >>= f) R := h

theorem current {f : Token → Parser β} (h : Stays source s (f s.cursor.current) R) :
    Stays source s (current >>= f) R := h

theorem following {f : Token → Parser β} (h : Stays source s (f s.cursor.following) R) :
    Stays source s (following >>= f) R := h

theorem remaining {f : Nat → Parser β} (h : Stays source s (f s.cursor.rest.length) R) :
    Stays source s (remaining >>= f) R := h

theorem atSymbol (symbol : Symbol) {f : Bool → Parser β} (h : ∀ b, Stays source s (f b) R) :
    Stays source s (atSymbol symbol >>= f) R := h _

theorem atKeyword (keyword : Keyword) {f : Bool → Parser β} (h : ∀ b, Stays source s (f b) R) :
    Stays source s (atKeyword keyword >>= f) R := h _

/-- Whether the keyword comes is known. -/
theorem atKeyword_of {keyword : Keyword} {b : Bool} {f : Bool → Parser β}
    (hb : s.cursor.current.kind.isKeyword keyword = b) (h : Stays source s (f b) R) :
    Stays source s (Parser.atKeyword keyword >>= f) R := by
  subst hb
  exact h

theorem atNewline {f : Bool → Parser β} (h : ∀ b, Stays source s (f b) R) :
    Stays source s (atNewline >>= f) R := h _

theorem advance (hs : s.In source) {f : Token → Parser β}
    (h : Stays source s.pass (f s.cursor.current) R) : Stays source s (advance >>= f) R :=
  step rfl hs.pass h

/-- A step forward that is taken back by what follows it. -/
theorem back {p : Parser α} {f : α → Parser β} {a : α} {b : β} {t : ParseState}
    (hs : s.In source) (ht : t.In source) (hp : p s = .ok a t)
    (hf : f a t = .ok b { t with cursor := s.cursor }) (h : R b { t with cursor := s.cursor }) :
    Stays source s (p >>= f) R := by
  show Stays source s (EStateM.bind p f) R
  unfold Stays EStateM.bind
  rw [hp]
  dsimp only
  rw [hf]
  exact ⟨⟨ht.rewind hs.cursor, Nat.le_refl _⟩, h⟩

theorem skipNewlines (hs : s.In source) {f : Unit → Parser β}
    (h : ∀ t, Ahead source s t → Stays source t (f ()) R) :
    Stays source s (skipNewlines >>= f) R := by
  obtain ⟨hin, hle⟩ := hs.cursor.skipNewlines s.cursor.rest.length
  have ht : Ahead source s
      { s with cursor := s.cursor.skipNewlines s.cursor.rest.length } :=
    ⟨hs.rewind hin, hle⟩
  exact step rfl ht (h _ ht)

/-- The span from a place that is not ahead starts there. -/
theorem spanFrom (hs : s.In source) {start : Position} (hstart : Position.InText source start)
    (hle : start.index ≤ s.index) {f : Span → Parser β}
    (h : ∀ span, Span.In source span → span.start = start → span.stop.index ≤ s.index →
      Stays source s (f span) R) : Stays source s (spanFrom start >>= f) R := by
  obtain ⟨hprevious, hpe⟩ := hs.cursor.previousEnd
  refine step rfl (.refl hs) (h _ ?_ ?_ ?_)
  · split
    · exact Span.in_point hstart
    · exact ⟨hstart, hprevious, Nat.le_of_not_lt ‹_›⟩
  · split <;> rfl
  · split
    · exact hle
    · exact hpe

theorem raise (hs : s.In source) {failure : Failure} (hf : failure.Static source) :
    Stays source s (raise failure) P := by
  have hwinner : (further s.furthest failure).Static source := by
    unfold further
    cases hfurthest : s.furthest with
    | none => exact hf
    | some f =>
      dsimp only
      split
      · exact hs.furthest f hfurthest
      · exact hf
  refine ⟨⟨⟨hs.cursor, ?_⟩, Nat.le_refl _⟩, hwinner⟩
  rintro f ⟨⟩
  exact hwinner

/-- A syntax error at a token. -/
theorem raiseAt (hs : s.In source) {fault : Fault} {span : Span} (hspan : Span.In source span)
    (hkind : fault.kind.isStatic = true) :
    Stays source s (Parser.raise (.ofText fault span)) P :=
  raise hs ⟨hspan, hkind, rfl⟩

theorem raiseHere (hs : s.In source) (what : Expectation) :
    Stays source s (raiseHere what) P :=
  current (raiseAt hs hs.cursor.current rfl)

/-- Nothing comes behind a failure. -/
theorem raiseHere_bind (hs : s.In source) (what : Expectation) {f : α → Parser β} :
    Stays source s (Parser.raiseHere what >>= f) R :=
  bind (P := fun _ _ => False) (raiseHere hs what) fun _ _ _ h => h.elim

theorem orExpected {p : Parser α} (h : Stays source s p P) (what : Expectation) :
    Stays source s (orExpected p what) P := by
  unfold Stays Parser.orExpected at *
  cases hp : p s with
  | ok a t =>
    rw [hp] at h
    exact h
  | error f t =>
    rw [hp] at h
    have hraise : Stays source t (Parser.raiseHere (α := α) what) P := raiseHere h.1.state what
    unfold Stays at hraise
    dsimp only
    cases hr : Parser.raiseHere (α := α) what t <;> rw [hr] at hraise
    · exact ⟨h.1.trans hraise.1, hraise.2⟩
    · exact ⟨h.1.trans hraise.1, hraise.2⟩

theorem attempt {p : Parser α} (hs : s.In source) (h : Stays source s p P) :
    Stays source s (attempt p) fun a t => ∀ x, a = some x → P x t := by
  unfold Stays Parser.attempt at *
  cases hp : p s with
  | ok a t =>
    rw [hp] at h
    refine ⟨h.1, ?_⟩
    rintro _ ⟨⟩
    exact h.2
  | error f t =>
    rw [hp] at h
    exact ⟨⟨⟨hs.cursor, h.1.state.furthest⟩, Nat.le_refl _⟩, nofun⟩

theorem expect (hs : s.In source) (symbol : Symbol) (what : Expectation) :
    Stays source s (expect symbol what) fun _ _ => True := by
  refine atSymbol symbol fun b => ?_
  split
  · exact advance hs (pure hs.pass.state trivial)
  · exact raiseHere hs what

theorem expectKeyword (hs : s.In source) (keyword : Keyword) :
    Stays source s (expectKeyword keyword) fun _ _ => True := by
  refine atKeyword keyword fun b => ?_
  split
  · exact advance hs (pure hs.pass.state trivial)
  · exact raiseHere hs _

theorem expectIdent (hs : s.In source) (what : Expectation) :
    Stays source s (expectIdent what) fun _ _ => True := by
  refine current ?_
  split
  · exact advance hs (pure hs.pass.state trivial)
  · exact raiseHere hs what

end Stays

end Parser

/-! ### Nodes -/

namespace Node

/-- An operator is tagged with the span of its operands. -/
def SpansOperands : Node Span → Prop
  | .binary span _ left right => span = left.tag.through right.tag
  | _ => True

/-- The tag of a node is a span of the source. -/
structure Tagged (source : Source) (tree : Node Span) : Prop where
  place : Span.In source tree.tag
  operands : tree.SpansOperands

/-- A node all of whose tags are spans of the source. -/
abbrev In (source : Source) (tree : Node Span) : Prop := tree.All (Tagged source)

/-- Such a node between two byte offsets. -/
structure Between (source : Source) (low high : Nat) (tree : Node Span) : Prop where
  inside : tree.In source
  low : low ≤ tree.tag.start.index
  high : tree.tag.stop.index ≤ high

variable {tree : Node Span} {low high : Nat}

theorem Between.place (h : tree.Between source low high) : Span.In source tree.tag :=
  h.inside.self.place

theorem Between.widen {low' high' : Nat} (h : tree.Between source low high) (hlow : low' ≤ low)
    (hhigh : high ≤ high') : tree.Between source low' high' :=
  ⟨h.inside, Nat.le_trans hlow h.low, Nat.le_trans h.high hhigh⟩

/-- A node without a loop body or definitions. -/
theorem In.plain (place : Span.In source tree.tag) (operands : tree.SpansOperands)
    (children : ∀ sub ∈ tree.children, sub.In source) (body : tree.loopBody = none)
    (definitions : tree.definitions = []) : tree.In source := by
  refine .intro ⟨place, operands⟩ children ?_ ?_
  · rw [body]
    nofun
  · rw [definitions]
    nofun

end Node

namespace Parser

variable {s : ParseState} {e a : Parser (Node Span)} {low : Nat}

/-- A parser of nodes that lie between where it starts and where it ends. -/
def Places (source : Source) (p : Parser (Node Span)) : Prop :=
  ∀ s, s.In source → Stays source s p fun tree t => tree.Between source s.index t.index

theorem places_raiseHere (what : Expectation) : Places source (raiseHere what) :=
  fun _ hs => .raiseHere hs what

theorem Places.orExpected {p : Parser (Node Span)} (h : Places source p) (what : Expectation) :
    Places source (orExpected p what) :=
  fun s hs => (h s hs).orExpected what

/-! ### Operators -/

theorem stays_chainFrom {op? : TokenKind → Option BinaryOp} {right : Parser (Node Span)}
    (hright : Places source right) (n : Nat) (hs : s.In source) {left : Node Span}
    (hleft : left.Between source low s.index) :
    Stays source s (chainFrom op? right n left) fun tree t => tree.Between source low t.index := by
  induction n generalizing s left with
  | zero => exact .pure hs hleft
  | succ n ih =>
    refine .current ?_
    split
    · exact .pure hs hleft
    · refine .advance hs (.bind (hright _ hs.pass.state) fun r t ht hr => ih ht.state ?_)
      have hmid : left.tag.start.index ≤ r.tag.stop.index := by
        have h₁ := hleft.place.ordered
        have h₂ := hleft.high
        have h₃ := hs.pass.index
        have h₄ := hr.low
        have h₅ := hr.place.ordered
        omega
      refine ⟨.plain (hleft.place.through hr.place hmid) rfl ?_ rfl rfl, hleft.low, hr.high⟩
      simpa [Node.children] using ⟨hleft.inside, hr.inside⟩

theorem Places.chain {operand right : Parser (Node Span)} {op? : TokenKind → Option BinaryOp}
    (hoperand : Places source operand) (hright : Places source right) :
    Places source (chain operand op? right) := by
  intro s hs
  exact .bind (hoperand s hs) fun left t ht hleft =>
    .remaining (stays_chainFrom hright _ ht.state hleft)

theorem stays_argumentsFrom (he : Places source e) (n : Nat) (hs : s.In source)
    {items : List (Node Span)} (hitems : ∀ item ∈ items, item.In source) :
    Stays source s (argumentsFrom e n items) fun items _ => ∀ item ∈ items, item.In source := by
  induction n generalizing s items with
  | zero => exact .pure hs hitems
  | succ n ih =>
    refine .atSymbol _ fun b => ?_
    split
    · refine .advance hs (.bind (he _ hs.pass.state) fun item t ht hitem => ih ht.state ?_)
      intro x hx
      rcases List.mem_append.mp hx with hx | hx
      · exact hitems x hx
      · exact List.mem_singleton.mp hx ▸ hitem.inside
    · exact .pure hs hitems

theorem stays_arguments (he : Places source e) (hs : s.In source) (close : Symbol) :
    Stays source s (arguments e close) fun items _ => ∀ item ∈ items, item.In source := by
  have hs' := hs.pass.state
  refine .advance hs (.atSymbol _ fun b => ?_)
  split
  · exact .advance hs' (.pure hs'.pass.state nofun)
  · refine .bind (he.orExpected _ _ hs') fun first t ht hfirst => .remaining ?_
    refine .bind (stays_argumentsFrom he _ ht.state ?_) fun items t' ht' hitems => ?_
    · intro x hx
      exact List.mem_singleton.mp hx ▸ hfirst.inside
    · exact .bind (.expect ht'.state ..) fun _ t'' ht'' _ => .pure ht''.state hitems

/-- The suffixes of a node start where it does. -/
theorem stays_suffixesFrom (he : Places source e) (n : Nat) (hs : s.In source) {node : Node Span}
    (hnode : node.Between source low s.index) :
    Stays source s (suffixesFrom e n node) fun tree t => tree.Between source low t.index := by
  induction n generalizing s node with
  | zero => exact .pure hs hnode
  | succ n ih =>
    -- Whatever the suffix is, its node is tagged with a span from the start of `node`.
    have hsuffix : ∀ (t : ParseState) (make : Span → Node Span), Ahead source s t →
        (∀ span, (make span).tag = span) →
        (∀ span, Span.In source span → (make span).In source) →
        Stays source t (do suffixesFrom e n (make (← spanFrom node.tag.start)))
          fun tree t => tree.Between source low t.index := by
      intro t make ht htag hin
      have hle : node.tag.start.index ≤ t.index :=
        Nat.le_trans hnode.place.ordered (Nat.le_trans hnode.high ht.index)
      refine .spanFrom ht.state hnode.place.start hle fun span hspan hstart hstop => ih ht.state ?_
      refine ⟨hin span hspan, ?_, ?_⟩ <;> rw [htag]
      · rw [hstart]
        exact hnode.low
      · exact hstop
    refine .current ?_
    split
    · refine .bind (stays_arguments he hs _) fun args t ht hargs => ?_
      refine hsuffix t (fun span => .call span node args) ht (fun _ => rfl) fun span hspan => ?_
      refine .plain hspan trivial ?_ rfl rfl
      simpa [Node.children] using ⟨hnode.inside, hargs⟩
    · refine .advance hs (.bind (he _ hs.pass.state) fun index t ht hindex => ?_)
      refine .bind (.expect ht.state ..) fun _ t' ht' _ => ?_
      refine hsuffix t' (fun span => .index span node index) ((hs.pass.trans ht).trans ht')
        (fun _ => rfl) fun span hspan => ?_
      refine .plain hspan trivial ?_ rfl rfl
      simpa [Node.children] using ⟨hnode.inside, hindex.inside⟩
    · refine .advance hs (.bind (.expectIdent hs.pass.state _) fun name t ht _ => ?_)
      refine .atSymbol _ fun b => ?_
      split
      · refine .bind (stays_arguments he ht.state _) fun args t' ht' hargs => ?_
        refine hsuffix t' (fun span => .methodCall span node name.1 args)
          ((hs.pass.trans ht).trans ht') (fun _ => rfl) fun span hspan => ?_
        refine .plain hspan trivial ?_ rfl rfl
        simpa [Node.children] using ⟨hnode.inside, hargs⟩
      · refine hsuffix t (fun span => .getAttr span node name.1) (hs.pass.trans ht)
          (fun _ => rfl) fun span hspan => ?_
        refine .plain hspan trivial ?_ rfl rfl
        simpa [Node.children] using hnode.inside
    · exact .pure hs hnode

theorem Places.call (he : Places source e) (ha : Places source a) : Places source (call e a) := by
  intro s hs
  exact .bind (ha s hs) fun node t ht hnode =>
    .remaining (stays_suffixesFrom he _ ht.state hnode)

/-- A sign or `not`, which was just passed, before an operand. -/
theorem stays_signed {op : UnaryOp} {p : Parser (Node Span)} (hp : Places source p)
    (hs : s.In source) : Stays source s.pass (do
      let operand ← p
      return Node.unary (s.cursor.current.span.through operand.tag) op operand)
    fun tree t => tree.Between source s.index t.index := by
  refine .bind (hp _ hs.pass.state) fun operand t ht hoperand => .pure ht.state ?_
  have hcurrent := hs.cursor.current
  have hmid : s.cursor.current.span.start.index ≤ operand.tag.stop.index :=
    Nat.le_trans hs.pass.index (Nat.le_trans hoperand.low hoperand.place.ordered)
  refine ⟨.plain (hcurrent.through hoperand.place hmid) trivial ?_ rfl rfl, Nat.le_refl _,
    hoperand.high⟩
  simpa [Node.children] using hoperand.inside

theorem Places.factor (he : Places source e) (ha : Places source a) (n : Nat) :
    Places source (factor e a n) := by
  induction n with
  | zero => exact (he.call ha).chain (places_raiseHere _)
  | succ n ih =>
    intro s hs
    refine .current ?_
    split
    · exact (he.call ha).chain ih s hs
    · exact .advance hs (stays_signed ih hs)

theorem Places.arith (he : Places source e) (ha : Places source a) : Places source (arith e a) := by
  have hfactor : Places source (anyFactor e a) := fun s hs => .remaining (he.factor ha _ s hs)
  have hterm : Places source (term e a) := hfactor.chain hfactor
  exact hterm.chain hterm

theorem Places.comparison (he : Places source e) (ha : Places source a) (n : Nat) :
    Places source (comparison e a n) := by
  have hcompared : Places source (compared e a) := ((he.arith ha).chain (he.arith ha)).orExpected _
  induction n with
  | zero => exact hcompared
  | succ n ih =>
    intro s hs
    refine .atKeyword _ fun b => ?_
    split
    · exact .advance hs (stays_signed ih hs)
    · exact hcompared s hs

theorem Places.logic (he : Places source e) (ha : Places source a) : Places source (logic e a) := by
  have hcomparison : Places source (anyComparison e a) :=
    fun s hs => .remaining (he.comparison ha _ s hs)
  exact (hcomparison.chain hcomparison).orExpected _

/-! ### Statements -/

/-- A node that is tagged with the span from the token at which it starts. -/
theorem stays_spanFrom (hs : s.In source) {t : ParseState} (ht : Ahead source s t)
    {make : Span → Node Span} (htag : ∀ span, (make span).tag = span)
    (hin : ∀ span, Span.In source span → (make span).In source) :
    Stays source t (do return make (← spanFrom s.cursor.current.span.start))
      fun tree t => tree.Between source s.index t.index := by
  refine .spanFrom ht.state hs.cursor.current.start ht.index fun span hspan hstart hstop => ?_
  refine .pure ht.state ⟨hin span hspan, ?_, ?_⟩ <;> rw [htag]
  · rw [hstart]
    exact Nat.le_refl _
  · exact hstop

/-- A node that is one token, which was just passed. -/
theorem between_token (hs : s.In source) {tree : Node Span}
    (htag : tree.tag = s.cursor.current.span) (operands : tree.SpansOperands)
    (children : tree.children = []) (body : tree.loopBody = none)
    (definitions : tree.definitions = []) : tree.Between source s.index s.pass.index := by
  refine ⟨.plain (htag ▸ hs.cursor.current) operands ?_ body definitions, ?_, ?_⟩
  · rw [children]
    nofun
  · rw [htag]
    exact Nat.le_refl _
  · rw [htag]
    exact hs.cursor.current_le

theorem Places.statement (he : Places source e) : Places source (statement e) := by
  intro s hs
  have hs' := hs.pass.state
  refine .current (.following ?_)
  split
  · refine .advance hs (.bind (.attempt hs' (he _ hs')) fun value t ht hvalue => ?_)
    refine stays_spanFrom hs (hs.pass.trans ht) (fun _ => rfl) fun span hspan => ?_
    refine .plain hspan trivial (fun sub hsub => ?_) rfl rfl
    exact (hvalue sub (Option.mem_toList.mp hsub)).inside
  · exact .advance hs (.pure hs' (between_token hs rfl trivial rfl rfl rfl))
  · exact .advance hs (.pure hs' (between_token hs rfl trivial rfl rfl rfl))
  · refine .advance hs (.advance hs' ?_)
    refine .bind (he _ hs'.pass.state) fun value t ht hvalue => ?_
    refine stays_spanFrom hs ((hs.pass.trans hs'.pass).trans ht) (fun _ => rfl) fun span hspan => ?_
    exact .plain hspan trivial (by simpa [Node.children] using hvalue.inside) rfl rfl
  · refine .bind (he.orExpected _ s hs) fun node t ht hnode => .current ?_
    split
    · rename_i object name _
      refine .advance ht.state (.bind (he _ ht.state.pass.state) fun value t' ht' hvalue => ?_)
      refine stays_spanFrom hs ((ht.trans ht.state.pass).trans ht') (fun _ => rfl) ?_
      intro span hspan
      refine .plain hspan trivial ?_ rfl rfl
      have hobject := hnode.inside.child object (by simp [Node.children])
      simpa [Node.children] using ⟨hobject, hvalue.inside⟩
    · exact .pure ht.state hnode

/-- The items of a sequence, one behind the other between two byte offsets. -/
inductive Row (source : Source) (low : Nat) : List (Node Span) → Nat → Prop where
  | nil {high : Nat} : low ≤ high → Row source low [] high
  | snoc {items : List (Node Span)} {mid high : Nat} {item : Node Span} :
      Row source low items mid → item.Between source mid high → Row source low (items ++ [item]) high

theorem Row.widen {items : List (Node Span)} {high high' : Nat} (h : Row source low items high)
    (hle : high ≤ high') : Row source low items high' := by
  cases h with
  | nil h => exact .nil (Nat.le_trans h hle)
  | snoc h hitem => exact .snoc h (hitem.widen (Nat.le_refl _) hle)

theorem Row.le {items : List (Node Span)} {high : Nat} (h : Row source low items high) :
    low ≤ high := by
  induction h with
  | nil h => exact h
  | snoc _ hitem ih =>
    have h₁ := hitem.low
    have h₂ := hitem.place.ordered
    have h₃ := hitem.high
    omega

theorem Row.inside {items : List (Node Span)} {high : Nat} (h : Row source low items high) :
    ∀ item ∈ items, item.In source := by
  induction h with
  | nil => nofun
  | snoc _ hitem ih =>
    intro x hx
    rcases List.mem_append.mp hx with hx | hx
    · exact ih x hx
    · exact List.mem_singleton.mp hx ▸ hitem.inside

/-- The first item of a sequence starts at its lower end or behind it. -/
theorem Row.head {items : List (Node Span)} {high : Nat} (h : Row source low items high) :
    ∀ first ∈ items.head?, first.Between source low high := by
  induction h with
  | nil => nofun
  | @snoc items mid high item hrow hitem ih =>
    intro first hfirst
    have hmid : mid ≤ high :=
      Nat.le_trans (Nat.le_trans hitem.low hitem.place.ordered) hitem.high
    cases items with
    | nil =>
      cases hfirst
      exact hitem.widen hrow.le (Nat.le_refl _)
    | cons x xs => exact (ih first hfirst).widen (Nat.le_refl _) hmid

/-- A sequence is tagged from its first item to its last. -/
theorem Row.blockSpan {items : List (Node Span)} {high : Nat} (h : Row source low items high)
    {start : Position} (hstart : Position.InText source start) (hlow : start.index = low) :
    Span.In source (blockSpan start items) ∧ low ≤ (blockSpan start items).start.index ∧
      (blockSpan start items).stop.index ≤ high := by
  unfold Parser.blockSpan
  cases h with
  | nil hle => exact ⟨Span.in_point hstart, Nat.le_of_eq hlow.symm, hlow ▸ hle⟩
  | @snoc items mid high item hrow hitem =>
    have hhead := (Row.snoc hrow hitem).head
    rw [List.getLast?_concat]
    cases hfirst : (items ++ [item]).head? with
    | none => simp at hfirst
    | some first =>
      have hbetween := hhead first hfirst
      have hle : first.tag.start.index ≤ item.tag.stop.index := by
        cases items with
        | nil =>
          cases hfirst
          exact hitem.place.ordered
        | cons x xs =>
          have hx := hrow.head first hfirst
          have h₁ := hx.place.ordered
          have h₂ := hx.high
          have h₃ := hitem.low
          have h₄ := hitem.place.ordered
          omega
      exact ⟨hbetween.place.through hitem.place hle, hbetween.low, hitem.high⟩

theorem stays_statementsFrom (he : Places source e) (n : Nat) (hs : s.In source)
    {items : List (Node Span)} (hitems : Row source low items s.index) :
    Stays source s (statementsFrom e n items) fun items t => Row source low items t.index := by
  induction n generalizing s items with
  | zero => exact .pure hs hitems
  | succ n ih =>
    refine .skipNewlines hs fun t ht => ?_
    refine .bind (.attempt ht.state (he.statement t ht.state)) fun answer t' ht' hanswer => ?_
    cases answer with
    | none => exact .pure ht'.state (hitems.widen (Nat.le_trans ht.index ht'.index))
    | some item =>
      have hrow : Row source low (items ++ [item]) t'.index :=
        .snoc (hitems.widen ht.index) (hanswer item rfl)
      refine .atNewline fun b => ?_
      split
      · exact ih ht'.state hrow
      · exact .pure ht'.state hrow

theorem Places.statements (he : Places source e) : Places source (statements e) := by
  intro s hs
  refine .current (.remaining ?_)
  refine .bind (stays_statementsFrom he _ hs (.nil (Nat.le_refl _))) fun items t ht hrow => ?_
  obtain ⟨hin, hlow, hhigh⟩ := hrow.blockSpan hs.cursor.current.start rfl
  exact .pure ht.state ⟨.plain hin trivial hrow.inside rfl rfl, hlow, hhigh⟩

/-! ### Bodies -/

theorem stays_branchBody (he : Places source e) (hs : s.In source) :
    Stays source s (branchBody e) fun body _ => body.node.In source := by
  have hs' := hs.pass.state
  have hclose : ∀ (body : Body Span) t, t.In source → body.node.In source →
      Stays source t (do
        if s.cursor.current.kind.isSymbol .leftBrace then
          skipNewlines
          let _ ← expect .rightBrace (.symbol .rightBrace)
        return body) fun body _ => body.node.In source := by
    intro body t ht hbody
    split
    · refine .skipNewlines ht fun t' ht' => ?_
      exact .bind (.expect ht'.state ..) fun _ t'' ht'' _ => .pure ht''.state hbody
    · exact .pure ht hbody
  refine .current ?_
  dsimp only
  split
  · exact .raiseHere_bind hs _
  · refine .advance hs (.atNewline fun b => ?_)
    split
    · refine .advance hs' (.bind (he.statements _ hs'.pass.state) fun block t ht hblock => ?_)
      exact hclose (.mk block true) t ht.state hblock.inside
    · refine .bind (he.statement _ hs') fun node t ht hnode => ?_
      exact hclose (.mk node false) t ht.state hnode.inside

theorem stays_bracedBody (he : Places source e) (hs : s.In source) :
    Stays source s (bracedBody e) fun body _ => body.node.In source := by
  refine .advance hs (.bind (he.statements _ hs.pass.state) fun block t ht hblock => ?_)
  exact .bind (.expect ht.state ..) fun _ t' ht' _ => .pure ht'.state hblock.inside

theorem stays_endedBody (he : Places source e) (hs : s.In source) :
    Stays source s (endedBody e) fun body _ => body.node.In source := by
  refine .advance hs (.bind (he.statements _ hs.pass.state) fun block t ht hblock => ?_)
  exact .bind (.expectKeyword ht.state _) fun _ t' ht' _ => .pure ht'.state hblock.inside

theorem stays_inlineBody (he : Places source e) (hs : s.In source) :
    Stays source s (inlineBody e) fun body _ => body.node.In source :=
  .advance hs (.bind (he.statement _ hs.pass.state) fun _ _ ht hnode => .pure ht.state hnode.inside)

theorem stays_forBody (he : Places source e) (hs : s.In source) :
    Stays source s (forBody e) fun body _ => body.node.In source := by
  refine .current (.following ?_)
  split
  · exact .advance hs (stays_endedBody he hs.pass.state)
  · exact stays_inlineBody he hs
  · exact stays_bracedBody he hs
  · exact .raiseHere hs _

theorem stays_whileBody (he : Places source e) (hs : s.In source) :
    Stays source s (whileBody e) fun body _ => body.node.In source := by
  refine .current (.following ?_)
  split
  · exact stays_bracedBody he hs
  · exact .advance hs (stays_endedBody he hs.pass.state)
  · exact stays_inlineBody he hs
  · exact stays_endedBody he hs
  · exact .raiseHere hs _

/-! ### Conditionals, loops, functions, classes and instances -/

/-- Conditionals, as far as they have been read: all in the source. -/
def BranchesIn (source : Source) (branches : List (Branch Span)) (otherwise : Option (Body Span)) :
    Prop :=
  (∀ b ∈ branches, b.condition.In source ∧ b.body.node.In source) ∧
    ∀ body ∈ otherwise, body.node.In source

theorem stays_branchesFrom (he : Places source e) (n : Nat) (hs : s.In source)
    {branches : List (Branch Span)} (hbranches : BranchesIn source branches none) :
    Stays source s (branchesFrom e n branches) fun r _ => BranchesIn source r.1 r.2 := by
  induction n generalizing s branches with
  | zero => exact .raiseHere hs _
  | succ n ih =>
    refine .bind (he s hs) fun condition t ht hcondition => ?_
    refine .bind (stays_branchBody he ht.state) fun body t' ht' hbody => .get ?_
    have hmore : BranchesIn source (branches ++ [.mk condition body]) none := by
      refine ⟨fun b hb => ?_, nofun⟩
      rcases List.mem_append.mp hb with hb | hb
      · exact hbranches.1 b hb
      · cases List.mem_singleton.mp hb
        exact ⟨hcondition.inside, hbody⟩
    let u : ParseState := { t' with cursor := t'.cursor.skipNewlines t'.cursor.rest.length }
    have hu : Ahead source t' u := by
      obtain ⟨hin, hle⟩ := ht'.state.cursor.skipNewlines t'.cursor.rest.length
      exact ⟨ht'.state.rewind hin, hle⟩
    cases hElif : u.cursor.current.kind.isKeyword .elif with
    | true =>
      exact .step rfl hu (.atKeyword_of hElif (.advance hu.state (ih hu.state.pass.state hmore)))
    | false =>
      cases hElse : u.cursor.current.kind.isKeyword .elseWord with
      | true =>
        refine .step rfl hu (.atKeyword_of hElif (.atKeyword_of hElse (.advance hu.state ?_)))
        refine .bind (stays_branchBody he hu.state.pass.state) fun last v hv hlast => ?_
        refine .pure hv.state ⟨hmore.1, ?_⟩
        rintro _ ⟨⟩
        exact hlast
      | false =>
        -- The line breaks before something else are given back.
        refine .back (b := (branches ++ [.mk condition body], none)) ht'.state hu.state rfl ?_ hmore
        have hElif' : u.cursor.current.kind.isKeyword .elif ≠ true := by simp [hElif]
        have hElse' : u.cursor.current.kind.isKeyword .elseWord ≠ true := by simp [hElse]
        show (if u.cursor.current.kind.isKeyword .elif = true then _ else _ : Parser _) u = _
        rw [if_neg hElif']
        show (if u.cursor.current.kind.isKeyword .elseWord = true then _ else _ : Parser _) u = _
        rw [if_neg hElse']
        rfl

theorem Places.conditional (he : Places source e) : Places source (conditional e) := by
  intro s hs
  have hs' := hs.pass.state
  refine .advance hs (.remaining ?_)
  refine .bind (stays_branchesFrom he _ hs' ⟨nofun, nofun⟩) fun r t ht hr => ?_
  refine stays_spanFrom hs (hs.pass.trans ht) (fun _ => rfl) fun span hspan => ?_
  refine .plain hspan trivial (fun sub hsub => ?_) rfl rfl
  rcases List.mem_append.mp hsub with hsub | hsub
  · obtain ⟨b, hb, hsub⟩ := List.mem_flatMap.mp hsub
    obtain ⟨hcondition, hbody⟩ := hr.1 b hb
    simp only [List.mem_cons, List.not_mem_nil, or_false] at hsub
    rcases hsub with rfl | rfl
    · exact hcondition
    · exact hbody
  · obtain ⟨body, hbody, rfl⟩ := List.mem_map.mp hsub
    exact hr.2 body (Option.mem_toList.mp hbody)

theorem Places.forLoop (he : Places source e) : Places source (forLoop e) := by
  intro s hs
  have hs' := hs.pass.state
  refine .advance hs (.bind (.expectIdent hs' _) fun counter t₁ h₁ _ => ?_)
  refine .bind (.expect h₁.state ..) fun _ t₂ h₂ _ => ?_
  refine .bind (he _ h₂.state) fun first t₃ h₃ hfirst => ?_
  refine .bind (.expectKeyword h₃.state _) fun _ t₄ h₄ _ => ?_
  refine .bind (he _ h₄.state) fun last t₅ h₅ hlast => .atKeyword _ fun b => ?_
  have hsofar : Ahead source s t₅ :=
    ((((hs.pass.trans h₁).trans h₂).trans h₃).trans h₄).trans h₅
  have hrest : ∀ (step : Option (Node Span)) t, Ahead source s t →
      (∀ node ∈ step, node.In source) → Stays source t (do
        let body ← forBody e
        return Node.forLoop (← spanFrom s.cursor.current.span.start) counter.1 first last step body)
        fun tree t => tree.Between source s.index t.index := by
    intro step t ht hstep
    refine .bind (stays_forBody he ht.state) fun body t' ht' hbody => ?_
    refine stays_spanFrom hs (ht.trans ht') (fun _ => rfl) fun span hspan => ?_
    refine .intro ⟨hspan, trivial⟩ (fun sub hsub => ?_) ?_ nofun
    · simp only [Node.children, List.mem_cons, Option.mem_toList] at hsub
      rcases hsub with rfl | rfl | hsub
      · exact hfirst.inside
      · exact hlast.inside
      · exact hstep sub hsub
    · rintro _ ⟨⟩
      exact hbody
  dsimp only
  split
  · refine .advance h₅.state (.bind (he _ h₅.state.pass.state) fun step t₆ h₆ hstep => ?_)
    refine hrest (some step) t₆ ((hsofar.trans h₅.state.pass).trans h₆) ?_
    rintro _ ⟨⟩
    exact hstep.inside
  · exact hrest none t₅ hsofar nofun

theorem Places.whileLoop (he : Places source e) : Places source (whileLoop e) := by
  intro s hs
  refine .advance hs (.bind (he _ hs.pass.state) fun condition t ht hcondition => ?_)
  refine .bind (stays_whileBody he ht.state) fun body t' ht' hbody => ?_
  refine stays_spanFrom hs ((hs.pass.trans ht).trans ht') (fun _ => rfl) fun span hspan => ?_
  refine .intro ⟨hspan, trivial⟩ (fun sub hsub => ?_) ?_ nofun
  · cases List.mem_singleton.mp hsub
    exact hcondition.inside
  · rintro _ ⟨⟩
    exact hbody

theorem stays_paramsFrom (n : Nat) (hs : s.In source) (params : List (Param Span)) :
    Stays source s (paramsFrom n params) fun _ _ => True := by
  induction n generalizing s params with
  | zero => exact .raiseHere hs _
  | succ n ih =>
    refine .current ?_
    split
    · exact .raiseHere hs _
    · refine .advance hs (.bind (.expectIdent hs.pass.state _) fun name t ht _ => ?_)
      refine .atSymbol _ fun b => ?_
      split
      · exact .advance ht.state (ih ht.state.pass.state _)
      · exact .pure ht.state trivial

/-- The body of a function that starts at a place which is not ahead. -/
theorem stays_functionBody (he : Places source e) (hs : s.In source) {start : Position}
    (hstart : Position.InText source start) (hle : start.index ≤ s.index) :
    Stays source s (functionBody e start) fun r _ => r.1.In source := by
  have hs' := hs.pass.state
  have hend : ∀ t, t.In source → Stays source t (do
      let block ← statements e
      skipNewlines
      let closing := (← current).kind
      if closing.isSymbol .rightBrace || closing.isKeyword .endWord then
        let _ ← advance
        return (block, false)
      else
        raiseHere .braceOrEnd) fun r _ => r.1.In source := by
    intro t ht
    refine .bind (he.statements t ht) fun block t₁ h₁ hblock => ?_
    refine .skipNewlines h₁.state fun t₂ h₂ => .current ?_
    dsimp only
    split
    · exact .advance h₂.state (.pure h₂.state.pass.state hblock.inside)
    · exact .raiseHere h₂.state _
  have hblock : Stays source s (do
      let _ ← advance
      if ← atNewline then
        let _ ← advance
      let block ← statements e
      skipNewlines
      let closing := (← current).kind
      if closing.isSymbol .rightBrace || closing.isKeyword .endWord then
        let _ ← advance
        return (block, false)
      else
        raiseHere .braceOrEnd) fun r _ => r.1.In source := by
    refine .advance hs (.atNewline fun b => ?_)
    split
    · exact .advance hs' (hend _ hs'.pass.state)
    · exact hend _ hs'
  refine .current ?_
  split
  · exact .advance hs (.bind (he _ hs') fun body t ht hbody => .pure ht.state hbody.inside)
  · refine .advance hs (.bind (he _ hs') fun value t ht hvalue => .pure ht.state ?_)
    have hfrom : s.index ≤ value.tag.stop.index :=
      Nat.le_trans hs.pass.index (Nat.le_trans hvalue.low hvalue.place.ordered)
    refine .plain ⟨hstart, hvalue.place.stop, Nat.le_trans hle hfrom⟩ trivial ?_ rfl rfl
    intro sub hsub
    cases List.mem_singleton.mp hsub
    refine .plain ⟨hs.cursor.current.start, hvalue.place.stop, hfrom⟩ trivial ?_ rfl rfl
    intro sub hsub
    cases List.mem_singleton.mp hsub
    exact hvalue.inside
  · exact hblock
  · exact hblock
  · exact .raiseHere hs _

theorem stays_function (he : Places source e) (hs : s.In source) :
    Stays source s (function e) fun f _ => f.body.In source := by
  have hs' := hs.pass.state
  have hrest : ∀ (name : Option String) t, Ahead source s t → Stays source t (do
      let _ ← expect .leftParen
        (if name.isSome then .symbol .leftParen else .identifierOrParen)
      let params ←
        if ← atSymbol .rightParen then pure [] else paramsFrom ((← remaining) + 1) []
      let _ ← expect .rightParen .parameterEnd
      let r ← functionBody e s.cursor.current.span.start
      return FuncDef.mk name params r.1 r.2) fun f _ => f.body.In source := by
    intro name t ht
    have hbody : ∀ (params : List (Param Span)) u, Ahead source s u → Stays source u (do
        let _ ← expect .rightParen .parameterEnd
        let r ← functionBody e s.cursor.current.span.start
        return FuncDef.mk name params r.1 r.2) fun f _ => f.body.In source := by
      intro params u hu
      refine .bind (.expect hu.state ..) fun _ v hv _ => ?_
      have hstart := hs.cursor.current.start
      refine .bind (stays_functionBody he hv.state hstart (hu.trans hv).index) ?_
      exact fun r w hw hr => .pure hw.state hr
    refine .bind (.expect ht.state ..) fun _ u hu _ => .atSymbol _ fun b => ?_
    split
    · exact hbody [] u (ht.trans hu)
    · refine .remaining (.bind (stays_paramsFrom _ hu.state _) fun params v hv _ => ?_)
      exact hbody params v ((ht.trans hu).trans hv)
  refine .advance hs (.current ?_)
  generalize s.pass.cursor.current.kind.ident? = name
  cases name with
  | none => exact hrest none _ hs.pass
  | some name => exact .advance hs' (hrest (some name) _ (hs.pass.trans hs'.pass))

theorem stays_methodsFrom (he : Places source e) (braced : Bool) (n : Nat) (hs : s.In source)
    {methods : List (FuncDef Span)} (hmethods : ∀ f ∈ methods, f.body.In source) :
    Stays source s (methodsFrom e braced n methods) fun fs _ => ∀ f ∈ fs, f.body.In source := by
  induction n generalizing s methods with
  | zero => exact .raiseHere hs _
  | succ n ih =>
    refine .skipNewlines hs fun t ht => .current ?_
    generalize (if braced then t.cursor.current.kind.isSymbol .rightBrace
      else t.cursor.current.kind.isKeyword .endWord) = ended
    cases ended with
    | true => exact .advance ht.state (.pure ht.state.pass.state hmethods)
    | false =>
      rw [if_neg Bool.false_ne_true]
      split
      · refine .bind (stays_function he ht.state) fun method u hu hmethod => ?_
        dsimp only
        split
        · refine .bind (P := fun _ _ => False) (.raiseAt hu.state ht.state.cursor.current rfl) ?_
          exact fun _ _ _ h => h.elim
        · refine ih hu.state fun f hf => ?_
          rcases List.mem_append.mp hf with hf | hf
          · exact hmethods f hf
          · exact List.mem_singleton.mp hf ▸ hmethod
      · exact .raiseHere ht.state _

theorem Places.classDefinition (he : Places source e) : Places source (classDefinition e) := by
  intro s hs
  have hs' := hs.pass.state
  refine .advance hs (.bind (.expectIdent hs' _) fun name t ht _ => .current ?_)
  have hrest : ∀ (parent : Option String) u, Ahead source s u → Stays source u (do
      let kind := (← current).kind
      if !(kind.isSymbol .leftBrace || kind.isSymbol .colon) then
        raiseHere .colonOrBrace
      let _ ← advance
      let methods ← methodsFrom e (kind.isSymbol .leftBrace) ((← remaining) + 1) []
      return Node.cls (← spanFrom s.cursor.current.span.start) name.1 parent methods)
      fun tree t => tree.Between source s.index t.index := by
    intro parent u hu
    have hpass := hu.state.pass
    refine .current ?_
    dsimp only
    split
    · exact .raiseHere_bind hu.state _
    · refine .advance hu.state (.remaining ?_)
      refine .bind (stays_methodsFrom he _ _ hpass.state nofun) fun methods v hv hmethods => ?_
      refine stays_spanFrom hs ((hu.trans hpass).trans hv) (fun _ => rfl) fun span hspan => ?_
      exact .intro ⟨hspan, trivial⟩ nofun nofun hmethods
  have hsofar := hs.pass.trans ht
  dsimp only
  split
  · refine .advance ht.state (.bind (.expectIdent ht.state.pass.state _) fun parent u hu _ => ?_)
    exact hrest (some parent.1) u ((hsofar.trans ht.state.pass).trans hu)
  · exact hrest none t hsofar

theorem Places.instanceCreation (he : Places source e) : Places source (instanceCreation e) := by
  intro s hs
  refine .advance hs (.bind (.expectIdent hs.pass.state _) fun cls t ht _ => .atSymbol _ fun b => ?_)
  dsimp only
  split
  · exact .raiseHere_bind ht.state _
  · refine .bind (stays_arguments he ht.state _) fun args u hu hargs => ?_
    refine stays_spanFrom hs ((hs.pass.trans ht).trans hu) (fun _ => rfl) fun span hspan => ?_
    exact .plain hspan trivial hargs rfl rfl

/-! ### Expressions and programs -/

variable {hint : String → Option Keyword}

theorem Places.atom (he : Places source e) : Places source (atom hint e) := by
  intro s hs
  have hs' := hs.pass.state
  refine .current ?_
  split
  · exact .advance hs (.pure hs' (between_token hs rfl trivial rfl rfl rfl))
  · exact .advance hs (.pure hs' (between_token hs rfl trivial rfl rfl rfl))
  · exact .advance hs (.pure hs' (between_token hs rfl trivial rfl rfl rfl))
  · refine .following ?_
    dsimp only
    split
    · exact he.classDefinition s hs
    · split
      · exact he.instanceCreation s hs
      · split
        · exact .raiseAt hs hs.cursor.current rfl
        · exact .advance hs (.pure hs' (between_token hs rfl trivial rfl rfl rfl))
  · refine .advance hs (.bind (he _ hs') fun node t ht hnode => ?_)
    refine .bind (.expect ht.state ..) fun _ u hu _ => .pure hu.state ?_
    exact hnode.widen hs.pass.index hu.index
  · refine .bind (stays_arguments he hs _) fun items t ht hitems => ?_
    refine stays_spanFrom hs ht (fun _ => rfl) fun span hspan => ?_
    exact .plain hspan trivial hitems rfl rfl
  · exact he.conditional s hs
  · exact he.forLoop s hs
  · exact he.whileLoop s hs
  · refine .bind (stays_function he hs) fun definition t ht hbody => ?_
    refine stays_spanFrom hs ht (fun _ => rfl) fun span hspan => ?_
    refine .intro ⟨hspan, trivial⟩ nofun nofun fun f hf => ?_
    exact List.mem_singleton.mp hf ▸ hbody
  · exact .raiseHere hs _

theorem stays_declaration (he : Places source e) (hs : s.In source) {t : ParseState}
    (ht : Ahead source s t) (name : String) (type : Option DeclaredType) (constant : Bool) :
    Stays source t (declaration e s.cursor.current.span.start name type constant)
      fun tree t => tree.Between source s.index t.index := by
  refine .bind (he t ht.state) fun value u hu hvalue => ?_
  refine stays_spanFrom hs (ht.trans hu) (fun _ => rfl) fun span hspan => ?_
  exact .plain hspan trivial (by simpa [Node.children] using hvalue.inside) rfl rfl

theorem Places.expressionStep (he : Places source e) : Places source (expressionStep hint e) := by
  intro s hs
  have hs' := hs.pass.state
  have hatom : Places source (Parser.atom hint e) := he.atom
  have hlogic := he.logic hatom s hs
  refine .current (.following ?_)
  split
  · refine .advance hs (.bind (.expectIdent hs' _) fun name t ht _ => ?_)
    refine .bind (.expect ht.state ..) fun _ u hu _ => ?_
    exact stays_declaration he hs ((hs.pass.trans ht).trans hu) ..
  · split
    · exact hlogic
    · have hs'' := hs'.pass.state
      have hsofar := (hs.pass.trans hs'.pass).trans hs''.pass
      refine .advance hs (.advance hs' (.current ?_))
      split
      · exact .advance hs'' (stays_declaration he hs hsofar ..)
      · exact .advance hs'' (stays_declaration he hs hsofar ..)
      · exact .raiseHere hs'' _
  · exact hlogic

/-- Expressions are placed, however deep they may nest. -/
theorem places_expression (n : Nat) : Places source (expression hint n) := by
  induction n with
  | zero => exact (places_raiseHere _).expressionStep
  | succ n ih => exact ih.expressionStep

theorem isStatic_leftover (kind next : TokenKind) : (leftover kind next).kind.isStatic = true := by
  unfold leftover
  split <;> rfl

theorem places_program : Places source (program hint) := by
  intro s hs
  refine .remaining (.bind ((places_expression _).statements s hs) fun block t ht hblock => ?_)
  refine .current ?_
  split
  · exact .pure ht.state hblock
  · exact .following (.raiseAt ht.state ht.state.cursor.current (isStatic_leftover ..))

end Parser

/-! ### Whole sources -/

/-- What a text is refused for by the lexer is found before it runs. -/
theorem Lexeme.isStatic_scan {c : Char} {cs : List Char} {fault : Fault}
    (h : (scan c cs).lexeme = .fault fault) : fault.kind.isStatic = true := by
  unfold scan at h
  split at h
  · rename_i scanned hcomment
    unfold scanComment? at hcomment
    split at hcomment <;> cases hcomment <;> cases h
  · split at h
    · cases h
    · split at h
      · cases h
      · split at h
        · simp only [scanString] at h
          split at h <;> cases h
          rfl
        · split at h
          · unfold scanNumber at h
            split at h
            · cases h
            · simp only [integer] at h
              cases hvalue : int64? (Text.digitsValue ((c :: cs).takeWhile Char.isDigit)) with
              | none =>
                rw [hvalue] at h
                cases h
                rfl
              | some n =>
                rw [hvalue] at h
                cases h
          · split at h
            · cases h
            · revert h
              fun_cases scanSymbol c cs <;> intro h <;> cases h <;> rfl

namespace Lexer

theorem isStatic_emit {l : Lexer} {span : Span} {x : Lexeme} {f : Failure}
    (h : .error f ∈ l.emit span x) (hx : ∀ fault, x = .fault fault → fault.kind.isStatic = true) :
    f.fault.kind.isStatic = true ∧ f.traceback = [] := by
  have hmarker : .error f ∉ l.marker := fun h => Bool.noConfusion (mem_marker h).1
  unfold emit at h
  split at h
  · cases h
  · exact absurd h hmarker
  · rcases List.mem_append.mp h with h | h
    · exact absurd h hmarker
    · cases List.mem_singleton.mp h
  · cases List.mem_singleton.mp h
  · cases List.mem_singleton.mp h
    exact ⟨hx _ rfl, rfl⟩

theorem isStatic_all (l : Lexer) {f : Failure} (h : .error f ∈ l.all.1) :
    f.fault.kind.isStatic = true ∧ f.traceback = [] := by
  induction l using all_induction with
  | done l hr =>
    rw [all_nil hr] at h
    cases h
  | step l c cs hr ih =>
    rw [all_cons hr] at h
    rcases List.mem_append.mp h with h | h
    · exact isStatic_emit h fun _ => Lexeme.isStatic_scan
    · exact ih h

end Lexer

namespace Source

/-- All items are tokens, or one of them is the failure that is reported. -/
theorem mapM_cases (items : List Item) :
    (∃ tokens, items.mapM id = .ok tokens ∧ items = tokens.map .ok) ∨
      ∃ f, items.mapM id = .error f ∧ .error f ∈ items := by
  induction items with
  | nil => exact .inl ⟨[], rfl, rfl⟩
  | cons item items ih =>
    rw [List.mapM_cons]
    cases item with
    | error f => exact .inr ⟨f, rfl, List.mem_cons_self⟩
    | ok token =>
      rcases ih with ⟨tokens, hmap, hitems⟩ | ⟨f, hmap, hf⟩
      · refine .inl ⟨token :: tokens, ?_, ?_⟩
        · rw [hmap]
          rfl
        · rw [hitems]
          rfl
      · refine .inr ⟨f, ?_, List.mem_cons_of_mem _ hf⟩
        rw [hmap]
        rfl

/-- A source has all its tokens, or its first lexical failure. -/
theorem tokens_cases (source : Source) :
    (∃ tokens, source.tokens = .ok (tokens, source.scan.2) ∧ source.scan.1 = tokens.map .ok) ∨
      ∃ f, source.tokens = .error f ∧ .error f ∈ source.scan.1 := by
  have htokens : source.tokens = (do return (← source.scan.1.mapM id, source.scan.2)) := rfl
  rw [htokens]
  rcases mapM_cases source.scan.1 with ⟨tokens, hmap, hitems⟩ | ⟨f, hmap, hf⟩
  · refine .inl ⟨tokens, ?_, hitems⟩
    rw [hmap]
    rfl
  · refine .inr ⟨f, ?_, hf⟩
    rw [hmap]
    rfl

/-- A stream without failures is handed out as it is. -/
theorem tokens_of_scan (source : Source) {tokens : List Token}
    (h : source.scan.1 = tokens.map .ok) : source.tokens = .ok (tokens, source.scan.2) := by
  rcases source.tokens_cases with ⟨ts, hts, hitems⟩ | ⟨f, _, hf⟩
  · have hsame : tokens = ts :=
      List.map_inj_right (fun _ _ h => Except.ok.inj h) |>.mp (h.symm.trans hitems)
    rw [hts, hsame]
  · simp [h] at hf

/-- A lexical failure lies in the text. -/
theorem scan_static (source : Source) {f : Failure} (h : .error f ∈ source.scan.1) :
    f.Static source := by
  obtain ⟨_, ht, hitems⟩ := source.scan_spec
  obtain ⟨heof, hstart, hstop⟩ := hitems _ h
  obtain ⟨hkind, htraceback⟩ := Lexer.isStatic_all (Lexer.ofSource source) h
  have hspan := (ht.within _ (mem_pieceSpans h rfl heof)).2.1
  exact ⟨⟨hstart, hstop, Nat.le_of_lt hspan⟩, hkind, htraceback⟩

/-- Without a lexical failure a parser starts in the source. -/
theorem start_in (source : Source) {tokens : List Token} (h : source.scan.1 = tokens.map .ok) :
    (Parser.start tokens source.scan.2).In source := by
  obtain ⟨heof, ht, hitems⟩ := source.scan_spec
  have hspans : (tokens.filter fun t => !t.kind.isNoBlankLine).map Token.span =
      pieceSpans source.scan.1 := by
    rw [← map_span_eq_pieceSpans fun item hi => (hitems item hi).1, h, List.filter_map,
      List.map_map]
    rfl
  have hmem : ∀ t ∈ tokens.filter fun t => !t.kind.isNoBlankLine,
      t ∈ tokens ∧ t.span ∈ pieceSpans source.scan.1 := by
    intro t ht
    exact ⟨(List.mem_filter.mp ht).1, hspans ▸ List.mem_map_of_mem ht⟩
  have hend : Position.InText source (Position.after source source.text.toList) :=
    Position.inText_after (List.prefix_refl _)
  refine ⟨⟨fun t htoken => ?_, ?_, ?_, fun t htoken => ?_, ?_, fun p hp => nomatch hp⟩,
    fun f hf => nomatch hf⟩
  · obtain ⟨hin, hspan⟩ := hmem t htoken
    obtain ⟨_, hstart, hstop⟩ := hitems (.ok t) (h ▸ List.mem_map_of_mem hin)
    exact ⟨hstart, hstop, Nat.le_of_lt (ht.within _ hspan).2.1⟩
  · rw [heof]
    exact Span.in_point hend
  · have hpairwise := ht.pairwise
    rw [← hspans] at hpairwise
    exact List.pairwise_map.mp hpairwise
  · have hstop := (ht.within _ (hmem t htoken).2).2.2
    rw [heof]
    exact hstop
  · rw [heof]
    exact Nat.le_refl _

/-- A program is accepted at the end of its tokens. -/
theorem parse_eq_ok {tree : Node Span} : source.parse = .ok tree ↔
    ∃ tokens eof s, source.tokens = .ok (tokens, eof) ∧
      Parser.program Keyword.suggest (Parser.start tokens eof) = .ok tree s := by
  have hparse : source.parse =
      (source.tokens >>= fun r => parseTokens Keyword.suggest r.1 r.2) := rfl
  rw [hparse]
  constructor
  · intro h
    cases htokens : source.tokens with
    | error f =>
      rw [htokens] at h
      cases h
    | ok r =>
      rw [htokens] at h
      change parseTokens Keyword.suggest r.1 r.2 = .ok tree at h
      unfold parseTokens at h
      cases hr : Parser.program Keyword.suggest (Parser.start r.1 r.2) with
      | error f s =>
        rw [hr] at h
        cases h
      | ok node s =>
        rw [hr] at h
        cases h
        exact ⟨r.1, r.2, s, rfl, hr⟩
  · rintro ⟨tokens, eof, s, htokens, hprogram⟩
    rw [htokens]
    show parseTokens Keyword.suggest tokens eof = .ok tree
    unfold parseTokens
    rw [hprogram]

/-- **A program lies in its source**, node by node, and a source that is refused is
refused at a place of its own. -/
theorem parse_placed (source : Source) :
    match source.parse with
    | .ok tree => tree.In source
    | .error f => f.Static source := by
  have hparse : source.parse = (do
      let r ← source.tokens
      parseTokens Keyword.suggest r.1 r.2) := rfl
  rw [hparse]
  rcases source.tokens_cases with ⟨tokens, htokens, hitems⟩ | ⟨f, htokens, hf⟩ <;> rw [htokens]
  · have hplaces : Parser.Places source (Parser.program Keyword.suggest) := Parser.places_program
    have hprogram := hplaces _ (source.start_in hitems)
    unfold Parser.Stays at hprogram
    show match parseTokens Keyword.suggest tokens source.scan.2 with
      | .ok tree => tree.In source
      | .error f => f.Static source
    unfold parseTokens
    cases hr : Parser.program Keyword.suggest (Parser.start tokens source.scan.2) <;>
      rw [hr] at hprogram
    · exact hprogram.2.inside
    · exact hprogram.2
  · exact source.scan_static hf

end Source

end Script
