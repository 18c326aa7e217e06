import Script.Proofs.Parts

/-! What a parser yields, if it succeeds.

`Gives s p post`: when `p` succeeds from the state `s`, it is then no further back, and
`post` holds of the result. Two byte offsets say where a state is: the start of the
current token (`index`), and the end of the last one passed (`last`). A node starts no
earlier than the token that its parser starts at, and ends with the last one passed
(`Yields`). So the parts of a node lie in a row behind one another, and a span from the
first token of a node to the last one passed covers them.

Main statement, `Source.parse_nests`: the span of every node of a program covers its parts,
and these lie one behind the other, with two exceptions. Both occur (`Source.spans_overlap`). -/
namespace Script

variable {α β : Type} {source : Source} {K : TokenKind → Prop}

/-! ### States -/

namespace TokenKind

variable {kind other : TokenKind}

theorem ne_eof (h : kind = other) (hother : other ≠ .eof) : kind ≠ .eof := h ▸ hother

end TokenKind

namespace ParseState

/-- The byte offset at which the last token passed ends, or else the current one starts. -/
def last (s : ParseState) : Nat := s.cursor.previousEnd.index

/-- The tokens to come lie in the source and are of the kinds `K`. -/
structure Over (source : Source) (K : TokenKind → Prop) (s : ParseState) : Prop where
  cursor : s.cursor.In source
  kinds : ∀ t ∈ s.cursor.rest, K t.kind
  eof : s.cursor.eof.kind = .eof

/-- In the same source, and not before `s`. -/
structure Later (source : Source) (K : TokenKind → Prop) (s t : ParseState) : Prop where
  state : t.Over source K
  index : s.index ≤ t.index
  last : s.last ≤ t.last

variable {s t u : ParseState}

theorem Over.last_le (h : s.Over source K) : s.last ≤ s.index := h.cursor.previousEnd.2

theorem Later.refl (h : s.Over source K) : Later source K s s :=
  ⟨h, Nat.le_refl _, Nat.le_refl _⟩

theorem Later.trans (h : Later source K s t) (h' : Later source K t u) : Later source K s u :=
  ⟨h'.state, Nat.le_trans h.index h'.index, Nat.le_trans h.last h'.last⟩

/-- A state with a token to pass. -/
theorem Over.exists_cons (h : s.Over source K) (hk : s.cursor.current.kind ≠ .eof) :
    ∃ t ts, s.cursor.rest = t :: ts ∧ s.cursor.current = t := by
  unfold Cursor.current at *
  cases hr : s.cursor.rest with
  | nil =>
    rw [hr] at hk
    exact absurd h.eof hk
  | cons t ts => exact ⟨t, ts, rfl, rfl⟩

/-- The current token is of the kinds `K`, unless it is the end. -/
theorem Over.kind (h : s.Over source K) (hk : s.cursor.current.kind ≠ .eof) :
    K s.cursor.current.kind := by
  obtain ⟨t, ts, hrest, hcurrent⟩ := h.exists_cons hk
  rw [hcurrent]
  exact h.kinds t (by rw [hrest]; exact List.mem_cons_self)

/-- A name at the current token is of the kinds `K`. -/
theorem Over.ident (h : s.Over source K) {name : String}
    (hname : s.cursor.current.kind.ident? = some name) : K (.ident name) := by
  have hkind : s.cursor.current.kind = .ident name := by
    cases hk : s.cursor.current.kind <;> rw [hk] at hname <;> cases hname
    rfl
  exact hkind ▸ h.kind (TokenKind.ne_eof hkind nofun)

/-- So is one behind the current token. -/
theorem Over.following (h : s.Over source K) {name : String}
    (hname : s.cursor.following.kind = .ident name) : K (.ident name) := by
  unfold Cursor.following at hname
  cases hnext : s.cursor.rest.tail.head? with
  | none =>
    rw [hnext] at hname
    cases h.eof.symm.trans hname
  | some t =>
    rw [hnext] at hname
    have hmem := List.mem_of_mem_tail (List.mem_of_mem_head? hnext)
    exact hname ▸ h.kinds t hmem

/-- A token that was passed is the last. -/
theorem Over.pass_last (h : s.Over source K) (hk : s.cursor.current.kind ≠ .eof) :
    s.pass.last = s.cursor.current.span.stop.index := by
  obtain ⟨t, ts, hrest, hcurrent⟩ := h.exists_cons hk
  rw [hcurrent]
  unfold last ParseState.pass Cursor.previousEnd Cursor.advance
  rw [hrest]
  rfl

theorem Over.index_le_pass (h : s.Over source K) (hk : s.cursor.current.kind ≠ .eof) :
    s.index ≤ s.pass.last := by
  rw [h.pass_last hk]
  exact h.cursor.current.ordered

theorem Over.pass (h : s.Over source K) : Later source K s s.pass := by
  have hcursor : s.pass.cursor = s.cursor.advance := rfl
  cases hr : s.cursor.rest with
  | nil =>
    have hsame : s.cursor.advance = s.cursor := by
      unfold Cursor.advance
      rw [hr]
    have hpass : s.pass = s := by
      unfold ParseState.pass
      rw [hsame]
    rw [hpass]
    exact .refl h
  | cons t ts =>
    have hadvance : s.cursor.advance =
        { s.cursor with previous := some t.span.stop, rest := ts } := by
      unfold Cursor.advance
      rw [hr]
    have hcurrent : s.cursor.current = t := by
      unfold Cursor.current
      rw [hr]
      rfl
    refine ⟨⟨h.cursor.advance, fun u hu => ?_, ?_⟩, h.cursor.index_le, ?_⟩
    · rw [hcursor, hadvance] at hu
      exact h.kinds u (by rw [hr]; exact List.mem_cons_of_mem _ hu)
    · rw [hcursor, hadvance]
      exact h.eof
    · have hordered := h.cursor.current.ordered
      have hstop : s.pass.last = t.span.stop.index := by
        unfold last
        rw [hcursor, hadvance]
        rfl
      have hindex : s.index = t.span.start.index := by
        unfold index Cursor.index
        rw [hcurrent]
      rw [hcurrent] at hordered
      rw [hstop]
      exact Nat.le_trans h.last_le (Nat.le_trans (Nat.le_of_eq hindex) hordered)

/-- Passing line breaks is going on. -/
theorem Over.skip (h : s.Over source K) (n : Nat) :
    Later source K s { s with cursor := s.cursor.skipNewlines n } := by
  induction n generalizing s with
  | zero => exact .refl h
  | succ n ih =>
    unfold Cursor.skipNewlines
    split
    · exact h.pass.trans (ih h.pass.state)
    · exact .refl h

end ParseState

open ParseState (Over Later)
open Node (Nests)

/-! ### Parsers -/

namespace Parser

variable {s : ParseState} {P : α → ParseState → Prop} {R : β → ParseState → Prop}

/-- When a parser succeeds from `s` on, it is then no further back, and `post` holds of the
result and of the state. -/
def Gives (source : Source) (K : TokenKind → Prop) (s : ParseState) (p : Parser α)
    (post : α → ParseState → Prop) : Prop :=
  ∀ a t, p s = .ok a t → Later source K s t ∧ post a t

namespace Gives

theorem bind {p : Parser α} {f : α → Parser β} (hp : Gives source K s p P)
    (hf : ∀ a t, Later source K s t → P a t → Gives source K t (f a) R) :
    Gives source K s (p >>= f) R := by
  intro b u hb
  have hbind : EStateM.bind p f s = .ok b u := hb
  unfold EStateM.bind at hbind
  cases hps : p s with
  | error e t =>
    rw [hps] at hbind
    cases hbind
  | ok a t =>
    rw [hps] at hbind
    obtain ⟨hlater, ha⟩ := hp a t hps
    obtain ⟨hlater', hb⟩ := hf a t hlater ha b u hbind
    exact ⟨hlater.trans hlater', hb⟩

theorem pure {a : α} (hs : s.Over source K) (h : P a s) : Gives source K s (Pure.pure a) P := by
  intro b t hb
  cases hb
  exact ⟨.refl hs, h⟩

theorem weaken {p : Parser α} {Q : α → ParseState → Prop} (h : Gives source K s p P)
    (hPQ : ∀ a t, Later source K s t → P a t → Q a t) : Gives source K s p Q := by
  intro a t ha
  obtain ⟨hlater, hpost⟩ := h a t ha
  exact ⟨hlater, hPQ a t hlater hpost⟩

/-- A first step that moves to `t`. -/
theorem step {p : Parser α} {f : α → Parser β} {a : α} {t : ParseState} (hp : p s = .ok a t)
    (ht : Later source K s t) (hf : Gives source K t (f a) R) : Gives source K s (p >>= f) R := by
  apply bind (P := fun b u => b = a ∧ u = t)
  · intro b u hb
    cases hp.symm.trans hb
    exact ⟨ht, rfl, rfl⟩
  · rintro _ _ _ ⟨rfl, rfl⟩
    exact hf

theorem get {f : ParseState → Parser β} (h : Gives source K s (f s) R) :
    Gives source K s (MonadState.get >>= f) R := h

theorem current {f : Token → Parser β} (h : Gives source K s (f s.cursor.current) R) :
    Gives source K s (current >>= f) R := h

theorem following {f : Token → Parser β} (h : Gives source K s (f s.cursor.following) R) :
    Gives source K s (following >>= f) R := h

theorem remaining {f : Nat → Parser β} (h : Gives source K s (f s.cursor.rest.length) R) :
    Gives source K s (remaining >>= f) R := h

theorem atSymbol {symbol : Symbol} {f : Bool → Parser β}
    (h : ∀ b, s.cursor.current.kind.isSymbol symbol = b → Gives source K s (f b) R) :
    Gives source K s (atSymbol symbol >>= f) R := h _ rfl

theorem atKeyword {keyword : Keyword} {f : Bool → Parser β}
    (h : ∀ b, s.cursor.current.kind.isKeyword keyword = b → Gives source K s (f b) R) :
    Gives source K s (atKeyword keyword >>= f) R := h _ rfl

theorem atNewline {f : Bool → Parser β}
    (h : ∀ b, s.cursor.current.kind.isNewline = b → Gives source K s (f b) R) :
    Gives source K s (atNewline >>= f) R := h _ rfl

theorem advance (hs : s.Over source K) {f : Token → Parser β}
    (h : Gives source K s.pass (f s.cursor.current) R) : Gives source K s (advance >>= f) R :=
  step rfl hs.pass h

/-- A step forward that is taken back by what follows it. -/
theorem back {p : Parser α} {f : α → Parser β} {a : α} {b : β} {t : ParseState}
    (hs : s.Over source K) (hp : p s = .ok a t)
    (hf : f a t = .ok b { t with cursor := s.cursor }) (h : R b { t with cursor := s.cursor }) :
    Gives source K s (p >>= f) R := by
  intro c u hc
  have hbind : EStateM.bind p f s = .ok c u := hc
  unfold EStateM.bind at hbind
  rw [hp] at hbind
  cases hf.symm.trans hbind
  exact ⟨⟨⟨hs.cursor, hs.kinds, hs.eof⟩, Nat.le_refl _, Nat.le_refl _⟩, h⟩

theorem skipNewlines (hs : s.Over source K) {f : Unit → Parser β}
    (h : ∀ t, Later source K s t → Gives source K t (f ()) R) :
    Gives source K s (skipNewlines >>= f) R :=
  step rfl (hs.skip _) (h _ (hs.skip _))

/-- The span from a place before the end of the last token to that end. -/
theorem spanFrom (hs : s.Over source K) {start : Position} (hle : start.index ≤ s.last)
    {f : Span → Parser β}
    (h : ∀ span, span.start = start → span.stop.index = s.last → Gives source K s (f span) R) :
    Gives source K s (spanFrom start >>= f) R := by
  have hspan : Parser.spanFrom start s = .ok ⟨start, s.cursor.previousEnd⟩ s := by
    have hnot : ¬ s.cursor.previousEnd.index < start.index := Nat.not_lt.mpr hle
    show EStateM.Result.ok (if s.cursor.previousEnd.index < start.index then Span.point start
      else ⟨start, s.cursor.previousEnd⟩) s = _
    rw [if_neg hnot]
  exact step hspan (.refl hs) (h _ rfl rfl)

theorem raise (failure : Failure) : Gives source K s (raise failure) P := by
  intro a t ha
  cases ha

theorem raiseHere (what : Expectation) : Gives source K s (raiseHere what) P := by
  intro a t ha
  cases ha

/-- Nothing comes behind a failure. -/
theorem raiseHere_bind (what : Expectation) {f : α → Parser β} :
    Gives source K s (Parser.raiseHere what >>= f) R := by
  intro a t ha
  cases ha

theorem orExpected {p : Parser α} (h : Gives source K s p P) (what : Expectation) :
    Gives source K s (orExpected p what) P := by
  intro a t ha
  unfold Parser.orExpected at ha
  cases hp : p s with
  | ok b u =>
    rw [hp] at ha
    cases ha
    exact h a t hp
  | error f u =>
    rw [hp] at ha
    cases ha

/-- An attempt yields what is attempted, or nothing has happened. -/
theorem attempt {p : Parser α} (hs : s.Over source K) (h : Gives source K s p P) :
    Gives source K s (attempt p) fun a t => ∀ x, a = some x → P x t := by
  intro a t ha
  unfold Parser.attempt at ha
  cases hp : p s with
  | ok b u =>
    rw [hp] at ha
    cases ha
    obtain ⟨hlater, hpost⟩ := h b t hp
    refine ⟨hlater, ?_⟩
    rintro _ ⟨⟩
    exact hpost
  | error f u =>
    rw [hp] at ha
    cases ha
    exact ⟨⟨⟨hs.cursor, hs.kinds, hs.eof⟩, Nat.le_refl _, Nat.le_refl _⟩, nofun⟩

/-- A token that is known not to be the end, passed. -/
theorem passed (hs : s.Over source K) (hk : s.cursor.current.kind ≠ .eof) :
    Gives source K s Parser.advance fun t u => t = s.cursor.current ∧ s.index ≤ u.last ∧
      t.span.stop.index ≤ u.last := by
  intro t u hu
  cases hu
  exact ⟨hs.pass, rfl, hs.index_le_pass hk, Nat.le_of_eq (hs.pass_last hk).symm⟩

theorem expect (hs : s.Over source K) (symbol : Symbol) (what : Expectation) :
    Gives source K s (expect symbol what) fun _ t => s.index ≤ t.last := by
  apply atSymbol
  intro b hb
  cases b with
  | false => exact raiseHere what
  | true =>
    apply (passed hs (TokenKind.ne_eof_of_isSymbol hb)).weaken
    exact fun _ _ _ h => h.2.1

theorem expectKeyword (hs : s.Over source K) (keyword : Keyword) :
    Gives source K s (expectKeyword keyword) fun _ t => s.index ≤ t.last := by
  apply atKeyword
  intro b hb
  cases b with
  | false => exact raiseHere _
  | true =>
    apply (passed hs (TokenKind.ne_eof_of_isKeyword hb)).weaken
    exact fun _ _ _ h => h.2.1

/-- A name, and where it stands. -/
theorem expectIdent (hs : s.Over source K) (what : Expectation) :
    Gives source K s (expectIdent what) fun r t => K (.ident r.1) ∧ s.index ≤ r.2.start.index ∧
      r.2.start.index ≤ r.2.stop.index ∧ r.2.stop.index ≤ t.last := by
  apply current
  split
  · next name hname =>
    have hk := TokenKind.ne_eof hname nofun
    have hkind : K (.ident name) := hname ▸ hs.kind hk
    apply bind (passed hs hk)
    rintro t u hu ⟨rfl, _, hstop⟩
    exact pure hu.state ⟨hkind, Nat.le_refl _, hs.cursor.current.ordered, hstop⟩
  · exact raiseHere what

end Gives

/-! ### Nodes -/

variable {e a : Parser (Node Span)} {low : Nat} {tree : Node Span}

/-- What a parser of nodes yields: no block, from the token it starts at or behind it to
the last one passed or before that. -/
structure Spans (K : TokenKind → Prop) (low high : Nat) (tree : Node Span) : Prop where
  row : InRow K low high [.node tree]
  single : tree.isBlock = false

def Yields (source : Source) (K : TokenKind → Prop) (p : Parser (Node Span)) : Prop :=
  ∀ s, s.Over source K → Gives source K s p fun tree t => Spans K s.index t.last tree

theorem Yields.orExpected {p : Parser (Node Span)} (h : Yields source K p) (what : Expectation) :
    Yields source K (orExpected p what) :=
  fun s hs => (h s hs).orExpected what

theorem yields_raiseHere (what : Expectation) : Yields source K (raiseHere what) :=
  fun _ _ => .raiseHere what

/-- A way to put parts together to a node, once its span is known. -/
structure Makes (K : TokenKind → Prop) (make : Span → Node Span) (parts : List Part) : Prop where
  tag : ∀ span, (make span).tag = span
  parts : ∀ span, (make span).parts = parts
  words : ∀ span, ∀ k ∈ (make span).words, K k
  marks : ∀ span, ∀ body ∈ (make span).bodies, body.emitsNull = body.node.isBlock
  single : ∀ span, (make span).isBlock = false

/-- A node that is one token. -/
theorem gives_token (make : Span → Node Span) (hs : s.Over source K)
    (hk : s.cursor.current.kind ≠ .eof) (hmake : Makes (· = s.cursor.current.kind) make []) :
    Gives source K s (do
      let _ ← advance
      return make s.cursor.current.span) fun tree t => Spans K s.index t.last tree := by
  apply Gives.advance hs
  refine .pure hs.pass.state ⟨InRow.node ?_ ?_ ?_ ?_ (hmake.marks _), hmake.single _⟩
  · rw [hmake.parts, hmake.tag]
    exact .nil hs.cursor.current.ordered
  · rw [hmake.tag]
    exact Nat.le_refl _
  · exact Nat.le_of_eq (by rw [hmake.tag, hs.pass_last hk])
  · intro k hmem
    rw [hmake.words _ k hmem]
    exact hs.kind hk

/-- A node that is tagged with the span from a place before its parts to the last token. -/
theorem Gives.tagged (make : Span → Node Span) {parts : List Part} (hmake : Makes K make parts)
    {t : ParseState} (ht : t.Over source K) {start : Position} (hlow : low ≤ start.index)
    (hrow : InRow K start.index t.last parts) {f : Node Span → Parser β}
    (hf : ∀ tree, Spans K low t.last tree → Gives source K t (f tree) R) :
    Gives source K t (do f (make (← Parser.spanFrom start))) R := by
  apply Gives.spanFrom ht hrow.le
  intro span hstart hstop
  refine hf _ ⟨InRow.node ?_ ?_ ?_ (hmake.words span) (hmake.marks span), hmake.single span⟩
  · rw [hmake.tag, hmake.parts, hstart, hstop]
    exact hrow
  · rw [hmake.tag, hstart]
    exact hlow
  · exact Nat.le_of_eq (by rw [hmake.tag, hstop])

theorem gives_spanFrom (make : Span → Node Span) {parts : List Part} (hmake : Makes K make parts)
    {t : ParseState} (ht : t.Over source K) {start : Position}
    (hrow : InRow K start.index t.last parts) :
    Gives source K t (do return make (← spanFrom start)) fun tree u =>
      Spans K start.index u.last tree :=
  .tagged make hmake ht (Nat.le_refl _) hrow fun _ htree => .pure ht htree

/-! ### Operators -/

/-- The span from one node through another covers both. -/
theorem row_through {left right : Node Span} {high mid : Nat} (hleft : InRow K low mid [.node left])
    (hright : InRow K mid high [.node right]) :
    InRow K left.tag.start.index right.tag.stop.index [.node left, .node right] := by
  have hle : left.tag.stop.index ≤ right.tag.start.index :=
    Nat.le_trans hleft.bounds.2.2 hright.bounds.1
  exact hleft.self.follow hle hright.self

theorem gives_chainFrom {op? : TokenKind → Option BinaryOp} {right : Parser (Node Span)}
    (hright : Yields source K right) (n : Nat) (hs : s.Over source K) {left : Node Span}
    (hleft : Spans K low s.last left) :
    Gives source K s (chainFrom op? right n left) fun tree t => Spans K low t.last tree := by
  induction n generalizing s left with
  | zero => exact .pure hs hleft
  | succ n ih =>
    apply Gives.current
    split
    · exact .pure hs hleft
    · apply Gives.advance hs
      apply Gives.bind (hright _ hs.pass.state)
      intro r t ht hr
      have hrow := hleft.row.widen (Nat.le_refl _) (Nat.le_trans hs.last_le hs.pass.index)
      apply ih ht.state
      refine ⟨InRow.node (row_through hrow hr.row) ?_ ?_ nofun nofun, rfl⟩
      · exact hleft.row.bounds.1
      · exact hr.row.bounds.2.2

theorem Yields.chain {operand right : Parser (Node Span)} {op? : TokenKind → Option BinaryOp}
    (hoperand : Yields source K operand) (hright : Yields source K right) :
    Yields source K (chain operand op? right) := by
  intro s hs
  apply Gives.bind (hoperand s hs)
  intro left t ht hleft
  exact .remaining (gives_chainFrom hright _ ht.state hleft)

/-- What is read one after the other, between commas. -/
theorem gives_argumentsFrom (he : Yields source K e) (n : Nat) (hs : s.Over source K)
    {items : List (Node Span)} (hitems : InRow K low s.last (items.map .node)) :
    Gives source K s (argumentsFrom e n items) fun items t =>
      InRow K low t.last (items.map .node) := by
  induction n generalizing s items with
  | zero => exact .pure hs hitems
  | succ n ih =>
    apply Gives.atSymbol
    intro b _
    split
    · apply Gives.advance hs
      apply Gives.bind (he _ hs.pass.state)
      intro item t ht hitem
      apply ih ht.state
      rw [List.map_append]
      exact hitems.follow (Nat.le_trans hs.last_le hs.pass.index) hitem.row
    · exact .pure hs hitems

theorem gives_arguments (he : Yields source K e) (hs : s.Over source K) (close : Symbol) :
    Gives source K s (arguments e close) fun items t =>
      InRow K s.index t.last (items.map .node) := by
  have hs' := hs.pass.state
  apply Gives.advance hs
  apply Gives.atSymbol
  intro b hb
  split
  · next hclose =>
    have hk := TokenKind.ne_eof_of_isSymbol (hb.trans hclose)
    apply Gives.advance hs'
    exact .pure hs'.pass.state (.nil (Nat.le_trans hs.pass.index (hs'.index_le_pass hk)))
  · apply Gives.bind (he.orExpected _ _ hs')
    intro first t ht hfirst
    apply Gives.remaining
    have hrow := hfirst.row.widen hs.pass.index (Nat.le_refl _)
    apply Gives.bind (gives_argumentsFrom he _ ht.state hrow)
    intro items u hu hitems
    apply Gives.bind (.expect hu.state _ _)
    intro _ v hv _
    exact .pure hv.state (hitems.widen (Nat.le_refl _) hv.last)

/-- The suffixes of a node start where it does. -/
theorem gives_suffixesFrom (he : Yields source K e) (n : Nat) (hs : s.Over source K)
    {node : Node Span} (hnode : Spans K low s.last node) :
    Gives source K s (suffixesFrom e n node) fun tree t => Spans K low t.last tree := by
  induction n generalizing s node with
  | zero => exact .pure hs hnode
  | succ n ih =>
    -- Whatever the suffix is, its node is tagged with a span from the start of `node`.
    have hsuffix : ∀ (make : Span → Node Span) (parts : List Part) (t : ParseState),
        Makes K make (.node node :: parts) → Later source K s t → InRow K s.last t.last parts →
        Gives source K t (do suffixesFrom e n (make (← spanFrom node.tag.start)))
          fun tree t => Spans K low t.last tree := by
      intro make parts t hmake ht hparts
      have hrow : InRow K node.tag.start.index t.last (.node node :: parts) :=
        hnode.row.self.follow hnode.row.bounds.2.2 hparts
      exact .tagged make hmake ht.state hnode.row.bounds.1 hrow fun _ htree => ih ht.state htree
    apply Gives.current
    split
    · apply Gives.bind (gives_arguments he hs _)
      intro args t ht hargs
      have hrow := hargs.widen hs.last_le (Nat.le_refl _)
      exact hsuffix (.call · node args) _ t ⟨fun _ => rfl, fun _ => rfl, nofun, nofun, fun _ => rfl⟩
        ht hrow
    · apply Gives.advance hs
      apply Gives.bind (he _ hs.pass.state)
      intro index t ht hindex
      apply Gives.bind (.expect ht.state _ _)
      intro _ u hu _
      have hrow := hindex.row.widen (Nat.le_trans hs.last_le hs.pass.index) hu.last
      exact hsuffix (.index · node index) _ u
        ⟨fun _ => rfl, fun _ => rfl, nofun, nofun, fun _ => rfl⟩ ((hs.pass.trans ht).trans hu) hrow
    · apply Gives.advance hs
      apply Gives.bind (.expectIdent hs.pass.state _)
      intro name t ht hname
      have hword : ∀ k ∈ [TokenKind.ident name.1], K k := List.forall_mem_singleton.mpr hname.1
      have hsofar := hs.pass.trans ht
      apply Gives.atSymbol
      intro b _
      split
      · apply Gives.bind (gives_arguments he ht.state _)
        intro args u hu hargs
        have hrow := hargs.widen (Nat.le_trans hs.last_le hsofar.index) (Nat.le_refl _)
        exact hsuffix (.methodCall · node name.1 args) _ u
          ⟨fun _ => rfl, fun _ => rfl, fun _ => hword, nofun, fun _ => rfl⟩ (hsofar.trans hu) hrow
      · exact hsuffix (.getAttr · node name.1) [] t
          ⟨fun _ => rfl, fun _ => rfl, fun _ => hword, nofun, fun _ => rfl⟩ hsofar
          (.nil hsofar.last)
    · exact .pure hs hnode

theorem Yields.call (he : Yields source K e) (ha : Yields source K a) :
    Yields source K (call e a) := by
  intro s hs
  apply Gives.bind (ha s hs)
  intro node t ht hnode
  exact .remaining (gives_suffixesFrom he _ ht.state hnode)

/-- A sign or `not`, which was just passed, before an operand. -/
theorem gives_signed {op : UnaryOp} {p : Parser (Node Span)} (hp : Yields source K p)
    (hs : s.Over source K) : Gives source K s.pass (do
      let operand ← p
      return Node.unary (s.cursor.current.span.through operand.tag) op operand)
    fun tree t => Spans K s.index t.last tree := by
  apply Gives.bind (hp _ hs.pass.state)
  intro operand t ht hoperand
  refine .pure ht.state ⟨InRow.node ?_ (Nat.le_refl _) hoperand.row.bounds.2.2 nofun nofun, rfl⟩
  have hlow : s.cursor.current.span.start.index ≤ operand.tag.start.index :=
    Nat.le_trans hs.pass.index hoperand.row.bounds.1
  exact hoperand.row.self.widen hlow (Nat.le_refl _)

theorem Yields.factor (he : Yields source K e) (ha : Yields source K a) (n : Nat) :
    Yields source K (factor e a n) := by
  induction n with
  | zero => exact (he.call ha).chain (yields_raiseHere _)
  | succ n ih =>
    intro s hs
    apply Gives.current
    split
    · exact (he.call ha).chain ih s hs
    · exact .advance hs (gives_signed ih hs)

theorem Yields.arith (he : Yields source K e) (ha : Yields source K a) :
    Yields source K (arith e a) := by
  have hfactor : Yields source K (anyFactor e a) := fun s hs => .remaining (he.factor ha _ s hs)
  have hterm : Yields source K (term e a) := hfactor.chain hfactor
  exact hterm.chain hterm

theorem Yields.comparison (he : Yields source K e) (ha : Yields source K a) (n : Nat) :
    Yields source K (comparison e a n) := by
  have hcompared : Yields source K (compared e a) :=
    ((he.arith ha).chain (he.arith ha)).orExpected _
  induction n with
  | zero => exact hcompared
  | succ n ih =>
    intro s hs
    apply Gives.atKeyword
    intro b _
    split
    · exact .advance hs (gives_signed ih hs)
    · exact hcompared s hs

theorem Yields.logic (he : Yields source K e) (ha : Yields source K a) :
    Yields source K (logic e a) := by
  have hcomparison : Yields source K (anyComparison e a) :=
    fun s hs => .remaining (he.comparison ha _ s hs)
  exact (hcomparison.chain hcomparison).orExpected _

/-! ### Statements -/

/-- A part of a node that does not trail off, within the bounds of the node. -/
theorem Spans.part {high : Nat} {p : Part} (h : Spans K low high tree) (hp : p ∈ tree.parts)
    (hsub : ∀ sub, p = .node sub → sub ∈ tree.subtrees) (hend : ¬ tree.TrailsOff p) :
    InRow K low high [p] := by
  have hsound : tree.Sound K := h.row.sound _ List.mem_cons_self tree rfl
  obtain ⟨hfirst, hle, hlast⟩ := hsound.self.nests.covers p hp
  refine .single (Nat.le_trans h.row.bounds.1 hfirst) hle ?_ ?_
  · exact Nat.le_trans (hlast.resolve_right hend) h.row.bounds.2.2
  · intro sub hnode
    exact hsound.subtree sub (hsub sub hnode)

theorem Yields.statement (he : Yields source K e) : Yields source K (statement e) := by
  intro s hs
  have hs' := hs.pass.state
  apply Gives.current
  apply Gives.following
  split
  · next hkind =>
    have hk := TokenKind.ne_eof hkind nofun
    apply Gives.advance hs
    apply Gives.bind (.attempt hs' (he _ hs'))
    intro value t ht hvalue
    have hrow : InRow K s.index t.last (value.toList.map .node) := by
      cases value with
      | none => exact .nil (Nat.le_trans (hs.index_le_pass hk) ht.last)
      | some value => exact (hvalue value rfl).row.widen hs.pass.index (Nat.le_refl _)
    exact gives_spanFrom (.ret · value)
      ⟨fun _ => rfl, fun _ => rfl, nofun, nofun, fun _ => rfl⟩ ht.state hrow
  · next hkind =>
    exact gives_token (.exit · .continuing) hs (TokenKind.ne_eof hkind nofun)
      ⟨fun _ => rfl, fun _ => rfl, nofun, nofun, fun _ => rfl⟩
  · next hkind =>
    exact gives_token (.exit · .breaking) hs (TokenKind.ne_eof hkind nofun)
      ⟨fun _ => rfl, fun _ => rfl, nofun, nofun, fun _ => rfl⟩
  · next name hkind _ =>
    have hname : K (.ident name) := hkind ▸ hs.kind (TokenKind.ne_eof hkind nofun)
    apply Gives.advance hs
    apply Gives.advance hs'
    apply Gives.bind (he _ hs'.pass.state)
    intro value t ht hvalue
    have hrow := hvalue.row.widen (hs.pass.trans hs'.pass).index (Nat.le_refl _)
    have hword : ∀ k ∈ [TokenKind.ident name], K k := List.forall_mem_singleton.mpr hname
    exact gives_spanFrom (.assign · name value)
      ⟨fun _ => rfl, fun _ => rfl, fun _ => hword, nofun, fun _ => rfl⟩ ht.state hrow
  · apply Gives.bind (he.orExpected _ s hs)
    intro node t ht hnode
    apply Gives.current
    split
    · next object name _ =>
      have hobject : InRow K s.index t.last [.node object] := by
        apply hnode.part List.mem_cons_self
        · rintro _ ⟨⟩
          exact List.mem_cons_self
        · rintro ⟨⟨_, _, _, ⟨⟩⟩, _⟩
      have hword := (hnode.row.sound _ List.mem_cons_self _ rfl).self.words
      apply Gives.advance ht.state
      apply Gives.bind (he _ ht.state.pass.state)
      intro value u hu hvalue
      have hrow := hobject.follow (Nat.le_trans ht.state.last_le ht.state.pass.index) hvalue.row
      exact gives_spanFrom (.setAttr · object name value)
        ⟨fun _ => rfl, fun _ => rfl, fun _ => hword, nofun, fun _ => rfl⟩ hu.state hrow
    · exact .pure ht.state hnode

theorem stop_blockSpan_concat (start : Position) (items : List (Node Span)) (item : Node Span) :
    (blockSpan start (items ++ [item])).stop = item.tag.stop := by
  unfold blockSpan
  rw [List.getLast?_concat]
  cases items <;> rfl

theorem start_blockSpan_concat (start : Position) {items : List (Node Span)} (h : items ≠ [])
    (item : Node Span) :
    (blockSpan start (items ++ [item])).start = (blockSpan start items).start := by
  obtain ⟨init, last, rfl⟩ := List.eq_nil_or_concat items |>.resolve_left h
  unfold blockSpan
  rw [List.concat_eq_append, List.getLast?_concat, List.getLast?_concat]
  cases init <;> rfl

/-- Statements that were read from `start` on: in a row from the first to the last. -/
structure Listed (K : TokenKind → Prop) (start : Position) (items : List (Node Span))
    (t : ParseState) : Prop where
  row : InRow K (blockSpan start items).start.index (blockSpan start items).stop.index
    (items.map .node)
  low : start.index ≤ (blockSpan start items).start.index
  high : (blockSpan start items).stop.index ≤ t.index
  last : items ≠ [] → (blockSpan start items).stop.index ≤ t.last

/-- One more statement. -/
theorem Listed.concat {start : Position} {items : List (Node Span)} {item : Node Span}
    {t : ParseState} (h : Listed K start items s) (hle : s.index ≤ low)
    (hitem : InRow K low t.last [.node item]) (ht : t.Over source K) :
    Listed K start (items ++ [item]) t := by
  have hstop : item.tag.stop.index ≤ t.last := hitem.bounds.2.2
  by_cases hnil : items = []
  · subst hnil
    refine ⟨hitem.self, ?_, Nat.le_trans hstop ht.last_le, fun _ => hstop⟩
    exact Nat.le_trans (Nat.le_trans h.low (Nat.le_trans h.row.le h.high))
      (Nat.le_trans hle hitem.bounds.1)
  · have hfollow : (blockSpan start items).stop.index ≤ item.tag.start.index :=
      Nat.le_trans h.high (Nat.le_trans hle hitem.bounds.1)
    constructor
    · rw [stop_blockSpan_concat, start_blockSpan_concat start hnil, List.map_append]
      exact h.row.follow hfollow hitem.self
    · rw [start_blockSpan_concat start hnil]
      exact h.low
    · rw [stop_blockSpan_concat]
      exact Nat.le_trans hstop ht.last_le
    · intro _
      rw [stop_blockSpan_concat]
      exact hstop

theorem gives_statementsFrom (he : Yields source K e) (n : Nat) (hs : s.Over source K)
    {start : Position} {items : List (Node Span)} (hitems : Listed K start items s) :
    Gives source K s (statementsFrom e n items) fun items t => Listed K start items t := by
  induction n generalizing s items with
  | zero => exact .pure hs hitems
  | succ n ih =>
    apply Gives.skipNewlines hs
    intro t ht
    apply Gives.bind (.attempt ht.state (he.statement t ht.state))
    intro answer u hu hanswer
    cases answer with
    | none =>
      -- Line breaks were passed before what is no statement, and stay passed.
      have hsofar := ht.trans hu
      refine .pure hu.state ⟨hitems.row, hitems.low, ?_, fun hne => ?_⟩
      · exact Nat.le_trans hitems.high hsofar.index
      · exact Nat.le_trans (hitems.last hne) hsofar.last
    | some item =>
      have hmore := hitems.concat ht.index (hanswer item rfl).row hu.state
      apply Gives.atNewline
      intro b _
      split
      · exact ih hu.state hmore
      · exact .pure hu.state hmore

/-- What is read as a body: up to the current token, and up to the last one passed unless
it is a sequence of no statements. -/
structure Fills (K : TokenKind → Prop) (low : Nat) (t : ParseState) (tree : Node Span) : Prop where
  row : InRow K low t.index [.node tree]
  last : tree.tag.stop.index ≤ t.last ∨ ∃ tag, tree = .block tag []

/-- Whatever is passed behind a body, it is covered then. -/
theorem Fills.closed {t u : ParseState} (h : Fills K low t tree) (hle : t.index ≤ u.last) :
    InRow K low u.last [.node tree] :=
  h.row.widen (Nat.le_refl _) hle

theorem gives_statements (he : Yields source K e) (hs : s.Over source K) :
    Gives source K s (statements e) fun tree t => Fills K s.index t tree ∧ tree.isBlock = true := by
  apply Gives.current
  apply Gives.remaining
  have hnone : Listed K s.cursor.current.span.start [] s :=
    ⟨.nil (Nat.le_refl _), Nat.le_refl _, Nat.le_refl _, fun h => absurd rfl h⟩
  apply Gives.bind (gives_statementsFrom he _ hs hnone)
  intro items t ht hitems
  refine .pure ht.state ⟨⟨InRow.node hitems.row hitems.low hitems.high nofun nofun, ?_⟩, rfl⟩
  by_cases hnil : items = []
  · subst hnil
    exact .inr ⟨_, rfl⟩
  · exact .inl (hitems.last hnil)

/-! ### Bodies -/

/-- A body is marked if it is a sequence. -/
def Marked (body : Body Span) : Prop := body.emitsNull = body.node.isBlock

theorem gives_branchBody (he : Yields source K e) (hs : s.Over source K) :
    Gives source K s (branchBody e) fun body t => Fills K s.index t body.node ∧ Marked body := by
  have hs' := hs.pass.state
  have hclose : ∀ (body : Body Span) t, t.Over source K → Fills K s.index t body.node →
      Marked body → Gives source K t (do
        if s.cursor.current.kind.isSymbol .leftBrace then
          skipNewlines
          let _ ← expect .rightBrace (.symbol .rightBrace)
        return body) fun body t => Fills K s.index t body.node ∧ Marked body := by
    intro body t ht hbody hmarked
    split
    · apply Gives.skipNewlines ht
      intro u hu
      apply Gives.bind (.expect hu.state _ _)
      intro _ v hv hpassed
      have hrow := hbody.closed (Nat.le_trans hu.index hpassed)
      refine .pure hv.state ⟨⟨hrow.widen (Nat.le_refl _) hv.state.last_le, ?_⟩, hmarked⟩
      exact .inl hrow.bounds.2.2
    · exact .pure ht ⟨hbody, hmarked⟩
  apply Gives.current
  dsimp only
  split
  · exact .raiseHere_bind _
  · apply Gives.advance hs
    apply Gives.atNewline
    intro b _
    split
    · apply Gives.advance hs'
      apply Gives.bind (gives_statements he hs'.pass.state)
      rintro block t ht ⟨hblock, his⟩
      apply hclose (.mk block true) t ht.state _ his.symm
      exact ⟨hblock.row.widen (hs.pass.trans hs'.pass).index (Nat.le_refl _), hblock.last⟩
    · apply Gives.bind (he.statement _ hs')
      intro node t ht hnode
      apply hclose (.mk node false) t ht.state _ hnode.single.symm
      exact ⟨hnode.row.widen hs.pass.index ht.state.last_le, .inl hnode.row.bounds.2.2⟩

/-- The body of a loop ends before the last token passed, which closes it. -/
abbrev YieldsBody (source : Source) (K : TokenKind → Prop) (p : Parser (Body Span)) : Prop :=
  ∀ s, s.Over source K → Gives source K s p fun body t =>
    InRow K s.index t.last [.node body.node] ∧ Marked body

theorem yields_bracedBody (he : Yields source K e) : YieldsBody source K (bracedBody e) := by
  intro s hs
  apply Gives.advance hs
  apply Gives.bind (gives_statements he hs.pass.state)
  rintro block t ht ⟨hblock, his⟩
  apply Gives.bind (.expect ht.state _ _)
  intro _ u hu hpassed
  exact .pure hu.state ⟨(hblock.closed hpassed).widen hs.pass.index (Nat.le_refl _), his.symm⟩

theorem yields_endedBody (he : Yields source K e) : YieldsBody source K (endedBody e) := by
  intro s hs
  apply Gives.advance hs
  apply Gives.bind (gives_statements he hs.pass.state)
  rintro block t ht ⟨hblock, his⟩
  apply Gives.bind (.expectKeyword ht.state _)
  intro _ u hu hpassed
  exact .pure hu.state ⟨(hblock.closed hpassed).widen hs.pass.index (Nat.le_refl _), his.symm⟩

theorem yields_inlineBody (he : Yields source K e) : YieldsBody source K (inlineBody e) := by
  intro s hs
  apply Gives.advance hs
  apply Gives.bind (he.statement _ hs.pass.state)
  intro node t ht hnode
  exact .pure ht.state ⟨hnode.row.widen hs.pass.index (Nat.le_refl _), hnode.single.symm⟩

/-- A body behind a token. -/
theorem YieldsBody.behind {p : Parser (Body Span)} (h : YieldsBody source K p)
    (hs : s.Over source K) : Gives source K s (advance >>= fun _ => p) fun body t =>
      InRow K s.index t.last [.node body.node] ∧ Marked body := by
  apply Gives.advance hs
  apply (h _ hs.pass.state).weaken
  rintro body t _ ⟨hrow, hmarked⟩
  exact ⟨hrow.widen hs.pass.index (Nat.le_refl _), hmarked⟩

theorem yields_forBody (he : Yields source K e) : YieldsBody source K (forBody e) := by
  intro s hs
  apply Gives.current
  apply Gives.following
  split
  · exact (yields_endedBody he).behind hs
  · exact yields_inlineBody he s hs
  · exact yields_bracedBody he s hs
  · exact .raiseHere _

theorem yields_whileBody (he : Yields source K e) : YieldsBody source K (whileBody e) := by
  intro s hs
  apply Gives.current
  apply Gives.following
  split
  · exact yields_bracedBody he s hs
  · exact (yields_endedBody he).behind hs
  · exact yields_inlineBody he s hs
  · exact yields_endedBody he s hs
  · exact .raiseHere _

/-! ### Conditionals and loops -/

/-- A part that ends before the last token passed, or else is the last of its row and has
no statement in it. -/
def EndsOrTrails (high : Nat) (parts : List Part) (p : Part) : Prop :=
  p.last ≤ high ∨ (∃ tag, p = .node (.block tag [])) ∧ parts.getLast? = some p

/-- The branches of a conditional, as far as they have been read. -/
structure Branches (K : TokenKind → Prop) (low : Nat) (t : ParseState)
    (r : List (Branch Span) × Option (Body Span)) : Prop where
  row : InRow K low t.index (condParts r.1 r.2)
  last : ∀ p ∈ condParts r.1 r.2, EndsOrTrails t.last (condParts r.1 r.2) p
  marks : ∀ body ∈ r.1.map Branch.body ++ r.2.toList, Marked body

/-- Parts that are covered, and a body behind them. -/
theorem Fills.endsOrTrails {t : ParseState} {parts : List Part} (h : Fills K low t tree)
    (hparts : ∀ p ∈ parts, p.last ≤ t.last) :
    ∀ p ∈ parts ++ [.node tree], EndsOrTrails t.last (parts ++ [.node tree]) p := by
  intro p hp
  rcases List.mem_append.mp hp with hp | hp
  · exact .inl (hparts p hp)
  · cases List.mem_singleton.mp hp
    rcases h.last with hlast | ⟨tag, rfl⟩
    · exact .inl hlast
    · exact .inr ⟨⟨tag, rfl⟩, List.getLast?_concat⟩

theorem condParts_concat (branches : List (Branch Span)) (condition : Node Span)
    (body : Body Span) : condParts (branches ++ [.mk condition body]) none =
      (condParts branches none ++ [.node condition]) ++ [.node body.node] := by
  simp [condParts, Branch.condition, Branch.body]

theorem condParts_some (branches : List (Branch Span)) (body : Body Span) :
    condParts branches (some body) = condParts branches none ++ [.node body.node] := by
  simp [condParts]

theorem gives_branchesFrom (he : Yields source K e) (n : Nat) (hs : s.Over source K)
    {branches : List (Branch Span)} (hrow : InRow K low s.last (condParts branches none))
    (hmarks : ∀ body ∈ branches.map Branch.body, Marked body) :
    Gives source K s (branchesFrom e n branches) fun r t => Branches K low t r := by
  induction n generalizing s branches with
  | zero => exact .raiseHere _
  | succ n ih =>
    apply Gives.bind (he s hs)
    intro condition t ht hcondition
    apply Gives.bind (gives_branchBody he ht.state)
    rintro body v hv ⟨hbody, hmarked⟩
    apply Gives.get
    have hfirst : InRow K low t.last (condParts branches none ++ [.node condition]) :=
      hrow.follow hs.last_le hcondition.row
    have hmore : Branches K low v (branches ++ [.mk condition body], none) := by
      constructor
      · rw [condParts_concat]
        exact hfirst.follow ht.state.last_le hbody.row
      · rw [condParts_concat]
        apply hbody.endsOrTrails
        exact fun p hp => Nat.le_trans (hfirst.inside p hp).2.2 hv.last
      · simp only [List.map_append, List.map_cons, List.map_nil, Option.toList_none,
          List.append_nil, List.mem_append, List.mem_singleton]
        rintro b (hb | rfl)
        · exact hmarks b hb
        · exact hmarked
    have hmarks' : ∀ b ∈ (branches ++ [Branch.mk condition body]).map Branch.body, Marked b :=
      fun b hb => hmore.marks b (List.mem_append_left _ hb)
    let u : ParseState := { v with cursor := v.cursor.skipNewlines v.cursor.rest.length }
    have hu : Later source K v u := hv.state.skip _
    -- Behind the keyword everything so far is covered by what was passed.
    have hcovered : u.cursor.current.kind ≠ .eof →
        InRow K low u.pass.last (condParts (branches ++ [.mk condition body]) none) := by
      intro hk
      exact hmore.row.widen (Nat.le_refl _) (Nat.le_trans hu.index (hu.state.index_le_pass hk))
    cases hElif : u.cursor.current.kind.isKeyword .elif with
    | true =>
      have hk := TokenKind.ne_eof_of_isKeyword hElif
      refine .step rfl hu (.atKeyword fun b hb => ?_)
      cases hElif.symm.trans hb
      exact .advance hu.state (ih hu.state.pass.state (hcovered hk) hmarks')
    | false =>
      cases hElse : u.cursor.current.kind.isKeyword .elseWord with
      | true =>
        have hk := TokenKind.ne_eof_of_isKeyword hElse
        refine .step rfl hu (.atKeyword fun b hb => ?_)
        cases hElif.symm.trans hb
        refine .atKeyword fun b hb => ?_
        cases hElse.symm.trans hb
        apply Gives.advance hu.state
        apply Gives.bind (gives_branchBody he hu.state.pass.state)
        rintro last w hw ⟨hlast, hmarkedLast⟩
        have hprior := hcovered hk
        refine .pure hw.state ⟨?_, ?_, ?_⟩
        · rw [condParts_some]
          exact hprior.follow hu.state.pass.state.last_le hlast.row
        · rw [condParts_some]
          apply hlast.endsOrTrails
          exact fun p hp => Nat.le_trans (hprior.inside p hp).2.2 hw.last
        · intro b hb
          rcases List.mem_append.mp hb with hb | hb
          · exact hmarks' b hb
          · cases List.mem_singleton.mp hb
            exact hmarkedLast
      | false =>
        -- The line breaks before something else are given back.
        refine .back (b := (branches ++ [.mk condition body], none)) hv.state rfl ?_ hmore
        have hElif' : u.cursor.current.kind.isKeyword .elif ≠ true := by simp [hElif]
        have hElse' : u.cursor.current.kind.isKeyword .elseWord ≠ true := by simp [hElse]
        show (if u.cursor.current.kind.isKeyword .elif = true then _ else _ : Parser _) u = _
        rw [if_neg hElif']
        show (if u.cursor.current.kind.isKeyword .elseWord = true then _ else _ : Parser _) u = _
        rw [if_neg hElse']
        rfl

theorem gives_conditional (he : Yields source K e) (hs : s.Over source K)
    (hk : s.cursor.current.kind ≠ .eof) :
    Gives source K s (conditional e) fun tree t => Spans K s.index t.last tree := by
  have hs' := hs.pass.state
  apply Gives.advance hs
  apply Gives.remaining
  have hnone : ∀ body ∈ ([] : List (Branch Span)).map Branch.body, Marked body := nofun
  apply Gives.bind (gives_branchesFrom he _ hs' (.nil (hs.index_le_pass hk)) hnone)
  intro r t ht hr
  have hle : s.index ≤ t.last := Nat.le_trans (hs.index_le_pass hk) ht.last
  apply Gives.spanFrom ht.state hle
  intro span hstart hstop
  have hord : span.start.index ≤ span.stop.index := by
    rw [hstart, hstop]
    exact hle
  -- Its parts need not lie between its ends, so it is no row of them.
  have hnests : (Node.cond span r.1 r.2).Nests := by
    refine ⟨hord, fun p hp => ?_, hr.row.apart⟩
    obtain ⟨hlow, hpart, _⟩ := hr.row.inside p hp
    refine ⟨?_, hpart, ?_⟩
    · show span.start.index ≤ p.first
      rw [hstart]
      exact hlow
    · rcases hr.last p hp with hlast | ⟨hblock, hget⟩
      · exact .inl (Nat.le_trans hlast (Nat.le_of_eq hstop.symm))
      · exact .inr ⟨⟨_, _, _, rfl⟩, hblock, hget⟩
  refine .pure ht.state ⟨.single ?_ hord (Nat.le_of_eq hstop) ?_, rfl⟩
  · show s.index ≤ span.start.index
    rw [hstart]
    exact Nat.le_refl _
  · rintro _ ⟨⟩
    exact .intro hnests hr.row.sound nofun hr.marks

theorem Yields.forLoop (he : Yields source K e) : Yields source K (forLoop e) := by
  intro s hs
  have hs' := hs.pass.state
  apply Gives.advance hs
  apply Gives.bind (.expectIdent hs' _)
  intro counter t₁ h₁ hcounter
  apply Gives.bind (.expect h₁.state _ _)
  intro _ t₂ h₂ _
  apply Gives.bind (he _ h₂.state)
  intro first t₃ h₃ hfirst
  apply Gives.bind (.expectKeyword h₃.state _)
  intro _ t₄ h₄ _
  apply Gives.bind (he _ h₄.state)
  intro last t₅ h₅ hlast
  have hends : InRow K s.index t₅.last ([.node first] ++ [.node last]) :=
    (hfirst.row.widen ((hs.pass.trans h₁).trans h₂).index (Nat.le_refl _)).follow
      (Nat.le_trans h₃.state.last_le h₄.index) hlast.row
  have hrest : ∀ (step : Option (Node Span)) t, t.Over source K →
      InRow K s.index t.last ([.node first, .node last] ++ step.toList.map .node) →
      Gives source K t (do
        let body ← forBody e
        return Node.forLoop (← spanFrom s.cursor.current.span.start) counter.1 first last step body)
        fun tree t => Spans K s.index t.last tree := by
    intro step t ht hrow
    apply Gives.bind (yields_forBody he t ht)
    rintro body u hu ⟨hbody, hmarked⟩
    have hword : ∀ k ∈ [TokenKind.ident counter.1], K k := List.forall_mem_singleton.mpr hcounter.1
    have hmarks : ∀ b ∈ [body], Marked b := List.forall_mem_singleton.mpr hmarked
    exact gives_spanFrom (.forLoop · counter.1 first last step body)
      ⟨fun _ => rfl, fun _ => rfl, fun _ => hword, fun _ => hmarks, fun _ => rfl⟩ hu.state
      (hrow.follow ht.last_le hbody)
  apply Gives.atKeyword
  intro b _
  dsimp only
  split
  · apply Gives.advance h₅.state
    apply Gives.bind (he _ h₅.state.pass.state)
    intro step t₆ h₆ hstep
    apply hrest (some step) t₆ h₆.state
    exact hends.follow (Nat.le_trans h₅.state.last_le h₅.state.pass.index) hstep.row
  · exact hrest none t₅ h₅.state hends

theorem Yields.whileLoop (he : Yields source K e) : Yields source K (whileLoop e) := by
  intro s hs
  apply Gives.advance hs
  apply Gives.bind (he _ hs.pass.state)
  intro condition t ht hcondition
  apply Gives.bind (yields_whileBody he t ht.state)
  rintro body u hu ⟨hbody, hmarked⟩
  have hrow : InRow K s.index u.last ([.node condition] ++ [.node body.node]) :=
    (hcondition.row.widen hs.pass.index (Nat.le_refl _)).follow ht.state.last_le hbody
  have hmarks : ∀ b ∈ [body], Marked b := List.forall_mem_singleton.mpr hmarked
  exact gives_spanFrom (.whileLoop · condition body)
    ⟨fun _ => rfl, fun _ => rfl, nofun, fun _ => hmarks, fun _ => rfl⟩ hu.state hrow

/-! ### Functions, classes and instances -/

/-- Parameters that have been read, in a row, and under names of the kinds `K`. -/
structure Declared (K : TokenKind → Prop) (low high : Nat) (params : List (Param Span)) :
    Prop where
  row : InRow K low high (params.map .param)
  names : ∀ p ∈ params, K (.ident p.name)

theorem gives_paramsFrom (n : Nat) (hs : s.Over source K) {params : List (Param Span)}
    (hparams : Declared K low s.last params) :
    Gives source K s (paramsFrom n params) fun params t => Declared K low t.last params := by
  induction n generalizing s params with
  | zero => exact .raiseHere _
  | succ n ih =>
    apply Gives.current
    split
    · exact .raiseHere _
    · next type _ =>
      apply Gives.advance hs
      apply Gives.bind (.expectIdent hs.pass.state _)
      rintro ⟨name, span⟩ t ht ⟨hname, hlow, hord, hhigh⟩
      have hmore : Declared K low t.last (params ++ [⟨name, type, span⟩]) := by
        constructor
        · rw [List.map_append]
          apply hparams.row.follow (Nat.le_trans hs.last_le hs.pass.index)
          exact .single hlow hord hhigh nofun
        · intro p hp
          rcases List.mem_append.mp hp with hp | hp
          · exact hparams.names p hp
          · cases List.mem_singleton.mp hp
            exact hname
      apply Gives.atSymbol
      intro b _
      split
      · apply Gives.advance ht.state
        apply ih ht.state.pass.state
        exact ⟨hmore.row.widen (Nat.le_refl _) ht.state.pass.last, hmore.names⟩
      · exact .pure ht.state hmore

/-- The body of a function, behind its parameters. -/
theorem gives_functionBody (he : Yields source K e) (hs : s.Over source K) {start : Position}
    {params : List (Param Span)} (hrow : InRow K start.index s.last (params.map .param)) :
    Gives source K s (functionBody e start) fun r t =>
      InRow K start.index t.last (params.map .param ++ [.node r.1]) := by
  have hs' := hs.pass.state
  have hend : ∀ t, Later source K s t → Gives source K t (do
      let block ← statements e
      skipNewlines
      let closing := (← current).kind
      if closing.isSymbol .rightBrace || closing.isKeyword .endWord then
        let _ ← advance
        return (block, false)
      else
        raiseHere .braceOrEnd) fun r t =>
      InRow K start.index t.last (params.map .param ++ [.node r.1]) := by
    intro t ht
    apply Gives.bind (gives_statements he ht.state)
    rintro block u hu ⟨hblock, _⟩
    apply Gives.skipNewlines hu.state
    intro v hv
    apply Gives.current
    dsimp only
    split
    · next hclosing =>
      have hk : v.cursor.current.kind ≠ .eof := by
        rcases (Bool.or_eq_true _ _).mp hclosing with hbrace | hword
        · exact TokenKind.ne_eof_of_isSymbol hbrace
        · exact TokenKind.ne_eof_of_isKeyword hword
      apply Gives.advance hv.state
      apply Gives.pure hv.state.pass.state
      apply hrow.follow (Nat.le_trans hs.last_le ht.index)
      exact hblock.closed (Nat.le_trans hv.index (hv.state.index_le_pass hk))
    · exact .raiseHere _
  have hblock : Gives source K s (do
      let _ ← advance
      if ← atNewline then
        let _ ← advance
      let block ← statements e
      skipNewlines
      let closing := (← current).kind
      if closing.isSymbol .rightBrace || closing.isKeyword .endWord then
        let _ ← advance
        return (block, false)
      else
        raiseHere .braceOrEnd) fun r t =>
      InRow K start.index t.last (params.map .param ++ [.node r.1]) := by
    apply Gives.advance hs
    apply Gives.atNewline
    intro b _
    split
    · exact .advance hs' (hend _ (hs.pass.trans hs'.pass))
    · exact hend _ hs.pass
  apply Gives.current
  split
  · apply Gives.advance hs
    apply Gives.bind (he _ hs')
    intro body t ht hbody
    exact .pure ht.state (hrow.follow (Nat.le_trans hs.last_le hs.pass.index) hbody.row)
  · apply Gives.advance hs
    apply Gives.bind (he _ hs')
    intro value t ht hvalue
    apply Gives.pure ht.state
    have hlow : s.index ≤ value.tag.start.index := Nat.le_trans hs.pass.index hvalue.row.bounds.1
    have hreturn : InRow K s.index value.tag.stop.index
        [.node (.ret ⟨s.cursor.current.span.start, value.tag.stop⟩ (some value))] :=
      .node (hvalue.row.self.widen hlow (Nat.le_refl _)) (Nat.le_refl _) (Nat.le_refl _) nofun nofun
    have hstart : start.index ≤ s.index := Nat.le_trans hrow.le hs.last_le
    -- The block starts where the function does, and so around the parameters.
    have hbody : InRow K start.index value.tag.stop.index [.node (.block ⟨start, value.tag.stop⟩
        [.ret ⟨s.cursor.current.span.start, value.tag.stop⟩ (some value)])] :=
      .node (hreturn.widen hstart (Nat.le_refl _)) (Nat.le_refl _) (Nat.le_refl _) nofun nofun
    exact hrow.around (hbody.widen (Nat.le_refl _) hvalue.row.bounds.2.2) (Nat.le_refl _)
      hs.last_le (hs.pass.trans ht).last
  · exact hblock
  · exact hblock
  · exact .raiseHere _

/-- A function that has been read, from its first word to the last token passed. -/
structure Defines (K : TokenKind → Prop) (low high : Nat) (f : FuncDef Span) : Prop where
  row : InRow K low high f.parts
  words : ∀ k ∈ f.words, K k

theorem gives_function (he : Yields source K e) (hs : s.Over source K)
    (hk : s.cursor.current.kind ≠ .eof) :
    Gives source K s (function e) fun f t => Defines K s.index t.last f := by
  have hs' := hs.pass.state
  have hrest : ∀ (name : Option String) t, Later source K s.pass t →
      (∀ n ∈ name, K (.ident n)) → Gives source K t (do
      let _ ← expect .leftParen
        (if name.isSome then .symbol .leftParen else .identifierOrParen)
      let params ←
        if ← atSymbol .rightParen then pure [] else paramsFrom ((← remaining) + 1) []
      let _ ← expect .rightParen .parameterEnd
      let r ← functionBody e s.cursor.current.span.start
      return FuncDef.mk name params r.1 r.2) fun f t => Defines K s.index t.last f := by
    intro name t ht hname
    have hbody : ∀ (params : List (Param Span)) u, u.Over source K →
        Declared K s.index u.last params → Gives source K u (do
        let _ ← expect .rightParen .parameterEnd
        let r ← functionBody e s.cursor.current.span.start
        return FuncDef.mk name params r.1 r.2) fun f t => Defines K s.index t.last f := by
      intro params u hu hparams
      apply Gives.bind (.expect hu _ _)
      intro _ v hv _
      apply Gives.bind (gives_functionBody he hv.state (hparams.row.widen (Nat.le_refl _) hv.last))
      intro r w hw hr
      refine .pure hw.state ⟨hr, fun k hmem => ?_⟩
      simp only [FuncDef.words, FuncDef.name, FuncDef.params, List.mem_append, List.mem_map,
        Option.mem_toList] at hmem
      rcases hmem with ⟨n, hn, rfl⟩ | ⟨p, hp, rfl⟩
      · exact hname n hn
      · exact hparams.names p hp
    apply Gives.bind (.expect ht.state _ _)
    intro _ u hu _
    have hnone : Declared K s.index u.last [] :=
      ⟨.nil (Nat.le_trans (hs.index_le_pass hk) (ht.trans hu).last), nofun⟩
    apply Gives.atSymbol
    intro b _
    split
    · exact hbody [] u hu.state hnone
    · apply Gives.remaining
      apply Gives.bind (gives_paramsFrom _ hu.state hnone)
      intro params v hv hparams
      exact hbody params v hv.state hparams
  apply Gives.advance hs
  apply Gives.current
  cases hname : s.pass.cursor.current.kind.ident? with
  | none => exact hrest none _ (.refl hs') nofun
  | some name =>
    apply Gives.advance hs'
    apply hrest (some name) _ hs'.pass
    rintro _ ⟨⟩
    exact hs'.ident hname

theorem gives_methodsFrom (he : Yields source K e) (braced : Bool) (n : Nat)
    (hs : s.Over source K) {methods : List (FuncDef Span)}
    (hrow : InRow K low s.last (methods.flatMap FuncDef.parts))
    (hwords : ∀ k ∈ methods.flatMap FuncDef.words, K k) :
    Gives source K s (methodsFrom e braced n methods) fun fs t =>
      InRow K low t.last (fs.flatMap FuncDef.parts) ∧ ∀ k ∈ fs.flatMap FuncDef.words, K k := by
  induction n generalizing s methods with
  | zero => exact .raiseHere _
  | succ n ih =>
    apply Gives.skipNewlines hs
    intro t ht
    apply Gives.current
    generalize (if braced then t.cursor.current.kind.isSymbol .rightBrace
      else t.cursor.current.kind.isKeyword .endWord) = ended
    cases ended with
    | true =>
      apply Gives.advance ht.state
      apply Gives.pure ht.state.pass.state
      exact ⟨hrow.widen (Nat.le_refl _) (ht.trans ht.state.pass).last, hwords⟩
    | false =>
      rw [if_neg Bool.false_ne_true]
      split
      · next hfunc =>
        have hk := TokenKind.ne_eof_of_isKeyword hfunc
        apply Gives.bind (gives_function he ht.state hk)
        intro method u hu hmethod
        dsimp only
        split
        · exact .bind (P := fun _ _ => False) (.raise _) fun _ _ _ h => h.elim
        · apply ih hu.state
          · rw [List.flatMap_append, List.flatMap_singleton]
            exact hrow.follow (Nat.le_trans hs.last_le ht.index) hmethod.row
          · rw [List.flatMap_append, List.flatMap_singleton]
            exact List.forall_mem_append.mpr ⟨hwords, hmethod.words⟩
      · exact .raiseHere _

theorem gives_classDefinition (he : Yields source K e) (hs : s.Over source K)
    (hk : s.cursor.current.kind ≠ .eof) :
    Gives source K s (classDefinition e) fun tree t => Spans K s.index t.last tree := by
  have hs' := hs.pass.state
  apply Gives.advance hs
  apply Gives.bind (.expectIdent hs' _)
  intro name t ht hname
  have hrest : ∀ (parent : Option String) u, Later source K s.pass u →
      (∀ p ∈ parent, K (.ident p)) → Gives source K u (do
      let kind := (← current).kind
      if !(kind.isSymbol .leftBrace || kind.isSymbol .colon) then
        raiseHere .colonOrBrace
      let _ ← advance
      let methods ← methodsFrom e (kind.isSymbol .leftBrace) ((← remaining) + 1) []
      return Node.cls (← spanFrom s.cursor.current.span.start) name.1 parent methods)
      fun tree t => Spans K s.index t.last tree := by
    intro parent u hu hparent
    have hpass := hu.state.pass
    apply Gives.current
    dsimp only
    split
    · exact .raiseHere_bind _
    · apply Gives.advance hu.state
      apply Gives.remaining
      have hnone : InRow K s.index u.pass.last (([] : List (FuncDef Span)).flatMap FuncDef.parts) :=
        .nil (Nat.le_trans (hs.index_le_pass hk) (hu.trans hpass).last)
      apply Gives.bind (gives_methodsFrom he _ _ hpass.state hnone nofun)
      rintro methods v hv ⟨hrow, hwords⟩
      refine gives_spanFrom (.cls · name.1 parent methods)
        ⟨fun _ => rfl, fun _ => rfl, fun _ k hmem => ?_, nofun, fun _ => rfl⟩ hv.state hrow
      simp only [Node.words, List.mem_cons, List.mem_append, List.mem_map,
        Option.mem_toList] at hmem
      rcases hmem with rfl | ⟨p, hp, rfl⟩ | hmem
      · exact hname.1
      · exact hparent p hp
      · exact hwords k hmem
  apply Gives.current
  dsimp only
  split
  · apply Gives.advance ht.state
    apply Gives.bind (.expectIdent ht.state.pass.state _)
    intro parent u hu hparent
    apply hrest (some parent.1) u ((ht.trans ht.state.pass).trans hu)
    rintro _ ⟨⟩
    exact hparent.1
  · exact hrest none t ht nofun

theorem Yields.instanceCreation (he : Yields source K e) :
    Yields source K (instanceCreation e) := by
  intro s hs
  apply Gives.advance hs
  apply Gives.bind (.expectIdent hs.pass.state _)
  intro cls t ht hcls
  apply Gives.atSymbol
  intro b _
  dsimp only
  split
  · exact .raiseHere_bind _
  · apply Gives.bind (gives_arguments he ht.state _)
    intro args u hu hargs
    have hrow := hargs.widen (hs.pass.trans ht).index (Nat.le_refl _)
    have hword : ∀ k ∈ [TokenKind.ident cls.1], K k := List.forall_mem_singleton.mpr hcls.1
    exact gives_spanFrom (.new · cls.1 args)
      ⟨fun _ => rfl, fun _ => rfl, fun _ => hword, nofun, fun _ => rfl⟩ hu.state hrow

/-! ### Expressions and programs -/

variable {hint : String → Option Keyword}

theorem Yields.atom (he : Yields source K e) : Yields source K (atom hint e) := by
  intro s hs
  apply Gives.current
  split
  · next n hkind =>
    have hword : ∀ k ∈ [TokenKind.int n], k = s.cursor.current.kind :=
      List.forall_mem_singleton.mpr hkind.symm
    exact gives_token (.int · n) hs (TokenKind.ne_eof hkind nofun)
      ⟨fun _ => rfl, fun _ => rfl, fun _ => hword, nofun, fun _ => rfl⟩
  · next x hkind =>
    have hword : ∀ k ∈ [TokenKind.float x], k = s.cursor.current.kind :=
      List.forall_mem_singleton.mpr hkind.symm
    exact gives_token (.float · x) hs (TokenKind.ne_eof hkind nofun)
      ⟨fun _ => rfl, fun _ => rfl, fun _ => hword, nofun, fun _ => rfl⟩
  · next text hkind =>
    have hword : ∀ k ∈ [TokenKind.string text], k = s.cursor.current.kind :=
      List.forall_mem_singleton.mpr hkind.symm
    exact gives_token (.string · text) hs (TokenKind.ne_eof hkind nofun)
      ⟨fun _ => rfl, fun _ => rfl, fun _ => hword, nofun, fun _ => rfl⟩
  · next name hkind =>
    have hk := TokenKind.ne_eof hkind nofun
    apply Gives.following
    dsimp only
    split
    · exact gives_classDefinition he hs hk
    · split
      · exact he.instanceCreation s hs
      · split
        · exact .raise _
        · have hword : ∀ k ∈ [TokenKind.ident name], k = s.cursor.current.kind :=
            List.forall_mem_singleton.mpr hkind.symm
          exact gives_token (.name · name) hs hk
            ⟨fun _ => rfl, fun _ => rfl, fun _ => hword, nofun, fun _ => rfl⟩
  · apply Gives.advance hs
    apply Gives.bind (he _ hs.pass.state)
    intro node t ht hnode
    apply Gives.bind (.expect ht.state _ _)
    intro _ u hu _
    exact .pure hu.state ⟨hnode.row.widen hs.pass.index hu.last, hnode.single⟩
  · apply Gives.bind (gives_arguments he hs _)
    intro items t ht hitems
    exact gives_spanFrom (.list · items)
      ⟨fun _ => rfl, fun _ => rfl, nofun, nofun, fun _ => rfl⟩ ht.state hitems
  · next hkind => exact gives_conditional he hs (TokenKind.ne_eof hkind nofun)
  · exact he.forLoop s hs
  · exact he.whileLoop s hs
  · next hkind =>
    apply Gives.bind (gives_function he hs (TokenKind.ne_eof hkind nofun))
    intro definition t ht hdefinition
    exact gives_spanFrom (.func · definition)
      ⟨fun _ => rfl, fun _ => rfl, fun _ => hdefinition.words, nofun, fun _ => rfl⟩ ht.state
      hdefinition.row
  · exact .raiseHere _

theorem gives_declaration (he : Yields source K e) (hs : s.Over source K) {start : Position}
    (hle : start.index ≤ s.index) {name : String} (hname : K (.ident name))
    (type : Option DeclaredType) (constant : Bool) :
    Gives source K s (declaration e start name type constant) fun tree t =>
      Spans K start.index t.last tree := by
  apply Gives.bind (he s hs)
  intro value t ht hvalue
  have hrow := hvalue.row.widen hle (Nat.le_refl _)
  have hword : ∀ k ∈ [TokenKind.ident name], K k := List.forall_mem_singleton.mpr hname
  exact gives_spanFrom (.declare · name type constant value)
    ⟨fun _ => rfl, fun _ => rfl, fun _ => hword, nofun, fun _ => rfl⟩ ht.state hrow

theorem Yields.expressionStep (he : Yields source K e) :
    Yields source K (expressionStep hint e) := by
  intro s hs
  have hs' := hs.pass.state
  have hatom : Yields source K (Parser.atom hint e) := he.atom
  have hlogic := he.logic hatom s hs
  apply Gives.current
  apply Gives.following
  split
  · apply Gives.advance hs
    apply Gives.bind (.expectIdent hs' _)
    intro name t ht hname
    apply Gives.bind (.expect ht.state _ _)
    intro _ u hu _
    exact gives_declaration he hu.state ((hs.pass.trans ht).trans hu).index hname.1 _ _
  · next word name hword hname =>
    split
    · exact hlogic
    · have hs'' := hs'.pass.state
      have hle := ((hs.pass.trans hs'.pass).trans hs''.pass).index
      have hk : K (.ident name) := hs.following hname
      apply Gives.advance hs
      apply Gives.advance hs'
      apply Gives.current
      split
      · exact .advance hs'' (gives_declaration he hs''.pass.state hle hk _ _)
      · exact .advance hs'' (gives_declaration he hs''.pass.state hle hk _ _)
      · exact .raiseHere _
  · exact hlogic

/-- What expressions yield, however deep they may nest. -/
theorem yields_expression (n : Nat) : Yields source K (expression hint n) := by
  induction n with
  | zero => exact (yields_raiseHere _).expressionStep
  | succ n ih => exact ih.expressionStep

theorem gives_program (hs : s.Over source K) :
    Gives source K s (program hint) fun tree _ => tree.Sound K := by
  apply Gives.remaining
  apply Gives.bind (gives_statements (yields_expression _) hs)
  rintro block t ht ⟨hblock, _⟩
  apply Gives.current
  split
  · exact .pure ht.state (hblock.row.sound _ List.mem_cons_self block rfl)
  · exact .following (.raise _)

end Parser

/-! ### Whole sources -/

namespace Source

/-- Whether a token of this kind stands in the text. -/
def Holds (source : Source) (kind : TokenKind) : Prop :=
  ∃ token, .ok token ∈ source.scan.1 ∧ token.kind = kind

/-- The nodes of a program nest, its words stand in the text, and its bodies are marked if
they are sequences. -/
theorem parse_sound {tree : Node Span} (h : source.parse = .ok tree) :
    tree.Sound source.Holds := by
  obtain ⟨tokens, eof, s, htokens, hprogram⟩ := parse_eq_ok.mp h
  rcases source.tokens_cases with ⟨found, hfound, hitems⟩ | ⟨f, hf, _⟩
  · cases hfound.symm.trans htokens
    have hstart : (Parser.start tokens source.scan.2).Over source source.Holds := by
      refine ⟨(source.start_in hitems).cursor, fun t ht => ⟨t, ?_, rfl⟩, ?_⟩
      · rw [hitems]
        exact List.mem_map_of_mem (List.mem_filter.mp ht).1
      · show source.scan.2.kind = .eof
        rw [source.scan_spec.1]
    exact (Parser.gives_program hstart tree s hprogram).2
  · cases hf.symm.trans htokens

/-- **The spans of a program nest.** Each node covers its parts, and these lie one behind
the other, but for an empty body at the end of a conditional and for the body of a function
that is written as one `return`. -/
theorem parse_nests {tree : Node Span} (h : source.parse = .ok tree) : tree.All Nests :=
  (parse_sound h).imp fun _ hbuilt => hbuilt.nests

/-- The statement of a program with one. -/
def single? (source : Source) : Option (Node Span) :=
  match source.parse with
  | .ok (.block _ [tree]) => some tree
  | _ => none

theorem of_single? {tree : Node Span} (h : source.single? = some tree) :
    ∃ tag, source.parse = .ok (.block tag [tree]) := by
  unfold single? at h
  split at h
  · next tag _ hparse =>
    cases h
    exact ⟨tag, hparse⟩
  · cases h

/-- A conditional with nothing behind its line break but blanks. -/
def trailing : Source := ⟨"<test>", "if 1:\n  "⟩

/-- A function with a parameter, as one `return`. -/
def returning : Source := ⟨"<test>", "func f(int a) return a"⟩

theorem parse_nests_returning : ∃ tree, returning.parse = .ok tree ∧ tree.All Nests := by
  have hsome : returning.single?.isSome = true := by decide +kernel
  obtain ⟨tree, hsingle⟩ := Option.isSome_iff_exists.mp hsome
  obtain ⟨tag, hparse⟩ := of_single? hsingle
  exact ⟨_, hparse, parse_nests hparse⟩

/-- Not every node covers its parts, and not all parts are apart. -/
theorem spans_overlap :
    (∃ tree sub p, trailing.parse = .ok tree ∧ sub ∈ tree.subtrees ∧ p ∈ sub.parts ∧
      sub.tag.stop.index < p.first) ∧
    ∃ tree sub, returning.parse = .ok tree ∧ sub ∈ tree.subtrees ∧
      ¬ sub.parts.Pairwise fun p q => p.last ≤ q.first := by
  constructor
  · have hout : (trailing.single?.any fun sub => sub.parts.any fun p =>
        sub.tag.stop.index < p.first) = true := by decide +kernel
    obtain ⟨sub, hsingle, hsub⟩ := (Option.any_eq_true _ _).mp hout
    obtain ⟨p, hp, hlt⟩ := List.any_eq_true.mp hsub
    obtain ⟨tag, hparse⟩ := of_single? hsingle
    exact ⟨_, sub, p, hparse, List.mem_cons_self, hp, of_decide_eq_true hlt⟩
  · have hout : (returning.single?.any fun sub =>
        ¬ sub.parts.Pairwise fun p q => p.last ≤ q.first) = true := by decide +kernel
    obtain ⟨sub, hsingle, hsub⟩ := (Option.any_eq_true _ _).mp hout
    obtain ⟨tag, hparse⟩ := of_single? hsingle
    exact ⟨_, sub, hparse, List.mem_cons_self, of_decide_eq_true hsub⟩

end Source

end Script
