import Script.Proofs.Places

/-! What is known wherever a parser may be, as a parameter.

A parser comes to three kinds of places: where a statement or an expression may start, where
a name may be passed, and any other place between two tokens. A `Footing` says what is known
of the state at each of them, and of a state that a failure leaves behind. It owes what
parsers rely on: behind an operator, a bracket, a keyword or a line break a phrase may start;
behind a name nothing is known but what holds anywhere, unless the word before was one that
leads a name; and where an attempt is given up the state is again one where it could start.

From this every procedure of the grammar keeps to every footing, proved once. It is proved of
two parsers at a time, which come to the same places and do the same there (`Agree`): they
differ only in the guesses at misspelt words, and these must agree where a phrase may start
(`Footing.Settles`). For what one parser does alone the two are the same. -/
namespace Script

variable {α β : Type}

/-- An operator, a bracket, a keyword or a line break. -/
def TokenKind.isMark : TokenKind → Bool
  | .symbol _ | .keyword _ | .newline => true
  | _ => false

namespace TokenKind

variable {kind : TokenKind}

theorem isMark_of_isSymbol {symbol : Symbol} (h : kind.isSymbol symbol = true) :
    kind.isMark = true := by
  cases kind <;> simp_all [isSymbol, isMark]

theorem isMark_of_isKeyword {keyword : Keyword} (h : kind.isKeyword keyword = true) :
    kind.isMark = true := by
  cases kind <;> simp_all [isKeyword, isMark]

theorem isMark_of_isNewline (h : kind.isNewline = true) : kind.isMark = true := by
  cases kind <;> simp_all [isNewline, isMark]

theorem ne_eof_of_isMark (h : kind.isMark = true) : kind ≠ .eof := by
  rintro rfl
  cases h

theorem eq_of_ident? {name : String} (h : kind.ident? = some name) : kind = .ident name := by
  cases kind <;> simp_all [ident?]

end TokenKind

theorem Cursor.eof_advance (c : Cursor) : c.advance.eof = c.eof := by
  unfold advance
  split <;> rfl

namespace ParseState

/-- Behind line breaks, at most `n`. -/
def skip (s : ParseState) (n : Nat) : ParseState := { s with cursor := s.cursor.skipNewlines n }

/-- With one more error. -/
def note (s : ParseState) (failure : Failure) : ParseState :=
  { s with
    furthest := some (Parser.further s.furthest failure)
    raised := failure :: s.raised }

/-- Back where `s` is, with what has happened since. -/
def backTo (t s : ParseState) (log : List Abandoned) : ParseState :=
  { t with cursor := s.cursor, abandoned := log }

variable {s : ParseState} (heof : s.cursor.eof.kind = .eof)
  (h : s.cursor.current.kind ≠ .eof)
include heof h

theorem rest_eq : s.cursor.rest = s.cursor.current :: s.pass.cursor.rest := by
  unfold pass Cursor.advance Cursor.current at *
  cases hr : s.cursor.rest with
  | nil =>
    rw [hr] at h
    exact absurd heof h
  | cons t ts => rfl

/-- Behind the current token is the one that follows it. -/
theorem current_pass : s.pass.cursor.current = s.cursor.following := by
  unfold Cursor.following
  rw [rest_eq heof h, List.tail_cons, ← s.cursor.eof_advance]
  rfl

end ParseState

namespace Parser

/-- A word that a name may stand behind: of a class or an instance, or of a type. -/
def leadsName (word : String) : Bool :=
  word == "class" || word == "new" || word == "extends" || (DeclaredType.ofWord? word).isSome

/-- What is known of a parser's state, from place to place. -/
structure Footing where
  /-- Where a statement or an expression may start. -/
  begins : ParseState → Prop
  /-- Where a name may be passed. -/
  names : ParseState → Prop
  /-- Anywhere. -/
  rests : ParseState → Prop
  /-- Behind a failure. -/
  fails : Failure → ParseState → Prop
  names_of_begins : ∀ {s}, begins s → names s
  rests_of_names : ∀ {s}, names s → rests s
  eof : ∀ {s}, rests s → s.cursor.eof.kind = .eof
  mark : ∀ {s}, rests s → s.cursor.current.kind.isMark = true → begins s.pass
  operand : ∀ {s}, names s → s.cursor.current.kind.isOperand = true → rests s.pass
  word : ∀ {s w}, names s → s.cursor.current.kind = .ident w → leadsName w = true → names s.pass
  /-- The name of a class may be the word `extends` leads. -/
  className : ∀ {s name}, names s → s.cursor.current.kind = .ident "class" →
    s.cursor.following.kind = .ident name → names s.pass.pass
  raise : ∀ {s failure}, rests s → failure.fault.kind = .invalidSyntax →
    fails (further s.furthest failure) (s.note failure)
  raiseAgain : ∀ {f s failure}, fails f s → failure.fault.kind = .invalidSyntax →
    fails (further s.furthest failure) (s.note failure)
  giveUp : ∀ {s t f log}, begins s → fails f t → begins (t.backTo s log)

variable {F : Footing} {s : ParseState} {P R : ParseState → Prop}

namespace Footing

theorem rests_of_begins (hs : F.begins s) : F.rests s := F.rests_of_names (F.names_of_begins hs)

theorem begins_skip (hs : F.begins s) (n : Nat) : F.begins (s.skip n) := by
  induction n generalizing s with
  | zero => exact hs
  | succ n ih =>
    unfold ParseState.skip Cursor.skipNewlines
    split
    · next h => exact ih (F.mark (F.rests_of_begins hs) (TokenKind.isMark_of_isNewline h))
    · exact hs

theorem rests_skip (hs : F.rests s) (n : Nat) : F.rests (s.skip n) := by
  cases n with
  | zero => exact hs
  | succ n =>
    unfold ParseState.skip Cursor.skipNewlines
    split
    · next h =>
      exact F.rests_of_begins (F.begins_skip (F.mark hs (TokenKind.isMark_of_isNewline h)) n)
    · exact hs

/-- Behind a line break a phrase may start. -/
theorem begins_skip_of_newline (hs : F.rests s) (h : s.cursor.current.kind.isNewline = true) :
    F.begins (s.skip s.cursor.rest.length) := by
  have hbegins := F.mark hs (TokenKind.isMark_of_isNewline h)
  cases hr : s.cursor.rest with
  | nil =>
    have heof : s.cursor.current.kind = .eof := by
      rw [Cursor.current, hr]
      exact F.eof hs
    rw [heof] at h
    cases h
  | cons t ts =>
    unfold ParseState.skip Cursor.skipNewlines
    rw [List.length_cons]
    dsimp only
    rw [if_pos h]
    exact F.begins_skip hbegins ts.length

end Footing

/-! ### Steps -/

/-- A success leaves a state of which `post` holds, and a failure one of which the footing
says so. -/
def Footing.Ends (F : Footing) (post : ParseState → Prop) :
    EStateM.Result Failure ParseState α → Prop
  | .ok _ t => post t
  | .error f t => F.fails f t

/-- From `s` on both parsers do the same, and end as the footing says. -/
def Agree (F : Footing) (s : ParseState) (p q : Parser α) (post : ParseState → Prop) : Prop :=
  p s = q s ∧ F.Ends post (p s)

namespace Agree

theorem bind {p q : Parser α} {f g : α → Parser β} (hp : Agree F s p q P)
    (hf : ∀ a t, P t → Agree F t (f a) (g a) R) : Agree F s (p >>= f) (q >>= g) R := by
  show Agree F s (EStateM.bind p f) (EStateM.bind q g) R
  obtain ⟨hsame, hpost⟩ := hp
  unfold Agree EStateM.bind
  rw [← hsame]
  cases hps : p s with
  | ok a t =>
    rw [hps] at hpost
    exact hf a t hpost
  | error f t =>
    rw [hps] at hpost
    exact ⟨rfl, hpost⟩

theorem pure {a : α} (h : R s) : Agree F s (Pure.pure a) (Pure.pure a) R := ⟨rfl, h⟩

theorem get {f g : ParseState → Parser β} (h : Agree F s (f s) (g s) R) :
    Agree F s (MonadState.get >>= f) (MonadState.get >>= g) R := h

theorem current {f g : Token → Parser β}
    (h : Agree F s (f s.cursor.current) (g s.cursor.current) R) :
    Agree F s (current >>= f) (Parser.current >>= g) R := h

theorem following {f g : Token → Parser β}
    (h : Agree F s (f s.cursor.following) (g s.cursor.following) R) :
    Agree F s (following >>= f) (Parser.following >>= g) R := h

theorem remaining {f g : Nat → Parser β}
    (h : Agree F s (f s.cursor.rest.length) (g s.cursor.rest.length) R) :
    Agree F s (remaining >>= f) (Parser.remaining >>= g) R := h

theorem atSymbol {symbol : Symbol} {f g : Bool → Parser β}
    (h : ∀ b, s.cursor.current.kind.isSymbol symbol = b → Agree F s (f b) (g b) R) :
    Agree F s (atSymbol symbol >>= f) (Parser.atSymbol symbol >>= g) R := h _ rfl

theorem atKeyword {keyword : Keyword} {f g : Bool → Parser β}
    (h : ∀ b, s.cursor.current.kind.isKeyword keyword = b → Agree F s (f b) (g b) R) :
    Agree F s (atKeyword keyword >>= f) (Parser.atKeyword keyword >>= g) R := h _ rfl

theorem atNewline {f g : Bool → Parser β}
    (h : ∀ b, s.cursor.current.kind.isNewline = b → Agree F s (f b) (g b) R) :
    Agree F s (atNewline >>= f) (Parser.atNewline >>= g) R := h _ rfl

theorem spanFrom {start : Position} {f g : Span → Parser β}
    (h : ∀ span, Agree F s (f span) (g span) R) :
    Agree F s (spanFrom start >>= f) (Parser.spanFrom start >>= g) R := h _

theorem advance {f g : Token → Parser β}
    (h : Agree F s.pass (f s.cursor.current) (g s.cursor.current) R) :
    Agree F s (advance >>= f) (Parser.advance >>= g) R := h

theorem skipNewlines {f g : Unit → Parser β}
    (h : Agree F (s.skip s.cursor.rest.length) (f ()) (g ()) R) :
    Agree F s (skipNewlines >>= f) (Parser.skipNewlines >>= g) R := h

theorem raise (hs : F.rests s) {failure : Failure} (h : failure.fault.kind = .invalidSyntax) :
    Agree F s (raise failure : Parser α) (Parser.raise failure) R := ⟨rfl, F.raise hs h⟩

theorem raiseHere (hs : F.rests s) (what : Expectation) :
    Agree F s (raiseHere what : Parser α) (Parser.raiseHere what) R := ⟨rfl, F.raise hs rfl⟩

/-- Nothing comes behind a failure. -/
theorem raiseHere_bind (hs : F.rests s) (what : Expectation) {f g : α → Parser β} :
    Agree F s (Parser.raiseHere what >>= f) (Parser.raiseHere what >>= g) R :=
  ⟨rfl, F.raise hs rfl⟩

theorem raise_bind (hs : F.rests s) {failure : Failure}
    (h : failure.fault.kind = .invalidSyntax) {f g : α → Parser β} :
    Agree F s (Parser.raise failure >>= f) (Parser.raise failure >>= g) R :=
  ⟨rfl, F.raise hs h⟩

theorem orExpected {p q : Parser α} (h : Agree F s p q R) (what : Expectation) :
    Agree F s (orExpected p what) (Parser.orExpected q what) R := by
  obtain ⟨hsame, hpost⟩ := h
  unfold Agree Parser.orExpected
  rw [← hsame]
  cases hps : p s with
  | ok a t =>
    rw [hps] at hpost
    exact ⟨rfl, hpost⟩
  | error f t =>
    rw [hps] at hpost
    exact ⟨rfl, F.raiseAgain hpost rfl⟩

theorem attempt {p q : Parser α} (hs : F.begins s) (h : Agree F s p q F.rests) :
    Agree F s (attempt p) (Parser.attempt q) F.rests := by
  obtain ⟨hsame, hpost⟩ := h
  unfold Agree Parser.attempt
  rw [← hsame]
  cases hps : p s with
  | ok a t =>
    rw [hps] at hpost
    exact ⟨rfl, hpost⟩
  | error f t =>
    rw [hps] at hpost
    exact ⟨rfl, F.rests_of_begins (F.giveUp hs hpost)⟩

theorem expect (hs : F.rests s) (symbol : Symbol) (what : Expectation) :
    Agree F s (expect symbol what) (Parser.expect symbol what) F.begins := by
  refine atSymbol fun b hb => ?_
  split
  · next h => exact advance (pure (F.mark hs (TokenKind.isMark_of_isSymbol (hb.trans h))))
  · exact raiseHere hs what

theorem expectKeyword (hs : F.rests s) (keyword : Keyword) :
    Agree F s (expectKeyword keyword) (Parser.expectKeyword keyword) F.begins := by
  refine atKeyword fun b hb => ?_
  split
  · next h => exact advance (pure (F.mark hs (TokenKind.isMark_of_isKeyword (hb.trans h))))
  · exact raiseHere hs _

theorem expectIdent (hs : F.names s) (what : Expectation) :
    Agree F s (expectIdent what) (Parser.expectIdent what) F.rests := by
  refine current ?_
  split
  · next h => exact advance (pure (F.operand hs (by rw [h]; rfl)))
  · exact raiseHere (F.rests_of_names hs) what

/-- A result that is only wrapped up. -/
theorem finish {p q : Parser α} (h : Agree F s p q R) {f : α → β} :
    Agree F s (do return f (← p)) (do return f (← q)) R :=
  h.bind fun _ _ ht => pure ht

/-- A result that is tagged with a span. -/
theorem tagged {p q : Parser α} (h : Agree F s p q R) {start : Position} {make : α → Span → β} :
    Agree F s (do let a ← p; return make a (← Parser.spanFrom start))
      (do let a ← q; return make a (← Parser.spanFrom start)) R :=
  h.bind fun _ _ ht => spanFrom fun _ => pure ht

end Agree

/-- Two parsers that agree wherever a phrase may start. -/
def Agrees (F : Footing) (p q : Parser α) : Prop := ∀ s, F.begins s → Agree F s p q F.rests

variable {e e' a a' : Parser (Node Span)}

theorem agrees_raiseHere (what : Expectation) :
    Agrees F (raiseHere what : Parser α) (raiseHere what) :=
  fun _ hs => .raiseHere (F.rests_of_begins hs) what

/-! ### Operators -/

/-- Whether the tokens of a kind of operators are marks. -/
def OfMarks (op? : TokenKind → Option β) : Prop :=
  ∀ kind op, op? kind = some op → kind.isMark = true

theorem ofMarks_logical : OfMarks BinaryOp.logical? := by
  intro kind op h
  unfold BinaryOp.logical? at h
  split at h <;> first | rfl | cases h

theorem ofMarks_comparison : OfMarks BinaryOp.comparison? := by
  intro kind op h
  unfold BinaryOp.comparison? at h
  split at h <;> first | rfl | cases h

theorem ofMarks_additive : OfMarks BinaryOp.additive? := by
  intro kind op h
  unfold BinaryOp.additive? at h
  split at h <;> first | rfl | cases h

theorem ofMarks_multiplicative : OfMarks BinaryOp.multiplicative? := by
  intro kind op h
  unfold BinaryOp.multiplicative? at h
  split at h <;> first | rfl | cases h

theorem ofMarks_power : OfMarks BinaryOp.power? := by
  intro kind op h
  unfold BinaryOp.power? at h
  split at h <;> first | rfl | cases h

theorem ofMarks_sign : OfMarks UnaryOp.sign? := by
  intro kind op h
  unfold UnaryOp.sign? at h
  split at h <;> first | rfl | cases h

theorem agree_chainFrom {op? : TokenKind → Option BinaryOp} (hop : OfMarks op?)
    {right right' : Parser (Node Span)} (hright : Agrees F right right') (n : Nat)
    (left : Node Span) (hs : F.rests s) :
    Agree F s (chainFrom op? right n left) (chainFrom op? right' n left) F.rests := by
  induction n generalizing s left with
  | zero => exact .pure hs
  | succ n ih =>
    refine .current ?_
    split
    · exact .pure hs
    · next h =>
      refine .advance (.bind (hright _ (F.mark hs (hop _ _ h))) fun r t ht => ?_)
      exact ih _ ht

theorem Agrees.chain {op? : TokenKind → Option BinaryOp} (hop : OfMarks op?)
    {operand operand' right right' : Parser (Node Span)} (hoperand : Agrees F operand operand')
    (hright : Agrees F right right') :
    Agrees F (chain operand op? right) (chain operand' op? right') :=
  fun s hs => (hoperand s hs).bind fun left _ ht =>
    .remaining (agree_chainFrom hop hright _ left ht)

theorem agree_argumentsFrom (he : Agrees F e e') (n : Nat) (items : List (Node Span))
    (hs : F.rests s) : Agree F s (argumentsFrom e n items) (argumentsFrom e' n items) F.rests := by
  induction n generalizing s items with
  | zero => exact .pure hs
  | succ n ih =>
    refine .atSymbol fun b hb => ?_
    split
    · next h =>
      have hmark := TokenKind.isMark_of_isSymbol (hb.trans h)
      exact .advance (.bind (he _ (F.mark hs hmark)) fun item t ht => ih _ ht)
    · exact .pure hs

theorem agree_arguments (he : Agrees F e e') (close : Symbol) (hs : F.rests s)
    (hmark : s.cursor.current.kind.isMark = true) :
    Agree F s (arguments e close) (arguments e' close) F.rests := by
  have hs' := F.mark hs hmark
  refine .advance (.atSymbol fun b hb => ?_)
  split
  · next h =>
    have hclose := F.mark (F.rests_of_begins hs') (TokenKind.isMark_of_isSymbol (hb.trans h))
    exact .advance (.pure (F.rests_of_begins hclose))
  · refine .bind ((he _ hs').orExpected _) fun first t ht => .remaining ?_
    refine .bind (agree_argumentsFrom he _ _ ht) fun items u hu => ?_
    exact .bind (.expect hu _ _) fun _ v hv => .pure (F.rests_of_begins hv)

theorem agree_suffixesFrom (he : Agrees F e e') (n : Nat) (node : Node Span) (hs : F.rests s) :
    Agree F s (suffixesFrom e n node) (suffixesFrom e' n node) F.rests := by
  induction n generalizing s node with
  | zero => exact .pure hs
  | succ n ih =>
    refine .current ?_
    split
    · next h =>
      refine .bind (agree_arguments he _ hs (by rw [h]; rfl)) fun args t ht => ?_
      exact .spanFrom fun span => ih _ ht
    · next h =>
      refine .advance (.bind (he _ (F.mark hs (by rw [h]; rfl))) fun index t ht => ?_)
      refine .bind (.expect ht _ _) fun _ u hu => ?_
      exact .spanFrom fun span => ih _ (F.rests_of_begins hu)
    · next h =>
      have hname := F.names_of_begins (F.mark hs (by rw [h]; rfl))
      refine .advance (.bind (.expectIdent hname _) fun name t ht => ?_)
      refine .atSymbol fun b hb => ?_
      split
      · next h =>
        have hmark := TokenKind.isMark_of_isSymbol (hb.trans h)
        refine .bind (agree_arguments he _ ht hmark) fun args u hu => ?_
        exact .spanFrom fun span => ih _ hu
      · exact .spanFrom fun span => ih _ ht
    · exact .pure hs

theorem Agrees.call (he : Agrees F e e') (ha : Agrees F a a') :
    Agrees F (call e a) (call e' a') :=
  fun s hs => (ha s hs).bind fun node _ ht => .remaining (agree_suffixesFrom he _ node ht)

theorem Agrees.factor (he : Agrees F e e') (ha : Agrees F a a') (n : Nat) :
    Agrees F (factor e a n) (factor e' a' n) := by
  induction n with
  | zero => exact (he.call ha).chain ofMarks_power (agrees_raiseHere _)
  | succ n ih =>
    intro s hs
    refine .current ?_
    split
    · exact (he.call ha).chain ofMarks_power ih s hs
    · next h =>
      exact .advance (ih _ (F.mark (F.rests_of_begins hs) (ofMarks_sign _ _ h))).finish

theorem Agrees.arith (he : Agrees F e e') (ha : Agrees F a a') :
    Agrees F (arith e a) (arith e' a') := by
  have hfactor : Agrees F (anyFactor e a) (anyFactor e' a') :=
    fun s hs => .remaining (he.factor ha _ s hs)
  have hterm : Agrees F (term e a) (term e' a') := hfactor.chain ofMarks_multiplicative hfactor
  exact hterm.chain ofMarks_additive hterm

theorem Agrees.comparison (he : Agrees F e e') (ha : Agrees F a a') (n : Nat) :
    Agrees F (comparison e a n) (comparison e' a' n) := by
  have hcompared : Agrees F (compared e a) (compared e' a') := fun s hs =>
    ((he.arith ha).chain ofMarks_comparison (he.arith ha) s hs).orExpected _
  induction n with
  | zero => exact hcompared
  | succ n ih =>
    intro s hs
    refine .atKeyword fun b hb => ?_
    split
    · next h =>
      have hmark := TokenKind.isMark_of_isKeyword (hb.trans h)
      exact .advance (ih _ (F.mark (F.rests_of_begins hs) hmark)).finish
    · exact hcompared s hs

theorem Agrees.logic (he : Agrees F e e') (ha : Agrees F a a') :
    Agrees F (logic e a) (logic e' a') := by
  have hcomparison : Agrees F (anyComparison e a) (anyComparison e' a') :=
    fun s hs => .remaining (he.comparison ha _ s hs)
  exact fun s hs => (hcomparison.chain ofMarks_logical hcomparison s hs).orExpected _

/-! ### Statements -/

theorem Agrees.statement (he : Agrees F e e') : Agrees F (statement e) (statement e') := by
  intro s hs
  have hrests := F.rests_of_begins hs
  refine .current (.following ?_)
  split
  · next h =>
    have hs' := F.mark hrests (by rw [h]; rfl)
    exact .advance (Agree.attempt hs' (he _ hs')).tagged
  · next h => exact .advance (.pure (F.rests_of_begins (F.mark hrests (by rw [h]; rfl))))
  · next h => exact .advance (.pure (F.rests_of_begins (F.mark hrests (by rw [h]; rfl))))
  · next name hname hcolon =>
    have hrests' := F.operand (F.names_of_begins hs) (by rw [hname]; rfl)
    have hcurrent := ParseState.current_pass (F.eof hrests) (by rw [hname]; nofun)
    have hs' := F.mark hrests' (by rw [hcurrent, hcolon]; rfl)
    exact .advance (.advance (he _ hs').tagged)
  · refine .bind ((he s hs).orExpected _) fun node t ht => .current ?_
    split
    · next h => exact .advance (he _ (F.mark ht (by rw [h]; rfl))).tagged
    · exact .pure ht

theorem agree_statementsFrom (he : Agrees F e e') (n : Nat) (items : List (Node Span))
    (hs : F.begins s ∨ F.rests s ∧ s.cursor.current.kind.isNewline = true) :
    Agree F s (statementsFrom e n items) (statementsFrom e' n items) F.rests := by
  induction n generalizing s items with
  | zero => exact .pure (hs.elim F.rests_of_begins And.left)
  | succ n ih =>
    have hskip : F.begins (s.skip s.cursor.rest.length) :=
      hs.elim (fun h => F.begins_skip h _) fun h => F.begins_skip_of_newline h.1 h.2
    refine .skipNewlines (.bind (.attempt hskip (he.statement _ hskip)) fun item t ht => ?_)
    split
    · exact .pure ht
    · refine .atNewline fun b hb => ?_
      split
      · next h => exact ih _ (.inr ⟨ht, hb.trans h⟩)
      · exact .pure ht

theorem Agrees.statements (he : Agrees F e e') : Agrees F (statements e) (statements e') :=
  fun _ hs => .current (.remaining (agree_statementsFrom he _ [] (.inl hs)).finish)

/-! ### Bodies -/

theorem agree_branchBody (he : Agrees F e e') (hs : F.rests s) :
    Agree F s (branchBody e) (branchBody e') F.rests := by
  -- A closing brace may stand behind line breaks.
  have hclose : ∀ (kind : TokenKind) (body : Body Span) (t : ParseState), F.rests t →
      Agree F t
        (do
          if kind.isSymbol .leftBrace then
            skipNewlines
            let _ ← expect .rightBrace (.symbol .rightBrace)
          return body)
        (do
          if kind.isSymbol .leftBrace then
            skipNewlines
            let _ ← expect .rightBrace (.symbol .rightBrace)
          return body) F.rests := by
    intro kind body t ht
    dsimp only
    split
    · refine .skipNewlines (.bind (.expect (F.rests_skip ht _) _ _) fun _ u hu => ?_)
      exact .pure (F.rests_of_begins hu)
    · exact .pure ht
  refine .current ?_
  dsimp only
  split
  · exact .raiseHere_bind hs _
  · next h =>
    have hmark : s.cursor.current.kind.isMark = true := by
      rw [Bool.not_eq_true', Bool.not_eq_false, Bool.or_eq_true] at h
      exact h.elim TokenKind.isMark_of_isSymbol TokenKind.isMark_of_isSymbol
    have hs' := F.mark hs hmark
    refine .advance (.atNewline fun b hb => ?_)
    split
    · next h =>
      have hs'' := F.mark (F.rests_of_begins hs') (TokenKind.isMark_of_isNewline (hb.trans h))
      refine .advance (.bind (he.statements _ hs'') fun block t ht => ?_)
      exact hclose _ _ t ht
    · exact .bind (he.statement _ hs') fun item t ht => hclose _ _ t ht

theorem agree_bracedBody (he : Agrees F e e') (hs : F.rests s)
    (hmark : s.cursor.current.kind.isMark = true) :
    Agree F s (bracedBody e) (bracedBody e') F.rests := by
  refine .advance (.bind (he.statements _ (F.mark hs hmark)) fun block t ht => ?_)
  exact .bind (.expect ht _ _) fun _ u hu => .pure (F.rests_of_begins hu)

theorem agree_endedBody (he : Agrees F e e') (hs : F.rests s)
    (hmark : s.cursor.current.kind.isMark = true) :
    Agree F s (endedBody e) (endedBody e') F.rests := by
  refine .advance (.bind (he.statements _ (F.mark hs hmark)) fun block t ht => ?_)
  exact .bind (.expectKeyword ht _) fun _ u hu => .pure (F.rests_of_begins hu)

theorem agree_inlineBody (he : Agrees F e e') (hs : F.rests s)
    (hmark : s.cursor.current.kind.isMark = true) :
    Agree F s (inlineBody e) (inlineBody e') F.rests :=
  .advance (he.statement _ (F.mark hs hmark)).finish

/-- A colon and a line break, and then a sequence up to `end`. -/
theorem agree_behindColon (he : Agrees F e e') (hs : F.rests s)
    (hcolon : s.cursor.current.kind = .symbol .colon)
    (hnewline : s.cursor.following.kind = .newline) :
    Agree F s (do let _ ← advance; endedBody e) (do let _ ← advance; endedBody e') F.rests := by
  have hs' := F.mark hs (by rw [hcolon]; rfl)
  have hcurrent := ParseState.current_pass (F.eof hs) (by rw [hcolon]; nofun)
  exact .advance (agree_endedBody he (F.rests_of_begins hs') (by rw [hcurrent, hnewline]; rfl))

theorem agree_forBody (he : Agrees F e e') (hs : F.rests s) :
    Agree F s (forBody e) (forBody e') F.rests := by
  refine .current (.following ?_)
  split
  · next hcolon hnewline => exact agree_behindColon he hs hcolon hnewline
  · next hcolon _ => exact agree_inlineBody he hs (by rw [hcolon]; rfl)
  · next hbrace => exact agree_bracedBody he hs (by rw [hbrace]; rfl)
  · exact .raiseHere hs _

theorem agree_whileBody (he : Agrees F e e') (hs : F.rests s) :
    Agree F s (whileBody e) (whileBody e') F.rests := by
  refine .current (.following ?_)
  split
  · next hbrace => exact agree_bracedBody he hs (by rw [hbrace]; rfl)
  · next hcolon hnewline => exact agree_behindColon he hs hcolon hnewline
  · next hcolon _ => exact agree_inlineBody he hs (by rw [hcolon]; rfl)
  · next hnewline => exact agree_endedBody he hs (by rw [hnewline]; rfl)
  · exact .raiseHere hs _

/-! ### Conditionals and loops -/

theorem agree_branchesFrom (he : Agrees F e e') (n : Nat) (branches : List (Branch Span))
    (hs : F.begins s) :
    Agree F s (branchesFrom e n branches) (branchesFrom e' n branches) F.rests := by
  induction n generalizing s branches with
  | zero => exact .raiseHere (F.rests_of_begins hs) _
  | succ n ih =>
    refine .bind (he s hs) fun condition t ht => .bind (agree_branchBody he ht) fun body u hu => ?_
    have hskip := F.rests_skip hu u.cursor.rest.length
    refine .get (.skipNewlines (.atKeyword fun b hb => ?_))
    split
    · next h =>
      exact .advance (ih _ (F.mark hskip (TokenKind.isMark_of_isKeyword (hb.trans h))))
    · refine .atKeyword fun b hb => ?_
      split
      · next h =>
        have hbegins := F.mark hskip (TokenKind.isMark_of_isKeyword (hb.trans h))
        exact .advance (agree_branchBody he (F.rests_of_begins hbegins)).finish
      -- The line breaks before something else are given back.
      · exact ⟨rfl, hu⟩

variable (hmark : s.cursor.current.kind.isMark = true)
include hmark

theorem agree_conditional (he : Agrees F e e') (hs : F.rests s) :
    Agree F s (conditional e) (conditional e') F.rests :=
  .advance (.remaining (agree_branchesFrom he _ [] (F.mark hs hmark)).tagged)

theorem agree_forLoop (he : Agrees F e e') (hs : F.rests s) :
    Agree F s (forLoop e) (forLoop e') F.rests := by
  have hname := F.names_of_begins (F.mark hs hmark)
  refine .advance (.bind (.expectIdent hname _) fun counter t ht => ?_)
  refine .bind (.expect ht _ _) fun _ u hu => .bind (he u hu) fun first v hv => ?_
  refine .bind (.expectKeyword hv _) fun _ w hw => .bind (he w hw) fun last x hx => ?_
  refine .atKeyword fun b hb => ?_
  dsimp only
  split
  · next h =>
    have hstep := F.mark hx (TokenKind.isMark_of_isKeyword (hb.trans h))
    exact .advance (.bind (he _ hstep) fun step y hy => (agree_forBody he hy).tagged)
  · exact (agree_forBody he hx).tagged

theorem agree_whileLoop (he : Agrees F e e') (hs : F.rests s) :
    Agree F s (whileLoop e) (whileLoop e') F.rests :=
  .advance (.bind (he _ (F.mark hs hmark)) fun _ _ ht => (agree_whileBody he ht).tagged)

omit hmark

/-! ### Functions and classes -/

theorem agree_paramsFrom (n : Nat) (params : List (Param Span)) (hs : F.names s) :
    Agree F s (paramsFrom n params) (paramsFrom n params) F.rests := by
  induction n generalizing s params with
  | zero => exact .raiseHere (F.rests_of_names hs) _
  | succ n ih =>
    refine .current ?_
    split
    · exact .raiseHere (F.rests_of_names hs) _
    · next type h =>
      obtain ⟨word, hword, htype⟩ := Option.bind_eq_some_iff.mp h
      have hleads : leadsName word = true := by simp [leadsName, htype]
      have hs' := F.word hs (TokenKind.eq_of_ident? hword) hleads
      refine .advance (.bind (.expectIdent hs' _) fun name t ht => .atSymbol fun b hb => ?_)
      split
      · next h =>
        have hcomma := F.mark ht (TokenKind.isMark_of_isSymbol (hb.trans h))
        exact .advance (ih _ (F.names_of_begins hcomma))
      · exact .pure ht

/-- A sequence up to a closing brace or `end`, as a body that returns nothing by itself. -/
def closedBlock (e : Parser (Node Span)) : Parser (Node Span × Bool) := do
  let block ← statements e
  skipNewlines
  let closing := (← current).kind
  if closing.isSymbol .rightBrace || closing.isKeyword .endWord then
    let _ ← advance
    return (block, false)
  else
    raiseHere .braceOrEnd

theorem Agrees.closedBlock (he : Agrees F e e') : Agrees F (closedBlock e) (closedBlock e') := by
  intro s hs
  refine .bind (he.statements s hs) fun block t ht => .skipNewlines (.current ?_)
  have hskip := F.rests_skip ht t.cursor.rest.length
  dsimp only
  split
  · next h =>
    rw [Bool.or_eq_true] at h
    have hmark := h.elim TokenKind.isMark_of_isSymbol TokenKind.isMark_of_isKeyword
    exact .advance (.pure (F.rests_of_begins (F.mark hskip hmark)))
  · exact .raiseHere hskip _

theorem agree_functionBody (he : Agrees F e e') (start : Position) (hs : F.rests s) :
    Agree F s (functionBody e start) (functionBody e' start) F.rests := by
  -- A block may start on the next line.
  have hblock : s.cursor.current.kind.isMark = true → Agree F s
      (do
        let _ ← advance
        if ← atNewline then
          let _ ← advance
        closedBlock e)
      (do
        let _ ← advance
        if ← atNewline then
          let _ ← advance
        closedBlock e') F.rests := by
    intro hmark
    have hs' := F.mark hs hmark
    refine .advance (.atNewline fun b hb => ?_)
    split
    · next h =>
      have hnewline := TokenKind.isMark_of_isNewline (hb.trans h)
      exact .advance (he.closedBlock _ (F.mark (F.rests_of_begins hs') hnewline))
    · exact he.closedBlock _ hs'
  unfold functionBody
  refine .current ?_
  split
  · next h => exact .advance (he _ (F.mark hs (by rw [h]; rfl))).finish
  · next h => exact .advance (he _ (F.mark hs (by rw [h]; rfl))).finish
  · next h => exact hblock (by rw [h]; rfl)
  · next h => exact hblock (by rw [h]; rfl)
  · exact .raiseHere hs _

theorem agree_function (he : Agrees F e e') (hs : F.rests s)
    (hmark : s.cursor.current.kind.isMark = true) :
    Agree F s (function e) (function e') F.rests := by
  have hs' := F.mark hs hmark
  -- From the parameters on, behind the name if there is one.
  have hrest : ∀ (name : Option String) (start : Position) (t : ParseState), F.rests t → Agree F t
      (do
        let _ ← expect .leftParen
          (if name.isSome then .symbol .leftParen else .identifierOrParen)
        let params ←
          if ← atSymbol .rightParen then pure [] else paramsFrom ((← remaining) + 1) []
        let _ ← expect .rightParen .parameterEnd
        let r ← functionBody e start
        return FuncDef.mk name params r.1 r.2)
      (do
        let _ ← expect .leftParen
          (if name.isSome then .symbol .leftParen else .identifierOrParen)
        let params ←
          if ← atSymbol .rightParen then pure [] else paramsFrom ((← remaining) + 1) []
        let _ ← expect .rightParen .parameterEnd
        let r ← functionBody e' start
        return FuncDef.mk name params r.1 r.2) F.rests := by
    intro name start t ht
    have hbody : ∀ (params : List (Param Span)) (u : ParseState), F.rests u → Agree F u
        (do
          let _ ← expect .rightParen .parameterEnd
          let r ← functionBody e start
          return FuncDef.mk name params r.1 r.2)
        (do
          let _ ← expect .rightParen .parameterEnd
          let r ← functionBody e' start
          return FuncDef.mk name params r.1 r.2) F.rests :=
      fun params u hu => .bind (.expect hu _ _) fun _ v hv =>
        (agree_functionBody he start (F.rests_of_begins hv)).finish
    refine .bind (.expect ht _ _) fun _ u hu => .atSymbol fun b hb => ?_
    split
    · exact hbody [] u (F.rests_of_begins hu)
    · refine .remaining (.bind (agree_paramsFrom _ _ (F.names_of_begins hu)) fun params v hv => ?_)
      exact hbody params v hv
  refine .advance (.current ?_)
  cases hname : s.pass.cursor.current.kind.ident? with
  | none => exact hrest none _ _ (F.rests_of_begins hs')
  | some name =>
    have hident := TokenKind.eq_of_ident? hname
    exact .advance (hrest (some name) _ _ (F.operand (F.names_of_begins hs') (by rw [hident]; rfl)))

theorem agree_methodsFrom (he : Agrees F e e') (braced : Bool) (n : Nat)
    (methods : List (FuncDef Span)) (hs : F.rests s) :
    Agree F s (methodsFrom e braced n methods) (methodsFrom e' braced n methods) F.rests := by
  induction n generalizing s methods with
  | zero => exact .raiseHere hs _
  | succ n ih =>
    refine .skipNewlines (.current ?_)
    have hskip := F.rests_skip hs s.cursor.rest.length
    generalize s.skip s.cursor.rest.length = t at hskip ⊢
    have hended : (if braced then t.cursor.current.kind.isSymbol .rightBrace
        else t.cursor.current.kind.isKeyword .endWord) = true →
        t.cursor.current.kind.isMark = true := by
      cases braced with
      | true => exact TokenKind.isMark_of_isSymbol
      | false => exact TokenKind.isMark_of_isKeyword
    generalize (if braced then t.cursor.current.kind.isSymbol .rightBrace
      else t.cursor.current.kind.isKeyword .endWord) = ended at hended ⊢
    cases ended with
    | true => exact .advance (.pure (F.rests_of_begins (F.mark hskip (hended rfl))))
    | false =>
      rw [if_neg Bool.false_ne_true, if_neg Bool.false_ne_true]
      split
      · next h =>
        have hmark := TokenKind.isMark_of_isKeyword h
        refine .bind (agree_function he hskip hmark) fun method u hu => ?_
        dsimp only
        split
        · exact .raise_bind hu rfl
        · exact ih _ hu
      · exact .raiseHere hskip _

theorem agree_classDefinition (he : Agrees F e e') (hs : F.names s) {name : String}
    (hclass : s.cursor.current.kind = .ident "class")
    (hname : s.cursor.following.kind = .ident name) :
    Agree F s (classDefinition e) (classDefinition e') F.rests := by
  have hrests := F.rests_of_names hs
  have hnamed := F.className hs hclass hname
  have hcurrent := ParseState.current_pass (F.eof hrests) (by rw [hclass]; nofun)
  -- From the methods on, behind the parent if there is one.
  have hrest : ∀ (name : String) (parent : Option String) (start : Position) (t : ParseState),
      F.rests t → Agree F t
      (do
        let kind := (← current).kind
        if !(kind.isSymbol .leftBrace || kind.isSymbol .colon) then
          raiseHere .colonOrBrace
        let _ ← advance
        let methods ← methodsFrom e (kind.isSymbol .leftBrace) ((← remaining) + 1) []
        return Node.cls (← spanFrom start) name parent methods)
      (do
        let kind := (← current).kind
        if !(kind.isSymbol .leftBrace || kind.isSymbol .colon) then
          raiseHere .colonOrBrace
        let _ ← advance
        let methods ← methodsFrom e' (kind.isSymbol .leftBrace) ((← remaining) + 1) []
        return Node.cls (← spanFrom start) name parent methods) F.rests := by
    intro name parent start t ht
    refine .current ?_
    dsimp only
    split
    · exact .raiseHere_bind ht _
    · next h =>
      rw [Bool.not_eq_true', Bool.not_eq_false, Bool.or_eq_true] at h
      have hmark := h.elim TokenKind.isMark_of_isSymbol TokenKind.isMark_of_isSymbol
      refine .advance (.remaining ?_)
      exact (agree_methodsFrom he _ _ _ (F.rests_of_begins (F.mark ht hmark))).tagged
  have hident : Agree F s.pass (expectIdent .className) (expectIdent .className) F.names := by
    refine .current ?_
    rw [hcurrent, hname]
    exact .advance (.pure hnamed)
  refine .advance (.bind hident fun r t ht => .current ?_)
  dsimp only
  split
  · next h =>
    have hparent := F.word ht (TokenKind.eq_of_ident? h) rfl
    exact .advance (.bind (.expectIdent hparent _) fun parent u hu => hrest _ _ _ u hu)
  · exact hrest _ _ _ t (F.rests_of_names ht)

theorem agree_instanceCreation (he : Agrees F e e') (hs : F.names s)
    (hnew : s.cursor.current.kind = .ident "new") :
    Agree F s (instanceCreation e) (instanceCreation e') F.rests := by
  refine .advance (.bind (.expectIdent (F.word hs hnew rfl) _) fun cls t ht => ?_)
  refine .atSymbol fun b hb => ?_
  dsimp only
  split
  · exact .raiseHere_bind ht _
  · next h =>
    rw [Bool.not_eq_true', Bool.not_eq_false] at h
    exact (agree_arguments he _ ht (TokenKind.isMark_of_isSymbol (hb.trans h))).tagged

/-! ### Expressions and programs -/

/-- Where a phrase may start, both guess the same of a name before an operand. -/
def Footing.Settles (F : Footing) (hint hint' : String → Option Keyword) : Prop :=
  ∀ s name, F.begins s → s.cursor.current.kind = .ident name →
    s.cursor.following.kind.isOperand = true → hint name = hint' name

variable {hint hint' : String → Option Keyword}

theorem Agrees.atom (he : Agrees F e e') (hhint : F.Settles hint hint') :
    Agrees F (atom hint e) (atom hint' e') := by
  intro s hs
  have hrests := F.rests_of_begins hs
  have hnames := F.names_of_begins hs
  unfold Parser.atom
  refine .current ?_
  split
  · next h => exact .advance (.pure (F.operand hnames (by rw [h]; rfl)))
  · next h => exact .advance (.pure (F.operand hnames (by rw [h]; rfl)))
  · next h => exact .advance (.pure (F.operand hnames (by rw [h]; rfl)))
  · next name hname =>
    refine .following ?_
    dsimp only
    split
    · next h =>
      obtain ⟨rfl, hnext⟩ := h
      obtain ⟨cls, hcls⟩ := Option.isSome_iff_exists.mp hnext
      exact agree_classDefinition he hnames hname (TokenKind.eq_of_ident? hcls)
    · split
      · next h =>
        obtain ⟨rfl, _⟩ := h
        exact agree_instanceCreation he hnames hname
      · have hsame : (if s.cursor.following.kind.isOperand then hint name else none) =
            if s.cursor.following.kind.isOperand then hint' name else none := by
          split
          · next hnext => exact hhint s name hs hname hnext
          · rfl
        rw [hsame]
        split
        · exact .raise hrests rfl
        · exact .advance (.pure (F.operand hnames (by rw [hname]; rfl)))
  · next h =>
    refine .advance (.bind (he _ (F.mark hrests (by rw [h]; rfl))) fun node t ht => ?_)
    exact .bind (.expect ht _ _) fun _ u hu => .pure (F.rests_of_begins hu)
  · next h => exact (agree_arguments he _ hrests (by rw [h]; rfl)).tagged
  · next h => exact agree_conditional (by rw [h]; rfl) he hrests
  · next h => exact agree_forLoop (by rw [h]; rfl) he hrests
  · next h => exact agree_whileLoop (by rw [h]; rfl) he hrests
  · next h => exact (agree_function he hrests (by rw [h]; rfl)).tagged
  · exact .raiseHere hrests _

theorem Agrees.expressionStep (he : Agrees F e e') (hhint : F.Settles hint hint') :
    Agrees F (expressionStep hint e) (expressionStep hint' e') := by
  intro s hs
  have hrests := F.rests_of_begins hs
  have hnames := F.names_of_begins hs
  have hlogic := he.logic (he.atom hhint) s hs
  have hdeclaration : ∀ start name type constant,
      Agrees F (declaration e start name type constant) (declaration e' start name type constant) :=
    fun _ _ _ _ t ht => (he t ht).tagged
  unfold Parser.expressionStep
  refine .current (.following ?_)
  split
  · next h =>
    have hs' := F.names_of_begins (F.mark hrests (by rw [h]; rfl))
    refine .advance (.bind (.expectIdent hs' _) fun r t ht => ?_)
    exact .bind (.expect ht _ _) fun _ u hu => hdeclaration _ _ _ _ u hu
  · next word name hword hname =>
    split
    · exact hlogic
    · next type htype =>
      have hs' := F.word hnames hword (by simp [leadsName, htype])
      have hcurrent := ParseState.current_pass (F.eof hrests) (by rw [hword]; nofun)
      have hs'' := F.operand hs' (by rw [hcurrent, hname]; rfl)
      refine .advance (.advance (.current ?_))
      split
      · next h => exact .advance (hdeclaration _ _ _ _ _ (F.mark hs'' (by rw [h]; rfl)))
      · next h => exact .advance (hdeclaration _ _ _ _ _ (F.mark hs'' (by rw [h]; rfl)))
      · exact .raiseHere hs'' _
  · exact hlogic

theorem agrees_expression (hhint : F.Settles hint hint') (n : Nat) :
    Agrees F (expression hint n) (expression hint' n) := by
  induction n with
  | zero => exact (agrees_raiseHere _).expressionStep hhint
  | succ n ih => exact ih.expressionStep hhint

theorem kind_leftover (kind next : TokenKind) : (leftover kind next).kind = .invalidSyntax := by
  unfold leftover
  split <;> rfl

theorem agrees_program (hhint : F.Settles hint hint') :
    Agrees F (program hint) (program hint') := by
  intro s hs
  refine .remaining (.bind ((agrees_expression hhint _).statements s hs) fun block t ht => ?_)
  refine .current ?_
  split
  · exact .pure ht
  · exact .following (.raise ht (kind_leftover ..))

/-- What one parser does by itself. -/
theorem Footing.ends_program (F : Footing) (hint : String → Option Keyword) (hs : F.begins s) :
    F.Ends F.rests (program hint s) :=
  (agrees_program (fun _ _ _ _ _ => rfl) s hs).2

end Parser

end Script
