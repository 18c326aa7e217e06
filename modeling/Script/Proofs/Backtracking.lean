import Script.Proofs.Places
import Script.Proofs.RoundTrip

/-! What an attempt that was given up may have passed.

A sequence of statements ends where the next one fails, and then the parser goes back to
where that one began. If it had passed a token by then, whatever stands around the
sequence has to make something of the tokens that it gave back. It can do so only if the
first of them may stand behind a statement as well as start one: a bracket that is read
again as a call or an index, a sign that is read again as an operator, or the word
`func` of the next method (`isHinge`). At every other token that starts a statement the
parser is stuck: from there on it passes nothing, gives nothing up, and fails before the
end of the program (`Halts`).

At a hinge a statement that does not fail at once passes that token and never gives it back
(`Begins`), so an attempt in whose course others were given up was behind a token itself.

Main statement, `Source.abandoned_at_hinges`: if a program is accepted, then every
attempt that was given up behind a token began at a hinge, or was made in the course of
one that did and was given up behind a token too. A pair of brackets on a line of its own
shows that this happens (`Source.bracketed`). -/
namespace Script

variable {α β : Type} {source : Source}

namespace Parser

/-! ### First tokens -/

/-- A token that starts a statement and may also stand behind one. -/
def isHinge : TokenKind → Bool
  | .symbol .leftParen | .symbol .leftSquare | .symbol .plus | .symbol .minus => true
  | .keyword .func => true
  | _ => false

/-- A token that starts a statement and cannot stand behind one. -/
inductive Opening : TokenKind → Prop where
  | int (n : Int64) : Opening (.int n)
  | float (x : Float) : Opening (.float x)
  | string (s : String) : Opening (.string s)
  | ident (name : String) : Opening (.ident name)
  | not : Opening (.keyword .not)
  | var : Opening (.keyword .var)
  | ifWord : Opening (.keyword .ifWord)
  | forWord : Opening (.keyword .forWord)
  | whileWord : Opening (.keyword .whileWord)
  | returnWord : Opening (.keyword .returnWord)
  | continueWord : Opening (.keyword .continueWord)
  | breakWord : Opening (.keyword .breakWord)

theorem starts_cases (k : TokenKind) : isHinge k = true ∨ Opening k ∨ starts k = false := by
  cases k with
  | int n => exact .inr (.inl (.int n))
  | float x => exact .inr (.inl (.float x))
  | string s => exact .inr (.inl (.string s))
  | ident name => exact .inr (.inl (.ident name))
  | symbol symbol =>
    cases symbol <;> first | exact .inl rfl | exact .inr (.inr rfl)
  | keyword keyword =>
    cases keyword <;> first
      | exact .inl rfl
      | exact .inr (.inr rfl)
      | exact .inr (.inl (by constructor))
  | _ => exact .inr (.inr rfl)

/-! ### Logs

The last attempt is the first of a log. -/

/-- `y` excuses `x`, which is the last of `between`, or `y` itself if that is empty: all of
`between` was given up in the course of `y`, which had passed a token, and began at a hinge
that is not behind where `x` began. -/
structure Excuses (y : Abandoned) (between : List Abandoned) (x : Abandoned) : Prop where
  encloses : between.length ≤ y.inside
  hinge : isHinge y.first.kind = true
  passed : 0 < y.passed
  start : y.first.span.start.index ≤ x.first.span.start.index

/-- Every attempt behind a token began at a hinge, or was made in the course of one that
did, and that had passed a token as well. -/
def Excused (log : List Abandoned) : Prop :=
  ∀ later x earlier, log = later ++ x :: earlier → 0 < x.passed →
    ∃ before y between, later ++ [x] = before ++ y :: between ∧ Excuses y between x

theorem excused_nil : Excused [] := by
  intro later x earlier h
  simp at h

theorem Excused.append {log log' : List Abandoned} (h : Excused log) (h' : Excused log') :
    Excused (log ++ log') := by
  intro later x earlier heq hx
  rcases List.append_eq_append_iff.mp heq with ⟨rest, hlater, htail⟩ | ⟨rest, hlog, htail⟩
  · obtain ⟨before, y, between, hsplit, hy⟩ := h' rest x earlier htail hx
    refine ⟨log ++ before, y, between, ?_, hy⟩
    rw [hlater, List.append_assoc, List.append_assoc, hsplit]
  · cases rest with
    | nil =>
      rw [List.append_nil] at hlog
      obtain ⟨before, y, between, hsplit, hy⟩ := h' [] x earlier htail.symm hx
      refine ⟨later ++ before, y, between, ?_, hy⟩
      rw [List.append_assoc, ← hsplit, List.nil_append]
    | cons z rest =>
      obtain ⟨rfl, rfl⟩ := List.cons.inj htail
      exact h later x rest hlog hx

/-- An attempt from a hinge excuses all that were made in its course. -/
theorem Excused.of_hinge {y : Abandoned} {log : List Abandoned} (hy : isHinge y.first.kind = true)
    (hpassed : 0 < y.passed) (hinside : log.length ≤ y.inside)
    (h : ∀ x ∈ log, y.first.span.start.index ≤ x.first.span.start.index) :
    Excused (y :: log) := by
  intro later x earlier heq _
  cases later with
  | nil =>
    obtain ⟨rfl, _⟩ := List.cons.inj heq
    exact ⟨[], y, [], rfl, Nat.zero_le _, hy, hpassed, Nat.le_refl _⟩
  | cons z later =>
    obtain ⟨rfl, hlog⟩ := List.cons.inj heq
    have hx : x ∈ log := by
      rw [hlog]
      exact List.mem_append_right _ List.mem_cons_self
    have hlength : (later ++ [x]).length ≤ log.length := by
      rw [hlog]
      show (later ++ [x]).length ≤ (later ++ x :: earlier).length
      simp
    exact ⟨[], y, later ++ [x], rfl, Nat.le_trans hlength hinside, hy, hpassed, h x hx⟩

/-- An attempt that failed at its first token needs no excuse. -/
theorem excused_single {y : Abandoned} (hy : y.passed = 0) : Excused [y] := by
  intro later x earlier heq hx
  have hmem : x ∈ [y] := by
    rw [heq]
    exact List.mem_append_right _ List.mem_cons_self
  rw [List.mem_singleton.mp hmem, hy] at hx
  exact absurd hx (Nat.lt_irrefl 0)

end Parser

namespace Cursor

/-- The tokens to come lie in the source, with the end token behind them. -/
structure Ready (source : Source) (c : Cursor) : Prop extends c.In source where
  eof_kind : c.eof.kind = .eof

/-- `d` is not before `c` in the source, and has no more tokens to come. -/
structure Reaches (source : Source) (c d : Cursor) : Prop where
  ready : d.Ready source
  index : c.index ≤ d.index
  left : d.rest.length ≤ c.rest.length

variable {c d e : Cursor}

theorem Ready.refl (h : c.Ready source) : Reaches source c c :=
  ⟨h, Nat.le_refl _, Nat.le_refl _⟩

theorem Reaches.trans (h : Reaches source c d) (h' : Reaches source d e) : Reaches source c e :=
  ⟨h'.ready, Nat.le_trans h.index h'.index, Nat.le_trans h'.left h.left⟩

theorem Ready.pass (h : c.Ready source) : Reaches source c c.advance := by
  have hin := h.toIn.advance
  have hle := h.toIn.index_le
  unfold advance at *
  cases hr : c.rest with
  | nil => exact h.refl
  | cons t ts =>
    rw [hr] at hin hle
    exact ⟨⟨hin, h.eof_kind⟩, hle, by rw [hr]; exact Nat.le_succ _⟩

theorem Ready.skip (h : c.Ready source) (n : Nat) : Reaches source c (c.skipNewlines n) := by
  induction n generalizing c with
  | zero => exact h.refl
  | succ n ih =>
    unfold skipNewlines
    split
    · exact h.pass.trans (ih h.pass.ready)
    · exact h.refl

/-- At a token that is not the end there is one to pass. -/
theorem Ready.left_advance (h : c.Ready source) (hne : c.current.kind ≠ .eof) :
    c.advance.rest.length < c.rest.length := by
  unfold current at hne
  unfold advance
  cases hr : c.rest with
  | nil =>
    rw [hr] at hne
    exact absurd h.eof_kind hne
  | cons t ts => exact Nat.lt_succ_self _

end Cursor

namespace ParseState

/-- From `s` to `t` the parser went no way back, and gave up nothing that began
before `s`. -/
structure Trail (source : Source) (s t : ParseState) : Prop where
  reached : s.cursor.Reaches source t.cursor
  log : ∃ new, t.abandoned = new ++ s.abandoned ∧
    ∀ x ∈ new, s.index ≤ x.first.span.start.index

/-- What was given up from `s` to `t` is excused. -/
def Clean (s t : ParseState) : Prop :=
  ∃ new, t.abandoned = new ++ s.abandoned ∧ Parser.Excused new

/-- The current token starts a statement, and nothing can be done with it here. -/
def Stuck (s : ParseState) : Prop := Parser.Opening s.cursor.current.kind

variable {s t u : ParseState}

/-- A step in which nothing was given up. -/
theorem Trail.quiet (h : s.cursor.Reaches source t.cursor) (hl : t.abandoned = s.abandoned) :
    Trail source s t :=
  ⟨h, [], hl, nofun⟩

theorem Trail.trans (h : Trail source s t) (h' : Trail source t u) : Trail source s u := by
  obtain ⟨new, hnew, hat⟩ := h.log
  obtain ⟨new', hnew', hat'⟩ := h'.log
  refine ⟨h.reached.trans h'.reached, new' ++ new, ?_, ?_⟩
  · rw [hnew', hnew, List.append_assoc]
  · intro x hx
    rcases List.mem_append.mp hx with hx | hx
    · exact Nat.le_trans h.reached.index (hat' x hx)
    · exact hat x hx

/-- A trail ends at a cursor and with a log; the rest of the state does not matter. -/
theorem Trail.of_eq (h : Trail source s t) (hc : u.cursor = t.cursor)
    (hl : u.abandoned = t.abandoned) : Trail source s u :=
  ⟨hc ▸ h.reached, hl ▸ h.log⟩

theorem Clean.quiet (hl : t.abandoned = s.abandoned) : Clean s t := ⟨[], hl, Parser.excused_nil⟩

theorem Clean.trans (h : Clean s t) (h' : Clean t u) : Clean s u := by
  obtain ⟨new, hnew, hex⟩ := h
  obtain ⟨new', hnew', hex'⟩ := h'
  refine ⟨new' ++ new, ?_, hex'.append hex⟩
  rw [hnew', hnew, List.append_assoc]

end ParseState

open ParseState (Trail Clean)

namespace Parser

variable {s : ParseState} {p : Parser α} {f : α → Parser β}

/-! ### Where nothing is passed -/

/-- The parser fails where it stands. -/
def Refuses (s : ParseState) (p : Parser α) : Prop :=
  ∃ failure t, p s = .error failure t ∧ t.cursor = s.cursor ∧ t.abandoned = s.abandoned

/-- The parser fails where it stands, or leaves everything as it is. -/
def Halts (s : ParseState) (p : Parser α) : Prop := (∃ a, p s = .ok a s) ∨ Refuses s p

theorem refuses_raise (failure : Failure) : Refuses s (raise failure : Parser α) :=
  ⟨_, _, rfl, rfl, rfl⟩

theorem refuses_raiseHere (what : Expectation) : Refuses s (raiseHere what : Parser α) :=
  ⟨_, _, rfl, rfl, rfl⟩

theorem Refuses.bind (h : Refuses s p) : Refuses s (p >>= f) := by
  obtain ⟨failure, t, hp, hrest⟩ := h
  refine ⟨failure, t, ?_, hrest⟩
  show EStateM.bind p f s = _
  rw [EStateM.bind, hp]

theorem Refuses.orExpected (h : Refuses s p) (what : Expectation) :
    Refuses s (orExpected p what) := by
  obtain ⟨failure, t, hp, hc, hl⟩ := h
  unfold Refuses Parser.orExpected
  rw [hp]
  exact ⟨_, _, rfl, hc, hl⟩

theorem Halts.bind (h : Halts s p) (hf : ∀ a, Halts s (f a)) : Halts s (p >>= f) := by
  rcases h with ⟨a, hp⟩ | h
  · have heq : (p >>= f) s = f a s := by
      show EStateM.bind p f s = _
      rw [EStateM.bind, hp]
    unfold Halts Refuses
    rw [heq]
    exact hf a
  · exact .inr h.bind

theorem halts_pure (a : α) : Halts s (pure a : Parser α) := .inl ⟨a, rfl⟩

theorem halts_spanFrom (start : Position) : Halts s (spanFrom start) := .inl ⟨_, rfl⟩

/-! ### Where the parser is stuck -/

theorem isSymbol_of_stuck (h : s.Stuck) (symbol : Symbol) :
    s.cursor.current.kind.isSymbol symbol = false := by
  unfold ParseState.Stuck at h
  generalize s.cursor.current.kind = k at h
  cases h <;> rfl

theorem isKeyword_of_stuck (h : s.Stuck) (keyword : Keyword)
    (hk : ¬ Opening (.keyword keyword)) : s.cursor.current.kind.isKeyword keyword = false := by
  unfold ParseState.Stuck at h
  generalize s.cursor.current.kind = k at h
  cases k with
  | keyword word =>
    refine beq_eq_false_iff_ne.mpr ?_
    rintro rfl
    exact hk h
  | _ => rfl

theorem isNewline_of_stuck (h : s.Stuck) : s.cursor.current.kind.isNewline = false := by
  unfold ParseState.Stuck at h
  generalize s.cursor.current.kind = k at h
  cases h <;> rfl

theorem Halts.get {f : ParseState → Parser β} (h : Halts s (f s)) : Halts s (get >>= f) := h

theorem Halts.current {f : Token → Parser β} (h : Halts s (f s.cursor.current)) :
    Halts s (current >>= f) := h

theorem Halts.remaining {f : Nat → Parser β} (h : Halts s (f s.cursor.rest.length)) :
    Halts s (remaining >>= f) := h

theorem Halts.atSymbol (h : s.Stuck) (symbol : Symbol) {f : Bool → Parser β}
    (hf : Halts s (f false)) : Halts s (atSymbol symbol >>= f) := by
  rw [← isSymbol_of_stuck h symbol] at hf
  exact hf

theorem Halts.atKeyword (h : s.Stuck) (keyword : Keyword) (hk : ¬ Opening (.keyword keyword))
    {f : Bool → Parser β} (hf : Halts s (f false)) : Halts s (atKeyword keyword >>= f) := by
  rw [← isKeyword_of_stuck h keyword hk] at hf
  exact hf

theorem Halts.atNewline (h : s.Stuck) {f : Bool → Parser β} (hf : Halts s (f false)) :
    Halts s (atNewline >>= f) := by
  rw [← isNewline_of_stuck h] at hf
  exact hf

theorem refuses_expect (h : s.Stuck) (symbol : Symbol) (what : Expectation) :
    Refuses s (expect symbol what) := by
  have hraise : Refuses s (if false then advance else raiseHere what) := refuses_raiseHere what
  rw [← isSymbol_of_stuck h symbol] at hraise
  exact hraise

theorem refuses_expectKeyword (h : s.Stuck) (keyword : Keyword)
    (hk : ¬ Opening (.keyword keyword)) : Refuses s (expectKeyword keyword) := by
  have hraise : Refuses s (if false then advance else raiseHere (.keyword keyword)) :=
    refuses_raiseHere _
  rw [← isKeyword_of_stuck h keyword hk] at hraise
  exact hraise

theorem halts_skipNewlines (h : s.Stuck) : Halts s skipNewlines := by
  have hsame : ∀ n, s.cursor.skipNewlines n = s.cursor := by
    intro n
    cases n with
    | zero => rfl
    | succ n =>
      unfold Cursor.skipNewlines
      rw [isNewline_of_stuck h]
      rfl
  refine .inl ⟨(), ?_⟩
  show EStateM.Result.ok () { s with cursor := s.cursor.skipNewlines _ } = _
  rw [hsame]

theorem halts_chainFrom (h : s.Stuck) {op? : TokenKind → Option BinaryOp}
    (hop : ∀ k, Opening k → op? k = none) (right : Parser (Node Span)) (n : Nat)
    (left : Node Span) : Halts s (chainFrom op? right n left) := by
  cases n with
  | zero => exact halts_pure left
  | succ n =>
    unfold chainFrom
    refine Halts.current ?_
    rw [hop _ h]
    exact halts_pure left

theorem halts_argumentsFrom (h : s.Stuck) (e : Parser (Node Span)) (n : Nat)
    (items : List (Node Span)) : Halts s (argumentsFrom e n items) := by
  cases n with
  | zero => exact halts_pure items
  | succ n => exact Halts.atSymbol h _ (halts_pure items)

theorem halts_suffixesFrom (h : s.Stuck) (e : Parser (Node Span)) (n : Nat) (node : Node Span) :
    Halts s (suffixesFrom e n node) := by
  cases n with
  | zero => exact halts_pure node
  | succ n =>
    unfold suffixesFrom
    refine Halts.current ?_
    unfold ParseState.Stuck at h
    generalize s.cursor.current.kind = k at h
    cases h <;> exact halts_pure node

theorem Refuses.current {f : Token → Parser β} (h : Refuses s (f s.cursor.current)) :
    Refuses s (current >>= f) := h

theorem Refuses.following {f : Token → Parser β} (h : Refuses s (f s.cursor.following)) :
    Refuses s (following >>= f) := h

theorem Refuses.remaining {f : Nat → Parser β} (h : Refuses s (f s.cursor.rest.length)) :
    Refuses s (remaining >>= f) := h

theorem refuses_branchBody (h : s.Stuck) (e : Parser (Node Span)) : Refuses s (branchBody e) := by
  unfold branchBody
  refine .current ?_
  dsimp only
  rw [isSymbol_of_stuck h, isSymbol_of_stuck h]
  exact (refuses_raiseHere _).bind

theorem refuses_forBody (h : s.Stuck) (e : Parser (Node Span)) : Refuses s (forBody e) := by
  unfold forBody
  refine .current (.following ?_)
  unfold ParseState.Stuck at h
  generalize s.cursor.current.kind = k at h
  cases h <;> exact refuses_raiseHere _

theorem refuses_whileBody (h : s.Stuck) (e : Parser (Node Span)) : Refuses s (whileBody e) := by
  unfold whileBody
  refine .current (.following ?_)
  unfold ParseState.Stuck at h
  generalize s.cursor.current.kind = k at h
  cases h <;> exact refuses_raiseHere _

theorem halts_methodsFrom (h : s.Stuck) (e : Parser (Node Span)) (braced : Bool) (n : Nat)
    (methods : List (FuncDef Span)) : Halts s (methodsFrom e braced n methods) := by
  cases n with
  | zero => exact .inr (refuses_raiseHere _)
  | succ n =>
    unfold methodsFrom
    refine (halts_skipNewlines h).bind fun _ => .current ?_
    rw [isSymbol_of_stuck h, isKeyword_of_stuck h .endWord nofun, isKeyword_of_stuck h .func nofun,
      ite_self]
    exact .inr (refuses_raiseHere _)

/-! ### Where no statement starts -/

section Unstarted

variable {e a : Parser (Node Span)} {hint : String → Option Keyword}

theorem refuses_atom (h : starts s.cursor.current.kind = false) : Refuses s (atom hint e) := by
  unfold atom
  refine .current ?_
  generalize s.cursor.current.kind = k at h
  cases k with
  | symbol symbol => cases symbol <;> first | exact refuses_raiseHere _ | exact Bool.noConfusion h
  | keyword keyword =>
    cases keyword <;> first | exact refuses_raiseHere _ | exact Bool.noConfusion h
  | int | float | string | ident => exact Bool.noConfusion h
  | _ => exact refuses_raiseHere _

theorem refuses_factor (ha : Refuses s a) (h : starts s.cursor.current.kind = false) (n : Nat) :
    Refuses s (factor e a n) := by
  have hpower : ∀ right, Refuses s (power e a right) := fun _ => ha.bind.bind
  cases n with
  | zero => exact hpower _
  | succ n =>
    have hsign : UnaryOp.sign? s.cursor.current.kind = none := by
      generalize s.cursor.current.kind = k at h
      unfold UnaryOp.sign?
      split
      · exact Bool.noConfusion h
      · exact Bool.noConfusion h
      · rfl
    unfold factor
    refine .current ?_
    rw [hsign]
    exact hpower _

theorem refuses_logic (ha : Refuses s a) (h : starts s.cursor.current.kind = false) :
    Refuses s (logic e a) := by
  have hfactor : Refuses s (anyFactor e a) := .remaining (refuses_factor ha h _)
  have hcompared : Refuses s (compared e a) := hfactor.bind.bind.bind.orExpected _
  have hnot : s.cursor.current.kind.isKeyword .not = false := by
    generalize s.cursor.current.kind = k at h
    cases k with
    | keyword keyword => cases keyword <;> first | rfl | exact Bool.noConfusion h
    | _ => rfl
  have hcomparison : ∀ n, Refuses s (comparison e a n) := by
    intro n
    cases n with
    | zero => exact hcompared
    | succ n =>
      have hif : Refuses s (if false then do
          let token ← advance
          let operand ← comparison e a n
          return Node.unary (token.span.through operand.tag) .not operand
        else compared e a) := hcompared
      rw [← hnot] at hif
      exact hif
  have hany : Refuses s (anyComparison e a) := .remaining (hcomparison _)
  exact hany.bind.orExpected _

theorem refuses_expressionStep (h : starts s.cursor.current.kind = false) :
    Refuses s (expressionStep hint e) := by
  have hlogic : Refuses s (logic e (atom hint e)) := refuses_logic (refuses_atom h) h
  unfold expressionStep
  refine .current (.following ?_)
  split
  · next heq =>
    rw [heq] at h
    exact Bool.noConfusion h
  · next heq _ =>
    rw [heq] at h
    exact Bool.noConfusion h
  · exact hlogic

theorem refuses_statement (he : Refuses s e) (h : starts s.cursor.current.kind = false) :
    Refuses s (statement e) := by
  have hdefault := he.orExpected .statement
  unfold statement
  refine .current (.following ?_)
  split
  · next heq =>
    rw [heq] at h
    exact Bool.noConfusion h
  · next heq =>
    rw [heq] at h
    exact Bool.noConfusion h
  · next heq =>
    rw [heq] at h
    exact Bool.noConfusion h
  · next heq _ =>
    rw [heq] at h
    exact Bool.noConfusion h
  · exact hdefault.bind

end Unstarted

/-! ### Sound parsers -/

/-- However it ends, the parser has passed a token by then. -/
def Passes (s : ParseState) (p : Parser α) : Prop :=
  match p s with
  | .ok _ t | .error _ t => t.cursor.rest.length < s.cursor.rest.length

/-- The parser fails where it stands, or passes a token. -/
def Begins (s : ParseState) (p : Parser α) : Prop := Refuses s p ∨ Passes s p

/-- What the parser gives up from `s` on is excused, or it gets stuck. Either way it has
gone no way back, and gave up nothing that began before `s`. -/
def Sound (source : Source) (s : ParseState) (p : Parser α) : Prop :=
  match p s with
  | .ok _ t => Trail source s t ∧ (Clean s t ∨ t.Stuck)
  | .error _ t => Trail source s t

/-- The parser makes no attempts from `s` on. -/
def Quiet (source : Source) (s : ParseState) (p : Parser α) : Prop :=
  match p s with
  | .ok _ t => Trail source s t ∧ t.abandoned = s.abandoned
  | .error _ t => Trail source s t

theorem trail_pass (hs : s.cursor.Ready source) : Trail source s s.pass :=
  .quiet hs.pass rfl

theorem Quiet.bind (hp : Quiet source s p)
    (hf : ∀ a t, t.cursor.Ready source → Quiet source t (f a)) : Quiet source s (p >>= f) := by
  show Quiet source s (EStateM.bind p f)
  unfold Quiet EStateM.bind at *
  cases hps : p s with
  | error e t =>
    rw [hps] at hp
    exact hp
  | ok a t =>
    rw [hps] at hp
    have hfa := hf a t hp.1.reached.ready
    dsimp only
    cases hr : f a t <;> rw [hr] at hfa
    · exact ⟨hp.1.trans hfa.1, hfa.2.trans hp.2⟩
    · exact hp.1.trans hfa

theorem Quiet.sound (hp : Quiet source s p) : Sound source s p := by
  unfold Quiet Sound at *
  cases hps : p s <;> rw [hps] at hp
  · exact ⟨hp.1, .inl (.quiet hp.2)⟩
  · exact hp

theorem Quiet.current {f : Token → Parser β} (h : Quiet source s (f s.cursor.current)) :
    Quiet source s (current >>= f) := h

theorem Quiet.following {f : Token → Parser β} (h : Quiet source s (f s.cursor.following)) :
    Quiet source s (following >>= f) := h

theorem Quiet.atSymbol {symbol : Symbol} {f : Bool → Parser β}
    (h : ∀ b, Quiet source s (f b)) : Quiet source s (atSymbol symbol >>= f) := h _

theorem quiet_advance (hs : s.cursor.Ready source) : Quiet source s advance :=
  ⟨trail_pass hs, rfl⟩

theorem quiet_raiseHere (hs : s.cursor.Ready source) (what : Expectation) :
    Quiet source s (raiseHere what : Parser α) :=
  show Trail source s _ from .quiet hs.refl rfl

theorem quiet_raise (hs : s.cursor.Ready source) (failure : Failure) :
    Quiet source s (raise failure : Parser α) :=
  show Trail source s _ from .quiet hs.refl rfl

theorem quiet_pure (hs : s.cursor.Ready source) (a : α) : Quiet source s (pure a : Parser α) :=
  ⟨.quiet hs.refl rfl, rfl⟩

theorem quiet_skipNewlines (hs : s.cursor.Ready source) : Quiet source s skipNewlines :=
  ⟨.quiet (hs.skip _) rfl, rfl⟩

theorem quiet_spanFrom (hs : s.cursor.Ready source) (start : Position) :
    Quiet source s (spanFrom start) :=
  ⟨.quiet hs.refl rfl, rfl⟩

theorem quiet_expect (hs : s.cursor.Ready source) (symbol : Symbol) (what : Expectation) :
    Quiet source s (expect symbol what) := by
  have hif : ∀ b : Bool, Quiet source s (if b then advance else raiseHere what) := by
    intro b
    split
    · exact quiet_advance hs
    · exact quiet_raiseHere hs what
  exact hif _

theorem quiet_expectKeyword (hs : s.cursor.Ready source) (keyword : Keyword) :
    Quiet source s (expectKeyword keyword) := by
  have hif : ∀ b : Bool, Quiet source s
      (if b then advance else raiseHere (.keyword keyword)) := by
    intro b
    split
    · exact quiet_advance hs
    · exact quiet_raiseHere hs _
  exact hif _

theorem quiet_expectIdent (hs : s.cursor.Ready source) (what : Expectation) :
    Quiet source s (expectIdent what) := by
  unfold expectIdent
  refine .current ?_
  split
  · exact (quiet_advance hs).bind fun token t ht => quiet_pure ht _
  · exact quiet_raiseHere hs what

theorem quiet_paramsFrom (n : Nat) (hs : s.cursor.Ready source) (params : List (Param Span)) :
    Quiet source s (paramsFrom n params) := by
  induction n generalizing s params with
  | zero => exact quiet_raiseHere hs _
  | succ n ih =>
    unfold paramsFrom
    refine .current ?_
    split
    · exact quiet_raiseHere hs _
    · refine (quiet_advance hs).bind fun _ t ht => ?_
      refine (quiet_expectIdent ht _).bind fun r u hu => .atSymbol fun b => ?_
      split
      · exact (quiet_advance hu).bind fun _ v hv => ih hv _
      · exact quiet_pure hu _

namespace Sound

theorem bind (hp : Sound source s p) (hf : ∀ a t, t.cursor.Ready source → Sound source t (f a))
    (hstuck : ∀ a t, t.Stuck → Halts t (f a)) : Sound source s (p >>= f) := by
  show Sound source s (EStateM.bind p f)
  unfold Sound EStateM.bind at *
  cases hps : p s with
  | error e t =>
    rw [hps] at hp
    exact hp
  | ok a t =>
    rw [hps] at hp
    obtain ⟨htrail, hclean | hst⟩ := hp
    · have hfa := hf a t htrail.reached.ready
      dsimp only
      cases hr : f a t <;> rw [hr] at hfa
      · exact ⟨htrail.trans hfa.1, hfa.2.imp_left hclean.trans⟩
      · exact htrail.trans hfa
    · dsimp only
      rcases hstuck a t hst with ⟨b, hr⟩ | ⟨failure, u, hr, hc, hl⟩ <;> rw [hr]
      · exact ⟨htrail, .inr hst⟩
      · exact htrail.of_eq hc hl

/-- If what follows makes no attempts, and fails where the parser is stuck, then only
what is excused was given up. -/
theorem clean (hp : Sound source s p) (hf : ∀ a t, t.cursor.Ready source → Quiet source t (f a))
    (hstuck : ∀ a t, t.Stuck → Refuses t (f a)) {x : β} {u : ParseState}
    (h : (p >>= f) s = .ok x u) : Clean s u := by
  change EStateM.bind p f s = .ok x u at h
  unfold Sound at hp
  unfold EStateM.bind at h
  cases hps : p s with
  | error e t =>
    rw [hps] at h
    cases h
  | ok a t =>
    rw [hps] at h hp
    obtain ⟨htrail, hclean | hst⟩ := hp
    · have hfa := hf a t htrail.reached.ready
      unfold Quiet at hfa
      rw [show f a t = .ok x u from h] at hfa
      exact hclean.trans (.quiet hfa.2)
    · obtain ⟨failure, v, hr, _⟩ := hstuck a t hst
      rw [show f a t = .ok x u from h] at hr
      cases hr

/-- A first step that moves to `t` and gives nothing up. -/
theorem step {x : α} {t : ParseState} (hp : p s = .ok x t) (ht : Trail source s t)
    (hl : t.abandoned = s.abandoned) (hf : Sound source t (f x)) : Sound source s (p >>= f) := by
  show Sound source s (EStateM.bind p f)
  unfold Sound EStateM.bind at *
  rw [hp]
  dsimp only
  cases hr : f x t <;> rw [hr] at hf
  · exact ⟨ht.trans hf.1, hf.2.imp_left (Clean.quiet hl).trans⟩
  · exact ht.trans hf

/-- Behind a parser that makes no attempts. -/
theorem after (hp : Quiet source s p) (hf : ∀ a t, t.cursor.Ready source → Sound source t (f a)) :
    Sound source s (p >>= f) := by
  unfold Quiet at hp
  cases hps : p s with
  | ok a t =>
    rw [hps] at hp
    exact step hps hp.1 hp.2 (hf a t hp.1.reached.ready)
  | error e t =>
    rw [hps] at hp
    show Sound source s (EStateM.bind p f)
    unfold Sound EStateM.bind
    rw [hps]
    exact hp

theorem get {f : ParseState → Parser β} (h : Sound source s (f s)) :
    Sound source s (MonadState.get >>= f) := h

theorem current {f : Token → Parser β} (h : Sound source s (f s.cursor.current)) :
    Sound source s (current >>= f) := h

theorem following {f : Token → Parser β} (h : Sound source s (f s.cursor.following)) :
    Sound source s (following >>= f) := h

theorem remaining {f : Nat → Parser β} (h : Sound source s (f s.cursor.rest.length)) :
    Sound source s (remaining >>= f) := h

theorem atSymbol {symbol : Symbol} {f : Bool → Parser β} (h : ∀ b, Sound source s (f b)) :
    Sound source s (atSymbol symbol >>= f) := h _

theorem atKeyword {keyword : Keyword} {f : Bool → Parser β} (h : ∀ b, Sound source s (f b)) :
    Sound source s (atKeyword keyword >>= f) := h _

/-- Whether the keyword comes is known. -/
theorem atKeyword_of {keyword : Keyword} {b : Bool} {f : Bool → Parser β}
    (hb : s.cursor.current.kind.isKeyword keyword = b) (h : Sound source s (f b)) :
    Sound source s (Parser.atKeyword keyword >>= f) := by
  subst hb
  exact h

theorem atNewline {f : Bool → Parser β} (h : ∀ b, Sound source s (f b)) :
    Sound source s (atNewline >>= f) := h _

/-- A step forward that is taken back by what follows it. -/
theorem back {t : ParseState} {x : α} {y : β} (hs : s.cursor.Ready source) (hp : p s = .ok x t)
    (hf : f x t = .ok y { t with cursor := s.cursor }) (hl : t.abandoned = s.abandoned) :
    Sound source s (p >>= f) := by
  show Sound source s (EStateM.bind p f)
  unfold Sound EStateM.bind
  rw [hp]
  dsimp only
  rw [hf]
  exact ⟨.quiet hs.refl hl, .inl (.quiet hl)⟩

theorem pure (hs : s.cursor.Ready source) (a : α) : Sound source s (Pure.pure a : Parser α) :=
  (quiet_pure hs a).sound

theorem of_refuses (hs : s.cursor.Ready source) (h : Refuses s p) : Sound source s p := by
  obtain ⟨failure, t, hp, hc, hl⟩ := h
  unfold Sound
  rw [hp]
  exact Trail.of_eq (.quiet hs.refl rfl) hc hl

theorem raiseHere (hs : s.cursor.Ready source) (what : Expectation) :
    Sound source s (raiseHere what : Parser α) :=
  of_refuses hs (refuses_raiseHere what)

/-- A result that is put together of what was read. -/
theorem finish (hp : Sound source s p) {g : α → β} : Sound source s (do return g (← p)) :=
  hp.bind (fun _ _ ht => .pure ht _) fun _ _ _ => halts_pure _

/-- A result that is put together with the span of what was read. -/
theorem tagged (hp : Sound source s p) {start : Position} {g : α → Span → β} :
    Sound source s (do
      let a ← p
      return g a (← spanFrom start)) :=
  hp.bind (fun _ _ ht => .after (quiet_spanFrom ht _) fun _ _ hu => .pure hu _)
    fun _ _ _ => (halts_spanFrom _).bind fun _ => halts_pure _

theorem orExpected (h : Sound source s p) (what : Expectation) :
    Sound source s (orExpected p what) := by
  unfold Sound Parser.orExpected at *
  cases hp : p s with
  | ok a t =>
    rw [hp] at h
    exact h
  | error failure t =>
    rw [hp] at h
    exact h.of_eq rfl rfl

/-- An attempt that is given up behind its first token is excused or leaves the parser
stuck; which of them is decided by that token. -/
theorem attempt (hs : s.cursor.Ready source) (h : Sound source s p)
    (hrefuses : starts s.cursor.current.kind = false → Refuses s p)
    (hbegins : isHinge s.cursor.current.kind = true → Begins s p) :
    Sound source s (attempt p) := by
  unfold Sound Parser.attempt at *
  cases hp : p s with
  | ok a t =>
    rw [hp] at h
    exact h
  | error failure t =>
    rw [hp] at h
    obtain ⟨new, hnew, hat⟩ := h.log
    -- Where the attempt failed at once, it is all that was given up.
    have hrefused : Refuses s p → ∀ inside, Clean s { t with
        cursor := s.cursor
        abandoned := ⟨s.cursor.current, s.cursor.rest.length - t.cursor.rest.length, inside⟩ ::
          t.abandoned } := by
      rintro ⟨_, u, hpu, hc, hl⟩ inside
      rw [hp] at hpu
      cases hpu
      refine ⟨[_], congrArg _ hl, excused_single ?_⟩
      rw [hc]
      exact Nat.sub_self _
    refine ⟨⟨hs.refl, _ :: new, congrArg _ hnew, ?_⟩, ?_⟩
    · rintro x (_ | ⟨_, hx⟩)
      · exact Nat.le_refl _
      · exact hat x hx
    · rcases starts_cases s.cursor.current.kind with hhinge | hopening | hstarts
      · rcases hbegins hhinge with hrefuses | hpasses
        · exact .inl (hrefused hrefuses _)
        · unfold Passes at hpasses
          rw [hp] at hpasses
          have hinside : t.abandoned.length - s.abandoned.length = new.length := by
            rw [hnew, List.length_append, Nat.add_sub_cancel]
          exact .inl ⟨_ :: new, congrArg _ hnew, .of_hinge hhinge (Nat.sub_pos_of_lt hpasses)
            (Nat.le_of_eq hinside.symm) hat⟩
      · exact .inr hopening
      · exact .inl (hrefused (hrefuses hstarts) _)

end Sound

/-- Sound from wherever it starts. -/
def Sounds (source : Source) (p : Parser α) : Prop :=
  ∀ s, s.cursor.Ready source → Sound source s p

/-- A parser of expressions that is sound, and fails at once where no statement starts. At
a hinge it passes a token, if it does not fail at once. -/
structure Steady (source : Source) (e : Parser (Node Span)) : Prop where
  sound : Sounds source e
  refuses : ∀ s, starts s.cursor.current.kind = false → Refuses s e
  begins : ∀ s, s.cursor.Ready source → isHinge s.cursor.current.kind = true → Begins s e

/-- A parser that passes the current token, and is sound from there on. -/
def Opens (source : Source) (p : Parser α) : Prop :=
  ∃ f : Token → Parser α, p = (advance >>= f) ∧ ∀ token, Sounds source (f token)

theorem Opens.sounds (h : Opens source p) : Sounds source p := by
  obtain ⟨f, rfl, hf⟩ := h
  exact fun s hs => .after (quiet_advance hs) fun token t ht => hf token t ht

/-! ### Parsers that begin with a token -/

namespace Begins

theorem current {f : Token → Parser β} (h : Begins s (f s.cursor.current)) :
    Begins s (current >>= f) := h

theorem following {f : Token → Parser β} (h : Begins s (f s.cursor.following)) :
    Begins s (following >>= f) := h

theorem remaining {f : Nat → Parser β} (h : Begins s (f s.cursor.rest.length)) :
    Begins s (remaining >>= f) := h

/-- Whether the keyword comes is known. -/
theorem atKeyword_of {keyword : Keyword} {b : Bool} {f : Bool → Parser β}
    (hb : s.cursor.current.kind.isKeyword keyword = b) (h : Begins s (f b)) :
    Begins s (Parser.atKeyword keyword >>= f) := by
  subst hb
  exact h

/-- What is sound does not give the token back. -/
theorem bind (h : Begins s p) (hp : Sound source s p) (hf : ∀ a, Sounds source (f a)) :
    Begins s (p >>= f) := by
  rcases h with h | h
  · exact .inl h.bind
  · refine .inr ?_
    show Passes s (EStateM.bind p f)
    unfold Passes Sound EStateM.bind at *
    cases hps : p s with
    | error e t =>
      rw [hps] at h
      exact h
    | ok a t =>
      rw [hps] at h hp
      have hfa := hf a t hp.1.reached.ready
      unfold Sound at hfa
      dsimp only
      cases hr : f a t <;> rw [hr] at hfa
      · exact Nat.lt_of_le_of_lt hfa.1.reached.left h
      · exact Nat.lt_of_le_of_lt hfa.reached.left h

theorem of_opens (h : Opens source p) (hs : s.cursor.Ready source)
    (hne : s.cursor.current.kind ≠ .eof) : Begins s p := by
  obtain ⟨f, rfl, hf⟩ := h
  have hpass : Begins s advance := .inr (hs.left_advance hne)
  exact hpass.bind (quiet_advance hs).sound hf

theorem orExpected (h : Begins s p) (what : Expectation) : Begins s (orExpected p what) := by
  rcases h with h | h
  · exact .inl (h.orExpected what)
  · refine .inr ?_
    unfold Passes Parser.orExpected at *
    cases hp : p s <;> rw [hp] at h <;> exact h

theorem tagged (h : Begins s p) (hp : Sound source s p) {start : Position} {g : α → Span → β} :
    Begins s (do
      let a ← p
      return g a (← spanFrom start)) :=
  h.bind hp fun _ _ ht => .after (quiet_spanFrom ht _) fun _ _ hu => .pure hu _

end Begins

variable {e a : Parser (Node Span)} {op? : TokenKind → Option BinaryOp}

/-! ### Operators -/

theorem sound_chainFrom (hop : ∀ k, Opening k → op? k = none) {right : Parser (Node Span)}
    (hright : Sounds source right) (n : Nat) (left : Node Span) :
    Sounds source (chainFrom op? right n left) := by
  induction n generalizing left with
  | zero => exact fun s hs => .pure hs left
  | succ n ih =>
    intro s hs
    unfold chainFrom
    refine .current ?_
    split
    · exact .pure hs left
    · refine .after (quiet_advance hs) fun _ t ht => (hright t ht).bind (fun r u hu => ?_) ?_
      · exact ih _ u hu
      · exact fun r u hu => halts_chainFrom hu hop ..

theorem sound_chain (hop : ∀ k, Opening k → op? k = none) {operand right : Parser (Node Span)}
    (hoperand : Sounds source operand) (hright : Sounds source right) :
    Sounds source (chain operand op? right) := by
  intro s hs
  refine (hoperand s hs).bind (fun left t ht => ?_) fun left t ht => ?_
  · exact .remaining (sound_chainFrom hop hright _ left t ht)
  · exact .remaining (halts_chainFrom ht hop ..)

theorem begins_chain {operand right : Parser (Node Span)} (h : Begins s operand)
    (hoperand : Sound source s operand) (hop : ∀ k, Opening k → op? k = none)
    (hright : Sounds source right) : Begins s (chain operand op? right) :=
  h.bind hoperand fun left t ht => .remaining (sound_chainFrom hop hright _ left t ht)

theorem sound_argumentsFrom (he : Sounds source e) (n : Nat) (items : List (Node Span)) :
    Sounds source (argumentsFrom e n items) := by
  induction n generalizing items with
  | zero => exact fun s hs => .pure hs items
  | succ n ih =>
    intro s hs
    refine .atSymbol fun b => ?_
    split
    · refine .after (quiet_advance hs) fun _ t ht => (he t ht).bind (fun item u hu => ?_) ?_
      · exact ih _ u hu
      · exact fun item u hu => halts_argumentsFrom hu ..
    · exact .pure hs items

theorem opens_arguments (he : Sounds source e) (close : Symbol) :
    Opens source (arguments e close) := by
  refine ⟨_, rfl, fun _ t ht => .atSymbol fun b => ?_⟩
  split
  · exact .after (quiet_advance ht) fun _ u hu => .pure hu []
  · refine ((he t ht).orExpected _).bind (fun first u hu => .remaining ?_) fun first u hu => ?_
    · refine (sound_argumentsFrom he _ _ u hu).bind (fun items v hv => ?_) fun items v hv => ?_
      · exact .after (quiet_expect hv ..) fun _ w hw => .pure hw items
      · exact .inr (refuses_expect hv ..).bind
    · refine .remaining ((halts_argumentsFrom hu ..).bind fun items => ?_)
      exact .inr (refuses_expect hu ..).bind

theorem sound_arguments (he : Sounds source e) (close : Symbol) :
    Sounds source (arguments e close) :=
  (opens_arguments he close).sounds

theorem sound_suffixesFrom (he : Sounds source e) (n : Nat) (node : Node Span) :
    Sounds source (suffixesFrom e n node) := by
  induction n generalizing node with
  | zero => exact fun s hs => .pure hs node
  | succ n ih =>
    -- Behind a suffix there may be another.
    have hmore : ∀ make : Span → Node Span,
        Sounds source (do suffixesFrom e n (make (← spanFrom node.tag.start))) :=
      fun make t ht => .after (quiet_spanFrom ht _) fun span u hu => ih _ u hu
    have hhalts : ∀ (make : Span → Node Span) (t : ParseState), t.Stuck →
        Halts t (do suffixesFrom e n (make (← spanFrom node.tag.start))) :=
      fun make t ht => (halts_spanFrom _).bind fun span => halts_suffixesFrom ht ..
    intro s hs
    unfold suffixesFrom
    refine .current ?_
    split
    · exact (sound_arguments he _ s hs).bind (fun args t ht => hmore (.call · node args) t ht)
        fun args t ht => hhalts (.call · node args) t ht
    · refine .after (quiet_advance hs) fun _ t ht => ?_
      refine (he t ht).bind (fun index u hu => ?_)
        fun index u hu => .inr (refuses_expect hu ..).bind
      exact .after (quiet_expect hu ..) fun _ v hv => hmore (.index · node index) v hv
    · refine .after (quiet_advance hs) fun _ t ht => ?_
      refine .after (quiet_expectIdent ht _) fun r u hu => ?_
      refine .atSymbol fun b => ?_
      split
      · refine (sound_arguments he _ u hu).bind (fun args v hv => ?_) fun args v hv => ?_
        · exact hmore (.methodCall · node r.1 args) v hv
        · exact hhalts (.methodCall · node r.1 args) v hv
      · exact hmore (.getAttr · node r.1) u hu
    · exact .pure hs node

theorem sound_call (he : Sounds source e) (ha : Sounds source a) : Sounds source (call e a) := by
  intro s hs
  refine (ha s hs).bind (fun node t ht => ?_) fun node t ht => ?_
  · exact .remaining (sound_suffixesFrom he _ node t ht)
  · exact .remaining (halts_suffixesFrom ht ..)

theorem sound_factor (he : Sounds source e) (ha : Sounds source a) (n : Nat) :
    Sounds source (factor e a n) := by
  have hpower : ∀ right, Sounds source right → Sounds source (power e a right) :=
    fun right hright => sound_chain (fun k hk => by cases hk <;> rfl) (sound_call he ha) hright
  induction n with
  | zero => exact hpower _ fun s hs => .raiseHere hs _
  | succ n ih =>
    intro s hs
    unfold factor
    refine .current ?_
    split
    · exact hpower _ ih s hs
    · exact .after (quiet_advance hs) fun token t ht => (ih t ht).finish

theorem sound_anyFactor (he : Sounds source e) (ha : Sounds source a) :
    Sounds source (anyFactor e a) :=
  fun s hs => .remaining (sound_factor he ha _ s hs)

theorem sound_term (he : Sounds source e) (ha : Sounds source a) : Sounds source (term e a) :=
  have hfactor := sound_anyFactor he ha
  sound_chain (fun k hk => by cases hk <;> rfl) hfactor hfactor

theorem sound_arith (he : Sounds source e) (ha : Sounds source a) : Sounds source (arith e a) :=
  have hterm := sound_term he ha
  sound_chain (fun k hk => by cases hk <;> rfl) hterm hterm

theorem sound_comparison (he : Sounds source e) (ha : Sounds source a) (n : Nat) :
    Sounds source (comparison e a n) := by
  have harith := sound_arith he ha
  have hcompared : Sounds source (compared e a) := fun s hs =>
    (sound_chain (fun k hk => by cases hk <;> rfl) harith harith s hs).orExpected _
  induction n with
  | zero => exact hcompared
  | succ n ih =>
    intro s hs
    refine .atKeyword fun b => ?_
    split
    · exact .after (quiet_advance hs) fun token t ht => (ih t ht).finish
    · exact hcompared s hs

theorem sound_anyComparison (he : Sounds source e) (ha : Sounds source a) :
    Sounds source (anyComparison e a) :=
  fun s hs => .remaining (sound_comparison he ha _ s hs)

theorem sound_logic (he : Sounds source e) (ha : Sounds source a) : Sounds source (logic e a) := by
  have hcomparison := sound_anyComparison he ha
  intro s hs
  exact (sound_chain (fun k hk => by cases hk <;> rfl) hcomparison hcomparison s hs).orExpected _

/-! ### Statements and bodies -/

/-- Behind an expression, an attribute that is set may turn out to have been its last. -/
theorem sound_assigned (he : Steady source e) (start : Position) (node : Node Span) :
    Sounds source (do
      match node, (← current).kind with
      | .getAttr _ object name, .symbol .colon =>
        let _ ← advance
        let value ← e
        return .setAttr (← spanFrom start) object name value
      | node, _ => return node) := by
  intro t ht
  refine .current ?_
  split
  · exact .after (quiet_advance ht) fun _ u hu => (he.sound u hu).tagged
  · exact .pure ht _

theorem sound_statement (he : Steady source e) : Sounds source (statement e) := by
  intro s hs
  unfold statement
  refine .current (.following ?_)
  split
  · exact .after (quiet_advance hs) fun _ t ht =>
      (Sound.attempt ht (he.sound t ht) (he.refuses t) (he.begins t ht)).tagged
  · exact .after (quiet_advance hs) fun _ t ht => .pure ht _
  · exact .after (quiet_advance hs) fun _ t ht => .pure ht _
  · refine .after (quiet_advance hs) fun _ t ht => .after (quiet_advance ht) fun _ u hu => ?_
    exact (he.sound u hu).tagged
  · refine ((he.sound s hs).orExpected _).bind (sound_assigned he _) fun node t ht => .current ?_
    unfold ParseState.Stuck at ht
    split
    · next heq =>
      rw [heq] at ht
      cases ht
    · exact halts_pure _

theorem begins_statement (he : Steady source e) (hs : s.cursor.Ready source)
    (h : isHinge s.cursor.current.kind = true) : Begins s (statement e) := by
  have hdefault := (he.begins s hs h).orExpected .statement
  unfold statement
  refine .current (.following ?_)
  split
  · next heq =>
    rw [heq] at h
    exact Bool.noConfusion h
  · next heq =>
    rw [heq] at h
    exact Bool.noConfusion h
  · next heq =>
    rw [heq] at h
    exact Bool.noConfusion h
  · next heq _ =>
    rw [heq] at h
    exact Bool.noConfusion h
  · exact hdefault.bind ((he.sound s hs).orExpected _) (sound_assigned he _)

theorem sound_statementsFrom (he : Steady source e) (n : Nat) (items : List (Node Span)) :
    Sounds source (statementsFrom e n items) := by
  induction n generalizing items with
  | zero => exact fun s hs => .pure hs items
  | succ n ih =>
    intro s hs
    refine .after (quiet_skipNewlines hs) fun _ t ht => ?_
    have hrefuses := fun h => refuses_statement (he.refuses t h) h
    refine (Sound.attempt ht (sound_statement he t ht) hrefuses (begins_statement he ht)).bind
      (fun answer u hu => ?_) fun answer u hu => ?_
    · cases answer with
      | none => exact .pure hu items
      | some item =>
        refine .atNewline fun b => ?_
        split
        · exact ih _ u hu
        · exact .pure hu _
    · cases answer with
      | none => exact halts_pure items
      | some item => exact .atNewline hu (halts_pure _)

theorem sound_statements (he : Steady source e) : Sounds source (statements e) :=
  fun s hs => .current (.remaining (sound_statementsFrom he _ [] s hs).finish)

theorem sound_branchBody (he : Steady source e) : Sounds source (branchBody e) := by
  have hclose : ∀ (braced : Bool) (body : Body Span), Sounds source (do
      if braced then
        skipNewlines
        let _ ← expect .rightBrace (.symbol .rightBrace)
      return body) := by
    intro braced body t ht
    cases braced with
    | true =>
      refine .after (quiet_skipNewlines ht) fun _ u hu => ?_
      exact .after (quiet_expect hu ..) fun _ v hv => .pure hv body
    | false => exact .pure ht body
  have hhalts : ∀ (braced : Bool) (body : Body Span) (t : ParseState), t.Stuck → Halts t (do
      if braced then
        skipNewlines
        let _ ← expect .rightBrace (.symbol .rightBrace)
      return body) := by
    intro braced body t ht
    cases braced with
    | true => exact (halts_skipNewlines ht).bind fun _ => .inr (refuses_expect ht ..).bind
    | false => exact halts_pure body
  intro s hs
  unfold branchBody
  refine .current ?_
  dsimp only
  split
  · exact .of_refuses hs (refuses_raiseHere _).bind
  · refine .after (quiet_advance hs) fun _ t ht => .atNewline fun b => ?_
    split
    · refine .after (quiet_advance ht) fun _ u hu => ?_
      exact (sound_statements he u hu).bind (fun block => hclose _ (.mk block true))
        fun block => hhalts _ (.mk block true)
    · exact (sound_statement he t ht).bind (fun node => hclose _ (.mk node false))
        fun node => hhalts _ (.mk node false)

theorem sound_bracedBody (he : Steady source e) : Sounds source (bracedBody e) := by
  intro s hs
  refine .after (quiet_advance hs) fun _ t ht => ?_
  refine (sound_statements he t ht).bind (fun block u hu => ?_) fun block u hu => ?_
  · exact .after (quiet_expect hu ..) fun _ v hv => .pure hv _
  · exact .inr (refuses_expect hu ..).bind

theorem sound_endedBody (he : Steady source e) : Sounds source (endedBody e) := by
  intro s hs
  refine .after (quiet_advance hs) fun _ t ht => ?_
  refine (sound_statements he t ht).bind (fun block u hu => ?_) fun block u hu => ?_
  · exact .after (quiet_expectKeyword hu _) fun _ v hv => .pure hv _
  · exact .inr (refuses_expectKeyword hu .endWord nofun).bind

theorem sound_inlineBody (he : Steady source e) : Sounds source (inlineBody e) :=
  fun _ hs => .after (quiet_advance hs) fun _ t ht => (sound_statement he t ht).finish

theorem sound_forBody (he : Steady source e) : Sounds source (forBody e) := by
  intro s hs
  unfold forBody
  refine .current (.following ?_)
  split
  · exact .after (quiet_advance hs) fun _ t ht => sound_endedBody he t ht
  · exact sound_inlineBody he s hs
  · exact sound_bracedBody he s hs
  · exact .raiseHere hs _

theorem sound_whileBody (he : Steady source e) : Sounds source (whileBody e) := by
  intro s hs
  unfold whileBody
  refine .current (.following ?_)
  split
  · exact sound_bracedBody he s hs
  · exact .after (quiet_advance hs) fun _ t ht => sound_endedBody he t ht
  · exact sound_inlineBody he s hs
  · exact sound_endedBody he s hs
  · exact .raiseHere hs _

/-! ### Conditionals, loops, functions, classes and instances -/

theorem sound_branchesFrom (he : Steady source e) (n : Nat) (branches : List (Branch Span)) :
    Sounds source (branchesFrom e n branches) := by
  induction n generalizing branches with
  | zero => exact fun s hs => .raiseHere hs _
  | succ n ih =>
    intro s hs
    refine (he.sound s hs).bind (fun condition t ht => ?_)
      fun condition t ht => .inr (refuses_branchBody ht e).bind
    refine (sound_branchBody he t ht).bind (fun body u hu => ?_) fun body u hu => ?_
    · refine .get ?_
      let v : ParseState := { u with cursor := u.cursor.skipNewlines u.cursor.rest.length }
      have hv : Trail source u v := .quiet (hu.skip _) rfl
      cases hElif : v.cursor.current.kind.isKeyword .elif with
      | true =>
        refine .step rfl hv rfl (.atKeyword_of hElif ?_)
        exact .after (quiet_advance hv.reached.ready) fun _ w hw => ih _ w hw
      | false =>
        cases hElse : v.cursor.current.kind.isKeyword .elseWord with
        | true =>
          refine .step rfl hv rfl (.atKeyword_of hElif (.atKeyword_of hElse ?_))
          exact .after (quiet_advance hv.reached.ready) fun _ w hw => (sound_branchBody he w hw).finish
        | false =>
          -- The line breaks before something else are given back.
          refine .back (y := (branches ++ [.mk condition body], none)) hu rfl ?_ rfl
          have hElif' : v.cursor.current.kind.isKeyword .elif ≠ true := by simp [hElif]
          have hElse' : v.cursor.current.kind.isKeyword .elseWord ≠ true := by simp [hElse]
          show (if v.cursor.current.kind.isKeyword .elif = true then _ else _ : Parser _) v = _
          rw [if_neg hElif']
          show (if v.cursor.current.kind.isKeyword .elseWord = true then _ else _ : Parser _) v = _
          rw [if_neg hElse']
          rfl
    · refine .get ((halts_skipNewlines hu).bind fun _ => ?_)
      exact .atKeyword hu .elif nofun (.atKeyword hu .elseWord nofun (.inl ⟨_, rfl⟩))

theorem sound_conditional (he : Steady source e) : Sounds source (conditional e) :=
  fun _ hs => .after (quiet_advance hs) fun _ t ht =>
    .remaining (sound_branchesFrom he _ [] t ht).tagged

theorem sound_whileLoop (he : Steady source e) : Sounds source (whileLoop e) := by
  intro s hs
  refine .after (quiet_advance hs) fun _ t ht => ?_
  refine (he.sound t ht).bind (fun condition u hu => ?_) fun condition u hu => ?_
  · exact (sound_whileBody he u hu).tagged
  · exact .inr (refuses_whileBody hu e).bind

theorem sound_forLoop (he : Steady source e) : Sounds source (forLoop e) := by
  intro s hs
  refine .after (quiet_advance hs) fun _ t ht => .after (quiet_expectIdent ht _) fun r u hu => ?_
  refine .after (quiet_expect hu ..) fun _ v hv => ?_
  refine (he.sound v hv).bind (fun first w hw => ?_) fun first w hw =>
    .inr (refuses_expectKeyword hw .toWord nofun).bind
  refine .after (quiet_expectKeyword hw _) fun _ x hx => ?_
  refine (he.sound x hx).bind (fun last y hy => .atKeyword fun b => ?_) fun last y hy => ?_
  · dsimp only
    split
    · refine .after (quiet_advance hy) fun _ z hz => ?_
      refine (he.sound z hz).bind (fun step w hw => ?_) fun step w hw => ?_
      · exact (sound_forBody he w hw).tagged
      · exact .inr (refuses_forBody hw e).bind
    · exact (sound_forBody he y hy).tagged
  · exact .atKeyword hy .step nofun (.inr (refuses_forBody hy e).bind)

theorem sound_functionBody (he : Steady source e) (start : Position) :
    Sounds source (functionBody e start) := by
  have hend : Sounds source (do
      let block ← statements e
      skipNewlines
      let closing := (← current).kind
      if closing.isSymbol .rightBrace || closing.isKeyword .endWord then
        let _ ← advance
        return (block, false)
      else
        raiseHere .braceOrEnd) := by
    intro t ht
    refine (sound_statements he t ht).bind (fun block u hu => ?_) fun block u hu => ?_
    · refine .after (quiet_skipNewlines hu) fun _ v hv => .current ?_
      dsimp only
      split
      · exact .after (quiet_advance hv) fun _ w hw => .pure hw _
      · exact .raiseHere hv _
    · refine (halts_skipNewlines hu).bind fun _ => .current ?_
      dsimp only
      rw [isSymbol_of_stuck hu, isKeyword_of_stuck hu .endWord nofun]
      exact .inr (refuses_raiseHere _)
  have hblock : Sounds source (do
      let _ ← advance
      if ← atNewline then
        let _ ← advance
      let block ← statements e
      skipNewlines
      let closing := (← current).kind
      if closing.isSymbol .rightBrace || closing.isKeyword .endWord then
        let _ ← advance
        return (block, false)
      else
        raiseHere .braceOrEnd) := by
    intro t ht
    refine .after (quiet_advance ht) fun _ u hu => .atNewline fun b => ?_
    split
    · exact .after (quiet_advance hu) fun _ v hv => hend v hv
    · exact hend u hu
  intro s hs
  unfold functionBody
  refine .current ?_
  split
  · exact .after (quiet_advance hs) fun _ t ht => (he.sound t ht).finish
  · exact .after (quiet_advance hs) fun _ t ht => (he.sound t ht).finish
  · exact hblock s hs
  · exact hblock s hs
  · exact .raiseHere hs _

theorem opens_function (he : Steady source e) : Opens source (function e) := by
  have hrest : ∀ (name : Option String) (start : Position), Sounds source (do
      let _ ← expect .leftParen
        (if name.isSome then .symbol .leftParen else .identifierOrParen)
      let params ←
        if ← atSymbol .rightParen then pure [] else paramsFrom ((← remaining) + 1) []
      let _ ← expect .rightParen .parameterEnd
      let r ← functionBody e start
      return FuncDef.mk name params r.1 r.2) := by
    intro name start t ht
    have hbody : ∀ params : List (Param Span), Sounds source (do
        let _ ← expect .rightParen .parameterEnd
        let r ← functionBody e start
        return FuncDef.mk name params r.1 r.2) :=
      fun params u hu => .after (quiet_expect hu ..) fun _ v hv =>
        (sound_functionBody he start v hv).finish
    refine .after (quiet_expect ht ..) fun _ u hu => .atSymbol fun b => ?_
    split
    · exact hbody [] u hu
    · exact .remaining (.after (quiet_paramsFrom _ hu _) fun params v hv => hbody params v hv)
  refine ⟨_, rfl, fun token t ht => .current ?_⟩
  generalize t.cursor.current.kind.ident? = name
  cases name with
  | none => exact hrest none token.span.start t ht
  | some name =>
    exact .after (quiet_advance ht) fun _ u hu => hrest (some name) token.span.start u hu

theorem sound_function (he : Steady source e) : Sounds source (function e) :=
  (opens_function he).sounds

theorem sound_methodsFrom (he : Steady source e) (braced : Bool) (n : Nat)
    (methods : List (FuncDef Span)) : Sounds source (methodsFrom e braced n methods) := by
  induction n generalizing methods with
  | zero => exact fun s hs => .raiseHere hs _
  | succ n ih =>
    intro s hs
    refine .after (quiet_skipNewlines hs) fun _ t ht => .current ?_
    generalize (if braced then t.cursor.current.kind.isSymbol .rightBrace
      else t.cursor.current.kind.isKeyword .endWord) = ended
    cases ended with
    | true => exact .after (quiet_advance ht) fun _ u hu => .pure hu _
    | false =>
      rw [if_neg Bool.false_ne_true]
      split
      · refine (sound_function he t ht).bind (fun method u hu => ?_) fun method u hu => ?_
        · dsimp only
          split
          · exact .of_refuses hu (refuses_raise _).bind
          · exact ih _ u hu
        · dsimp only
          split
          · exact .inr (refuses_raise _).bind
          · exact halts_methodsFrom hu ..
      · exact .raiseHere ht _

theorem sound_classDefinition (he : Steady source e) : Sounds source (classDefinition e) := by
  have hrest : ∀ (name : String) (parent : Option String) (start : Position), Sounds source (do
      let kind := (← current).kind
      if !(kind.isSymbol .leftBrace || kind.isSymbol .colon) then
        raiseHere .colonOrBrace
      let _ ← advance
      let methods ← methodsFrom e (kind.isSymbol .leftBrace) ((← remaining) + 1) []
      return Node.cls (← spanFrom start) name parent methods) := by
    intro name parent start t ht
    refine .current ?_
    dsimp only
    split
    · exact .of_refuses ht (refuses_raiseHere _).bind
    · refine .after (quiet_advance ht) fun _ u hu => .remaining ?_
      exact (sound_methodsFrom he _ _ _ u hu).tagged
  intro s hs
  refine .after (quiet_advance hs) fun _ t ht => .after (quiet_expectIdent ht _) fun r u hu => ?_
  refine .current ?_
  dsimp only
  split
  · refine .after (quiet_advance hu) fun _ v hv => ?_
    exact .after (quiet_expectIdent hv _) fun parent w hw => hrest r.1 (some parent.1) _ w hw
  · exact hrest r.1 none _ u hu

theorem sound_instanceCreation (he : Sounds source e) : Sounds source (instanceCreation e) := by
  intro s hs
  refine .after (quiet_advance hs) fun _ t ht => .after (quiet_expectIdent ht _) fun r u hu => ?_
  refine .atSymbol fun b => ?_
  dsimp only
  split
  · exact .of_refuses hu (refuses_raiseHere _).bind
  · exact (sound_arguments he _ u hu).tagged

/-! ### Expressions and programs -/

variable {hint : String → Option Keyword}

theorem opens_parens (he : Sounds source e) : Opens source (do
    let _ ← advance
    let node ← e
    let _ ← expect .rightParen (.symbol .rightParen)
    return node) := by
  refine ⟨_, rfl, fun _ t ht => ?_⟩
  refine (he t ht).bind (fun node u hu => ?_) fun node u hu => .inr (refuses_expect hu ..).bind
  exact .after (quiet_expect hu ..) fun _ v hv => .pure hv node

theorem sound_atom (he : Steady source e) : Sounds source (atom hint e) := by
  intro s hs
  unfold atom
  refine .current ?_
  split
  · exact .after (quiet_advance hs) fun _ t ht => .pure ht _
  · exact .after (quiet_advance hs) fun _ t ht => .pure ht _
  · exact .after (quiet_advance hs) fun _ t ht => .pure ht _
  · refine .following ?_
    dsimp only
    split
    · exact sound_classDefinition he s hs
    · split
      · exact sound_instanceCreation he.sound s hs
      · split
        · exact .of_refuses hs (refuses_raise _)
        · exact .after (quiet_advance hs) fun _ t ht => .pure ht _
  · exact (opens_parens he.sound).sounds s hs
  · exact (sound_arguments he.sound _ s hs).tagged
  · exact sound_conditional he s hs
  · exact sound_forLoop he s hs
  · exact sound_whileLoop he s hs
  · exact (sound_function he s hs).tagged
  · exact .raiseHere hs _

/-! ### Where a statement starts at a hinge -/

section Hinge

variable (hs : s.cursor.Ready source) (h : isHinge s.cursor.current.kind = true)
include hs h

theorem begins_atom (he : Steady source e) : Begins s (atom hint e) := by
  unfold atom
  refine .current ?_
  generalize hk : s.cursor.current.kind = k at h
  have hopens : ∀ {γ : Type} {p : Parser γ}, Opens source p → Begins s p :=
    fun hp => .of_opens hp hs (by rw [hk]; rintro rfl; exact Bool.noConfusion h)
  cases k with
  | symbol symbol =>
    cases symbol with
    | leftParen => exact hopens (opens_parens he.sound)
    | leftSquare =>
      exact (hopens (opens_arguments he.sound _)).tagged (sound_arguments he.sound _ s hs)
    | plus | minus => exact .inl (refuses_raiseHere _)
    | _ => exact Bool.noConfusion h
  | keyword keyword =>
    cases keyword with
    | func => exact (hopens (opens_function he)).tagged (sound_function he s hs)
    | _ => exact Bool.noConfusion h
  | _ => exact Bool.noConfusion h

theorem begins_factor (he : Sounds source e) (ha : Sounds source a) (hatom : Begins s a) (n : Nat) :
    Begins s (factor e a n) := by
  have hcall : Begins s (call e a) :=
    hatom.bind (ha s hs) fun node t ht => .remaining (sound_suffixesFrom he _ node t ht)
  have hpower : ∀ right, Sounds source right → Begins s (power e a right) := fun right hright =>
    begins_chain hcall (sound_call he ha s hs) (fun k hk => by cases hk <;> rfl) hright
  cases n with
  | zero => exact hpower _ fun t ht => .raiseHere ht _
  | succ n =>
    have hfactor := sound_factor he ha n
    unfold factor
    refine .current ?_
    split
    · exact hpower _ hfactor
    · refine .of_opens ⟨_, rfl, fun token t ht => (hfactor t ht).finish⟩ hs ?_
      intro heq
      rw [heq] at h
      exact Bool.noConfusion h

/-- A hinge is no `not`, so the way to the first factor is straight. -/
theorem begins_logic (he : Sounds source e) (ha : Sounds source a) (hatom : Begins s a) :
    Begins s (logic e a) := by
  have hanyFactor : Sounds source (anyFactor e a) := sound_anyFactor he ha
  have hanyTerm : Sounds source (term e a) := sound_term he ha
  have harith : Sounds source (arith e a) := sound_arith he ha
  have hanyComparison : Sounds source (anyComparison e a) := sound_anyComparison he ha
  have hfactor : Begins s (anyFactor e a) := .remaining (begins_factor hs h he ha hatom _)
  have hterm : Begins s (term e a) :=
    begins_chain hfactor (hanyFactor s hs) (fun k hk => by cases hk <;> rfl) hanyFactor
  have hsum : Begins s (arith e a) :=
    begins_chain hterm (hanyTerm s hs) (fun k hk => by cases hk <;> rfl) hanyTerm
  have hcompared : Begins s (compared e a) :=
    (begins_chain hsum (harith s hs) (fun k hk => by cases hk <;> rfl) harith).orExpected _
  have hnot : s.cursor.current.kind.isKeyword .not = false := by
    generalize s.cursor.current.kind = k at h
    cases k with
    | keyword keyword => cases keyword <;> first | rfl | exact Bool.noConfusion h
    | _ => rfl
  have hcomparison : ∀ n, Begins s (comparison e a n) := by
    intro n
    cases n with
    | zero => exact hcompared
    | succ n => exact .atKeyword_of hnot hcompared
  have hany : Begins s (anyComparison e a) := .remaining (hcomparison _)
  exact (begins_chain hany (hanyComparison s hs) (fun k hk => by cases hk <;> rfl)
    hanyComparison).orExpected _

theorem begins_expressionStep (he : Steady source e) : Begins s (expressionStep hint e) := by
  have hlogic : Begins s (logic e (atom hint e)) :=
    begins_logic hs h he.sound (sound_atom he) (begins_atom hs h he)
  unfold expressionStep
  refine .current (.following ?_)
  split
  · next heq =>
    rw [heq] at h
    exact Bool.noConfusion h
  · next heq _ =>
    rw [heq] at h
    exact Bool.noConfusion h
  · exact hlogic

end Hinge

theorem Steady.expressionStep (he : Steady source e) : Steady source (expressionStep hint e) := by
  refine ⟨fun s hs => ?_, fun s h => refuses_expressionStep h, fun s hs h =>
    begins_expressionStep hs h he⟩
  have hlogic : Sound source s (logic e (atom hint e)) :=
    sound_logic he.sound (sound_atom he) s hs
  have hdeclaration : ∀ start name type constant,
      Sounds source (declaration e start name type constant) :=
    fun _ _ _ _ t ht => (he.sound t ht).tagged
  unfold Parser.expressionStep
  refine .current (.following ?_)
  split
  · refine .after (quiet_advance hs) fun _ t ht => .after (quiet_expectIdent ht _) fun r u hu => ?_
    exact .after (quiet_expect hu ..) fun _ v hv => hdeclaration _ _ _ _ v hv
  · split
    · exact hlogic
    · refine .after (quiet_advance hs) fun _ t ht => .after (quiet_advance ht) fun _ u hu => ?_
      refine .current ?_
      split
      · exact .after (quiet_advance hu) fun _ v hv => hdeclaration _ _ _ _ v hv
      · exact .after (quiet_advance hu) fun _ v hv => hdeclaration _ _ _ _ v hv
      · exact .raiseHere hu _
  · exact hlogic

theorem steady_expression (n : Nat) : Steady source (expression hint n) := by
  have hnone : Steady source (raiseHere .expression) :=
    ⟨fun _ hs => .raiseHere hs _, fun _ _ => refuses_raiseHere _,
      fun _ _ _ => .inl (refuses_raiseHere _)⟩
  induction n with
  | zero => exact hnone.expressionStep
  | succ n ih => exact ih.expressionStep

/-- A program ends where nothing is left, and that is not where a parser is stuck. -/
theorem clean_of_program {t : ParseState} (hs : s.cursor.Ready source) {tree : Node Span}
    (h : program hint s = .ok tree t) : Clean s t := by
  have he : Steady source (expression hint s.cursor.rest.length) := steady_expression _
  refine (sound_statements he s hs).clean (fun block u hu => .current ?_)
    (fun block u hu => .current ?_) h
  · split
    · exact quiet_pure hu block
    · exact .following (quiet_raise hu _)
  · have heof : u.cursor.current.kind.isEof = false := by
      unfold ParseState.Stuck at hu
      generalize u.cursor.current.kind = k at hu
      cases hu <;> rfl
    rw [heof]
    exact .following (refuses_raise _)

end Parser

namespace Source

/-- **An attempt that was given up behind a token began at a hinge**, or was made in the
course of one that did and was given up behind a token too, whenever a program is
accepted. -/
theorem abandoned_at_hinges {tree : Node Span} (h : source.parse = .ok tree) :
    ∃ tokens eof s, source.tokens = .ok (tokens, eof) ∧
      Parser.program Keyword.suggest (Parser.start tokens eof) = .ok tree s ∧
      Parser.Excused s.abandoned := by
  obtain ⟨tokens, eof, s, htokens, hprogram⟩ := parse_eq_ok.mp h
  refine ⟨tokens, eof, s, htokens, hprogram, ?_⟩
  rcases source.tokens_cases with ⟨ts, hts, hitems⟩ | ⟨f, hts, _⟩ <;> rw [hts] at htokens
  · cases htokens
    have heof : source.scan.2.kind = .eof := by rw [source.scan_spec.1]
    obtain ⟨new, hnew, hexcused⟩ :=
      Parser.clean_of_program ⟨(source.start_in hitems).cursor, heof⟩ hprogram
    rw [hnew]
    exact hexcused.append Parser.excused_nil
  · cases htokens

/-- Whether a program is accepted although an attempt was given up behind a token. -/
def swallows (source : Source) : Bool :=
  match source.tokens with
  | .error _ => false
  | .ok (tokens, eof) =>
    match Parser.program Keyword.suggest (Parser.start tokens eof) with
    | .error .. => false
    | .ok _ s => s.abandoned.any fun x => 0 < x.passed

theorem of_swallows (h : source.swallows = true) :
    ∃ tree tokens eof s, source.tokens = .ok (tokens, eof) ∧
      Parser.program Keyword.suggest (Parser.start tokens eof) = .ok tree s ∧
      ∃ x ∈ s.abandoned, 0 < x.passed := by
  unfold swallows at h
  split at h
  · cases h
  · next tokens eof htokens =>
    split at h
    · cases h
    · next tree s hprogram =>
      obtain ⟨x, hx, hpassed⟩ := List.any_eq_true.mp h
      exact ⟨tree, tokens, eof, s, htokens, hprogram, x, hx, of_decide_eq_true hpassed⟩

/-- A conditional, and on the next line a pair of brackets. -/
def bracketed : Source := ⟨"<test>", "if 1:\n()"⟩

theorem swallows_bracketed : bracketed.swallows = true := by decide +kernel

theorem abandoned_at_hinges_bracketed :
    ∃ tree, bracketed.parse = .ok tree ∧ ∃ tokens eof s, bracketed.tokens = .ok (tokens, eof) ∧
      Parser.program Keyword.suggest (Parser.start tokens eof) = .ok tree s ∧
      Parser.Excused s.abandoned := by
  obtain ⟨tree, tokens, eof, s, htokens, hprogram, _⟩ := of_swallows swallows_bracketed
  have hparse := parse_eq_ok.mpr ⟨tokens, eof, s, htokens, hprogram⟩
  exact ⟨tree, hparse, abandoned_at_hinges hparse⟩

/-- Not all that was given up in a program which is accepted failed at its first token:
the brackets are no expression, and are read again as a call of the conditional. -/
theorem brackets_read_again : ¬ ∀ (source : Source) (tree : Node Span) (tokens : List Token)
    (eof : Token) (s : ParseState), source.parse = .ok tree →
      source.tokens = .ok (tokens, eof) →
      Parser.program Keyword.suggest (Parser.start tokens eof) = .ok tree s →
      ∀ x ∈ s.abandoned, x.passed = 0 := by
  intro hall
  obtain ⟨tree, tokens, eof, s, htokens, hprogram, x, hx, hpassed⟩ :=
    of_swallows swallows_bracketed
  have hparse := parse_eq_ok.mpr ⟨tokens, eof, s, htokens, hprogram⟩
  have hzero := hall bracketed tree tokens eof s hparse htokens hprogram x hx
  omega

end Source

end Script
