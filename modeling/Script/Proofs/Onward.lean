import Mathlib.Logic.Function.Iterate
import Script.Proofs.Footing

/-! Parsers that go on to the end of the tokens and not beyond.

A parser ends at a place that is reached by passing tokens from where it was called
(`Cursor.Onward`), also if it fails, though it may have gone back in between.

The loops of a parser are bounded by the number of tokens to come, and expressions may nest as
deep as that. `Together` compares a parser with one that has larger bounds: more tokens stand
behind the end token, which is what bounds are counted from, and what parses nested
expressions may nest deeper. The two do the same. So no bound is ever met, as each round of a
loop and each nested expression is behind a token that was passed; and nothing behind the end
token is ever looked at. -/
namespace Script

variable {α β : Type}

namespace Cursor

variable {c d : Cursor} {extra : List Token}

/-- With more tokens behind the last. -/
def pad (c : Cursor) (extra : List Token) : Cursor := { c with rest := c.rest ++ extra }

/-- Where passing tokens leads to. -/
def Onward (c d : Cursor) : Prop := ∃ k ≤ c.rest.length, d = advance^[k] c

theorem rest_advance (c : Cursor) : c.advance.rest = c.rest.tail := by
  unfold advance
  split <;> simp_all

theorem rest_iterate (k : Nat) (c : Cursor) : (advance^[k] c).rest = c.rest.drop k := by
  induction k generalizing c with
  | zero => rfl
  | succ k ih => rw [Function.iterate_succ_apply, ih, rest_advance, List.drop_tail]

theorem eof_iterate (k : Nat) (c : Cursor) : (advance^[k] c).eof = c.eof := by
  induction k generalizing c with
  | zero => rfl
  | succ k ih => rw [Function.iterate_succ_apply, ih, eof_advance]

theorem Onward.refl : Onward c c := ⟨0, Nat.zero_le _, rfl⟩

theorem Onward.trans {e : Cursor} (h : Onward c d) (h' : Onward d e) : Onward c e := by
  obtain ⟨k, hk, rfl⟩ := h
  obtain ⟨l, hl, rfl⟩ := h'
  rw [rest_iterate, List.length_drop] at hl
  exact ⟨l + k, by omega, (Function.iterate_add_apply advance l k c).symm⟩

theorem onward_advance (c : Cursor) : Onward c c.advance := by
  cases hr : c.rest with
  | nil => exact ⟨0, Nat.zero_le _, by simp [advance, hr]⟩
  | cons t ts => exact ⟨1, by simp [hr], rfl⟩

theorem onward_skipNewlines (n : Nat) (c : Cursor) : Onward c (c.skipNewlines n) := by
  induction n generalizing c with
  | zero => exact .refl
  | succ n ih =>
    unfold skipNewlines
    split
    · exact (onward_advance c).trans (ih _)
    · exact .refl

theorem Onward.length_le (h : Onward c d) : d.rest.length ≤ c.rest.length := by
  obtain ⟨k, _, rfl⟩ := h
  rw [rest_iterate, List.length_drop]
  omega

theorem Onward.eof_eq (h : Onward c d) : d.eof = c.eof := by
  obtain ⟨k, _, rfl⟩ := h
  exact eof_iterate k c

section Pad

variable (h : extra = [] ∨ extra.head? = some c.eof)
include h

theorem head?_getD_eof : extra.head?.getD c.eof = c.eof := by
  rcases h with rfl | h
  · rfl
  · rw [h]
    rfl

theorem current_pad : (c.pad extra).current = c.current := by
  unfold current pad
  cases hr : c.rest with
  | nil => exact head?_getD_eof h
  | cons t ts => rfl

end Pad

variable (hr : c.rest ≠ [])
include hr

theorem following_pad (h : extra = [] ∨ extra.head? = some c.eof) :
    (c.pad extra).following = c.following := by
  obtain ⟨t, ts, hts⟩ := List.exists_cons_of_ne_nil hr
  unfold following pad
  cases ts with
  | nil =>
    rw [hts]
    exact head?_getD_eof h
  | cons u us =>
    rw [hts]
    rfl

theorem advance_pad : (c.pad extra).advance = c.advance.pad extra := by
  obtain ⟨t, ts, hts⟩ := List.exists_cons_of_ne_nil hr
  simp [advance, pad, hts]

end Cursor

/-- A place in a sequence of tokens, and what may be put behind the last. If it is not nothing
it starts with the end token. -/
structure Extension where
  first : Cursor
  extra : List Token
  eof : first.eof.kind = .eof
  starts : extra = [] ∨ extra.head? = some first.eof

namespace ParseState

/-- The number of tokens to come. -/
def left (s : ParseState) : Nat := s.cursor.rest.length

/-- With more tokens behind the last. -/
def pad (s : ParseState) (extra : List Token) : ParseState :=
  { s with cursor := s.cursor.pad extra }

/-- Where passing tokens leads to. -/
def Onward (s t : ParseState) : Prop := s.cursor.Onward t.cursor

variable {s t : ParseState} {X : Extension} {N : Nat}

theorem pad_nil (s : ParseState) : s.pad [] = s := by
  unfold pad Cursor.pad
  rw [List.append_nil]

theorem left_le_pad (s : ParseState) (extra : List Token) : s.left ≤ (s.pad extra).left := by
  show s.cursor.rest.length ≤ (s.cursor.rest ++ extra).length
  rw [List.length_append]
  exact Nat.le_add_right ..

theorem Onward.left_le (h : s.Onward t) : t.left ≤ s.left := Cursor.Onward.length_le h

/-- Fewer than `N` tokens are to come. -/
structure Room (X : Extension) (N : Nat) (s : ParseState) : Prop where
  left : s.left < N
  onward : X.first.Onward s.cursor

theorem Room.eof (hs : s.Room X N) : s.cursor.eof.kind = .eof := by
  rw [hs.onward.eof_eq]
  exact X.eof

theorem Room.extra (hs : s.Room X N) : X.extra = [] ∨ X.extra.head? = some s.cursor.eof := by
  rw [hs.onward.eof_eq]
  exact X.starts

theorem Room.later (hs : s.Room X N) (h : s.Onward t) : t.Room X N :=
  ⟨Nat.lt_of_le_of_lt h.left_le hs.left, hs.onward.trans h⟩

theorem Room.wider (hs : s.Room X N) : s.Room X (N + 1) :=
  ⟨Nat.lt_succ_of_lt hs.left, hs.onward⟩

theorem Room.current_pad (hs : s.Room X N) :
    (s.pad X.extra).cursor.current = s.cursor.current := Cursor.current_pad hs.extra

/-- Where no tokens are to come there is the end token. -/
theorem Room.eof_of_left (hs : s.Room X N) (h : s.left ≤ 0) : s.cursor.current.kind = .eof := by
  have hrest : s.cursor.rest = [] := List.eq_nil_of_length_eq_zero (Nat.le_zero.mp h)
  rw [Cursor.current, hrest]
  exact hs.eof

theorem onward_pass (s : ParseState) : s.Onward s.pass := Cursor.onward_advance s.cursor

theorem onward_skip (s : ParseState) (n : Nat) : s.Onward (s.skip n) :=
  Cursor.onward_skipNewlines n s.cursor

section Inside

variable (hs : s.Room X N) (hne : s.cursor.current.kind ≠ .eof)
include hs hne

theorem Room.rest_ne_nil : s.cursor.rest ≠ [] := by
  rw [rest_eq hs.eof hne]
  exact List.cons_ne_nil _ _

theorem Room.left_pass : s.pass.left + 1 = s.left := by
  unfold ParseState.left
  rw [rest_eq hs.eof hne, List.length_cons]

theorem Room.pad_pass : (s.pad X.extra).pass = s.pass.pad X.extra := by
  unfold pass pad
  rw [Cursor.advance_pad (hs.rest_ne_nil hne)]

end Inside

/-- Behind a token there is room for one less. -/
theorem Room.pass (hs : s.Room X (N + 1)) (hne : s.cursor.current.kind ≠ .eof) :
    s.pass.Room X N := by
  have hleft := hs.left_pass hne
  have hlt := hs.left
  exact ⟨by omega, (hs.later (onward_pass s)).onward⟩

theorem skip_succ (s : ParseState) (n : Nat) :
    s.skip (n + 1) = if s.cursor.current.kind.isNewline then s.pass.skip n else s := by
  unfold skip
  rw [Cursor.skipNewlines]
  split <;> rfl

/-- Line breaks end with the tokens, so no bound on them is ever met. -/
theorem Room.skip_pad (hs : s.Room X N) {n n' : Nat} (hn : s.left ≤ n) (hn' : s.left ≤ n') :
    (s.pad X.extra).skip n' = (s.skip n).pad X.extra := by
  induction n generalizing s n' with
  | zero =>
    cases n' with
    | zero => rfl
    | succ n' =>
      rw [skip_succ, hs.current_pad, hs.eof_of_left hn]
      rfl
  | succ n ih =>
    by_cases hnewline : s.cursor.current.kind.isNewline = true
    · have hne := TokenKind.ne_eof_of_isNewline hnewline
      have hleft := hs.left_pass hne
      have hn : s.pass.left ≤ n := by omega
      obtain ⟨k, rfl⟩ : ∃ k, n' = k + 1 := ⟨n' - 1, by omega⟩
      have hn' : s.pass.left ≤ k := by omega
      rw [skip_succ, skip_succ, hs.current_pad, if_pos hnewline, if_pos hnewline, hs.pad_pass hne,
        ih (hs.later (onward_pass s)) hn hn']
    · rw [skip_succ, if_neg hnewline]
      cases n' with
      | zero => rfl
      | succ n' => rw [skip_succ, hs.current_pad, if_neg hnewline]

end ParseState

open ParseState (Room)

namespace Parser

theorem current_bind (f : Token → Parser β) (s : ParseState) :
    (current >>= f) s = f s.cursor.current s := rfl

/-- A result with more tokens behind the last. -/
def padded (extra : List Token) :
    EStateM.Result Failure ParseState α → EStateM.Result Failure ParseState α
  | .ok a t => .ok a (t.pad extra)
  | .error f t => .error f (t.pad extra)

/-- However it ends, a parser has gone onward, and `post` holds where it succeeds. -/
def EndsOnward (s : ParseState) (post : ParseState → Prop) :
    EStateM.Result Failure ParseState α → Prop
  | .ok _ t => s.Onward t ∧ post t
  | .error _ t => s.Onward t

theorem EndsOnward.before {s t : ParseState} {post : ParseState → Prop}
    {r : EStateM.Result Failure ParseState α} (h : EndsOnward t post r) (ho : s.Onward t) :
    EndsOnward s post r := by
  cases r with
  | ok a u => exact ⟨ho.trans h.1, h.2⟩
  | error f u => exact ho.trans h

/-- From `s` the first parser goes onward, and with more tokens behind the last the second does
the same. -/
def Together (X : Extension) (s : ParseState) (p q : Parser α) (post : ParseState → Prop) :
    Prop :=
  q (s.pad X.extra) = padded X.extra (p s) ∧ EndsOnward s post (p s)

/-- Anywhere onward. -/
abbrev Steadily (X : Extension) (s : ParseState) (p q : Parser α) : Prop :=
  Together X s p q fun _ => True

/-- Behind a token at least, if it succeeds. -/
abbrev Advances (X : Extension) (s : ParseState) (p q : Parser α) : Prop :=
  Together X s p q fun t => t.left < s.left

variable {X : Extension} {s : ParseState} {N : Nat} {P R : ParseState → Prop}

namespace Together

theorem bind {p q : Parser α} {f g : α → Parser β} (hp : Together X s p q P)
    (hf : ∀ a t, s.Onward t → P t → Together X t (f a) (g a) R) :
    Together X s (p >>= f) (q >>= g) R := by
  show Together X s (EStateM.bind p f) (EStateM.bind q g) R
  obtain ⟨hsame, hgoes⟩ := hp
  unfold Together EStateM.bind
  rw [hsame]
  cases hps : p s with
  | ok a t =>
    rw [hps] at hgoes
    obtain ⟨hsame', hgoes'⟩ := hf a t hgoes.1 hgoes.2
    exact ⟨hsame', hgoes'.before hgoes.1⟩
  | error f t =>
    rw [hps] at hgoes
    exact ⟨rfl, hgoes⟩

theorem mono {p q : Parser α} (h : Together X s p q P) (hR : ∀ t, s.Onward t → P t → R t) :
    Together X s p q R := by
  obtain ⟨hsame, hgoes⟩ := h
  refine ⟨hsame, ?_⟩
  cases hps : p s <;> rw [hps] at hgoes
  · exact ⟨hgoes.1, hR _ hgoes.1 hgoes.2⟩
  · exact hgoes

theorem steadily {p q : Parser α} (h : Together X s p q P) : Steadily X s p q :=
  h.mono fun _ _ _ => trivial

/-- What comes behind a part that has advanced need not advance. -/
theorem first {p q : Parser α} {f g : α → Parser β} (hp : Advances X s p q)
    (hf : ∀ a t, s.Onward t → t.left < s.left → Steadily X t (f a) (g a)) :
    Advances X s (p >>= f) (q >>= g) :=
  hp.bind fun a t ho hlt => (hf a t ho hlt).mono fun _ ho' _ =>
    Nat.lt_of_le_of_lt ho'.left_le hlt

theorem pure {a : α} (h : R s) : Together X s (Pure.pure a) (Pure.pure a) R :=
  ⟨rfl, .refl, h⟩

/-- A result that is only wrapped up. -/
theorem finish {p q : Parser α} (h : Together X s p q R) {f : α → β} :
    Together X s (do return f (← p)) (do return f (← q)) R :=
  h.bind fun _ _ _ ht => pure ht

/-- What is counted from the tokens to come is at least their number. -/
theorem remaining {f g : Nat → Parser β}
    (h : ∀ n n', s.left ≤ n → s.left ≤ n' → Together X s (f n) (g n') R) :
    Together X s (remaining >>= f) (Parser.remaining >>= g) R :=
  h s.left (s.pad X.extra).left (Nat.le_refl _) (s.left_le_pad _)

section Looking

variable (hs : s.Room X N)
include hs

theorem current {f g : Token → Parser β}
    (h : Together X s (f s.cursor.current) (g s.cursor.current) R) :
    Together X s (current >>= f) (Parser.current >>= g) R := by
  refine ⟨?_, h.2⟩
  show g (s.pad X.extra).cursor.current (s.pad X.extra) = _
  rw [hs.current_pad]
  exact h.1

/-- What follows the end token is nothing to go by. -/
theorem following {f g : Token → Parser β}
    (h : Together X s (f s.cursor.following) (g s.cursor.following) R)
    (heof : s.cursor.current.kind = .eof → ∀ next, g next = g s.cursor.following) :
    Together X s (following >>= f) (Parser.following >>= g) R := by
  have hsame : g (s.pad X.extra).cursor.following = g s.cursor.following := by
    by_cases hcurrent : s.cursor.current.kind = .eof
    · exact heof hcurrent _
    · exact congrArg g (Cursor.following_pad (hs.rest_ne_nil hcurrent) hs.extra)
  refine ⟨?_, h.2⟩
  show g (s.pad X.extra).cursor.following (s.pad X.extra) = _
  rw [hsame]
  exact h.1

theorem atSymbol {symbol : Symbol} {f g : Bool → Parser β}
    (h : ∀ b, s.cursor.current.kind.isSymbol symbol = b → Together X s (f b) (g b) R) :
    Together X s (atSymbol symbol >>= f) (Parser.atSymbol symbol >>= g) R := by
  refine ⟨?_, (h _ rfl).2⟩
  show g ((s.pad X.extra).cursor.current.kind.isSymbol symbol) (s.pad X.extra) = _
  rw [hs.current_pad]
  exact (h _ rfl).1

theorem atKeyword {keyword : Keyword} {f g : Bool → Parser β}
    (h : ∀ b, s.cursor.current.kind.isKeyword keyword = b → Together X s (f b) (g b) R) :
    Together X s (atKeyword keyword >>= f) (Parser.atKeyword keyword >>= g) R := by
  refine ⟨?_, (h _ rfl).2⟩
  show g ((s.pad X.extra).cursor.current.kind.isKeyword keyword) (s.pad X.extra) = _
  rw [hs.current_pad]
  exact (h _ rfl).1

theorem atNewline {f g : Bool → Parser β}
    (h : ∀ b, s.cursor.current.kind.isNewline = b → Together X s (f b) (g b) R) :
    Together X s (atNewline >>= f) (Parser.atNewline >>= g) R := by
  refine ⟨?_, (h _ rfl).2⟩
  show g ((s.pad X.extra).cursor.current.kind.isNewline) (s.pad X.extra) = _
  rw [hs.current_pad]
  exact (h _ rfl).1

theorem spanFrom {start : Position} {f g : Span → Parser β}
    (h : ∀ span, Together X s (f span) (g span) R) :
    Together X s (spanFrom start >>= f) (Parser.spanFrom start >>= g) R := by
  have hend : (s.pad X.extra).cursor.previousEnd = s.cursor.previousEnd := by
    unfold Cursor.previousEnd
    rw [hs.current_pad]
    rfl
  refine ⟨?_, (h _).2⟩
  show g (if (s.pad X.extra).cursor.previousEnd.index < start.index then _ else _)
    (s.pad X.extra) = _
  rw [hend]
  exact (h _).1

/-- A result that is tagged with a span. -/
theorem tagged {p q : Parser α} (h : Together X s p q R) {start : Position}
    {make : α → Span → β} : Together X s (do let a ← p; return make a (← Parser.spanFrom start))
      (do let a ← q; return make a (← Parser.spanFrom start)) R :=
  h.bind fun _ _ ho ht => spanFrom (hs.later ho) fun _ => pure ht

theorem skipNewlines {f g : Unit → Parser β}
    (h : Together X (s.skip s.left) (f ()) (g ()) R) :
    Together X s (skipNewlines >>= f) (Parser.skipNewlines >>= g) R := by
  refine ⟨?_, ?_⟩
  · show g () ((s.pad X.extra).skip (s.pad X.extra).left) = padded X.extra (f () (s.skip s.left))
    rw [hs.skip_pad (Nat.le_refl _) (s.left_le_pad _)]
    exact h.1
  · exact h.2.before (s.onward_skip s.left)

/-- The current token is passed, and is not the end token. -/
theorem advance (hne : s.cursor.current.kind ≠ .eof) {f g : Token → Parser β}
    (h : Together X s.pass (f s.cursor.current) (g s.cursor.current) R) :
    Together X s (advance >>= f) (Parser.advance >>= g) R := by
  refine ⟨?_, ?_⟩
  · show g (s.pad X.extra).cursor.current (s.pad X.extra).pass =
      padded X.extra (f s.cursor.current s.pass)
    rw [hs.current_pad, hs.pad_pass hne]
    exact h.1
  · exact h.2.before s.onward_pass

/-- Whatever comes behind the current token. -/
theorem behind (hne : s.cursor.current.kind ≠ .eof) {f g : Token → Parser β}
    (h : Steadily X s.pass (f s.cursor.current) (g s.cursor.current)) :
    Advances X s (Parser.advance >>= f) (Parser.advance >>= g) := by
  refine advance hs hne (h.mono fun t ho _ => ?_)
  have hleft := hs.left_pass hne
  have hle := ho.left_le
  omega

omit hs

theorem raise (failure : Failure) :
    Together X s (raise failure : Parser α) (Parser.raise failure) R := ⟨rfl, .refl⟩

/-- Nothing comes behind a failure. -/
theorem raise_bind (failure : Failure) {f g : α → Parser β} :
    Together X s (Parser.raise failure >>= f) (Parser.raise failure >>= g) R := ⟨rfl, .refl⟩

include hs

theorem raiseHere (what : Expectation) :
    Together X s (raiseHere what : Parser α) (Parser.raiseHere what) R :=
  current hs (raise _)

theorem raiseHere_bind (what : Expectation) {f g : α → Parser β} :
    Together X s (Parser.raiseHere what >>= f) (Parser.raiseHere what >>= g) R :=
  bind (P := fun _ => False) (raiseHere hs what) fun _ _ _ h => h.elim

theorem orExpected {p q : Parser α} (h : Together X s p q R) (what : Expectation) :
    Together X s (orExpected p what) (Parser.orExpected q what) R := by
  obtain ⟨hsame, hgoes⟩ := h
  unfold Together Parser.orExpected
  rw [hsame]
  cases hps : p s with
  | ok a t =>
    rw [hps] at hgoes
    exact ⟨rfl, hgoes⟩
  | error f t =>
    rw [hps] at hgoes
    obtain ⟨hsame', hgoes'⟩ := raiseHere (α := α) (R := R) (hs.later hgoes) what
    exact ⟨hsame', hgoes'.before hgoes⟩

theorem expect (symbol : Symbol) (what : Expectation) :
    Advances X s (expect symbol what) (Parser.expect symbol what) := by
  refine atSymbol hs fun b hb => ?_
  split
  · next h => exact behind hs (TokenKind.ne_eof_of_isSymbol (hb.trans h)) (pure trivial)
  · exact raiseHere hs what

theorem expectKeyword (keyword : Keyword) :
    Advances X s (expectKeyword keyword) (Parser.expectKeyword keyword) := by
  refine atKeyword hs fun b hb => ?_
  split
  · next h => exact behind hs (TokenKind.ne_eof_of_isKeyword (hb.trans h)) (pure trivial)
  · exact raiseHere hs _

theorem expectIdent (what : Expectation) :
    Advances X s (expectIdent what) (Parser.expectIdent what) := by
  refine current hs ?_
  split
  · next h => exact behind hs (by rw [h]; nofun) (pure trivial)
  · exact raiseHere hs what

/-- An attempt that is given up passes no token. -/
theorem attempt {p q : Parser α} {f g : Option α → Parser β} (hp : Together X s p q P)
    (hsome : ∀ a t, s.Onward t → P t → Together X t (f (some a)) (g (some a)) R)
    (hnone : ∀ t, s.Onward t → Together X t (f none) (g none) R) :
    Together X s (attempt p >>= f) (Parser.attempt q >>= g) R := by
  obtain ⟨hsame, hgoes⟩ := hp
  show Together X s (EStateM.bind (Parser.attempt p) f) (EStateM.bind (Parser.attempt q) g) R
  unfold Together EStateM.bind Parser.attempt
  rw [hsame]
  cases hps : p s with
  | ok a t =>
    rw [hps] at hgoes
    obtain ⟨hsame', hgoes'⟩ := hsome a t hgoes.1 hgoes.2
    exact ⟨hsame', hgoes'.before hgoes.1⟩
  | error failure t =>
    rw [hps] at hgoes
    let inside := t.abandoned.length - s.abandoned.length
    let back := t.backTo s (⟨s.cursor.current, s.left - t.left, inside⟩ :: t.abandoned)
    obtain ⟨hsame', hgoes'⟩ := hnone back .refl
    refine ⟨?_, hgoes'.before .refl⟩
    have hpassed : (s.pad X.extra).left - (t.pad X.extra).left = s.left - t.left := by
      show (s.cursor.rest ++ X.extra).length - (t.cursor.rest ++ X.extra).length = _
      rw [List.length_append, List.length_append, Nat.add_sub_add_right]
      rfl
    have hback : (t.pad X.extra).backTo (s.pad X.extra) (⟨(s.pad X.extra).cursor.current,
        (s.pad X.extra).left - (t.pad X.extra).left, inside⟩ :: t.abandoned) =
          back.pad X.extra := by
      rw [hs.current_pad, hpassed]
      rfl
    rw [← hback] at hsame'
    exact hsame'

end Looking

/-- A parser that does nothing but yield a value. -/
theorem still {p q : Parser α} {a : α} (hp : p s = .ok a s)
    (hq : q (s.pad X.extra) = .ok a (s.pad X.extra)) (h : R s) : Together X s p q R := by
  unfold Together
  rw [hp, hq]
  exact ⟨rfl, .refl, h⟩

theorem congr {p p' q q' : Parser α} (hp : p s = p' s) (hq : q (s.pad X.extra) = q' (s.pad X.extra))
    (h : Together X s p' q' R) : Together X s p q R := by
  unfold Together
  rw [hp, hq]
  exact h

/-- With nothing more behind the last token. -/
theorem eq_of_nil {p q : Parser α} (h : Together X s p q R) (hX : X.extra = []) : q s = p s := by
  have hsame := h.1
  rw [hX, s.pad_nil] at hsame
  rw [hsame]
  cases p s with
  | ok a t => exact congrArg (EStateM.Result.ok a) t.pad_nil
  | error f t => exact congrArg (EStateM.Result.error f) t.pad_nil

theorem get {f g : ParseState → Parser β} (h : Together X s (f s) (g (s.pad X.extra)) R) :
    Together X s (MonadState.get >>= f) (MonadState.get >>= g) R := h

end Together

/-- Two parsers that advance together wherever fewer than `N` tokens are to come. -/
def Works (X : Extension) (N : Nat) (p q : Parser (Node Span)) : Prop :=
  ∀ s, s.Room X N → Advances X s p q

theorem works_zero (p q : Parser (Node Span)) : Works X 0 p q :=
  fun _ hs => absurd hs.left (Nat.not_lt_zero _)

theorem Works.narrow {p q : Parser (Node Span)} (h : Works X (N + 1) p q) :
    Works X N p q :=
  fun s hs => h s hs.wider

/-- A loop with any two bounds above the number of tokens to come: each round passes a
token. -/
theorem together_loop {loop loop' : Nat → α → Parser β}
    (hstep : ∀ {t k k'} x, t.Room X N →
      (∀ {u} y, t.Onward u → u.left < t.left → Steadily X u (loop k y) (loop' k' y)) →
      Steadily X t (loop (k + 1) x) (loop' (k' + 1) x))
    {n n' : Nat} (hs : s.Room X N) (hn : s.left < n) (hn' : s.left < n') (x : α) :
    Steadily X s (loop n x) (loop' n' x) := by
  induction n generalizing s n' x with
  | zero => exact absurd hn (Nat.not_lt_zero _)
  | succ n ih =>
    obtain ⟨k, rfl⟩ : ∃ k, n' = k + 1 := ⟨n' - 1, by omega⟩
    exact hstep x hs fun y ho hlt => ih (hs.later ho) (by omega) (by omega) y

/-- A loop with any two bounds that are at least the number of tokens to come: each round
passes a token, and at the end token there is no further round. -/
theorem together_rounds {loop loop' : Nat → α → Parser α}
    (hend : ∀ {t} n x, t.cursor.current.kind = .eof → loop n x t = .ok x t)
    (hend' : ∀ {t} n x, t.cursor.current.kind = .eof → loop' n x t = .ok x t)
    (hstep : ∀ {t k k'} x, t.Room X N → t.cursor.current.kind ≠ .eof →
      (∀ {u} y, t.Onward u → u.left < t.left → Steadily X u (loop k y) (loop' k' y)) →
      Steadily X t (loop (k + 1) x) (loop' (k' + 1) x))
    {n n' : Nat} (hs : s.Room X N) (hn : s.left ≤ n) (hn' : s.left ≤ n') (x : α) :
    Steadily X s (loop n x) (loop' n' x) := by
  induction n generalizing s n' x with
  | zero =>
    have hcurrent := hs.eof_of_left hn
    exact .still (hend 0 x hcurrent) (hend' n' x (by rwa [hs.current_pad])) trivial
  | succ n ih =>
    by_cases h : s.cursor.current.kind = .eof
    · exact .still (hend (n + 1) x h) (hend' n' x (by rwa [hs.current_pad])) trivial
    · have hleft := hs.left_pass h
      obtain ⟨k, rfl⟩ : ∃ k, n' = k + 1 := ⟨n' - 1, by omega⟩
      exact hstep x hs h fun y ho hlt => ih (hs.later ho) (by omega) (by omega) y

end Parser

end Script
