import Script.Parser.Expression

/-! What a parser does with the kinds of the tokens to come.

`Reads p ks ks' post`: where tokens of the kinds `ks` are to come, `p` succeeds,
leaves those of the kinds `ks'`, and its result has the property `post`. Where `p`
fails whatever the rest of its state is, it `Rejects` the kinds. Spans and the logs of
errors do not show in either, so both can be put together along the text of a parser:
one rule for sequencing, and one for each of the steps that parsers are made of. -/
namespace Script.Parser

variable {α β : Type} {ks ks' ks'' : List TokenKind} {k : TokenKind}

/-- The kind of the current token. -/
def headKind (ks : List TokenKind) : TokenKind := ks.head?.getD .eof

@[simp] theorem headKind_cons : headKind (k :: ks) = k := rfl

/-- Tokens of these kinds are to come. -/
structure At (s : ParseState) (ks : List TokenKind) : Prop where
  rest : s.cursor.rest.map Token.kind = ks
  eof : s.cursor.eof.kind = .eof

def Reads (p : Parser α) (ks ks' : List TokenKind) (post : α → Prop) : Prop :=
  ∀ s, At s ks → ∃ a s', p s = .ok a s' ∧ At s' ks' ∧ post a

def Rejects (p : Parser α) (ks : List TokenKind) : Prop :=
  ∀ s, At s ks → ∃ failure s', p s = .error failure s'

variable {p : Parser α} {P Q : α → Prop} {s : ParseState}

namespace At

theorem current_kind (h : At s ks) : s.cursor.current.kind = headKind ks := by
  rw [← h.rest]
  unfold Cursor.current
  cases s.cursor.rest with
  | nil => exact h.eof
  | cons t ts => rfl

theorem following_kind (h : At s ks) : s.cursor.following.kind = headKind ks.tail := by
  rw [← h.rest]
  unfold Cursor.following
  match s.cursor.rest with
  | [] => exact h.eof
  | [_] => exact h.eof
  | _ :: _ :: _ => rfl

theorem length_eq (h : At s ks) : s.cursor.rest.length = ks.length := by
  rw [← h.rest, List.length_map]

/-- Where the cursor is does not depend on the rest of the state. -/
theorem of_cursor {t : ParseState} (h : At s ks) (hc : t.cursor = s.cursor) : At t ks := by
  refine ⟨?_, ?_⟩ <;> rw [hc]
  · exact h.rest
  · exact h.eof

theorem advance (h : At s (k :: ks)) : At { s with cursor := s.cursor.advance } ks := by
  obtain ⟨hrest, heof⟩ := h
  unfold Cursor.advance
  cases hs : s.cursor.rest with
  | nil => simp [hs] at hrest
  | cons t ts =>
    simp only [hs, List.map_cons, List.cons.injEq] at hrest
    exact ⟨hrest.2, heof⟩

theorem skipNewlines (h : At s ks) (n : Nat) (hn : ks.length ≤ n) :
    At { s with cursor := s.cursor.skipNewlines n } (ks.dropWhile TokenKind.isNewline) := by
  induction n generalizing s ks with
  | zero =>
    have hnil : ks = [] := List.length_eq_zero_iff.mp (Nat.le_zero.mp hn)
    subst hnil
    exact h
  | succ n ih =>
    unfold Cursor.skipNewlines
    rw [h.current_kind]
    cases ks with
    | nil => exact h
    | cons k ks =>
      rw [headKind_cons, List.dropWhile_cons]
      split
      · exact ih h.advance (by simpa using hn)
      · exact h

end At

/-! ### Putting together -/

theorem Reads.weaken (h : Reads p ks ks' P) (hPQ : ∀ a, P a → Q a) : Reads p ks ks' Q := by
  intro s hs
  obtain ⟨a, s', hp, hs', ha⟩ := h s hs
  exact ⟨a, s', hp, hs', hPQ a ha⟩

theorem Reads.bind {f : α → Parser β} {R : β → Prop} (hp : Reads p ks ks' P)
    (hf : ∀ a, P a → Reads (f a) ks' ks'' R) : Reads (p >>= f) ks ks'' R := by
  intro s hs
  obtain ⟨a, s', heq, hs', ha⟩ := hp s hs
  obtain ⟨b, s'', heq', hs'', hb⟩ := hf a ha s' hs'
  refine ⟨b, s'', ?_, hs'', hb⟩
  show EStateM.bind p f s = _
  rw [EStateM.bind, heq]
  exact heq'

theorem Reads.pure (a : α) (h : P a) : Reads (Pure.pure a) ks ks P :=
  fun s hs => ⟨a, s, rfl, hs, h⟩

theorem Rejects.bind {f : α → Parser β} (hp : Rejects p ks) : Rejects (p >>= f) ks := by
  intro s hs
  obtain ⟨failure, s', heq⟩ := hp s hs
  refine ⟨failure, s', ?_⟩
  show EStateM.bind p f s = _
  rw [EStateM.bind, heq]

theorem Reads.bind_rejects {f : α → Parser β} (hp : Reads p ks ks' P)
    (hf : ∀ a, P a → Rejects (f a) ks') : Rejects (p >>= f) ks := by
  intro s hs
  obtain ⟨a, s', heq, hs', ha⟩ := hp s hs
  obtain ⟨failure, s'', heq'⟩ := hf a ha s' hs'
  refine ⟨failure, s'', ?_⟩
  show EStateM.bind p f s = _
  rw [EStateM.bind, heq]
  exact heq'

/-! ### The steps -/

theorem reads_get : Reads get ks ks fun s => At s ks := fun s hs => ⟨s, s, rfl, hs, hs⟩

theorem reads_current : Reads current ks ks fun t => t.kind = headKind ks :=
  fun _ hs => ⟨_, _, rfl, hs, hs.current_kind⟩

theorem reads_following : Reads following ks ks fun t => t.kind = headKind ks.tail :=
  fun _ hs => ⟨_, _, rfl, hs, hs.following_kind⟩

theorem reads_remaining : Reads remaining ks ks fun n => n = ks.length :=
  fun _ hs => ⟨_, _, rfl, hs, hs.length_eq⟩

theorem reads_advance : Reads advance (k :: ks) ks fun t => t.kind = k :=
  fun _ hs => ⟨_, _, rfl, hs.advance, hs.current_kind⟩

theorem reads_atSymbol (symbol : Symbol) :
    Reads (atSymbol symbol) ks ks fun b => b = (headKind ks).isSymbol symbol :=
  .bind reads_current fun _ ht => .pure _ (by rw [ht])

theorem reads_atKeyword (keyword : Keyword) :
    Reads (atKeyword keyword) ks ks fun b => b = (headKind ks).isKeyword keyword :=
  .bind reads_current fun _ ht => .pure _ (by rw [ht])

theorem reads_atNewline : Reads atNewline ks ks fun b => b = (headKind ks).isNewline :=
  .bind reads_current fun _ ht => .pure _ (by rw [ht])

theorem reads_skipNewlines :
    Reads skipNewlines ks (ks.dropWhile TokenKind.isNewline) fun _ => True :=
  fun _ hs => ⟨(), _, rfl, hs.skipNewlines _ (Nat.le_of_eq hs.length_eq.symm), trivial⟩

/-- The cursor is put back to where it was. -/
theorem reads_rewind (h : At s ks') :
    Reads (modify fun t => { t with cursor := s.cursor }) ks ks' fun _ => True :=
  fun _ _ => ⟨(), _, rfl, h.of_cursor rfl, trivial⟩

theorem reads_spanFrom (start : Position) : Reads (spanFrom start) ks ks fun _ => True :=
  .bind reads_get fun _ _ => .pure _ trivial

theorem rejects_raise (failure : Failure) : Rejects (raise failure : Parser α) ks :=
  fun _ _ => ⟨_, _, rfl⟩

theorem rejects_raiseHere (what : Expectation) : Rejects (raiseHere what : Parser α) ks :=
  Reads.bind_rejects reads_current fun _ _ => rejects_raise _

theorem reads_expect (symbol : Symbol) (what : Expectation) :
    Reads (expect symbol what) (.symbol symbol :: ks) ks fun _ => True := by
  refine .bind (reads_atSymbol symbol) fun b hb => ?_
  subst hb
  rw [headKind_cons, TokenKind.isSymbol, beq_self_eq_true, if_pos rfl]
  exact reads_advance.weaken fun _ _ => trivial

theorem reads_expectKeyword (keyword : Keyword) :
    Reads (expectKeyword keyword) (.keyword keyword :: ks) ks fun _ => True := by
  refine .bind (reads_atKeyword keyword) fun b hb => ?_
  subst hb
  rw [headKind_cons, TokenKind.isKeyword, beq_self_eq_true, if_pos rfl]
  exact reads_advance.weaken fun _ _ => trivial

theorem reads_expectIdent (name : String) (what : Expectation) :
    Reads (expectIdent what) (.ident name :: ks) ks fun r => r.1 = name := by
  refine .bind reads_current fun t ht => ?_
  rw [ht]
  exact .bind reads_advance fun _ _ => .pure _ rfl

theorem Reads.orExpected (h : Reads p ks ks' P) (what : Expectation) :
    Reads (orExpected p what) ks ks' P := by
  intro s hs
  obtain ⟨a, s', hp, hrest⟩ := h s hs
  refine ⟨a, s', ?_, hrest⟩
  unfold Parser.orExpected
  rw [hp]

theorem Rejects.orExpected (h : Rejects p ks) (what : Expectation) :
    Rejects (orExpected p what) ks := by
  intro s hs
  obtain ⟨failure, s', hp⟩ := h s hs
  unfold Parser.orExpected
  rw [hp]
  exact ⟨_, _, rfl⟩

theorem Reads.attempt (h : Reads p ks ks' P) :
    Reads (attempt p) ks ks' fun a => ∃ x, a = some x ∧ P x := by
  intro s hs
  obtain ⟨a, s', hp, hs', ha⟩ := h s hs
  refine ⟨some a, s', ?_, hs', a, rfl, ha⟩
  unfold Parser.attempt
  rw [hp]

/-- An attempt that fails has passed nothing. -/
theorem Rejects.attempt (h : Rejects p ks) : Reads (attempt p) ks ks fun a => a = none := by
  intro s hs
  obtain ⟨failure, s', hp⟩ := h s hs
  unfold Parser.attempt
  rw [hp]
  exact ⟨none, _, rfl, hs.of_cursor rfl, rfl⟩

end Script.Parser
