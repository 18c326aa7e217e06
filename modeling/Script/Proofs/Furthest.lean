import Script.Proofs.Footing

/-! The furthest error wins.

A parser keeps all errors that it raises, those of attempts that it gives up too, and beside
them the one that starts furthest into the text, of several there the first. Each new error
is compared with that one alone. So whatever has happened, it is the winner of all errors so
far (`Recorded`), and what a parser fails with is the winner then.

A program fails in one place only: a sequence of statements never fails, it ends, and then
a token that is left over is one more error. Main statement, `Source.furthest_error_wins`. -/
namespace Script

namespace Parser

/-- Of the errors in a log, in the order in which they were raised: the first of those that
start furthest into the text. -/
def FirstFurthest (log : List Failure) (winner : Failure) : Prop :=
  ∃ before after, log = before ++ winner :: after ∧
    (∀ f ∈ before, f.span.start.index < winner.span.start.index) ∧
    ∀ f ∈ after, f.span.start.index ≤ winner.span.start.index

variable {log : List Failure} {winner failure : Failure}

theorem FirstFurthest.mem (h : FirstFurthest log winner) : winner ∈ log := by
  obtain ⟨before, after, rfl, _⟩ := h
  simp

theorem FirstFurthest.le (h : FirstFurthest log winner) {f : Failure} (hf : f ∈ log) :
    f.span.start.index ≤ winner.span.start.index := by
  obtain ⟨before, after, rfl, hbefore, hafter⟩ := h
  simp only [List.mem_append, List.mem_cons] at hf
  rcases hf with hf | rfl | hf
  · have hlt := hbefore f hf
    omega
  · omega
  · exact hafter f hf

theorem FirstFurthest.behind (h : FirstFurthest log winner)
    (hle : failure.span.start.index ≤ winner.span.start.index) :
    FirstFurthest (log ++ [failure]) winner := by
  obtain ⟨before, after, rfl, hbefore, hafter⟩ := h
  refine ⟨before, after ++ [failure], by simp, hbefore, ?_⟩
  intro f hf
  simp only [List.mem_append, List.mem_singleton] at hf
  rcases hf with hf | rfl
  · exact hafter f hf
  · exact hle

theorem FirstFurthest.beyond (h : ∀ f ∈ log, f.span.start.index < failure.span.start.index) :
    FirstFurthest (log ++ [failure]) failure :=
  ⟨log, [], rfl, h, by simp⟩

/-- The winner of an empty log is none. -/
def Winner (log : List Failure) : Option Failure → Prop
  | none => log = []
  | some winner => FirstFurthest log winner

theorem Winner.further {furthest : Option Failure} (h : Winner log furthest)
    (failure : Failure) : FirstFurthest (log ++ [failure]) (further furthest failure) := by
  cases furthest with
  | none =>
    rw [show log = [] from h]
    exact .beyond (by simp)
  | some winner =>
    show FirstFurthest _ (if failure.span.start.index ≤ winner.span.start.index then winner
      else failure)
    split
    · next hle => exact FirstFurthest.behind h hle
    · next hlt =>
      apply FirstFurthest.beyond
      intro f hf
      have hle := FirstFurthest.le h hf
      omega

/-- The furthest error is the winner of all that were raised. -/
structure Recorded (s : ParseState) : Prop where
  eof : s.cursor.eof.kind = .eof
  kinds : ∀ f ∈ s.raised, f.fault.kind = .invalidSyntax
  winner : Winner s.raised.reverse s.furthest

theorem Recorded.note {s : ParseState} (h : Recorded s)
    (hkind : failure.fault.kind = .invalidSyntax) : Recorded (s.note failure) := by
  refine ⟨h.eof, List.forall_mem_cons.mpr ⟨hkind, h.kinds⟩, ?_⟩
  show FirstFurthest (failure :: s.raised).reverse _
  rw [List.reverse_cons]
  exact h.winner.further failure

theorem Recorded.pass {s : ParseState} (h : Recorded s) : Recorded s.pass := by
  refine ⟨?_, h.kinds, h.winner⟩
  rw [ParseState.pass, Cursor.eof_advance]
  exact h.eof

/-- A parser moves over tokens, or raises an error and fails with the winner. -/
def recording : Footing where
  begins := Recorded
  names := Recorded
  rests := Recorded
  fails f s := Recorded s ∧ s.furthest = some f
  names_of_begins h := h
  rests_of_names h := h
  eof h := h.eof
  mark h _ := h.pass
  operand h _ := h.pass
  word h _ _ := h.pass
  className h _ _ := h.pass.pass
  raise h hkind := ⟨h.note hkind, rfl⟩
  raiseAgain h hkind := ⟨h.1.note hkind, rfl⟩
  giveUp hs h := ⟨hs.eof, h.1.kinds, h.1.winner⟩

variable {hint : String → Option Keyword} {tokens : List Token} {eof : Token} {s t : ParseState}

/-- A program fails with the winner of all errors, and these are syntax errors. -/
theorem winner_of_program (heof : eof.kind = .eof)
    (h : program hint (start tokens eof) = .error failure s) :
    FirstFurthest s.raised.reverse failure ∧ ∀ f ∈ s.raised, f.fault.kind = .invalidSyntax := by
  have hstart : Recorded (start tokens eof) := ⟨heof, List.forall_mem_nil _, rfl⟩
  have hends := recording.ends_program hint hstart
  rw [h] at hends
  obtain ⟨hrecorded, hfurthest⟩ := hends
  have hwinner := hrecorded.winner
  rw [hfurthest] at hwinner
  exact ⟨hwinner, hrecorded.kinds⟩

theorem kind_of_program (heof : eof.kind = .eof)
    (h : program hint (start tokens eof) = .error failure s) :
    failure.fault.kind = .invalidSyntax := by
  obtain ⟨hwinner, hkinds⟩ := winner_of_program heof h
  exact hkinds failure (List.mem_reverse.mp hwinner.mem)

/-! ### Where a program fails -/

variable {α β : Type} {e : Parser (Node Span)}

/-- A parser that never fails. -/
def Succeeds (p : Parser α) : Prop := ∀ s, ∃ a t, p s = .ok a t

theorem Succeeds.bind {p : Parser α} {f : α → Parser β} (hp : Succeeds p)
    (hf : ∀ a, Succeeds (f a)) : Succeeds (p >>= f) := by
  intro s
  obtain ⟨a, t, hps⟩ := hp s
  obtain ⟨b, u, hfa⟩ := hf a t
  refine ⟨b, u, ?_⟩
  show EStateM.bind p f s = _
  rw [EStateM.bind, hps]
  exact hfa

theorem succeeds_pure (a : α) : Succeeds (pure a) := fun s => ⟨a, s, rfl⟩

theorem succeeds_attempt (p : Parser α) : Succeeds (attempt p) := by
  intro s
  unfold attempt
  cases p s with
  | ok a t => exact ⟨some a, t, rfl⟩
  | error f t => exact ⟨none, _, rfl⟩

theorem succeeds_statementsFrom (n : Nat) (items : List (Node Span)) :
    Succeeds (statementsFrom e n items) := by
  induction n generalizing items with
  | zero => exact succeeds_pure items
  | succ n ih =>
    refine Succeeds.bind (fun s => ⟨(), _, rfl⟩) fun _ => .bind (succeeds_attempt _) fun item => ?_
    cases item with
    | none => exact succeeds_pure items
    | some item =>
      refine Succeeds.bind (fun s => ⟨_, s, rfl⟩) fun b => ?_
      cases b with
      | true => exact ih _
      | false => exact succeeds_pure _

theorem succeeds_statements : Succeeds (statements e) :=
  .bind (fun s => ⟨_, s, rfl⟩) fun _ => .bind (fun s => ⟨_, s, rfl⟩) fun _ =>
    .bind (succeeds_statementsFrom _ []) fun _ => succeeds_pure _

/-- The error that the current token is for a program that could end before it. -/
def leftoverAt (c : Cursor) : Failure :=
  .ofText (leftover c.current.kind c.following.kind) c.current.span

/-- Behind its statements a program ends or fails. -/
theorem program_eq (hint : String → Option Keyword) (s : ParseState) : ∃ block u,
    program hint s =
      if u.cursor.current.kind.isEof then .ok block u else raise (leftoverAt u.cursor) u := by
  obtain ⟨block, u, hu⟩ := succeeds_statements (e := expression hint s.cursor.rest.length) s
  refine ⟨block, u, ?_⟩
  show EStateM.bind (statements _) _ s = _
  rw [EStateM.bind, hu]
  change (if u.cursor.current.kind.isEof = true then _ else _ : Parser (Node Span)) u = _
  split <;> rfl

/-- A program fails with the last error that was raised, at a token that is left over. -/
theorem raised_of_program (h : program hint s = .error failure t) :
    t.cursor.current.kind.isEof = false ∧ t.raised.head? = some (leftoverAt t.cursor) := by
  obtain ⟨block, u, hu⟩ := program_eq hint s
  rw [hu] at h
  split at h
  · cases h
  · next heof =>
    cases h
    exact ⟨by simpa using heof, rfl⟩

/-- A program ends at the end token. -/
theorem isEof_of_program {tree : Node Span} (h : program hint s = .ok tree t) :
    t.cursor.current.kind.isEof = true := by
  obtain ⟨block, u, hu⟩ := program_eq hint s
  rw [hu] at h
  split at h
  · next heof =>
    cases h
    exact heof
  · cases h

end Parser

namespace Source

variable {source : Source} {tokens : List Token} {eof : Token}

theorem eof_kind (h : source.tokens = .ok (tokens, eof)) : eof.kind = .eof := by
  rcases source.tokens_cases with ⟨ts, hts, _⟩ | ⟨f, hts, _⟩ <;> rw [hts] at h
  · cases h
    rw [source.scan_spec.1]
  · cases h

theorem parse_of_tokens (h : source.tokens = .ok (tokens, eof)) :
    source.parse = parseTokens Keyword.suggest tokens eof := by
  show (source.tokens >>= _) = _
  rw [h]
  rfl

/-- **The furthest error wins.** Where a text has all its tokens but is no program, the error
that is reported is, of all syntax errors that were raised on the way, the first of those
that start furthest into the text; the last of them is that of the token that was left
over. -/
theorem furthest_error_wins {failure : Failure} (htokens : source.tokens = .ok (tokens, eof))
    (h : source.parse = .error failure) :
    ∃ s, Parser.program Keyword.suggest (Parser.start tokens eof) = .error failure s ∧
      (∀ f ∈ s.raised, f.fault.kind = .invalidSyntax) ∧
      s.cursor.current.kind.isEof = false ∧
      s.raised.head? = some (Parser.leftoverAt s.cursor) ∧
      Parser.FirstFurthest s.raised.reverse failure := by
  rw [parse_of_tokens htokens] at h
  unfold parseTokens at h
  cases hprogram : Parser.program Keyword.suggest (Parser.start tokens eof) with
  | ok tree s =>
    rw [hprogram] at h
    cases h
  | error f s =>
    rw [hprogram] at h
    cases h
    obtain ⟨hleft, hlast⟩ := Parser.raised_of_program hprogram
    obtain ⟨hwinner, hkinds⟩ := Parser.winner_of_program (eof_kind htokens) hprogram
    exact ⟨s, rfl, hkinds, hleft, hlast, hwinner⟩

/-- A declaration without a value. -/
def valueless : Source := ⟨"<test>", "var x : )"⟩

/-- Whether a source has all its tokens, but fails at a place. -/
def failsAt (source : Source) (index : Nat) : Bool :=
  match source.tokens, source.parse with
  | .ok _, .error failure => failure.span.start.index == index
  | _, _ => false

theorem furthest_error_wins_valueless :
    ∃ tokens eof failure s, failure.span.start.index = 8 ∧
      Parser.program Keyword.suggest (Parser.start tokens eof) = .error failure s ∧
      Parser.FirstFurthest s.raised.reverse failure := by
  have h : valueless.failsAt 8 = true := by decide +kernel
  unfold failsAt at h
  split at h
  · next r failure htokens hparse =>
    obtain ⟨s, hprogram, _, _, _, hwinner⟩ := furthest_error_wins htokens hparse
    exact ⟨r.1, r.2, failure, s, by simpa using h, hprogram, hwinner⟩
  · cases h

end Source

end Script
