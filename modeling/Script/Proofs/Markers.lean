import Mathlib.Data.List.Chain
import Mathlib.Data.List.Induction
import Script.Proofs.Places

/-! Where markers stand.

A marker is put before a comment or a closing brace that follows a function without a blank
line between. `Source.pieces` is the cut of a text without any markers, and `Marked` says how
markers are put among its tokens by a rule that sees all tokens before. The lexer sees none of
them; it keeps a count of line breaks and a flag. Step by step these two stay what the history
says they are (`Lexer.Watches`), so a whole run marks by that rule.

Main statement, `Source.markers_placed`: there is no blank line if, since the last `func`, no
two line breaks have neither a word nor a number between them. Two line breaks around other
tokens, say around a string, count as a blank line although they are not adjacent
(`Source.markers_missed`). -/
namespace Script

/-! ### Pieces -/

/-- A piece of a text and where it stands. -/
structure Piece where
  lexeme : Lexeme
  taken : List Char
  span : Span
deriving Repr, Inhabited

namespace Piece

/-- The token of a piece, if it is one. -/
def tokens (p : Piece) : List Token :=
  match p.lexeme with
  | .token kind => [⟨kind, p.span⟩]
  | _ => []

/-- Whether a marker may stand before the piece: comments and closing braces. -/
def isWatched (p : Piece) : Bool :=
  match p.lexeme with
  | .comment => true
  | .token kind => kind.isSymbol .rightBrace
  | _ => false

/-- The marker at the start of a piece. -/
def marker (p : Piece) : Token := ⟨.noBlankLine, Span.point p.span.start⟩

/-- The first piece of a text that starts at `p`. -/
def first (p : Position) (c : Char) (cs : List Char) : Piece :=
  let s := Lexeme.scan c cs
  ⟨s.lexeme, s.taken, ⟨p, p.advanceAll s.taken⟩⟩

/-- Cuts at most `n` pieces off a text that starts at `p`. -/
def cut : Nat → Position → List Char → List Piece
  | 0, _, _ => []
  | _ + 1, _, [] => []
  | n + 1, p, c :: cs => first p c cs :: cut n (first p c cs).span.stop (Lexeme.scan c cs).rest

/-- All pieces of a text that starts at `p`. -/
def cutAll (p : Position) (cs : List Char) : List Piece := cut cs.length p cs

end Piece

/-- The pieces of a source. -/
def Source.pieces (source : Source) : List Piece :=
  Piece.cutAll (Position.start source) source.text.toList

/-! ### The rule -/

/-- `Marked due met pieces tokens`: the tokens are those of the pieces, with a marker directly
before each watched piece for which, after the kinds of tokens met so far, one is due, and no
others. -/
inductive Marked (due : List TokenKind → Prop) :
    List TokenKind → List Piece → List Token → Prop where
  | nil {met} : Marked due met [] []
  | marked {met p ps ts} : p.isWatched = true → due met →
      Marked due (met ++ p.tokens.map Token.kind) ps ts →
      Marked due met (p :: ps) (p.marker :: (p.tokens ++ ts))
  | bare {met p ps ts} : ¬ (p.isWatched = true ∧ due met) →
      Marked due (met ++ p.tokens.map Token.kind) ps ts →
      Marked due met (p :: ps) (p.tokens ++ ts)

/-- The rule leaves no choice. -/
theorem Marked.unique {due : List TokenKind → Prop} {met : List TokenKind} {ps : List Piece}
    {ts us : List Token} (h : Marked due met ps ts) (h' : Marked due met ps us) : ts = us := by
  induction h generalizing us with
  | nil =>
    cases h'
    rfl
  | marked hwatched hdue _ ih =>
    cases h' with
    | marked _ _ h' => rw [ih h']
    | bare hnot _ => exact absurd ⟨hwatched, hdue⟩ hnot
  | bare hnot _ ih =>
    cases h' with
    | marked hwatched hdue _ => exact absurd ⟨hwatched, hdue⟩ hnot
    | bare _ h' => rw [ih h']

/-- Where a marker is due, it is there. -/
theorem Marked.marker_mem {due : List TokenKind → Prop} {met : List TokenKind}
    {before behind : List Piece} {x : Piece} {ts : List Token}
    (h : Marked due met (before ++ x :: behind) ts) (hwatched : x.isWatched = true)
    (hdue : due (met ++ (before.flatMap Piece.tokens).map Token.kind)) : x.marker ∈ ts := by
  induction before generalizing met ts with
  | nil =>
    simp only [List.flatMap_nil, List.map_nil, List.append_nil] at hdue
    cases h with
    | marked => exact List.mem_cons_self
    | bare hnot _ => exact absurd ⟨hwatched, hdue⟩ hnot
  | cons y before ih =>
    rw [List.flatMap_cons, List.map_append, ← List.append_assoc] at hdue
    cases h with
    | marked _ _ hrest => exact List.mem_cons_of_mem _ (List.mem_append_right _ (ih hrest hdue))
    | bare _ hrest => exact List.mem_append_right _ (ih hrest hdue)

/-- `since` are the tokens behind the last `func` of `met`. -/
def SinceFunc (met since : List TokenKind) : Prop :=
  ∃ before, met = before ++ .keyword .func :: since ∧ ∀ k ∈ since, k.isKeyword .func = false

/-- A marker is due behind a `func`, unless the tokens since are separated from it. -/
def Due (separated : List TokenKind → Prop) (met : List TokenKind) : Prop :=
  ∃ since, SinceFunc met since ∧ ¬ separated since

/-- Two adjacent line breaks. -/
def HasBlankLine (since : List TokenKind) : Prop :=
  ∃ before behind, since = before ++ .newline :: .newline :: behind

/-- Whether a word or a number. -/
def TokenKind.isWord : TokenKind → Bool
  | .int _ | .float _ | .ident _ | .keyword _ => true
  | _ => false

/-- Two line breaks with neither a word nor a number between them. -/
def BreaksMeet (since : List TokenKind) : Prop :=
  ∃ before gap behind, since = before ++ .newline :: (gap ++ .newline :: behind) ∧
    ∀ k ∈ gap, k.isWord = false

theorem HasBlankLine.breaksMeet {since : List TokenKind} (h : HasBlankLine since) :
    BreaksMeet since := by
  obtain ⟨before, behind, rfl⟩ := h
  exact ⟨before, [], behind, rfl, nofun⟩

theorem not_hasBlankLine {since : List TokenKind}
    (h : since.IsChain fun j k => ¬ (j.isNewline = true ∧ k.isNewline = true)) :
    ¬ HasBlankLine since := by
  rintro ⟨before, behind, rfl⟩
  exact (List.isChain_append_cons_cons.mp h).2.1 ⟨rfl, rfl⟩

/-- Of a list with one item more, an item inside is that one or was there before. -/
theorem concat_eq_append_cons {xs before behind : List α} {x k : α} :
    xs ++ [k] = before ++ x :: behind ↔
      xs = before ∧ k = x ∧ behind = [] ∨
        ∃ earlier, xs = before ++ x :: earlier ∧ behind = earlier ++ [k] := by
  constructor
  · intro h
    rcases List.eq_nil_or_concat behind with rfl | ⟨earlier, last, rfl⟩
    · obtain ⟨hxs, hk⟩ := List.append_inj' h rfl
      exact .inl ⟨hxs, List.singleton_inj.mp hk, rfl⟩
    · rw [List.concat_eq_append, ← List.cons_append, ← List.append_assoc] at h
      obtain ⟨hxs, hk⟩ := List.append_inj' h rfl
      rw [List.concat_eq_append, List.singleton_inj.mp hk]
      exact .inr ⟨earlier, hxs, rfl⟩
  · rintro (⟨rfl, rfl, rfl⟩ | ⟨earlier, rfl, rfl⟩)
    · rfl
    · simp

variable {met since : List TokenKind} {k : TokenKind}

theorem sinceFunc_concat : SinceFunc (met ++ [k]) since ↔
    k.isKeyword .func = true ∧ since = [] ∨
      k.isKeyword .func = false ∧ ∃ earlier, SinceFunc met earlier ∧ since = earlier ++ [k] := by
  constructor
  · rintro ⟨before, hmet, hsince⟩
    rcases concat_eq_append_cons.mp hmet with ⟨_, rfl, rfl⟩ | ⟨earlier, hearlier, rfl⟩
    · exact .inl ⟨rfl, rfl⟩
    · refine .inr ⟨hsince k (by simp), earlier, ⟨before, hearlier, ?_⟩, rfl⟩
      exact fun j hj => hsince j (List.mem_append_left _ hj)
  · rintro (⟨hk, rfl⟩ | ⟨hk, earlier, ⟨before, rfl, hsince⟩, rfl⟩)
    · have hfunc : k = .keyword .func := by
        cases k <;> simp_all [TokenKind.isKeyword]
      exact ⟨met, by rw [hfunc], nofun⟩
    · refine ⟨before, by simp, fun j hj => ?_⟩
      rcases List.mem_append.mp hj with hj | hj
      · exact hsince j hj
      · rw [List.mem_singleton.mp hj, hk]

/-! ### Line breaks since the last word -/

/-- The number of line breaks behind the last word or number. -/
def breaks (met : List TokenKind) : Nat :=
  met.foldl (fun n k => if k.isWord then 0 else if k.isNewline then n + 1 else n) 0

theorem breaks_concat (met : List TokenKind) (k : TokenKind) :
    breaks (met ++ [k]) =
      if k.isWord then 0 else if k.isNewline then breaks met + 1 else breaks met := by
  unfold breaks
  rw [List.foldl_append]
  rfl

theorem SinceFunc.breaks_eq (h : SinceFunc met since) : breaks met = breaks since := by
  obtain ⟨before, rfl, _⟩ := h
  unfold breaks
  rw [List.foldl_append]
  rfl

theorem TokenKind.eq_newline (h : k.isNewline = true) : k = .newline := by
  cases k <;> simp_all [TokenKind.isNewline]

/-- There are such line breaks if one has no word or number behind it. -/
theorem breaks_pos_iff : 0 < breaks met ↔
    ∃ before gap, met = before ++ .newline :: gap ∧ ∀ k ∈ gap, k.isWord = false := by
  induction met using List.reverseRecOn with
  | nil => simp [breaks]
  | append_singleton met k ih =>
    rw [breaks_concat]
    constructor
    · intro hpos
      cases hword : k.isWord with
      | true => simp [hword] at hpos
      | false =>
        cases hbreak : k.isNewline with
        | true => exact ⟨met, [], by rw [TokenKind.eq_newline hbreak], nofun⟩
        | false =>
          obtain ⟨before, gap, rfl, hgap⟩ := ih.mp (by simpa [hword, hbreak] using hpos)
          refine ⟨before, gap ++ [k], by simp, fun j hj => ?_⟩
          rcases List.mem_append.mp hj with hj | hj
          · exact hgap j hj
          · rw [List.mem_singleton.mp hj, hword]
    · rintro ⟨before, gap, heq, hgap⟩
      rcases concat_eq_append_cons.mp heq with ⟨_, rfl, _⟩ | ⟨earlier, hearlier, rfl⟩
      · exact Nat.succ_pos _
      · have hword : k.isWord = false := hgap k (by simp)
        have hpos := ih.mpr ⟨before, earlier, hearlier, fun j hj => hgap j (by simp [hj])⟩
        simp only [hword, Bool.false_eq_true, if_false]
        split <;> omega

/-- A further token makes two line breaks meet only as the second of them. -/
theorem breaksMeet_concat : BreaksMeet (since ++ [k]) ↔
    BreaksMeet since ∨ k.isNewline = true ∧ 0 < breaks since := by
  rw [breaks_pos_iff]
  constructor
  · rintro ⟨before, gap, behind, heq, hgap⟩
    rw [← List.cons_append, ← List.append_assoc] at heq
    rcases concat_eq_append_cons.mp heq with ⟨rfl, rfl, _⟩ | ⟨earlier, rfl, _⟩
    · exact .inr ⟨rfl, before, gap, rfl, hgap⟩
    · exact .inl ⟨before, gap, earlier, by simp, hgap⟩
  · rintro (⟨before, gap, behind, rfl, hgap⟩ | ⟨hbreak, before, gap, rfl, hgap⟩)
    · exact ⟨before, gap, behind ++ [k], by simp, hgap⟩
    · exact ⟨before, gap, [], by simp [TokenKind.eq_newline hbreak], hgap⟩

/-- Whether a marker is due behind one token more. -/
theorem due_concat (met : List TokenKind) (k : TokenKind) : Due BreaksMeet (met ++ [k]) ↔
    k.isKeyword .func = true ∨
      Due BreaksMeet met ∧ ¬ (k.isNewline = true ∧ 0 < breaks met) := by
  constructor
  · rintro ⟨since, hsince, hfree⟩
    rcases sinceFunc_concat.mp hsince with ⟨hk, _⟩ | ⟨_, earlier, hearlier, rfl⟩
    · exact .inl hk
    · rw [breaksMeet_concat, not_or, ← hearlier.breaks_eq] at hfree
      exact .inr ⟨⟨earlier, hearlier, hfree.1⟩, hfree.2⟩
  · intro h
    cases hk : k.isKeyword .func with
    | true => exact ⟨[], sinceFunc_concat.mpr (.inl ⟨hk, rfl⟩), by simp [BreaksMeet]⟩
    | false =>
      obtain ⟨⟨earlier, hearlier, hfree⟩, hlast⟩ := h.resolve_left (by simp [hk])
      refine ⟨_, sinceFunc_concat.mpr (.inr ⟨hk, earlier, hearlier, rfl⟩), ?_⟩
      rw [breaksMeet_concat, not_or, ← hearlier.breaks_eq]
      exact ⟨hfree, hlast⟩

/-! ### The cut -/

theorem Lexeme.isNoBlankLine_of_scan {c : Char} {cs : List Char} {kind : TokenKind}
    (h : (scan c cs).lexeme = .token kind) : kind.isNoBlankLine = false := by
  rcases scan_cases c cs with ⟨_, hcomment⟩ | ⟨_, hblank⟩ | hpiece
  · rw [hcomment] at h
    cases h
  · rw [hblank] at h
    cases h
  · rw [h] at hpiece
    simp only [isPiece, Bool.and_eq_true, Bool.not_eq_eq_eq_not, Bool.not_true] at hpiece
    exact hpiece.1

namespace Piece

theorem cut_enough (n m : Nat) (p : Position) (cs : List Char) (hn : cs.length ≤ n)
    (hm : cs.length ≤ m) : cut n p cs = cut m p cs := by
  induction n generalizing m p cs with
  | zero =>
    have hcs : cs = [] := List.length_eq_zero_iff.mp (Nat.le_zero.mp hn)
    subst hcs
    cases m <;> rfl
  | succ n ih =>
    cases cs with
    | nil => cases m <;> rfl
    | cons c cs =>
      rw [List.length_cons] at hn hm
      have hs := Lexeme.scan_shorter c cs
      obtain ⟨m, rfl⟩ : ∃ j, m = j + 1 := ⟨m - 1, by omega⟩
      simp only [cut]
      rw [ih m _ _ (by omega) (by omega)]

theorem cutAll_cons (p : Position) (c : Char) (cs : List Char) :
    cutAll p (c :: cs) =
      first p c cs :: cutAll (first p c cs).span.stop (Lexeme.scan c cs).rest := by
  unfold cutAll
  rw [List.length_cons, cut,
    cut_enough cs.length _ _ _ (Lexeme.scan_shorter c cs) (Nat.le_refl _)]

/-- Texts by their pieces, from the end. -/
theorem cutAll_induction {motive : Position → List Char → Prop} (p : Position) (cs : List Char)
    (done : ∀ p, motive p [])
    (step : ∀ p c cs, motive (first p c cs).span.stop (Lexeme.scan c cs).rest →
      motive p (c :: cs)) : motive p cs := by
  induction hn : cs.length using Nat.strongRecOn generalizing p cs with
  | ind n ih =>
    cases cs with
    | nil => exact done p
    | cons c cs =>
      have hs := Lexeme.scan_shorter c cs
      rw [List.length_cons] at hn
      exact step p c cs (ih _ (by omega) _ _ rfl)

/-- The pieces are the whole text. -/
theorem flatMap_taken (p : Position) (cs : List Char) : (cutAll p cs).flatMap taken = cs := by
  induction p, cs using cutAll_induction with
  | done p => rfl
  | step p c cs ih =>
    rw [cutAll_cons, List.flatMap_cons, ih]
    exact Lexeme.scan_append c cs

/-- A piece starts behind those before it. -/
theorem start_eq {p : Position} {cs : List Char} {before behind : List Piece} {x : Piece}
    (h : cutAll p cs = before ++ x :: behind) :
    x.span.start = p.advanceAll (before.flatMap taken) := by
  induction p, cs using cutAll_induction generalizing before with
  | done p => simp [cutAll, cut] at h
  | step p c cs ih =>
    rw [cutAll_cons] at h
    cases before with
    | nil =>
      cases h
      rfl
    | cons y before =>
      obtain ⟨rfl, hrest⟩ := List.cons.inj h
      rw [ih hrest, List.flatMap_cons, Position.advanceAll_append]
      rfl

/-- No piece of a text is a marker. -/
theorem isNoBlankLine_of_mem {p : Position} {cs : List Char} {x : Piece} (hx : x ∈ cutAll p cs) :
    ∀ t ∈ x.tokens, t.kind.isNoBlankLine = false := by
  induction p, cs using cutAll_induction with
  | done p => simp [cutAll, cut] at hx
  | step p c cs ih =>
    rw [cutAll_cons] at hx
    rcases List.mem_cons.mp hx with rfl | hx
    · intro t ht
      unfold tokens at ht
      split at ht
      · next kind hkind =>
        rw [List.mem_singleton.mp ht]
        exact Lexeme.isNoBlankLine_of_scan hkind
      · cases ht
    · exact ih hx

end Piece

/-! ### The lexer's watch -/

namespace Lexer

variable {l : Lexer}

/-- The count and the flag of a lexer are what the tokens met so far say. -/
structure Watches (met : List TokenKind) (l : Lexer) : Prop where
  newlines : l.newlines = breaks met
  afterFunc : l.afterFunc = true ↔ Due BreaksMeet met
  few : l.afterFunc = true → l.newlines < 2

theorem watches_start (source : Source) : Watches [] (ofSource source) := by
  refine ⟨rfl, ⟨nofun, ?_⟩, nofun⟩
  rintro ⟨since, ⟨before, hmet, _⟩, _⟩
  simp at hmet

theorem Watches.move (h : Watches met l) (taken rest : List Char) :
    Watches met (l.move taken rest) := ⟨h.newlines, h.afterFunc, h.few⟩

/-- A token changes the count and the flag as it changes what they stand for. -/
theorem Watches.token (h : Watches met l) (kind : TokenKind) :
    Watches (met ++ [kind]) (l.watch (.token kind)) := by
  obtain ⟨hcount, hflag, hfew⟩ := h
  have hflag' := due_concat met kind
  rw [← hflag, ← hcount] at hflag'
  have hcount' := breaks_concat met kind
  rw [← hcount] at hcount'
  cases kind with
  | newline =>
    have hfirst : l.newlines + 1 < 2 ↔ l.newlines = 0 := by omega
    refine ⟨hcount'.symm, ?_, ?_⟩
    · rw [hflag']
      simp [watch, TokenKind.isKeyword, TokenKind.isNewline, hfirst]
    · simp [watch]
  | keyword word =>
    refine ⟨hcount'.symm, ?_, fun _ => Nat.zero_lt_two⟩
    rw [hflag']
    simp [watch, TokenKind.isKeyword, TokenKind.isNewline, or_comm]
  | int _ | float _ | ident _ =>
    refine ⟨hcount'.symm, ?_, fun _ => Nat.zero_lt_two⟩
    rw [hflag']
    simp [watch, TokenKind.isKeyword, TokenKind.isNewline]
  | string _ | symbol _ | noBlankLine | eof =>
    refine ⟨hcount'.symm, ?_, hfew⟩
    rw [hflag']
    simp [watch, TokenKind.isKeyword, TokenKind.isNewline]

/-- The marker stands exactly where one is due. -/
theorem Watches.marker_cases (h : Watches met l) :
    Due BreaksMeet met ∧ l.marker = [.ok ⟨.noBlankLine, Span.point l.position⟩] ∨
      ¬ Due BreaksMeet met ∧ l.marker = [] := by
  unfold marker
  rw [← h.afterFunc]
  cases hflag : l.afterFunc with
  | true => simp [h.few hflag]
  | false => simp

/-- What is handed out for a piece that is no failure. -/
theorem Watches.emit_cases (h : Watches met l) {x : Piece} (hx : x.span.start = l.position)
    (hfault : ∀ fault, x.lexeme ≠ .fault fault) :
    (x.isWatched = true ∧ Due BreaksMeet met) ∧
        l.emit x.span x.lexeme = (x.marker :: x.tokens).map .ok ∨
      ¬ (x.isWatched = true ∧ Due BreaksMeet met) ∧ l.emit x.span x.lexeme = x.tokens.map .ok := by
  obtain ⟨lexeme, taken, span⟩ := x
  have hmarker := h.marker_cases
  rw [← hx] at hmarker
  cases lexeme with
  | blank => exact .inr ⟨nofun, rfl⟩
  | fault fault => exact absurd rfl (hfault fault)
  | comment =>
    rcases hmarker with ⟨hdue, hm⟩ | ⟨hdue, hm⟩
    · exact .inl ⟨⟨rfl, hdue⟩, hm⟩
    · exact .inr ⟨fun hboth => hdue hboth.2, hm⟩
  | token kind =>
    by_cases hbrace : kind = .symbol .rightBrace
    · subst hbrace
      have hemit : l.emit span (.token (.symbol .rightBrace)) =
          l.marker ++ [.ok ⟨.symbol .rightBrace, span⟩] := rfl
      rcases hmarker with ⟨hdue, hm⟩ | ⟨hdue, hm⟩
      · exact .inl ⟨⟨rfl, hdue⟩, by rw [hemit, hm]; rfl⟩
      · exact .inr ⟨fun hboth => hdue hboth.2, by rw [hemit, hm]; rfl⟩
    · refine .inr ⟨fun hboth => hbrace ?_, ?_⟩
      · have hwatched : kind.isSymbol .rightBrace = true := hboth.1
        cases kind <;> simp_all [TokenKind.isSymbol]
      · show l.emit span (.token kind) = _
        unfold emit
        split <;> simp_all [Piece.tokens]

/-- A step hands out the first piece. -/
theorem step_emit (l : Lexer) (c : Char) (cs : List Char) :
    (l.step c cs).1 =
      l.emit (Piece.first l.position c cs).span (Piece.first l.position c cs).lexeme := by
  show l.emit ⟨l.position, (l.step c cs).2.position⟩ _ = _
  rw [step_position]
  rfl

/-- A step keeps the watch. -/
theorem Watches.step (h : Watches met l) {c : Char} {cs : List Char}
    (hfault : ∀ fault, (Lexeme.scan c cs).lexeme ≠ .fault fault) :
    Watches (met ++ (Piece.first l.position c cs).tokens.map Token.kind) (l.step c cs).2 := by
  have hmove := h.move (Lexeme.scan c cs).taken (Lexeme.scan c cs).rest
  show Watches _ (watch _ (Lexeme.scan c cs).lexeme)
  simp only [Piece.tokens, Piece.first]
  cases hlexeme : (Lexeme.scan c cs).lexeme with
  | blank | comment => simpa [watch] using hmove
  | token kind => exact hmove.token kind
  | fault fault => exact absurd hlexeme (hfault fault)

/-- A step that hands out tokens is no failure. -/
theorem not_fault_of_step {c : Char} {cs : List Char} {tokens : List Token}
    (h : (l.step c cs).1 = tokens.map .ok) (fault : Fault) :
    (Lexeme.scan c cs).lexeme ≠ .fault fault := by
  intro hfault
  have hlexeme : (Piece.first l.position c cs).lexeme = .fault fault := hfault
  rw [step_emit, hlexeme] at h
  cases tokens with
  | nil => cases h
  | cons t ts => cases h

/-- A run without failures marks by the rule. -/
theorem all_marked (l : Lexer) {met : List TokenKind} {tokens : List Token} (h : Watches met l)
    (htokens : l.all.1 = tokens.map .ok) :
    Marked (Due BreaksMeet) met (Piece.cutAll l.position l.rest) tokens := by
  induction l using all_induction generalizing met tokens with
  | done l hr =>
    rw [all_nil hr] at htokens
    rw [List.map_eq_nil_iff.mp htokens.symm, hr]
    exact .nil
  | step l c cs hr ih =>
    rw [all_cons hr] at htokens
    obtain ⟨here, others, rfl, hhere, hothers⟩ := List.append_eq_map_iff.mp htokens
    have hfault := not_fault_of_step hhere.symm
    have hrest := ih (h.step hfault) hothers.symm
    rw [step_position, step_rest] at hrest
    rw [step_emit] at hhere
    rw [hr, Piece.cutAll_cons]
    -- what is handed out is the piece with or without a marker, as the history demands
    rcases h.emit_cases (x := Piece.first l.position c cs) rfl hfault with
      ⟨⟨hwatched, hdue⟩, hemit⟩ | ⟨hnot, hemit⟩ <;>
      rw [(List.map_inj_right fun _ _ => Except.ok.inj).mp (hhere.trans hemit)]
    · exact .marked hwatched hdue hrest
    · exact .bare hnot hrest

end Lexer

/-! ### Whole sources -/

namespace Source

/-- The tokens of a text without lexical failures are those of its pieces, with a marker at the
start of each comment and closing brace that follows a `func`, unless two line breaks with
neither a word nor a number between them stand since the last one. Every such marker is also
due if only adjacent line breaks count. -/
theorem markers_placed {source : Source} {tokens : List Token} {eof : Token}
    (h : source.tokens = .ok (tokens, eof)) :
    (source.pieces.flatMap Piece.taken = source.text.toList ∧
      ∀ before x behind, source.pieces = before ++ x :: behind →
        x.span.start = Position.after source (before.flatMap Piece.taken)) ∧
    (∀ x ∈ source.pieces, ∀ t ∈ x.tokens, t.kind.isNoBlankLine = false) ∧
    (∀ ts, Marked (Due BreaksMeet) [] source.pieces ts ↔ ts = tokens) ∧
    ∀ met, Due BreaksMeet met → Due HasBlankLine met := by
  have hmarked : Marked (Due BreaksMeet) [] source.pieces tokens := by
    rcases source.tokens_cases with ⟨found, hfound, hitems⟩ | ⟨f, hf, _⟩
    · rw [hfound] at h
      obtain ⟨rfl, rfl⟩ := Prod.mk.inj (Except.ok.inj h)
      exact Lexer.all_marked _ (Lexer.watches_start source) hitems
    · rw [hf] at h
      cases h
  refine ⟨⟨Piece.flatMap_taken _ _, fun _ _ _ => Piece.start_eq⟩,
    fun _ => Piece.isNoBlankLine_of_mem, fun ts => ⟨fun hts => hts.unique hmarked, ?_⟩, ?_⟩
  · rintro rfl
    exact hmarked
  · rintro met ⟨since, hsince, hfree⟩
    exact ⟨since, hsince, fun hblank => hfree hblank.breaksMeet⟩

/-- A comment on the line behind a `func`, and a brace behind a blank line. -/
def commented : Source := ⟨"<test>", "func\n#c\n\n\x7d"⟩

theorem markers_placed_commented : ∃ tokens eof, commented.tokens = .ok (tokens, eof) ∧
    tokens.map Token.kind =
      [.keyword .func, .newline, .noBlankLine, .newline, .newline, .symbol .rightBrace] ∧
    Marked (Due BreaksMeet) [] commented.pieces tokens := by
  obtain ⟨tokens, eof, htokens, hkinds⟩ : ∃ tokens eof, commented.tokens = .ok (tokens, eof) ∧
      tokens.map Token.kind = [.keyword .func, .newline, .noBlankLine, .newline, .newline,
        .symbol .rightBrace] := ⟨_, _, rfl, rfl⟩
  exact ⟨tokens, eof, htokens, hkinds, ((markers_placed htokens).2.2.1 tokens).mpr rfl⟩

/-- A function that consists of a string on a line of its own. -/
def quoting : Source := ⟨"<test>", "func f() \x7b\n\"s\"\n\x7d"⟩

/-- A brace that follows a function without a blank line is not always marked. -/
theorem markers_missed : ¬ ∀ (source : Source) (tokens : List Token) (eof : Token),
    source.tokens = .ok (tokens, eof) → Marked (Due HasBlankLine) [] source.pieces tokens := by
  intro h
  obtain ⟨tokens, eof, htokens, hkinds⟩ : ∃ tokens eof, quoting.tokens = .ok (tokens, eof) ∧
      tokens.map Token.kind = [.keyword .func, .ident "f", .symbol .leftParen,
        .symbol .rightParen, .symbol .leftBrace, .newline, .string "s", .newline,
        .symbol .rightBrace] := ⟨_, _, rfl, rfl⟩
  have hmarked := h quoting tokens eof htokens
  -- the last piece is the brace; before it, a string keeps the two line breaks apart
  have hlast : quoting.pieces.getLast?.map Piece.isWatched = some true := rfl
  have hmet : (quoting.pieces.dropLast.flatMap Piece.tokens).map Token.kind =
      [.keyword .func, .ident "f", .symbol .leftParen, .symbol .rightParen, .symbol .leftBrace,
        .newline, .string "s", .newline] := rfl
  have hdue : Due HasBlankLine ((quoting.pieces.dropLast.flatMap Piece.tokens).map Token.kind) := by
    rw [hmet]
    exact ⟨_, ⟨[], rfl, by decide⟩, not_hasBlankLine (by decide)⟩
  obtain ⟨x, hx, hwatched⟩ := Option.map_eq_some_iff.mp hlast
  rw [← List.dropLast_append_getLast? x hx] at hmarked
  have hkind : TokenKind.noBlankLine ∈ tokens.map Token.kind :=
    List.mem_map_of_mem (hmarked.marker_mem hwatched hdue)
  simp [hkinds] at hkind

end Source

end Script
