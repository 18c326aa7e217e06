import Script.Lexeme

/-! What may stand between tokens: blanks, line comments and block comments.

A block comment is described by its *marks*, the pairs `/*` and `*/` read from
left to right. It is closed when its marks are balanced between the first and the
last, and unclosed when some opening mark never finds its closing one; an unclosed
comment has the rest of the text in it. `scanComment?_trivia` says that whatever
the lexer skips as a comment is one of these. -/
namespace Script.Lexeme

/-! ### Marks -/

/-- What a character, or two together, do inside a block comment. -/
inductive Mark where
  | opening | closing | other
deriving DecidableEq, Repr, Inhabited

/-- The marks of a text from left to right; no character is part of two. -/
def marks : List Char → List Mark
  | '/' :: '*' :: cs => .opening :: marks cs
  | '*' :: '/' :: cs => .closing :: marks cs
  | _ :: cs => .other :: marks cs
  | [] => []

/-- Every opening mark has its closing one and the other way round. -/
inductive Balanced : List Mark → Prop where
  | nil : Balanced []
  | other {ms} : Balanced ms → Balanced (.other :: ms)
  | nest {inner ms} : Balanced inner → Balanced ms →
      Balanced (.opening :: (inner ++ .closing :: ms))

/-- Every closing mark has its opening one, but the comments around are never
closed. -/
inductive Unclosed : List Mark → Prop where
  | flat {ms} : Balanced ms → Unclosed ms
  | deeper {before ms} : Balanced before → Unclosed ms → Unclosed (before ++ .opening :: ms)

theorem Balanced.append {a b : List Mark} (ha : Balanced a) (hb : Balanced b) :
    Balanced (a ++ b) := by
  induction ha with
  | nil => exact hb
  | other _ ih => exact .other ih
  | @nest inner ms hi _ _ ih =>
    rw [List.cons_append, List.append_assoc, List.cons_append]
    exact .nest hi ih

theorem Unclosed.behind {a ms : List Mark} (ha : Balanced a) (hm : Unclosed ms) :
    Unclosed (a ++ ms) := by
  cases hm with
  | flat hm => exact .flat (ha.append hm)
  | @deeper before ms hb hm =>
    rw [← List.append_assoc]
    exact .deeper (ha.append hb) hm

/-! ### The end of nested comments -/

/-- The marks close `depth` comments, the outermost with the last mark. -/
inductive Closes : Nat → List Mark → Prop where
  | done : Closes 0 []
  | close {depth a ms} : Balanced a → Closes depth ms → Closes (depth + 1) (a ++ .closing :: ms)

/-- The marks leave at least one of `depth` comments open. -/
inductive LeavesOpen : Nat → List Mark → Prop where
  | inner {depth ms} : Unclosed ms → LeavesOpen (depth + 1) ms
  | close {depth a ms} : Balanced a → LeavesOpen depth ms →
      LeavesOpen (depth + 1) (a ++ .closing :: ms)

theorem Closes.behind {depth : Nat} {a ms : List Mark} (ha : Balanced a)
    (hm : Closes (depth + 1) ms) : Closes (depth + 1) (a ++ ms) := by
  cases hm with
  | @close _ b ms hb hm =>
    rw [← List.append_assoc]
    exact .close (ha.append hb) hm

theorem LeavesOpen.behind {depth : Nat} {a ms : List Mark} (ha : Balanced a)
    (hm : LeavesOpen (depth + 1) ms) : LeavesOpen (depth + 1) (a ++ ms) := by
  cases hm with
  | inner hm => exact .inner (hm.behind ha)
  | @close _ b ms hb hm =>
    rw [← List.append_assoc]
    exact .close (ha.append hb) hm

/-- One comment more, closed first. -/
theorem Closes.opening {depth : Nat} {ms : List Mark} (hm : Closes (depth + 2) ms) :
    Closes (depth + 1) (.opening :: ms) := by
  cases hm with
  | @close _ a ms ha hm =>
    have := hm.behind (.nest ha .nil)
    simpa using this

theorem LeavesOpen.opening {depth : Nat} {ms : List Mark} (hm : LeavesOpen (depth + 2) ms) :
    LeavesOpen (depth + 1) (.opening :: ms) := by
  cases hm with
  | inner hm => exact .inner (.deeper .nil hm)
  | @close _ a ms ha hm =>
    have := hm.behind (.nest ha .nil)
    simpa using this

/-- A character that begins no pair with the next is a mark of its own, also when
the text is cut off somewhere behind it. -/
theorem marks_other {c : Char} {taken rest : List Char}
    (ho : ∀ cs, c = '/' → taken ++ rest = '*' :: cs → False)
    (hc : ∀ cs, c = '*' → taken ++ rest = '/' :: cs → False) :
    marks (c :: taken) = .other :: marks taken := by
  cases taken with
  | nil => simp [marks]
  | cons d ds =>
    rw [marks]
    · rintro cs rfl hd
      cases hd
      exact ho _ rfl rfl
    · rintro cs rfl hd
      cases hd
      exact hc _ rfl rfl

/-- What is cut off as the rest of `depth` comments closes them all, or leaves one
open and is the whole text. -/
theorem blockEnd_marks (depth : Nat) (cs : List Char) :
    Closes depth (marks (blockEnd depth cs).1) ∨
      LeavesOpen depth (marks (blockEnd depth cs).1) ∧ (blockEnd depth cs).2 = [] := by
  fun_induction blockEnd depth cs with
  | case1 cs => exact .inl .done
  | case2 depth => exact .inr ⟨.inner (.flat .nil), rfl⟩
  | case3 depth cs taken rest h ih =>
    rw [h] at ih
    exact ih.imp Closes.opening fun hopen => ⟨hopen.1.opening, hopen.2⟩
  | case4 depth cs taken rest h ih =>
    rw [h] at ih
    exact ih.imp (.close .nil) fun hopen => ⟨.close .nil hopen.1, hopen.2⟩
  | case5 depth c cs ho hc taken rest h ih =>
    have htext : taken ++ rest = cs := by
      have := blockEnd_append (depth + 1) cs
      rwa [h] at this
    have hmarks : marks (c :: taken) = .other :: marks taken :=
      marks_other (fun ds hd ht => ho ds hd (htext ▸ ht)) (fun ds hd ht => hc ds hd (htext ▸ ht))
    rw [h] at ih
    rw [hmarks]
    exact ih.imp (fun hm => hm.behind (.other .nil)) fun hopen =>
      ⟨hopen.1.behind (.other .nil), hopen.2⟩

/-! ### Gaps -/

/-- A comment up to the end of its line. -/
inductive LineComment : List Char → Prop where
  | hash {cs} : '\n' ∉ cs → LineComment ('#' :: cs)
  | slashes {cs} : '\n' ∉ cs → LineComment ('/' :: '/' :: cs)

/-- A block comment whose opening marks all have their closing ones, the last of
which ends it. -/
def ClosedComment (cs : List Char) : Prop :=
  ∃ inner, marks cs = .opening :: (inner ++ [.closing]) ∧ Balanced inner

/-- A block comment that is still open at its end. -/
def UnclosedComment (cs : List Char) : Prop :=
  ∃ inner, marks cs = .opening :: inner ∧ Unclosed inner

/-- The text is at its end or at the end of a line. -/
def AtLineEnd (cs : List Char) : Prop := cs = [] ∨ ∃ ds, cs = '\n' :: ds

/-- `Trivia gap rest`: before the text `rest`, nothing but blanks and comments
stand in `gap`. A line comment goes on to the end of its line, and an unclosed
block comment to the end of the text. -/
inductive Trivia : List Char → List Char → Prop where
  | nil {rest} : Trivia [] rest
  | blank {c gap rest} : c = ' ' ∨ c = '\t' ∨ c = '\r' → Trivia gap rest → Trivia (c :: gap) rest
  | line {comment gap rest} : LineComment comment → AtLineEnd (gap ++ rest) → Trivia gap rest →
      Trivia (comment ++ gap) rest
  | block {comment gap rest} : ClosedComment comment → Trivia gap rest →
      Trivia (comment ++ gap) rest
  | unclosed {comment} : UnclosedComment comment → Trivia comment []

theorem Closes.one {ms : List Mark} (h : Closes 1 ms) :
    ∃ inner, ms = inner ++ [.closing] ∧ Balanced inner := by
  cases h with
  | close ha hm =>
    cases hm
    exact ⟨_, rfl, ha⟩

theorem LeavesOpen.one {ms : List Mark} (h : LeavesOpen 1 ms) : Unclosed ms := by
  cases h with
  | inner hm => exact hm
  | close _ hm => cases hm

/-- A block comment as it is cut off a text. -/
theorem blockEnd_comment (cs : List Char) :
    ClosedComment ('/' :: '*' :: (blockEnd 1 cs).1) ∨
      UnclosedComment ('/' :: '*' :: (blockEnd 1 cs).1) ∧ (blockEnd 1 cs).2 = [] := by
  rcases blockEnd_marks 1 cs with h | ⟨h, hr⟩
  · obtain ⟨inner, hm, hb⟩ := h.one
    exact .inl ⟨inner, by rw [marks, hm], hb⟩
  · exact .inr ⟨⟨_, by rw [marks], h.one⟩, hr⟩

theorem lineEnd_spec (cs : List Char) : '\n' ∉ (lineEnd cs).1 ∧ AtLineEnd (lineEnd cs).2 := by
  induction cs with
  | nil => exact ⟨by simp [lineEnd], .inl rfl⟩
  | cons c cs ih =>
    by_cases hc : c = '\n'
    · subst hc
      exact ⟨by simp [lineEnd], .inr ⟨cs, by simp [lineEnd]⟩⟩
    · have hne : '\n' ≠ c := Ne.symm hc
      simpa [lineEnd, hc, hne] using ih

/-- A comment that the lexer cuts off lengthens the gap behind it. -/
theorem scanComment?_trivia {c : Char} {cs gap rest : List Char} {s : Scanned}
    (h : scanComment? c cs = some s) (hs : s.rest = gap ++ rest) (hg : Trivia gap rest) :
    Trivia (s.taken ++ gap) rest := by
  unfold scanComment? at h
  split at h
  · cases h
    obtain ⟨hn, he⟩ := lineEnd_spec cs
    exact .line (.hash hn) (hs ▸ he) hg
  · rename_i cs
    cases h
    obtain ⟨hn, he⟩ := lineEnd_spec cs
    exact .line (.slashes hn) (hs ▸ he) hg
  · rename_i cs
    cases h
    rcases blockEnd_comment cs with hc | ⟨hu, hr⟩
    · exact .block hc hg
    · obtain ⟨rfl, rfl⟩ := List.append_eq_nil_iff.mp (hs.symm.trans hr)
      rw [List.append_nil]
      exact .unclosed hu
  · cases h

end Script.Lexeme
