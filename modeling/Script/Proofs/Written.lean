import Script.Proofs.Literals

/-! Tokens that are written down are read again.

`Written` says how each kind of token is spelt in a program text. A line break has two
spellings; a float may have none that gives it back, and markers and the end token
have none at all. Where tokens are written with a blank between neighbours, each of them
is one piece of the text (`Written.scans`), since no spelling goes on over a blank, and
only a string, which knows its own end, has blanks inside.

What comes before a token decides whether a marker is put in front of it, and nothing
else; so the judgement `Cuts` leaves markers out of account, and holds for a lexer that
has met any tokens before.

Main statement, `Source.tokens_written`. -/
namespace Script

/-! ### Spellings -/

/-- A name: a letter or an underscore, then letters, digits and underscores, and no
keyword. -/
def IsName (name : String) : Prop :=
  (∃ c cs, name.toList = c :: cs ∧ (c.isAlpha ∨ c = '_') ∧ ∀ d ∈ cs, d.isAlphanum ∨ d = '_') ∧
    ∀ k : Keyword, k.word ≠ name

/-- A character inside a string literal. -/
def escaped (c : Char) : List Char := if c = '"' ∨ c = '\\' then ['\\', c] else [c]

/-- How a token is written. -/
inductive Written : TokenKind → List Char → Prop where
  | int {n : Int64} : 0 ≤ n.toInt → Written (.int n) (toString n.toInt).toList
  | string (s : String) : Written (.string s) ('"' :: (s.toList.flatMap escaped ++ ['"']))
  | ident {name : String} : IsName name → Written (.ident name) name.toList
  | keyword (k : Keyword) : Written (.keyword k) k.word.toList
  | symbol (s : Symbol) : Written (.symbol s) s.spelling.toList
  | lineFeed : Written .newline ['\n']
  | semicolon : Written .newline [';']

namespace Lexer

variable {c : Char} {cs ds taken rest : List Char} {ks ks' : List TokenKind} {kind : TokenKind}

/-! ### Pieces -/

/-- Before `rest` the characters are one piece, which is a token. -/
def Scans (taken : List Char) (kind : TokenKind) (rest : List Char) : Prop :=
  ∃ c cs, taken = c :: cs ∧ Lexeme.scan c (cs ++ rest) = ⟨.token kind, taken, rest⟩

/-- The text is at its end or at a blank. -/
inductive AtBlank : List Char → Prop where
  | nil : AtBlank []
  | blank (cs : List Char) : AtBlank (' ' :: cs)

theorem AtBlank.endsNumber (h : AtBlank rest) : EndsNumber rest := by
  cases h with
  | nil => nofun
  | blank cs =>
    rintro c ⟨⟩
    decide

theorem scans_int {n : Int64} (hn : 0 ≤ n.toInt) (hrest : AtBlank rest) :
    Scans (toString n.toInt).toList (.int n) rest := by
  have hspelling : (toString n.toInt).toList = Nat.toDigits 10 n.toInt.toNat := by
    rw [Int.toString_eq_repr, Int.repr_eq_if, if_pos hn, Nat.repr_eq_ofList_toDigits,
      String.toList_ofList]
  obtain ⟨d, ds, hds, hscan⟩ := scan_toDigits hn hrest.endsNumber
  rw [hspelling, hds]
  exact ⟨d, ds, rfl, hscan⟩

/-- Behind a backslash, a quote and a backslash stand for themselves. -/
theorem stringEnd_escaped (cs rest : List Char) :
    Lexeme.stringEnd (cs.flatMap escaped ++ '"' :: rest) =
      ⟨cs, cs.flatMap escaped ++ ['"'], rest, true⟩ := by
  induction cs with
  | nil => simp [Lexeme.stringEnd]
  | cons c cs ih =>
    by_cases hquote : c = '"'
    · subst hquote
      simp [escaped, Lexeme.stringEnd, ih, Lexeme.unescape]
    · by_cases hbackslash : c = '\\'
      · subst hbackslash
        simp [escaped, Lexeme.stringEnd, ih, Lexeme.unescape]
      · have hplain : escaped c = [c] := by simp [escaped, hquote, hbackslash]
        rw [List.flatMap_cons, hplain, List.append_assoc, List.singleton_append, Lexeme.stringEnd]
        · simp [ih]
        all_goals simp_all

theorem scans_string (s : String) (rest : List Char) :
    Scans ('"' :: (s.toList.flatMap escaped ++ ['"'])) (.string s) rest := by
  refine ⟨'"', _, rfl, ?_⟩
  show Lexeme.scanString _ = _
  unfold Lexeme.scanString
  rw [List.append_assoc, List.singleton_append, stringEnd_escaped]
  simp

theorem isDigit_of_isWordStart (hc : Lexeme.isWordStart c = true) : c.isDigit = false := by
  unfold Lexeme.isWordStart at hc
  delta Char.isAlpha Char.isUpper Char.isLower at hc
  simp only [Bool.or_eq_true, beq_iff_eq, Bool.and_eq_true, decide_eq_true_eq,
    UInt32.le_iff_toNat_le, ge_iff_le] at hc
  simp only [Char.isDigit, Bool.and_eq_false_iff, decide_eq_false_iff_not,
    UInt32.le_iff_toNat_le, ge_iff_le]
  change ((65 ≤ c.toNat ∧ c.toNat ≤ 90) ∨ (97 ≤ c.toNat ∧ c.toNat ≤ 122)) ∨ c = '_' at hc
  change ¬ 48 ≤ c.toNat ∨ ¬ c.toNat ≤ 57
  rcases hc with (h | h) | rfl
  · omega
  · omega
  · decide

/-- Nothing but a word starts with a letter or an underscore. -/
theorem scan_wordStart (hc : Lexeme.isWordStart c = true) :
    Lexeme.scan c cs = Lexeme.scanWord (c :: cs) := by
  have hne : ∀ d : Char, Lexeme.isWordStart d = false → c ≠ d := by
    rintro d hd rfl
    rw [hc] at hd
    cases hd
  have hcomment : Lexeme.scanComment? c cs = none := by
    unfold Lexeme.scanComment?
    split
    · exact absurd rfl (hne '#' rfl)
    · exact absurd rfl (hne '/' rfl)
    · exact absurd rfl (hne '/' rfl)
    · rfl
  unfold Lexeme.scan
  rw [hcomment]
  simp [hne ' ' rfl, hne '\t' rfl, hne '\r' rfl, hne ';' rfl, hne '\n' rfl, hne '"' rfl, hc,
    isDigit_of_isWordStart hc]

/-- A word that a blank ends. -/
theorem scans_word {w : String} (hstart : ∃ c cs, w.toList = c :: cs ∧ Lexeme.isWordStart c = true)
    (hword : ∀ c ∈ w.toList, Lexeme.isWordChar c = true) (hrest : AtBlank rest) :
    Scans w.toList (Lexeme.word w) rest := by
  obtain ⟨c, cs, hw, hc⟩ := hstart
  have hends : rest.takeWhile Lexeme.isWordChar = [] ∧ rest.dropWhile Lexeme.isWordChar = rest := by
    cases hrest with
    | nil => exact ⟨rfl, rfl⟩
    | blank cs => exact ⟨rfl, rfl⟩
  have htake : (w.toList ++ rest).takeWhile Lexeme.isWordChar = w.toList := by
    rw [List.takeWhile_append_of_pos hword, hends.1, List.append_nil]
  have hdrop : (w.toList ++ rest).dropWhile Lexeme.isWordChar = rest := by
    rw [List.dropWhile_append_of_pos hword, hends.2]
  refine ⟨c, cs, hw, ?_⟩
  rw [scan_wordStart hc, ← List.cons_append, ← hw]
  simp [Lexeme.scanWord, htake, hdrop]

theorem scans_ident {name : String} (hname : IsName name) (hrest : AtBlank rest) :
    Scans name.toList (.ident name) rest := by
  obtain ⟨⟨c, cs, hchars, hc, hcs⟩, hkeyword⟩ := hname
  have hstart : Lexeme.isWordStart c = true := by simpa [Lexeme.isWordStart] using hc
  have hword : ∀ d ∈ name.toList, Lexeme.isWordChar d = true := by
    intro d hd
    rw [hchars] at hd
    rcases List.mem_cons.mp hd with rfl | hd
    · rcases hc with h | h <;> simp [Lexeme.isWordChar, Char.isAlphanum, h]
    · simpa [Lexeme.isWordChar] using hcs d hd
  have hident : Lexeme.word name = .ident name := by
    have hnone : Keyword.ofWord? name = none := by
      simpa [Keyword.ofWord?] using fun k _ => hkeyword k
    simp [Lexeme.word, hnone]
  rw [← hident]
  exact scans_word ⟨c, cs, hchars, hstart⟩ hword hrest

theorem scans_keyword (k : Keyword) (hrest : AtBlank rest) :
    Scans k.word.toList (.keyword k) rest := by
  have hkeyword : Lexeme.word k.word = .keyword k := by cases k <;> rfl
  rw [← hkeyword]
  apply scans_word _ _ hrest
  · cases k <;> exact ⟨_, _, rfl, by decide⟩
  · exact List.all_eq_true.mp (by cases k <;> rfl)

/-- No symbol goes on over a blank. -/
theorem scans_symbol (s : Symbol) (hrest : AtBlank rest) :
    Scans s.spelling.toList (.symbol s) rest := by
  cases hrest <;> cases s <;> exact ⟨_, _, rfl, rfl⟩

end Lexer

open Lexer (AtBlank Scans)

/-- Every spelling that a blank ends is one piece. -/
theorem Written.scans {kind : TokenKind} {cs rest : List Char} (h : Written kind cs)
    (hrest : AtBlank rest) : Scans cs kind rest := by
  cases h with
  | int hn => exact Lexer.scans_int hn hrest
  | string s => exact Lexer.scans_string s rest
  | ident hname => exact Lexer.scans_ident hname hrest
  | keyword k => exact Lexer.scans_keyword k hrest
  | symbol s => exact Lexer.scans_symbol s hrest
  | lineFeed => cases hrest <;> exact ⟨_, _, rfl, rfl⟩
  | semicolon => cases hrest <;> exact ⟨_, _, rfl, rfl⟩

theorem Written.isNoBlankLine {kind : TokenKind} {cs : List Char} (h : Written kind cs) :
    kind.isNoBlankLine = false := by
  cases h <;> rfl

/-! ### Sequences -/

namespace Lexer

variable {cs ds taken rest : List Char} {ks ks' : List TokenKind} {kind : TokenKind}

/-- The kinds of tokens, without the markers. -/
def unmarkedKinds (tokens : List Token) : List TokenKind :=
  (tokens.map Token.kind).filter fun k => !k.isNoBlankLine

@[simp] theorem unmarkedKinds_append (tokens more : List Token) :
    unmarkedKinds (tokens ++ more) = unmarkedKinds tokens ++ unmarkedKinds more := by
  simp [unmarkedKinds]

/-- Before `rest` the characters `cs` are cut into tokens of the kinds `ks`, and
markers, whatever was met before. -/
def Cuts (cs : List Char) (ks : List TokenKind) (rest : List Char) : Prop :=
  ∀ l : Lexer, l.rest = cs ++ rest → ∃ (tokens : List Token) (l' : Lexer),
    unmarkedKinds tokens = ks ∧ l'.rest = rest ∧ l.all = (tokens.map .ok ++ l'.all.1, l'.all.2)

theorem Cuts.nil : Cuts [] [] rest := fun l hr => ⟨[], l, rfl, hr, rfl⟩

theorem Cuts.append (h : Cuts cs ks (ds ++ rest)) (h' : Cuts ds ks' rest) :
    Cuts (cs ++ ds) (ks ++ ks') rest := by
  intro l hr
  obtain ⟨tokens, l₁, hks, hr₁, hall⟩ := h l (by simp [hr])
  obtain ⟨more, l₂, hks', hr₂, hall'⟩ := h' l₁ hr₁
  exact ⟨tokens ++ more, l₂, by simp [hks, hks'], hr₂, by simp [hall, hall']⟩

theorem Cuts.blank : Cuts [' '] [] rest := by
  intro l hr
  refine ⟨[], (l.step ' ' rest).2, rfl, ?_, ?_⟩
  · rw [step_rest]
    rfl
  · rw [all_cons hr]
    rfl

/-- Before a token at most a marker is put. -/
theorem emit_unmarked (l : Lexer) (span : Span) (hk : kind.isNoBlankLine = false) :
    ∃ tokens : List Token, l.emit span (.token kind) = tokens.map .ok ∧
      unmarkedKinds tokens = [kind] := by
  have hmarker : ∃ marks : List Token, l.marker = marks.map .ok ∧ unmarkedKinds marks = [] := by
    unfold marker
    split
    · exact ⟨[⟨.noBlankLine, Span.point l.position⟩], rfl, rfl⟩
    · exact ⟨[], rfl, rfl⟩
  obtain ⟨marks, hmarks, hnone⟩ := hmarker
  have hself : unmarkedKinds [⟨kind, span⟩] = [kind] := by simp [unmarkedKinds, hk]
  by_cases hbrace : kind = .symbol .rightBrace
  · subst hbrace
    refine ⟨marks ++ [⟨.symbol .rightBrace, span⟩], ?_, by simp [hnone, hself]⟩
    simp [emit, hmarks]
  · refine ⟨[⟨kind, span⟩], ?_, hself⟩
    unfold emit
    split <;> simp_all

theorem Scans.cuts (h : Scans taken kind rest) (hk : kind.isNoBlankLine = false) :
    Cuts taken [kind] rest := by
  intro l hr
  obtain ⟨c, cs, htaken, hscan⟩ := h
  have hr : l.rest = c :: (cs ++ rest) := by rw [hr, htaken, List.cons_append]
  obtain ⟨tokens, hemit, hkinds⟩ :=
    l.emit_unmarked ⟨l.position, (l.step c (cs ++ rest)).2.position⟩ hk
  have hstep : (l.step c (cs ++ rest)).1 = tokens.map .ok := by
    rw [← hemit]
    simp [step, hscan]
  refine ⟨tokens, (l.step c (cs ++ rest)).2, hkinds, ?_, ?_⟩
  · rw [step_rest, hscan]
  · rw [all_cons hr, hstep]

/-- Tokens that are written with a blank between neighbours. -/
theorem cuts_written {texts : List (List Char)} (h : List.Forall₂ Written ks texts) :
    Cuts ([' '].intercalate texts) ks [] := by
  induction h with
  | nil => exact .nil
  | @cons kind text ks texts hfirst hothers ih =>
    cases hothers with
    | nil =>
      have hlast := (hfirst.scans .nil).cuts hfirst.isNoBlankLine
      simpa [List.intercalate] using hlast
    | @cons kind' text' ks texts hsecond hothers =>
      have hblank : AtBlank (' ' :: [' '].intercalate (text' :: texts) ++ []) := .blank _
      have htext : [' '].intercalate (text :: text' :: texts) =
          text ++ ([' '] ++ [' '].intercalate (text' :: texts)) := by
        simp [List.intercalate]
      rw [htext]
      have hhead := (hfirst.scans hblank).cuts hfirst.isNoBlankLine
      exact hhead.append (Cuts.blank.append ih)

end Lexer

/-- **Lexing undoes the writing of tokens.** If tokens are written with one blank between
neighbours, in any of their spellings, the text is cut into these tokens again, with the
end token behind them, and there may be markers among them. -/
theorem Source.tokens_written {kinds : List TokenKind} {texts : List (List Char)}
    (h : List.Forall₂ Written kinds texts) (name : String) :
    ∃ tokens eof, Source.tokens ⟨name, String.ofList ([' '].intercalate texts)⟩ = .ok (tokens, eof) ∧
      (tokens.map Token.kind).filter (fun k => !k.isNoBlankLine) = kinds ∧ eof.kind = .eof := by
  let source : Source := ⟨name, String.ofList ([' '].intercalate texts)⟩
  obtain ⟨tokens, l, hkinds, hl, hall⟩ := Lexer.cuts_written h (Lexer.ofSource source)
    (by simp [Lexer.ofSource, source])
  rw [Lexer.all_nil hl, List.append_nil] at hall
  have hscan : source.scan.1 = tokens.map .ok := congrArg Prod.fst hall
  have heof : source.scan.2.kind = .eof := congrArg Token.kind source.scan_spec.1
  refine ⟨tokens, source.scan.2, ?_, hkinds, heof⟩
  exact source.tokens_of_scan hscan

/-! ### A text with markers, escapes, comment signs and both line breaks -/

/-- A function, a string that holds quotes and comment signs, and a closing brace. -/
def sampleKinds : List TokenKind :=
  [.keyword .func, .ident "_f1", .symbol .leftBrace, .newline, .string "//\"\\#", .symbol .slash,
    .symbol .slash, .int 0, .newline, .symbol .rightBrace]

def sampleTexts : List (List Char) :=
  ["func".toList, "_f1".toList, ['\x7b'], ['\n'], "\"//\\\"\\\\#\"".toList, ['/'], ['/'], ['0'],
    [';'], ['\x7d']]

theorem sample_written : List.Forall₂ Written sampleKinds sampleTexts := by
  have hname : IsName "_f1" :=
    ⟨⟨'_', ['f', '1'], rfl, .inr rfl, by simp⟩, fun k => by cases k <;> decide⟩
  exact .cons (.keyword .func) (.cons (.ident hname) (.cons (.symbol .leftBrace) (.cons .lineFeed
    (.cons (.string "//\"\\#") (.cons (.symbol .slash) (.cons (.symbol .slash)
    (.cons (.int (n := 0) (by decide)) (.cons .semicolon (.cons (.symbol .rightBrace) .nil)))))))))

theorem Source.tokens_written_sample : ∃ tokens eof,
    Source.tokens ⟨"<test>", "func _f1 \x7b \n \"//\\\"\\\\#\" / / 0 ; \x7d"⟩ = .ok (tokens, eof) ∧
      (tokens.map Token.kind).filter (fun k => !k.isNoBlankLine) = sampleKinds ∧
      eof.kind = .eof :=
  Source.tokens_written sample_written "<test>"

end Script
