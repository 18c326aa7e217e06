import Script.Proofs.Furthest

/-! Guesses at misspelt keywords leave the language as it is.

Where a phrase starts with a name that looks like a misspelt keyword, and an operand stands
behind it, a parser that guesses fails at once. One that does not takes the name for a
variable, goes on, and may give up somewhere else. From there on the two have nothing in
common. So they are not compared step by step but by what the tokens are.

A name is a stumbling block if it does not lead another one, an operand stands behind it and
no name before it (`Stumbling`). No parser gets past one, whatever it guesses: it could stop
between the name and the operand at most, where no phrase goes on (`beforeOperand`). If there
is none, both do the same throughout: phrases start only where no name stands before
(`freshly`), so there is nothing to guess.

Main statement, `Source.guesses_keep_programs`. -/
namespace Script

namespace TokenKind

variable {kind : TokenKind}

theorem ne_eof_of_isOperand (h : kind.isOperand = true) : kind ≠ .eof := by
  rintro rfl
  cases h

theorem isOperand_of_isMark (h : kind.isMark = true) : kind.isOperand = false := by
  cases kind <;> simp_all [isMark, isOperand]

theorem ident?_of_isMark (h : kind.isMark = true) : kind.ident? = none := by
  cases kind <;> simp_all [isMark, ident?]

end TokenKind

namespace Parser

/-- No word that leads a name is a misspelt keyword. -/
theorem suggest_of_leadsName {word : String} (h : leadsName word = true) :
    Keyword.suggest word = none := by
  simp only [leadsName, Bool.or_eq_true, beq_iff_eq] at h
  rcases h with ((rfl | rfl) | rfl) | h
  · decide
  · decide
  · decide
  · obtain ⟨type, htype⟩ := Option.isSome_iff_exists.mp h
    unfold DeclaredType.ofWord? at htype
    have hword := List.find?_some htype
    rw [← beq_iff_eq.mp hword]
    cases type <;> decide

/-- A name at which parsers stumble, the operand behind it, and what follows. -/
structure Stumbling (tokens : List Token) (name operand : Token) (rest : List Token) : Prop where
  suffix : name :: operand :: rest <:+ tokens
  word : ∃ w, name.kind = .ident w ∧ leadsName w = false
  isOperand : operand.kind.isOperand = true
  first : ∀ t, t :: name :: operand :: rest <:+ tokens → t.kind.ident? = none

/-- A cursor over the last of some tokens. -/
structure Over (tokens : List Token) (c : Cursor) : Prop where
  eof : c.eof.kind = .eof
  suffix : c.rest <:+ tokens

variable {tokens rest : List Token} {name operand : Token} {s : ParseState}

theorem cons_suffix_inj {a b : Token} (ha : a :: rest <:+ tokens) (hb : b :: rest <:+ tokens) :
    a = b := by
  have hsuffix := List.suffix_of_suffix_length_le ha hb (by simp)
  have hsame := hsuffix.eq_of_length (by simp)
  exact (List.cons.inj hsame).1

theorem Over.pass (h : Over tokens s.cursor) : Over tokens s.pass.cursor := by
  have hsuffix : s.pass.cursor.rest <:+ s.cursor.rest := by
    unfold ParseState.pass Cursor.advance
    split
    · exact List.suffix_refl _
    · next hr =>
      rw [hr]
      exact List.suffix_cons ..
  refine ⟨?_, hsuffix.trans h.suffix⟩
  rw [ParseState.pass, Cursor.eof_advance]
  exact h.eof

/-- What is left behind the current token. -/
theorem Over.rest_eq (h : Over tokens s.cursor) (hkind : s.cursor.current.kind ≠ .eof) :
    s.cursor.rest = s.cursor.current :: s.pass.cursor.rest := ParseState.rest_eq h.eof hkind

/-- Tokens that have not been passed and do not start here come behind the current token. -/
theorem Over.suffix_pass (h : Over tokens s.cursor) (hkind : s.cursor.current.kind ≠ .eof)
    {t : Token} (hsuffix : t :: rest <:+ s.cursor.rest)
    (hnot : t = s.cursor.current → rest ≠ s.pass.cursor.rest) :
    t :: rest <:+ s.pass.cursor.rest := by
  rw [h.rest_eq hkind] at hsuffix
  rcases List.suffix_cons_iff.mp hsuffix with hsame | hlater
  · obtain ⟨hhead, htail⟩ := List.cons.inj hsame
    exact absurd htail (hnot hhead)
  · exact hlater

namespace Stumbling

variable (h : Stumbling tokens name operand rest) (hs : Over tokens s.cursor)
include h hs

/-- Behind a mark the name is still to come if the operand is. -/
theorem suffix_of_mark (hoperand : operand :: rest <:+ s.cursor.rest)
    (hmark : s.cursor.current.kind.isMark = true) :
    name :: operand :: rest <:+ s.pass.cursor.rest := by
  have hkind := TokenKind.ne_eof_of_isMark hmark
  have hlater : operand :: rest <:+ s.pass.cursor.rest := by
    apply hs.suffix_pass hkind hoperand
    rintro rfl _
    cases h.isOperand.symm.trans (TokenKind.isOperand_of_isMark hmark)
  by_cases hnext : operand :: rest = s.pass.cursor.rest
  · -- Then the current token, a mark, is the name.
    have hsuffix := hs.suffix
    rw [hs.rest_eq hkind, ← hnext] at hsuffix
    obtain ⟨w, hw, _⟩ := h.word
    rw [cons_suffix_inj hsuffix h.suffix, hw] at hmark
    cases hmark
  · apply List.suffix_of_suffix_length_le h.suffix hs.pass.suffix
    have hle := hlater.length_le
    have hne := mt hlater.eq_of_length hnext
    simp only [List.length_cons] at *
    omega

variable (hname : name :: operand :: rest <:+ s.cursor.rest)
include hname

/-- A word that leads a name is not the name at which parsers stumble. -/
theorem suffix_of_word {w : String} (hword : s.cursor.current.kind = .ident w)
    (hleads : leadsName w = true) : name :: operand :: rest <:+ s.pass.cursor.rest := by
  apply hs.suffix_pass (by rw [hword]; nofun) hname
  rintro rfl _
  obtain ⟨v, hv, hnot⟩ := h.word
  cases hword.symm.trans hv
  rw [hleads] at hnot
  cases hnot

/-- Nor is the name of a class, which stands behind a word. -/
theorem suffix_of_className {cls : String} (hclass : s.cursor.current.kind = .ident "class")
    (hcls : s.cursor.following.kind = .ident cls) :
    name :: operand :: rest <:+ s.pass.pass.cursor.rest := by
  have hkind : s.cursor.current.kind ≠ .eof := by rw [hclass]; nofun
  have hkind' : s.pass.cursor.current.kind ≠ .eof := by
    rw [ParseState.current_pass hs.eof hkind, hcls]
    nofun
  apply hs.pass.suffix_pass hkind' (h.suffix_of_word hs hname hclass rfl)
  intro hhead htail
  have hsuffix := hs.suffix
  rw [hs.rest_eq hkind, hs.pass.rest_eq hkind', ← hhead, ← htail] at hsuffix
  have hident := h.first _ hsuffix
  rw [hclass] at hident
  cases hident

omit h in
theorem suffix_of_operand (hcurrent : s.cursor.current.kind.isOperand = true) :
    operand :: rest <:+ s.pass.cursor.rest := by
  rw [hs.rest_eq (TokenKind.ne_eof_of_isOperand hcurrent)] at hname
  rcases List.suffix_cons_iff.mp hname with hsame | hlater
  · have htail := (List.cons.inj hsame).2
    exact htail ▸ List.suffix_refl _
  · exact (List.suffix_cons ..).trans hlater

omit hs hname

/-- No parser gets past a stumbling block: before it phrases may start and names be passed,
and behind its name the operand is what comes next. -/
def beforeOperand : Footing where
  begins s := Over tokens s.cursor ∧ name :: operand :: rest <:+ s.cursor.rest
  names s := Over tokens s.cursor ∧ name :: operand :: rest <:+ s.cursor.rest
  rests s := Over tokens s.cursor ∧ operand :: rest <:+ s.cursor.rest
  fails _ _ := True
  names_of_begins hs := hs
  rests_of_names hs := ⟨hs.1, (List.suffix_cons ..).trans hs.2⟩
  eof hs := hs.1.eof
  mark hs hmark := ⟨hs.1.pass, h.suffix_of_mark hs.1 hs.2 hmark⟩
  operand hs hcurrent := ⟨hs.1.pass, suffix_of_operand hs.1 hs.2 hcurrent⟩
  word hs hword hleads := ⟨hs.1.pass, h.suffix_of_word hs.1 hs.2 hword hleads⟩
  className hs hclass hcls := ⟨hs.1.pass.pass, h.suffix_of_className hs.1 hs.2 hclass hcls⟩
  raise _ _ := trivial
  raiseAgain _ _ := trivial
  giveUp hs _ := hs

omit h

/-- Whatever it guesses, a parser accepts no program with a stumbling block in it. -/
theorem not_program (h : Stumbling s.cursor.rest name operand rest)
    (heof : s.cursor.eof.kind = .eof) (hkinds : ∀ t ∈ s.cursor.rest, t.kind.isEof = false)
    {hint : String → Option Keyword} {tree : Node Span} {t : ParseState} :
    program hint s ≠ .ok tree t := by
  intro hprogram
  have hends := h.beforeOperand.ends_program hint ⟨⟨heof, List.suffix_refl _⟩, h.suffix⟩
  rw [hprogram] at hends
  obtain ⟨hover, hsuffix⟩ := hends
  -- The operand at least is left, but a program leaves nothing.
  have hmem : t.cursor.current ∈ s.cursor.rest := by
    apply hover.suffix.subset
    cases hr : t.cursor.rest with
    | nil =>
      rw [hr] at hsuffix
      cases List.suffix_nil.mp hsuffix
    | cons u us => simp [Cursor.current, hr]
  cases (isEof_of_program hprogram).symm.trans (hkinds _ hmem)

end Stumbling

/-! ### Without a stumbling block -/

/-- Phrases start behind marks, or at the first token: never behind a name. -/
def freshly (tokens : List Token) : Footing where
  begins s := Over tokens s.cursor ∧ ∀ t, t :: s.cursor.rest <:+ tokens → t.kind.ident? = none
  names s := Over tokens s.cursor
  rests s := Over tokens s.cursor
  fails _ _ := True
  names_of_begins hs := hs.1
  rests_of_names hs := hs
  eof hs := hs.eof
  mark := by
    intro s hs hmark
    refine ⟨hs.pass, fun t ht => ?_⟩
    have hsuffix := hs.suffix
    rw [hs.rest_eq (TokenKind.ne_eof_of_isMark hmark)] at hsuffix
    rw [cons_suffix_inj ht hsuffix]
    exact TokenKind.ident?_of_isMark hmark
  operand hs _ := hs.pass
  word hs _ _ := hs.pass
  className hs _ _ := hs.pass.pass
  raise _ _ := trivial
  raiseAgain _ _ := trivial
  giveUp hs _ := hs

/-- A name that a phrase starts with is a stumbling block where it is guessed at. -/
theorem freshly_settles
    (hnone : ∀ name operand rest, ¬ Stumbling tokens name operand rest) :
    (freshly tokens).Settles Keyword.suggest fun _ => none := by
  intro s word hs hword hoperand
  by_contra hguess
  obtain ⟨hover, hfirst⟩ := hs
  have hkind : s.cursor.current.kind ≠ .eof := by rw [hword]; nofun
  have hnext := ParseState.current_pass hover.eof hkind
  have hkind' : s.pass.cursor.current.kind ≠ .eof := by
    rw [hnext]
    exact TokenKind.ne_eof_of_isOperand hoperand
  have hrest := hover.rest_eq hkind
  rw [hover.pass.rest_eq hkind', hnext] at hrest
  have hleads : leadsName word = false := by
    cases h : leadsName word with
    | false => rfl
    | true => exact absurd (suggest_of_leadsName h) hguess
  refine hnone s.cursor.current s.cursor.following s.pass.pass.cursor.rest
    ⟨hrest ▸ hover.suffix, ⟨word, hword, hleads⟩, hoperand, ?_⟩
  rw [← hrest]
  exact hfirst

/-- The same program or no program, whether misspelt keywords are guessed at or not. -/
theorem program_unguided {tokens : List Token} {eof : Token} (heof : eof.kind = .eof)
    (hkinds : ∀ t ∈ tokens, t.kind.isEof = false) :
    program Keyword.suggest (start tokens eof) = program (fun _ => none) (start tokens eof) ∨
      ∀ hint tree t, program hint (start tokens eof) ≠ .ok tree t := by
  by_cases hnone : ∀ name operand rest, ¬ Stumbling (start tokens eof).cursor.rest name operand rest
  · left
    refine (agrees_program (freshly_settles hnone) _ ⟨⟨heof, List.suffix_refl _⟩, ?_⟩).1
    intro t ht
    have hlength := ht.length_le
    rw [List.length_cons] at hlength
    omega
  · right
    push Not at hnone
    obtain ⟨name, operand, rest, h⟩ := hnone
    exact fun hint tree t => h.not_program heof fun t ht => hkinds t (List.mem_filter.mp ht).1

end Parser

namespace Source

/-- The program in a source, by a parser that guesses at misspelt keywords in its own way. -/
def parseWith (hint : String → Option Keyword) (source : Source) : Except Failure (Node Span) := do
  let (tokens, eof) ← source.tokens
  parseTokens hint tokens eof

/-- The program in a source, by a parser that takes no name for a misspelt keyword. -/
def parseUnguided (source : Source) : Except Failure (Node Span) :=
  source.parseWith fun _ => none

variable {source : Source} {hint : String → Option Keyword} {tokens : List Token} {eof : Token}

theorem parse_eq_parseWith (source : Source) :
    source.parse = source.parseWith Keyword.suggest := rfl

theorem parseWith_of_tokens (h : source.tokens = .ok (tokens, eof)) :
    source.parseWith hint = parseTokens hint tokens eof := by
  unfold parseWith
  rw [h]
  rfl

theorem parseWith_of_error {f : Failure} (h : source.tokens = .error f) :
    source.parseWith hint = .error f := by
  unfold parseWith
  rw [h]
  rfl

theorem isEof_of_mem_tokens (h : source.tokens = .ok (tokens, eof)) :
    ∀ t ∈ tokens, t.kind.isEof = false := by
  intro t ht
  rcases source.tokens_cases with ⟨ts, hts, hitems⟩ | ⟨f, hts, _⟩ <;> rw [hts] at h
  · cases h
    exact (source.scan_spec.2.2 (.ok t) (hitems ▸ List.mem_map_of_mem ht)).1
  · cases h

theorem refused_of_not_program (heof : eof.kind = .eof)
    (h : ∀ tree t, Parser.program hint (Parser.start tokens eof) ≠ .ok tree t) :
    ∃ f, parseTokens hint tokens eof = .error f ∧ f.fault.kind = .invalidSyntax := by
  unfold parseTokens
  cases hprogram : Parser.program hint (Parser.start tokens eof) with
  | ok tree t => exact absurd hprogram (h tree t)
  | error f t => exact ⟨f, rfl, Parser.kind_of_program heof hprogram⟩

/-- Both do the same, or both fail with a syntax error. -/
theorem parse_unguided_cases (source : Source) :
    source.parse = source.parseUnguided ∨ ∃ f g, source.parse = .error f ∧
      source.parseUnguided = .error g ∧ f.fault.kind = .invalidSyntax ∧
      g.fault.kind = .invalidSyntax := by
  unfold parseUnguided
  rw [parse_eq_parseWith]
  cases htokens : source.tokens with
  | error f => exact .inl (by rw [parseWith_of_error htokens, parseWith_of_error htokens])
  | ok r =>
    obtain ⟨tokens, eof⟩ := r
    have heof := eof_kind htokens
    rw [parseWith_of_tokens htokens, parseWith_of_tokens htokens]
    rcases Parser.program_unguided heof (isEof_of_mem_tokens htokens) with hsame | hnot
    · left
      unfold parseTokens
      rw [hsame]
    · obtain ⟨f, hf, hkind⟩ := refused_of_not_program heof (hnot Keyword.suggest)
      obtain ⟨g, hg, hkind'⟩ := refused_of_not_program heof (hnot fun _ => none)
      exact .inr ⟨f, g, hf, hg, hkind, hkind'⟩

/-- **Guesses at misspelt keywords keep the language.** The same sources are programs, with
the same trees, if nothing is guessed; and a source that is refused is refused for the same
reason, or for two that are both syntax errors. -/
theorem guesses_keep_programs (source : Source) :
    (∀ tree, source.parse = .ok tree ↔ source.parseUnguided = .ok tree) ∧
    ∀ f, source.parse = .error f → ∃ g, source.parseUnguided = .error g ∧
      (g = f ∨ f.fault.kind = .invalidSyntax ∧ g.fault.kind = .invalidSyntax) := by
  rcases source.parse_unguided_cases with hsame | ⟨f, g, hf, hg, hkind, hkind'⟩
  · rw [hsame]
    exact ⟨fun _ => Iff.rfl, fun f hf => ⟨f, hf, .inl rfl⟩⟩
  · rw [hf, hg]
    refine ⟨fun tree => ⟨nofun, nofun⟩, ?_⟩
    rintro _ ⟨⟩
    exact ⟨g, rfl, .inr ⟨hkind, hkind'⟩⟩

/-- A class may be named like a misspelt keyword, and a word may follow. -/
example : (parse ⟨"<test>", "class fir extends B:\nend"⟩).isOk = true := by decide +kernel

end Source

end Script
