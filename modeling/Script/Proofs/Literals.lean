import Script.Proofs.Places
import Script.Proofs.RoundTrip

/-! Literals: integers, strings, and lists of literals.

A `Literal` can be written as text (`chars`). The text is cut into tokens (`Lexes`), of
which the parser makes a node that stands for the literal again (`ReadAs`), with a
minus sign before the digits if the integer is below zero. A string is written as it
is, so it must hold no quote and no backslash; and the least integer has no digits that
a minus sign could be put before (`isPlain`).

Main statement, `Literal.parse_chars`: a source whose text is a plain literal is a
program of one statement, which stands for that literal. -/
namespace Script

inductive Literal where
  | int (n : Int64)
  | string (s : String)
  | list (items : List Literal)

namespace Literal

mutual

/-- Whether a literal can be read back from its text. -/
def isPlain : Literal → Bool
  | .int n => Int64.minValue < n
  | .string s => !s.toList.contains '"' && !s.toList.contains '\\'
  | .list items => allPlain items

def allPlain : List Literal → Bool
  | [] => true
  | item :: items => item.isPlain && allPlain items

end

mutual

/-- How deep lists nest. -/
def depth : Literal → Nat
  | .int _ | .string _ => 0
  | .list items => depthAll items + 1

def depthAll : List Literal → Nat
  | [] => 0
  | item :: items => max item.depth (depthAll items)

end

mutual

def chars : Literal → List Char
  | .int n => (toString n.toInt).toList
  | .string s => '"' :: (s.toList ++ ['"'])
  | .list items => '[' :: (itemChars items ++ [']'])

/-- Literals, with commas between them. -/
def itemChars : List Literal → List Char
  | [] => []
  | item :: items => item.chars ++ moreChars items

/-- Literals, each behind a comma. -/
def moreChars : List Literal → List Char
  | [] => []
  | item :: items => ',' :: ' ' :: (item.chars ++ moreChars items)

end

mutual

def tokens : Literal → List TokenKind
  | .int n => if 0 ≤ n.toInt then [.int n] else [.symbol .minus, .int (-n)]
  | .string s => [.string s]
  | .list items => .symbol .leftSquare :: (itemTokens items ++ [.symbol .rightSquare])

def itemTokens : List Literal → List TokenKind
  | [] => []
  | item :: items => item.tokens ++ moreTokens items

def moreTokens : List Literal → List TokenKind
  | [] => []
  | item :: items => .symbol .comma :: (item.tokens ++ moreTokens items)

end

mutual

/-- The nodes that stand for a literal. -/
def ReadAs : Literal → Node Span → Prop
  | .int n, node =>
    (∃ tag, node = .int tag n) ∨
      ∃ tag tag', Int64.minValue < n ∧ node = .unary tag .minus (.int tag' (-n))
  | .string s, node => ∃ tag, node = .string tag s
  | .list items, node => ∃ tag nodes, node = .list tag nodes ∧ ReadAsAll items nodes

def ReadAsAll : List Literal → List (Node Span) → Prop
  | [], nodes => nodes = []
  | item :: items, nodes => ∃ n ns, nodes = n :: ns ∧ item.ReadAs n ∧ ReadAsAll items ns

end

theorem ReadAsAll.append {items more : List Literal} {nodes others : List (Node Span)}
    (h : ReadAsAll items nodes) (h' : ReadAsAll more others) :
    ReadAsAll (items ++ more) (nodes ++ others) := by
  induction items generalizing nodes with
  | nil =>
    cases h
    exact h'
  | cons item items ih =>
    obtain ⟨n, ns, rfl, hn, hns⟩ := h
    exact ⟨n, ns ++ others, rfl, hn, ih hns⟩

end Literal

/-! ### Cutting a text into tokens -/

namespace Lexer

/-- Before `rest` the characters `cs` are cut into tokens of the kinds `ks`, wherever
no function was met before. -/
def Lexes (cs : List Char) (ks : List TokenKind) (rest : List Char) : Prop :=
  ∀ l : Lexer, l.rest = cs ++ rest → l.afterFunc = false → ∃ (tokens : List Token) (l' : Lexer),
    tokens.map Token.kind = ks ∧ l'.rest = rest ∧ l'.afterFunc = false ∧
      l.all = (tokens.map .ok ++ l'.all.1, l'.all.2)

variable {cs ds taken rest : List Char} {ks ks' : List TokenKind} {c : Char} {kind : TokenKind}

theorem Lexes.nil : Lexes [] [] rest := fun l hr hf => ⟨[], l, rfl, hr, hf, rfl⟩

theorem Lexes.append (h : Lexes cs ks (ds ++ rest)) (h' : Lexes ds ks' rest) :
    Lexes (cs ++ ds) (ks ++ ks') rest := by
  intro l hr hf
  obtain ⟨tokens, l₁, hks, hr₁, hf₁, hall⟩ := h l (by rw [hr, List.append_assoc]) hf
  obtain ⟨tokens', l₂, hks', hr₂, hf₂, hall'⟩ := h' l₁ hr₁ hf₁
  refine ⟨tokens ++ tokens', l₂, ?_, hr₂, hf₂, ?_⟩
  · rw [List.map_append, hks, hks']
  · rw [hall, hall', List.map_append, List.append_assoc]

theorem watch_afterFunc {l : Lexer} (hf : l.afterFunc = false) (hk : kind ≠ .keyword .func) :
    (l.watch (.token kind)).afterFunc = false := by
  cases kind with
  | keyword k =>
    have hne : (k == .func) = false := beq_eq_false_iff_ne.mpr fun h => hk (h ▸ rfl)
    simp [watch, hf, hne]
  | _ => simp [watch, hf]

theorem emit_token {l : Lexer} (hf : l.afterFunc = false) (span : Span) :
    l.emit span (.token kind) = [.ok ⟨kind, span⟩] := by
  have hmarker : l.marker = [] := by simp [marker, hf]
  unfold emit
  split
  · rename_i h
    cases h
  · rename_i h
    cases h
  · rename_i h
    cases h
    rw [hmarker]
    rfl
  · rename_i h
    cases h
    rfl
  · rename_i h
    cases h

/-- A piece that is a token. -/
theorem Lexes.token (c : Char) (cs : List Char)
    (hscan : Lexeme.scan c cs = ⟨.token kind, taken, rest⟩) (hk : kind ≠ .keyword .func) :
    Lexes taken [kind] rest := by
  intro l hr hf
  have happend := Lexeme.scan_append c cs
  rw [hscan] at happend
  rw [← show c :: cs = _ from happend.symm] at hr
  have hstep : (l.step c cs).1 = [.ok ⟨kind, ⟨l.position, (l.step c cs).2.position⟩⟩] := by
    unfold step
    rw [hscan]
    exact emit_token hf _
  refine ⟨[⟨kind, ⟨l.position, (l.step c cs).2.position⟩⟩], (l.step c cs).2, rfl, ?_, ?_, ?_⟩
  · rw [step_rest, hscan]
  · unfold step
    rw [hscan]
    exact watch_afterFunc hf hk
  · rw [all_cons hr, hstep]
    rfl

theorem Lexes.blank : Lexes [' '] [] rest := by
  intro l hr hf
  refine ⟨[], (l.step ' ' rest).2, rfl, ?_, ?_, ?_⟩
  · rw [step_rest]
    rfl
  · exact hf
  · rw [all_cons hr]
    rfl

/-! ### Strings and numbers -/

theorem stringEnd_plain (hquote : '"' ∉ cs) (hbackslash : '\\' ∉ cs) (rest : List Char) :
    Lexeme.stringEnd (cs ++ '"' :: rest) = ⟨cs, cs ++ ['"'], rest, true⟩ := by
  induction cs with
  | nil => rfl
  | cons c cs ih =>
    rw [List.mem_cons, not_or] at hquote hbackslash
    have hne : c ≠ '"' := fun h => hquote.1 h.symm
    have hne' : c ≠ '\\' := fun h => hbackslash.1 h.symm
    rw [List.cons_append, Lexeme.stringEnd]
    · rw [ih hquote.2 hbackslash.2]
      rfl
    all_goals simp_all

theorem lexes_string {s : String} (hquote : '"' ∉ s.toList) (hbackslash : '\\' ∉ s.toList) :
    Lexes ('"' :: (s.toList ++ ['"'])) [.string s] rest := by
  refine Lexes.token '"' (s.toList ++ '"' :: rest) ?_ nofun
  show Lexeme.scanString _ = _
  unfold Lexeme.scanString
  rw [stringEnd_plain hquote hbackslash]
  simp

/-- What follows a number does not go on it. -/
def EndsNumber (rest : List Char) : Prop := ∀ c ∈ rest.head?, c.isDigit = false ∧ c ≠ '.'

theorem scanNumber_digits (hdigits : ∀ c ∈ ds, c.isDigit = true) (hrest : EndsNumber rest) :
    Lexeme.scanNumber (ds ++ rest) = ⟨Lexeme.integer ds, ds, rest⟩ := by
  have htake : (ds ++ rest).takeWhile Char.isDigit = ds := by
    rw [List.takeWhile_append_of_pos hdigits]
    cases rest with
    | nil => simp
    | cons c rest => simp [(hrest c rfl).1]
  have hdrop : (ds ++ rest).dropWhile Char.isDigit = rest := by
    rw [List.dropWhile_append_of_pos hdigits]
    cases rest with
    | nil => simp
    | cons c rest => simp [(hrest c rfl).1]
  unfold Lexeme.scanNumber
  rw [htake, hdrop]
  split
  · exact absurd rfl (hrest '.' rfl).2
  · rfl

/-- Neither a comment nor anything else starts with a digit. -/
theorem scan_digit (hc : c.isDigit = true) : Lexeme.scan c cs = Lexeme.scanNumber (c :: cs) := by
  have hne : ∀ d : Char, d.isDigit = false → c ≠ d := by
    rintro d hd rfl
    rw [hc] at hd
    cases hd
  have hcomment : Lexeme.scanComment? c cs = none := by
    unfold Lexeme.scanComment?
    split
    · exact absurd rfl (hne '#' rfl)
    · exact absurd rfl (hne '/' rfl)
    · exact absurd rfl (hne '/' rfl)
    · rfl
  unfold Lexeme.scan
  rw [hcomment]
  simp [hne ' ' rfl, hne '\t' rfl, hne '\r' rfl, hne ';' rfl, hne '\n' rfl, hne '"' rfl, hc]

/-- The digits of an integer that is not below zero are one piece. -/
theorem scan_toDigits {n : Int64} (hn : 0 ≤ n.toInt) (hrest : EndsNumber rest) :
    ∃ d ds, Nat.toDigits 10 n.toInt.toNat = d :: ds ∧
      Lexeme.scan d (ds ++ rest) = ⟨.token (.int n), d :: ds, rest⟩ := by
  have hdigits : ∀ c ∈ Nat.toDigits 10 n.toInt.toNat, c.isDigit = true :=
    fun c hc => Nat.isDigit_of_mem_toDigits (by decide) (by decide) hc
  have hvalue : Text.digitsValue (Nat.toDigits 10 n.toInt.toNat) = n.toInt.toNat :=
    Nat.ofDigitChars_toDigits (by decide) (by decide)
  have hinteger : Lexeme.integer (Nat.toDigits 10 n.toInt.toNat) = .token (.int n) := by
    rw [Lexeme.integer, hvalue, Int.toNat_of_nonneg hn, int64?_toInt]
    rfl
  obtain ⟨d, ds, hds⟩ := List.exists_cons_of_ne_nil (Nat.toDigits_ne_nil (b := 10)
    (n := n.toInt.toNat))
  rw [hds] at hdigits hinteger
  refine ⟨d, ds, hds, ?_⟩
  rw [scan_digit (hdigits d List.mem_cons_self), ← List.cons_append,
    scanNumber_digits hdigits hrest, hinteger]

theorem lexes_digits {n : Int64} (hn : 0 ≤ n.toInt) (hrest : EndsNumber rest) :
    Lexes (Nat.toDigits 10 n.toInt.toNat) [.int n] rest := by
  obtain ⟨d, ds, hds, hscan⟩ := scan_toDigits hn hrest
  rw [hds]
  exact Lexes.token d (ds ++ rest) hscan TokenKind.noConfusion

/-- All integers but the least have a negative. -/
theorem toInt_neg_of_lt {n : Int64} (hn : Int64.minValue < n) : (-n).toInt = -n.toInt := by
  have hmin := Int64.lt_iff_toInt_lt.mp hn
  rw [Int64.toInt_minValue] at hmin
  have hlt := n.toInt_lt
  rw [Int64.toInt_neg]
  exact Int.bmod_eq_of_le (by omega) (by omega)

/-- An integer, with its sign. -/
theorem lexes_int {n : Int64} (hn : Int64.minValue < n) (hrest : EndsNumber rest) :
    Lexes (Literal.int n).chars (Literal.int n).tokens rest := by
  unfold Literal.chars Literal.tokens
  rw [Int.toString_eq_repr, Int.repr_eq_if]
  split
  · rw [Nat.repr_eq_ofList_toDigits, String.toList_ofList]
    exact lexes_digits ‹_› hrest
  · have hneg := toInt_neg_of_lt hn
    have hdigits : Lexes (Nat.toDigits 10 (-n).toInt.toNat) [.int (-n)] rest :=
      lexes_digits (by omega) hrest
    rw [Nat.repr_eq_ofList_toDigits, String.toList_append, ← hneg]
    show Lexes (['-'] ++ (String.ofList (Nat.toDigits 10 (-n).toInt.toNat)).toList) _ rest
    rw [String.toList_ofList]
    have hsign : Lexes ['-'] [.symbol .minus] (Nat.toDigits 10 (-n).toInt.toNat ++ rest) :=
      Lexes.token '-' _ rfl nofun
    exact hsign.append hdigits

/-! ### Literals -/

theorem endsNumber_moreChars (items : List Literal) (hrest : EndsNumber rest) :
    EndsNumber (Literal.moreChars items ++ rest) := by
  cases items with
  | nil => exact hrest
  | cons item items =>
    rintro c ⟨⟩
    exact ⟨rfl, by decide⟩

theorem endsNumber_square : EndsNumber (']' :: rest) := by
  rintro c ⟨⟩
  exact ⟨rfl, by decide⟩

mutual

/-- A literal is cut into its tokens, wherever it ends. -/
theorem lexes_literal : (d : Literal) → d.isPlain = true → (rest : List Char) → EndsNumber rest →
    Lexes d.chars d.tokens rest
  | .int n, hp, rest, hrest => by
    unfold Literal.isPlain at hp
    exact lexes_int (of_decide_eq_true hp) hrest
  | .string s, hp, rest, _ => by
    unfold Literal.isPlain at hp
    simp only [Bool.and_eq_true, Bool.not_eq_eq_eq_not, Bool.not_true, List.contains_eq_mem,
      decide_eq_false_iff_not] at hp
    exact lexes_string hp.1 hp.2
  | .list items, hp, rest, _ => by
    unfold Literal.isPlain at hp
    have hitems := lexes_items items hp (']' :: rest) endsNumber_square
    have hopen : Lexes ['['] [.symbol .leftSquare] ((Literal.itemChars items ++ [']']) ++ rest) :=
      Lexes.token '[' _ rfl nofun
    have hclose : Lexes [']'] [.symbol .rightSquare] rest := Lexes.token ']' _ rfl nofun
    exact hopen.append (hitems.append hclose)

theorem lexes_items : (ds : List Literal) → Literal.allPlain ds = true → (rest : List Char) →
    EndsNumber rest → Lexes (Literal.itemChars ds) (Literal.itemTokens ds) rest
  | [], _, _, _ => .nil
  | d :: ds, hp, rest, hrest => by
    obtain ⟨hd, hds⟩ := Bool.and_eq_true_iff.mp hp
    exact (lexes_literal d hd _ (endsNumber_moreChars ds hrest)).append
      (lexes_more ds hds rest hrest)

theorem lexes_more : (ds : List Literal) → Literal.allPlain ds = true → (rest : List Char) →
    EndsNumber rest → Lexes (Literal.moreChars ds) (Literal.moreTokens ds) rest
  | [], _, _, _ => .nil
  | d :: ds, hp, rest, hrest => by
    obtain ⟨hd, hds⟩ := Bool.and_eq_true_iff.mp hp
    have hitem := (lexes_literal d hd _ (endsNumber_moreChars ds hrest)).append
      (lexes_more ds hds rest hrest)
    have hcomma : Lexes [',', ' '] [.symbol .comma] (d.chars ++ Literal.moreChars ds ++ rest) :=
      Lexes.append (Lexes.token ',' _ rfl nofun) .blank
    exact hcomma.append hitem

end

end Lexer

/-! ### Reading the tokens -/

namespace Parser

variable {e : Parser (Node Span)} {hint : String → Option Keyword} {rest : List TokenKind}

theorem final_comma {ks : List TokenKind} : Final (headKind (.symbol .comma :: ks)) :=
  ⟨rfl, rfl, rfl, rfl, rfl, rfl, rfl⟩

theorem final_square {ks : List TokenKind} : Final (headKind (.symbol .rightSquare :: ks)) :=
  ⟨rfl, rfl, rfl, rfl, rfl, rfl, rfl⟩

theorem final_eof : Final (headKind []) := ⟨rfl, rfl, rfl, rfl, rfl, rfl, rfl⟩

/-- A literal starts with one of four tokens. -/
theorem tokens_head (d : Literal) : ∃ k ks, d.tokens = k :: ks ∧
    ((∃ n, k = .int n) ∨ k = .symbol .minus ∨ (∃ s, k = .string s) ∨ k = .symbol .leftSquare) := by
  cases d with
  | int n =>
    unfold Literal.tokens
    split
    · exact ⟨_, _, rfl, .inl ⟨n, rfl⟩⟩
    · exact ⟨_, _, rfl, .inr (.inl rfl)⟩
  | string s => exact ⟨_, _, rfl, .inr (.inr (.inl ⟨s, rfl⟩))⟩
  | list items => exact ⟨_, _, rfl, .inr (.inr (.inr rfl))⟩

theorem final_moreTokens (items : List Literal) :
    Final (headKind (Literal.moreTokens items ++ .symbol .rightSquare :: rest)) := by
  cases items with
  | nil => exact final_square
  | cons item items => exact final_comma

theorem reads_intAtom {n : Int64} :
    Reads (atom hint e) (.int n :: rest) rest fun node => ∃ tag, node = .int tag n := by
  refine .bind reads_current fun t ht => ?_
  rw [ht]
  exact .bind reads_advance fun _ _ => .pure _ ⟨_, rfl⟩

/-- The integer of a literal, behind a minus sign if it is below zero. -/
theorem reads_intLiteral {n : Int64} (hn : Int64.minValue < n) (hrest : Final (headKind rest)) :
    Reads (expressionStep hint e) ((Literal.int n).tokens ++ rest) rest (Literal.int n).ReadAs := by
  unfold Literal.tokens
  split
  · refine (reads_atomic reads_intAtom ⟨rfl, rfl⟩ rfl rfl hrest).weaken fun node hnode => ?_
    exact .inl hnode
  · have hdigits : Reads (call e (atom hint e)) (.int (-n) :: rest) rest fun node =>
        ∃ tag, node = .int tag (-n) := reads_call reads_intAtom hrest.suffix
    have hunary := reads_unary (e := e) .minus hdigits ⟨rfl, rfl⟩ hrest
    have hundeclared : Undeclared (.symbol .minus :: .int (-n) :: rest) :=
      undeclared_cons rfl rfl
    refine (reads_expressionStep hundeclared hunary).weaken fun node hnode => ?_
    obtain ⟨tag, _, rfl, tag', rfl⟩ := hnode
    exact .inr ⟨tag, tag', hn, rfl⟩

theorem reads_stringLiteral {s : String} (hrest : Final (headKind rest)) :
    Reads (expressionStep hint e) ((Literal.string s).tokens ++ rest) rest
      (Literal.string s).ReadAs := by
  refine reads_atomic ?_ ⟨rfl, rfl⟩ rfl rfl hrest
  refine .bind reads_current fun t ht => ?_
  rw [ht]
  exact .bind reads_advance fun _ _ => .pure _ ⟨_, rfl⟩

/-- Literals, each behind a comma, if the parser of expressions reads each of them. -/
theorem reads_moreItems {ds : List Literal}
    (he : ∀ d ∈ ds, ∀ rest, Final (headKind rest) → Reads e (d.tokens ++ rest) rest d.ReadAs)
    {done : List Literal} {nodes : List (Node Span)} (hdone : Literal.ReadAsAll done nodes) (m : Nat)
    (hm : ds.length ≤ m) :
    Reads (argumentsFrom e m nodes) (Literal.moreTokens ds ++ .symbol .rightSquare :: rest)
      (.symbol .rightSquare :: rest) (Literal.ReadAsAll (done ++ ds)) := by
  induction ds generalizing done nodes m with
  | nil =>
    rw [List.append_nil]
    cases m with
    | zero => exact .pure nodes hdone
    | succ m =>
      refine .bind (reads_atSymbol .comma) fun b hb => ?_
      subst hb
      exact .pure nodes hdone
  | cons d ds ih =>
    obtain ⟨m, rfl⟩ := Nat.exists_eq_succ_of_ne_zero (Nat.ne_zero_of_lt hm)
    have heq : Literal.moreTokens (d :: ds) ++ .symbol .rightSquare :: rest =
        .symbol .comma :: (d.tokens ++ (Literal.moreTokens ds ++ .symbol .rightSquare :: rest)) := by
      simp [Literal.moreTokens]
    rw [heq]
    refine .bind (reads_atSymbol .comma) fun b hb => ?_
    subst hb
    refine .bind reads_advance fun _ _ => ?_
    refine .bind (he d List.mem_cons_self _ (final_moreTokens ds)) fun node hnode => ?_
    have hitem : Literal.ReadAsAll [d] [node] := ⟨node, [], rfl, hnode, rfl⟩
    have hmore := ih (fun d' hd' => he d' (List.mem_cons_of_mem _ hd')) (hdone.append hitem) m
      (by simpa using hm)
    rw [List.append_assoc] at hmore
    exact hmore

theorem length_le_moreTokens (ds : List Literal) : ds.length ≤ (Literal.moreTokens ds).length := by
  induction ds with
  | nil => exact Nat.le_refl _
  | cons d ds ih =>
    simp only [Literal.moreTokens, List.length_cons, List.length_append]
    omega

theorem reads_listLiteral {ds : List Literal}
    (he : ∀ d ∈ ds, ∀ rest, Final (headKind rest) → Reads e (d.tokens ++ rest) rest d.ReadAs)
    (hrest : Final (headKind rest)) :
    Reads (expressionStep hint e) ((Literal.list ds).tokens ++ rest) rest
      (Literal.list ds).ReadAs := by
  have heq : (Literal.list ds).tokens ++ rest =
      .symbol .leftSquare :: (Literal.itemTokens ds ++ .symbol .rightSquare :: rest) := by
    simp [Literal.tokens]
  have hitems : Reads (arguments e .rightSquare)
      (.symbol .leftSquare :: (Literal.itemTokens ds ++ .symbol .rightSquare :: rest)) rest
      (Literal.ReadAsAll ds) := by
    refine .bind reads_advance fun _ _ => .bind (reads_atSymbol .rightSquare) fun b hb => ?_
    cases ds with
    | nil =>
      subst hb
      exact .bind reads_advance fun _ _ => .pure [] rfl
    | cons d ds =>
      have hfalse : b = false := by
        obtain ⟨k, ks, hks, hk⟩ := tokens_head d
        rw [hb]
        simp only [Literal.itemTokens, hks]
        rcases hk with ⟨n, rfl⟩ | rfl | ⟨s, rfl⟩ | rfl <;> rfl
      have heq : Literal.itemTokens (d :: ds) ++ .symbol .rightSquare :: rest =
          d.tokens ++ (Literal.moreTokens ds ++ .symbol .rightSquare :: rest) := by
        simp [Literal.itemTokens]
      rw [hfalse, heq]
      refine .bind ((he d List.mem_cons_self _ (final_moreTokens ds)).orExpected _) ?_
      intro first hfirst
      refine .bind reads_remaining fun m hm => ?_
      have hlength : ds.length ≤ m := by
        have := length_le_moreTokens ds
        rw [hm, List.length_append]
        omega
      have hdone : Literal.ReadAsAll [d] [first] := ⟨first, [], rfl, hfirst, rfl⟩
      refine .bind (reads_moreItems (fun d' hd' => he d' (List.mem_cons_of_mem _ hd')) hdone m
        hlength) fun nodes hnodes => ?_
      exact .bind (reads_expect _ _) fun _ _ => .pure nodes hnodes
  rw [heq]
  refine reads_atomic ?_ ⟨rfl, rfl⟩ rfl rfl hrest
  refine .bind reads_current fun t ht => ?_
  rw [ht]
  refine .bind hitems fun nodes hnodes => ?_
  exact .bind (reads_spanFrom _) fun tag _ => .pure _ ⟨tag, nodes, rfl, hnodes⟩

mutual

/-- A literal is read by any expression parser that may nest as deep as it does. -/
theorem reads_literal : (d : Literal) → d.isPlain = true → (n : Nat) → d.depth ≤ n →
    (rest : List TokenKind) → Final (headKind rest) →
    Reads (expression hint n) (d.tokens ++ rest) rest d.ReadAs
  | .int k, hp, n, _, rest, hrest => by
    unfold Literal.isPlain at hp
    cases n <;> exact reads_intLiteral (of_decide_eq_true hp) hrest
  | .string s, _, n, _, rest, hrest => by cases n <;> exact reads_stringLiteral hrest
  | .list ds, hp, n, hn, rest, hrest => by
    unfold Literal.isPlain at hp
    cases n with
    | zero => exact absurd hn (Nat.not_succ_le_zero _)
    | succ n => exact reads_listLiteral (reads_literals ds hp n (Nat.le_of_succ_le_succ hn)) hrest

theorem reads_literals : (ds : List Literal) → Literal.allPlain ds = true → (n : Nat) →
    Literal.depthAll ds ≤ n → ∀ d ∈ ds, ∀ rest : List TokenKind, Final (headKind rest) →
    Reads (expression hint n) (d.tokens ++ rest) rest d.ReadAs
  | [], _, _, _ => fun _ hd => nomatch hd
  | d :: ds, hp, n, hn => by
    obtain ⟨hd, hds⟩ := Bool.and_eq_true_iff.mp hp
    obtain ⟨hdepth, hdepths⟩ := Nat.max_le.mp hn
    have hfirst := reads_literal d hd n hdepth
    have hothers := reads_literals ds hds n hdepths
    intro d' hd'
    rcases List.mem_cons.mp hd' with rfl | hd'
    · exact hfirst
    · exact hothers d' hd'

end

mutual

/-- Lists nest no deeper than there are tokens. -/
theorem depth_le_tokens : (d : Literal) → d.depth ≤ d.tokens.length
  | .int _ | .string _ => Nat.zero_le _
  | .list ds => by
    have := depthAll_le_itemTokens ds
    simp only [Literal.depth, Literal.tokens, List.length_cons, List.length_append]
    omega

theorem depthAll_le_itemTokens : (ds : List Literal) →
    Literal.depthAll ds ≤ (Literal.itemTokens ds).length
  | [] => Nat.le_refl _
  | d :: ds => by
    have := depth_le_tokens d
    have := depthAll_le_moreTokens ds
    simp only [Literal.depthAll, Literal.itemTokens, List.length_append]
    omega

theorem depthAll_le_moreTokens : (ds : List Literal) →
    Literal.depthAll ds ≤ (Literal.moreTokens ds).length
  | [] => Nat.le_refl _
  | d :: ds => by
    have := depth_le_tokens d
    have := depthAll_le_moreTokens ds
    simp only [Literal.depthAll, Literal.moreTokens, List.length_cons, List.length_append]
    omega

end

mutual

theorem unmarked_tokens : (d : Literal) → unmarked d.tokens = true
  | .int n => by
    unfold Literal.tokens
    split <;> rfl
  | .string _ => rfl
  | .list ds => by simp [Literal.tokens, unmarked_itemTokens ds, TokenKind.isNoBlankLine]

theorem unmarked_itemTokens : (ds : List Literal) → unmarked (Literal.itemTokens ds) = true
  | [] => rfl
  | d :: ds => by simp [Literal.itemTokens, unmarked_tokens d, unmarked_moreTokens ds]

theorem unmarked_moreTokens : (ds : List Literal) → unmarked (Literal.moreTokens ds) = true
  | [] => rfl
  | d :: ds => by
    simp [Literal.moreTokens, unmarked_tokens d, unmarked_moreTokens ds, TokenKind.isNoBlankLine]

end

/-- A literal on its own is a statement. -/
theorem reads_literalStatement {d : Literal} (he : Reads e (d.tokens ++ []) [] d.ReadAs) :
    Reads (statement e) d.tokens [] d.ReadAs := by
  rw [List.append_nil] at he
  obtain ⟨k, ks, hks, hk⟩ := tokens_head d
  rw [hks] at he ⊢
  have hplain : Plain (k :: ks) := by
    rcases hk with ⟨n, rfl⟩ | rfl | ⟨s, rfl⟩ | rfl <;> exact plain_cons rfl rfl rfl rfl
  exact reads_statement_expression hplain he nofun

/-- A literal on its own is a program of one statement. -/
theorem reads_literalProgram {d : Literal} (hp : d.isPlain = true) :
    Reads (program hint) d.tokens [] fun node =>
      ∃ tag item, node = .block tag [item] ∧ d.ReadAs item := by
  apply reads_singleProgram
  · obtain ⟨k, ks, hks, hk⟩ := tokens_head d
    rw [hks]
    rcases hk with ⟨n, rfl⟩ | rfl | ⟨s, rfl⟩ | rfl <;> rfl
  · exact reads_literalStatement (reads_literal d hp _ (depth_le_tokens d) [] final_eof)

end Parser

/-- **A literal that is written down is read back.** -/
theorem Literal.parse_chars {d : Literal} (hp : d.isPlain = true) {source : Source}
    (htext : source.text.toList = d.chars) :
    ∃ tag item, source.parse = .ok (.block tag [item]) ∧ d.ReadAs item := by
  obtain ⟨tokens, l, hkinds, hl, _, hall⟩ := Lexer.lexes_literal d hp [] nofun
    (Lexer.ofSource source) (by rw [List.append_nil]; exact htext) rfl
  rw [Lexer.all_nil hl, List.append_nil] at hall
  have hscan : source.scan.1 = tokens.map .ok := congrArg Prod.fst hall
  obtain ⟨heof, _, _⟩ := source.scan_spec
  have htokens : source.tokens = .ok (tokens, source.scan.2) := source.tokens_of_scan hscan
  have hat : Parser.At (Parser.start tokens source.scan.2) d.tokens :=
    Parser.at_start hkinds (Parser.unmarked_tokens d) (congrArg Token.kind heof)
  obtain ⟨_, s, hread, _, tag, item, rfl, hitem⟩ := Parser.reads_literalProgram hp _ hat
  refine ⟨tag, item, ?_, hitem⟩
  have hparse : source.parse =
      (source.tokens >>= fun r => parseTokens Keyword.suggest r.1 r.2) := rfl
  rw [hparse, htokens]
  show parseTokens Keyword.suggest tokens source.scan.2 = _
  unfold parseTokens
  rw [hread]

end Script
