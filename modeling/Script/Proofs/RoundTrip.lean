import Script.Proofs.Levels

/-! Whatever is written down is read back.

`Reader e n` is the induction hypothesis: the parser `e` reads every expression of at
most `n` tokens, bare where a statement may end behind it (`Closed`), and as an operand
where an operand may (`Final`). Every nested expression stands behind a token of the
one around it, so a reader for `n` tokens makes one for `n + 1` out of each form of the
grammar (`Reader.step`).

Main statement, `parse_spell`: a program that fits is read back from its spelling, up
to spans. -/
namespace Script

namespace Parser

variable {α : Type} {k : TokenKind} {ks rest : List TokenKind}

/-! ### First tokens -/

/-- A token that starts a statement. -/
def starts : TokenKind → Bool
  | .int _ | .float _ | .string _ | .ident _ => true
  | .symbol .leftParen | .symbol .leftSquare | .symbol .plus | .symbol .minus => true
  | .keyword .not | .keyword .var | .keyword .func => true
  | .keyword .ifWord | .keyword .forWord | .keyword .whileWord => true
  | .keyword .returnWord | .keyword .continueWord | .keyword .breakWord => true
  | _ => false

/-- An operand is a token or starts with a parenthesis. -/
theorem spellOperand_cases (node : Node α) (h : node.fits .expression = true) :
    (∃ k, node.spellOperand = [k] ∧ k.isOperand = true) ∨
      node.spellOperand = .symbol .leftParen :: (node.spell ++ [.symbol .rightParen]) := by
  cases hnode : node.isToken with
  | false => exact .inr (by simp only [Node.spellOperand, Node.grouped, hnode]; rfl)
  | true =>
    left
    cases node <;> first | exact Bool.noConfusion hnode | exact ⟨_, rfl, rfl⟩

theorem initial_operand (hk : k.isOperand = true) : Initial k := by
  cases k <;> first | exact Bool.noConfusion hk | exact ⟨rfl, rfl⟩

theorem starts_operand (hk : k.isOperand = true) : starts k = true := by
  cases k <;> first | exact Bool.noConfusion hk | rfl

variable {node : Node α}

theorem initial_spellOperand (h : node.fits .expression = true) :
    Initial (headKind (node.spellOperand ++ ks)) := by
  rcases spellOperand_cases node h with ⟨k, heq, hk⟩ | heq <;> rw [heq]
  · exact initial_operand hk
  · exact ⟨rfl, rfl⟩

theorem starts_spellOperand (h : node.fits .expression = true) :
    starts (headKind (node.spellOperand ++ ks)) = true := by
  rcases spellOperand_cases node h with ⟨k, heq, hk⟩ | heq <;> rw [heq]
  · exact starts_operand hk
  · rfl

/-- The first token of what is no block. -/
theorem starts_spell {role : Role} (h : node.fits role = true) (hrole : role ≠ .block) :
    starts (headKind (node.spell ++ ks)) = true := by
  cases node with
  | block => simp_all [Node.fits]
  | declare _ _ type => cases type <;> rfl
  | binary | call | index | getAttr | setAttr | methodCall =>
    simp only [Node.fits, Bool.and_eq_true] at h
    simp only [Node.spell, List.append_assoc]
    first | exact starts_spellOperand h.1.2 | exact starts_spellOperand h.2
  | unary _ op => cases op <;> rfl
  | ret _ value => cases value <;> rfl
  | exit _ exit => cases exit <;> rfl
  | cond _ branches =>
    cases branches with
    | nil => simp [Node.fits] at h
    | cons branch => cases branch; rfl
  | func _ definition =>
    obtain ⟨_, _, _, auto⟩ := definition
    cases auto <;> rfl
  | _ => rfl

theorem spell_ne_nil {role : Role} (h : node.fits role = true) (hrole : role ≠ .block) :
    node.spell ≠ [] := by
  intro hnil
  have hstarts : starts (headKind (node.spell ++ [])) = true := starts_spell h hrole
  rw [hnil] at hstarts
  exact Bool.noConfusion hstarts

/-- Two tokens that start an expression which is no declaration. -/
structure Undeclared (ks : List TokenKind) : Prop where
  untyped : ∀ word name, headKind ks = .ident word → headKind ks.tail = .ident name →
    DeclaredType.ofWord? word = none
  undeclaring : headKind ks ≠ .keyword .var

/-- Two tokens that start a statement which is an expression, or starts with one. -/
structure Plain (ks : List TokenKind) : Prop where
  unassigned : ∀ name, headKind ks = .ident name → headKind ks.tail ≠ .symbol .colon
  returns : headKind ks ≠ .keyword .returnWord
  continues : headKind ks ≠ .keyword .continueWord
  breaks : headKind ks ≠ .keyword .breakWord

/-- An operand with a token behind it that is none. -/
theorem undeclared_spellOperand (h : node.fits .expression = true)
    (hk : (headKind ks).isOperand = false) : Undeclared (node.spellOperand ++ ks) := by
  rcases spellOperand_cases node h with ⟨k, heq, hop⟩ | heq <;> rw [heq]
  · refine ⟨fun word name _ hname => ?_, ?_⟩
    · rw [show ([k] ++ ks).tail = ks from rfl] at hname
      rw [hname] at hk
      exact Bool.noConfusion hk
    · rintro (rfl : k = _)
      exact Bool.noConfusion hop
  · exact ⟨fun word name hw _ => TokenKind.noConfusion hw, TokenKind.noConfusion⟩

theorem plain_spellOperand (h : node.fits .expression = true)
    (hk : headKind ks ≠ .symbol .colon) : Plain (node.spellOperand ++ ks) := by
  rcases spellOperand_cases node h with ⟨k, heq, hop⟩ | heq <;> rw [heq]
  · refine ⟨fun _ _ => hk, ?_, ?_, ?_⟩ <;>
    · rintro (rfl : k = _)
      exact Bool.noConfusion hop
  · exact ⟨fun _ hw => TokenKind.noConfusion hw, TokenKind.noConfusion, TokenKind.noConfusion,
      TokenKind.noConfusion⟩

theorem ne_keyword {keyword : Keyword} (h : k.isKeyword keyword = false) :
    k ≠ .keyword keyword := by
  rintro rfl
  simp [TokenKind.isKeyword] at h

/-- A token that is neither a name nor one of the words that start a statement only. -/
theorem plain_cons (hk : k.ident? = none) (hr : k.isKeyword .returnWord = false)
    (hc : k.isKeyword .continueWord = false) (hb : k.isKeyword .breakWord = false) :
    Plain (k :: ks) := by
  refine ⟨fun name hname => ?_, ne_keyword hr, ne_keyword hc, ne_keyword hb⟩
  rw [headKind_cons] at hname
  simp [hname, TokenKind.ident?] at hk

/-- A name, and a token that is no colon. -/
theorem plain_ident {name : String} (hk : headKind ks ≠ .symbol .colon) :
    Plain (.ident name :: ks) :=
  ⟨fun _ _ => hk, TokenKind.noConfusion, TokenKind.noConfusion, TokenKind.noConfusion⟩

/-- An expression does not start like another statement, whatever is behind it. -/
theorem plain_spell (h : node.fits .expression = true) (hrest : headKind rest ≠ .symbol .colon) :
    Plain (node.spell ++ rest) := by
  cases node with
  | name => exact plain_ident hrest
  | declare _ _ type =>
    cases type
    · exact plain_cons rfl rfl rfl rfl
    · exact plain_ident TokenKind.noConfusion
  | cls | new => exact plain_ident TokenKind.noConfusion
  | binary _ op =>
    simp only [Node.fits, Bool.and_eq_true] at h
    simp only [Node.spell, List.append_assoc]
    refine plain_spellOperand h.1.2 ?_
    cases op <;> simp [BinaryOp.token]
  | call | index | getAttr | methodCall =>
    simp only [Node.fits, Bool.and_eq_true] at h
    simp only [Node.spell, List.append_assoc]
    first | exact plain_spellOperand h.1.2 (by simp) | exact plain_spellOperand h.2 (by simp)
  | unary _ op => cases op <;> exact plain_cons rfl rfl rfl rfl
  | cond _ branches =>
    cases branches with
    | nil => simp [Node.fits] at h
    | cons branch =>
      cases branch
      exact plain_cons rfl rfl rfl rfl
  | func _ definition =>
    obtain ⟨_, _, _, auto⟩ := definition
    cases auto <;> exact plain_cons rfl rfl rfl rfl
  | int | float | string | list | forLoop | whileLoop => exact plain_cons rfl rfl rfl rfl
  | ret _ value => cases value <;> simp [Node.fits] at h
  | block | assign | exit | setAttr => simp [Node.fits] at h

/-! ### Tokens behind -/

/-- A token before which a statement can end. -/
inductive Closing : TokenKind → Prop where
  | newline : Closing .newline
  | brace : Closing (.symbol .rightBrace)
  | paren : Closing (.symbol .rightParen)
  | eof : Closing .eof

theorem Closing.final (h : Closing k) : Final k := by
  cases h <;> exact ⟨rfl, rfl, rfl, rfl, rfl, rfl, rfl⟩

theorem Closing.initial (h : Closing k) : Initial k := by
  cases h <;> exact ⟨rfl, rfl⟩

/-- Tokens before which a statement can end, also one that `elif` or `else` would go on. -/
structure Closed (ks : List TokenKind) : Prop where
  closing : Closing (headKind ks)
  elif : (headKind (ks.dropWhile TokenKind.isNewline)).isKeyword .elif = false
  otherwise : (headKind (ks.dropWhile TokenKind.isNewline)).isKeyword .elseWord = false

theorem closed_paren : Closed (.symbol .rightParen :: ks) := ⟨.paren, rfl, rfl⟩

theorem closed_brace : Closed (.symbol .rightBrace :: ks) := ⟨.brace, rfl, rfl⟩

theorem closed_nil : Closed [] := ⟨.eof, rfl, rfl⟩

/-- A line break before something that starts a statement. -/
theorem closed_newline (h : starts (headKind ks) = true) : Closed (.newline :: ks) := by
  have hdrop : (TokenKind.newline :: ks).dropWhile TokenKind.isNewline = ks := by
    cases ks with
    | nil => rfl
    | cons k ks =>
      have hk : k.isNewline = false := by
        cases k <;> first | rfl | exact Bool.noConfusion h
      rw [List.dropWhile_cons_of_pos rfl, List.dropWhile_cons_of_neg (by simp [hk])]
  have hword : ∀ word, word = .elif ∨ word = .elseWord →
      (headKind ks).isKeyword word = false := by
    intro word hword
    generalize headKind ks = k at h
    rcases hword with rfl | rfl
    · cases k with
      | keyword w => cases w <;> first | rfl | exact Bool.noConfusion h
      | _ => rfl
    · cases k with
      | keyword w => cases w <;> first | rfl | exact Bool.noConfusion h
      | _ => rfl
  exact ⟨.newline, by rw [hdrop]; exact hword _ (.inl rfl), by rw [hdrop]; exact hword _ (.inr rfl)⟩

/-! ### Refusals -/

section Rejects

variable {e a : Parser (Node Span)} {hint : String → Option Keyword}

/-- What no atom starts with, no expression does. -/
theorem rejects_logic (h : Rejects a ks) (hi : Initial (headKind ks)) : Rejects (logic e a) ks := by
  have hfactor : Rejects (anyFactor e a) ks := by
    refine Reads.bind_rejects reads_remaining fun n _ => ?_
    cases n with
    | zero => exact .bind (.bind h)
    | succ n =>
      refine Reads.bind_rejects reads_current fun t ht => ?_
      rw [ht, hi.sign]
      exact .bind (.bind h)
  have hcompared : Rejects (compared e a) ks := .orExpected (.bind (.bind (.bind hfactor))) _
  refine .orExpected (.bind (Reads.bind_rejects reads_remaining fun n _ => ?_)) _
  cases n with
  | zero => exact hcompared
  | succ n =>
    refine Reads.bind_rejects (reads_atKeyword .not) fun b hb => ?_
    subst hb
    rw [hi.negation]
    exact hcompared

theorem rejects_atom (h : Closing (headKind ks)) : Rejects (atom hint e) ks := by
  refine Reads.bind_rejects reads_current fun t ht => ?_
  rw [ht]
  generalize headKind ks = k at h
  cases h <;> exact rejects_raiseHere _

theorem rejects_expressionStep (h : Closing (headKind ks)) :
    Rejects (expressionStep hint e) ks := by
  have hlogic : Rejects (logic e (atom hint e)) ks := rejects_logic (rejects_atom h) h.initial
  refine Reads.bind_rejects reads_current fun t ht => ?_
  refine Reads.bind_rejects reads_following fun u hu => ?_
  rw [ht]
  generalize headKind ks = k at h
  cases h <;> exact hlogic

end Rejects

/-! ### Readers -/

/-- The tree as it was read. -/
abbrev Same (tree : Node α) (node : Node Span) : Prop := node.erase = tree.erase

/-- A parser that reads expressions of at most `n` tokens. -/
structure Reader (α : Type) (e : Parser (Node Span)) (n : Nat) : Prop where
  bare : ∀ (tree : Node α) (rest : List TokenKind), tree.fits .expression = true →
    tree.spell.length ≤ n → Closed rest → Reads e (tree.spell ++ rest) rest (Same tree)
  operand : ∀ (tree : Node α) (rest : List TokenKind), tree.fits .expression = true →
    tree.spellOperand.length ≤ n → Final (headKind rest) →
    Reads e (tree.spellOperand ++ rest) rest (Same tree)
  attr : ∀ (object : Node α) (name : String) (rest : List TokenKind),
    object.fits .expression = true → object.spellOperand.length + 2 ≤ n → Final (headKind rest) →
    Reads e (object.spellOperand ++ .symbol .dot :: .ident name :: rest) rest fun node =>
      ∃ tag o, node = .getAttr tag o name ∧ Same object o
  rejects : ∀ ks, Closing (headKind ks) → Rejects e ks

variable {e : Parser (Node Span)} {n : Nat} {hint : String → Option Keyword} {tree : Node α}

theorem spellOperand_length_le (tree : Node α) :
    tree.spell.length ≤ tree.spellOperand.length := by
  unfold Node.spellOperand Node.grouped
  split
  · exact Nat.le_refl _
  · simp only [List.length_cons, List.length_append]
    omega

theorem spellOperand_length_le_add (tree : Node α) :
    tree.spellOperand.length ≤ tree.spell.length + 2 := by
  unfold Node.spellOperand Node.grouped
  split
  · exact Nat.le_add_right _ _
  · simp

/-- A name with no operand behind it is neither a class nor a misspelt keyword. -/
theorem reads_name {name : String} (hrest : (headKind rest).isOperand = false) :
    Reads (atom hint e) (.ident name :: rest) rest fun node => ∃ tag, node = .name tag name := by
  apply Reads.bind reads_current
  intro t ht
  rw [ht]
  apply Reads.bind reads_following
  intro u hu
  have hnext : u.kind.isOperand = false := by rw [hu]; exact hrest
  have hident : u.kind.ident?.isSome = false := by
    generalize u.kind = k at hnext
    cases k <;> first | rfl | exact Bool.noConfusion hnext
  simp only [hident, hnext, Bool.false_eq_true, and_false, if_false]
  apply Reads.bind reads_advance
  intro _ _
  exact .pure _ ⟨_, rfl⟩

/-- The nested expression of an operand in parentheses is shorter by both. -/
theorem Reader.atom (hR : Reader α e n) (h : tree.fits .expression = true)
    (hlen : tree.spellOperand.length ≤ n + 1) (hrest : (headKind rest).isOperand = false) :
    Reads (atom hint e) (tree.spellOperand ++ rest) rest (Same tree) := by
  cases hnode : tree.isToken with
  | false =>
    have heq : tree.spellOperand ++ rest =
        .symbol .leftParen :: (tree.spell ++ .symbol .rightParen :: rest) := by
      simp [Node.spellOperand, Node.grouped, hnode]
    have hshort : tree.spell.length ≤ n := by
      simp [Node.spellOperand, Node.grouped, hnode] at hlen
      omega
    rw [heq]
    refine .bind reads_current fun t ht => ?_
    rw [ht]
    refine .bind reads_advance fun _ _ => ?_
    refine .bind (hR.bare tree _ h hshort closed_paren) fun node hsame => ?_
    exact .bind (reads_expect _ _) fun _ _ => .pure node hsame
  | true =>
    cases tree with
    | int | float | string =>
      refine .bind reads_current fun t ht => ?_
      rw [ht]
      exact .bind reads_advance fun _ _ => .pure _ rfl
    | name _ name =>
      apply (reads_name hrest).weaken
      rintro _ ⟨tag, rfl⟩
      rfl
    | _ => exact Bool.noConfusion hnode

/-! ### Operands with commas between them -/

theorem eraseAll_append (xs ys : List (Node β)) :
    eraseAll (xs ++ ys) = eraseAll xs ++ eraseAll ys := by
  induction xs with
  | nil => rfl
  | cons x xs ih => simp [eraseAll, ih]

variable {close : Symbol}

section Items

variable {text : Node α → List TokenKind}

/-- Items, each written as `text` says and behind a comma. -/
def behindCommas (text : Node α → List TokenKind) (args : List (Node α)) : List TokenKind :=
  args.flatMap fun arg => .symbol .comma :: text arg

theorem behindCommas_cons (arg : Node α) (args : List (Node α)) :
    behindCommas text (arg :: args) = .symbol .comma :: (text arg ++ behindCommas text args) := rfl

theorem length_le_behindCommas (text : Node α → List TokenKind) (args : List (Node α)) :
    args.length ≤ (behindCommas text args).length := by
  induction args with
  | nil => exact Nat.le_refl _
  | cons arg args ih =>
    rw [behindCommas_cons]
    simp only [List.length_cons, List.length_append]
    omega

/-- The tokens before which an item ends. -/
def EndsItem (close : Symbol) (k : TokenKind) : Prop := k = .symbol .comma ∨ k = .symbol close

theorem endsItem_behindCommas (text : Node α → List TokenKind) (args : List (Node α))
    (rest : List TokenKind) :
    EndsItem close (headKind (behindCommas text args ++ .symbol close :: rest)) := by
  cases args with
  | nil => exact .inr rfl
  | cons => exact .inl rfl

theorem reads_argumentsFrom (hcomma : close ≠ .comma) (args : List (Node α))
    (hread : ∀ arg ∈ args, ∀ rest, EndsItem close (headKind rest) →
      Reads e (text arg ++ rest) rest (Same arg))
    (items : List (Node Span)) (m : Nat) (hm : args.length ≤ m) :
    Reads (argumentsFrom e m items) (behindCommas text args ++ .symbol close :: rest)
      (.symbol close :: rest) fun l => eraseAll l = eraseAll items ++ eraseAll args := by
  induction args generalizing items m with
  | nil =>
    cases m with
    | zero => exact .pure items (by simp [eraseAll])
    | succ m =>
      apply Reads.bind (reads_atSymbol .comma)
      intro b hb
      have hfalse : b = false := by
        rw [hb]
        exact beq_eq_false_iff_ne.mpr hcomma
      rw [hfalse]
      exact .pure items (by simp [eraseAll])
  | cons arg args ih =>
    cases m with
    | zero => exact absurd hm (Nat.not_succ_le_zero _)
    | succ m =>
      rw [behindCommas_cons, List.cons_append, List.append_assoc]
      apply Reads.bind (reads_atSymbol .comma)
      intro b hb
      subst hb
      apply Reads.bind reads_advance
      intro _ _
      apply Reads.bind (hread arg List.mem_cons_self _ (endsItem_behindCommas text args rest))
      intro item hitem
      have hrest := ih (fun a ha => hread a (List.mem_cons_of_mem _ ha)) (items ++ [item]) m
        (by simpa using hm)
      apply hrest.weaken
      intro l hl
      rw [hl, eraseAll_append]
      simp [eraseAll, hitem]

/-- No items between two brackets. -/
theorem reads_noArguments :
    Reads (arguments e close) (k :: .symbol close :: rest) rest fun l => l = [] := by
  apply Reads.bind reads_advance
  intro _ _
  apply Reads.bind (reads_atSymbol close)
  intro b hb
  have htrue : b = true := by
    rw [hb]
    exact beq_self_eq_true close
  rw [htrue]
  apply Reads.bind reads_advance
  intro _ _
  exact .pure [] rfl

/-- Items between two brackets, with commas between them. -/
theorem reads_arguments (hcomma : close ≠ .comma) (arg : Node α) (args : List (Node α))
    (hopen : ∀ rest, (headKind (text arg ++ rest)).isSymbol close = false)
    (hread : ∀ a ∈ arg :: args, ∀ rest, EndsItem close (headKind rest) →
      Reads e (text a ++ rest) rest (Same a)) :
    Reads (arguments e close)
      (k :: (text arg ++ (behindCommas text args ++ .symbol close :: rest))) rest
      fun l => eraseAll l = eraseAll (arg :: args) := by
  apply Reads.bind reads_advance
  intro _ _
  apply Reads.bind (reads_atSymbol close)
  intro b hb
  rw [hopen] at hb
  rw [hb]
  have hfirst := hread arg List.mem_cons_self _ (endsItem_behindCommas text args rest)
  apply Reads.bind (hfirst.orExpected _)
  intro item hitem
  apply Reads.bind reads_remaining
  intro m hm
  have hlength : args.length ≤ m := by
    have := length_le_behindCommas text args
    rw [hm, List.length_append]
    omega
  apply Reads.bind (reads_argumentsFrom hcomma args
    (fun a ha => hread a (List.mem_cons_of_mem _ ha)) [item] m hlength)
  intro items hitems
  apply Reads.bind (reads_expect _ _)
  intro _ _
  refine .pure items ?_
  rw [hitems]
  simp [eraseAll, hitem]

end Items

theorem spellMoreArgs_eq (args : List (Node α)) :
    spellMoreArgs args = behindCommas Node.spellOperand args := by
  induction args with
  | nil => rfl
  | cons arg args ih => rw [spellMoreArgs, behindCommas_cons, ih, Node.grouped_spell]

theorem allFit_mem {role : Role} {args : List (Node α)} (h : allFit role args = true)
    {arg : Node α} (harg : arg ∈ args) : arg.fits role = true := by
  induction args with
  | nil => exact nomatch harg
  | cons a args ih =>
    obtain ⟨ha, hargs⟩ := Bool.and_eq_true_iff.mp h
    rcases List.mem_cons.mp harg with rfl | harg
    · exact ha
    · exact ih hargs harg

theorem length_le_betweenCommas (text : Node α → List TokenKind) {arg : Node α}
    {args : List (Node α)} {a : Node α} (ha : a ∈ arg :: args) :
    (text a).length ≤ (text arg ++ behindCommas text args).length := by
  induction args generalizing arg with
  | nil => simp_all
  | cons b args ih =>
    rw [behindCommas_cons]
    simp only [List.length_append, List.length_cons]
    rcases List.mem_cons.mp ha with rfl | ha
    · omega
    · have := ih ha
      simp only [List.length_append] at this
      omega

theorem Reader.arguments (hR : Reader α e n) (hclose : close = .rightParen ∨ close = .rightSquare)
    (args : List (Node α)) (hfit : allFit .expression args = true)
    (hlen : (spellArgs args).length ≤ n) :
    Reads (arguments e close) (k :: (spellArgs args ++ .symbol close :: rest)) rest fun l =>
      eraseAll l = eraseAll args := by
  have hcomma : close ≠ .comma := by rcases hclose with rfl | rfl <;> exact nofun
  have hfinal : ∀ k, EndsItem close k → Final k := by
    rintro k (rfl | rfl)
    · exact ⟨rfl, rfl, rfl, rfl, rfl, rfl, rfl⟩
    · rcases hclose with rfl | rfl <;> exact ⟨rfl, rfl, rfl, rfl, rfl, rfl, rfl⟩
  cases args with
  | nil => exact reads_noArguments.weaken fun l hl => by rw [hl]; rfl
  | cons arg args =>
    have heq : spellArgs (arg :: args) =
        arg.spellOperand ++ behindCommas Node.spellOperand args := by
      rw [spellArgs, spellMoreArgs_eq, Node.grouped_spell]
    rw [heq] at hlen ⊢
    rw [List.append_assoc]
    apply reads_arguments hcomma arg args
    · intro rest
      have hstarts : starts (headKind (arg.spellOperand ++ rest)) = true :=
        starts_spellOperand (allFit_mem hfit List.mem_cons_self)
      generalize headKind _ = k at hstarts
      rcases hclose with rfl | rfl <;>
      · cases k with
        | symbol s => cases s <;> first | rfl | exact Bool.noConfusion hstarts
        | _ => rfl
    · intro a ha rest hrest
      have hshort := length_le_betweenCommas Node.spellOperand ha
      exact hR.operand a rest (allFit_mem hfit ha) (Nat.le_trans hshort hlen) (hfinal _ hrest)

/-! ### Statements -/

variable {ks' : List TokenKind} {P : Node Span → Prop}

/-- Where no other statement starts, an expression is read, and what it is decides
how it goes on. -/
theorem reads_statement {Q : Node Span → Prop} {ks'' : List TokenKind} (hks : Plain ks)
    (he : Reads e ks ks' P)
    (hrest : ∀ node start, P node → Reads (do
      match node, (← current).kind with
      | .getAttr _ object name, .symbol .colon =>
        let _ ← advance
        let value ← e
        return .setAttr (← spanFrom start) object name value
      | node, _ => return node) ks' ks'' Q) : Reads (statement e) ks ks'' Q := by
  refine .bind reads_current fun t ht => .bind reads_following fun u hu => ?_
  have hdefault := Reads.bind (he.orExpected .statement) fun node hnode =>
    hrest node t.span.start hnode
  obtain ⟨hassign, hret, hcontinue, hbreak⟩ := hks
  rw [← ht] at hassign hret hcontinue hbreak
  rw [← hu] at hassign
  split
  · next _ heq => exact absurd heq hret
  · next _ heq => exact absurd heq hcontinue
  · next _ heq => exact absurd heq hbreak
  · next name heq hcolon => exact absurd hcolon (hassign name heq)
  · exact hdefault

/-- An expression that is a statement. -/
theorem reads_statement_expression (hks : Plain ks) (he : Reads e ks ks' P)
    (hk : headKind ks' ≠ .symbol .colon) : Reads (statement e) ks ks' P := by
  refine reads_statement hks he fun node start hnode => .bind reads_current fun t ht => ?_
  rw [← ht] at hk
  split
  · next heq => exact absurd heq hk
  · exact .pure _ hnode

theorem Closing.ne_colon (h : Closing k) : k ≠ .symbol .colon := by
  cases h <;> exact nofun

theorem Reader.statement (hR : Reader α e n) (h : tree.fits .statement = true)
    (hlen : tree.spell.length ≤ n) (hrest : Closed rest) :
    Reads (statement e) (tree.spell ++ rest) rest (Same tree) := by
  have hfinal := hrest.closing.final
  have hexpression (hfits : tree.fits .expression = true) :
      Reads (Parser.statement e) (tree.spell ++ rest) rest (Same tree) :=
    reads_statement_expression (plain_spell hfits hrest.closing.ne_colon)
      (hR.bare tree rest hfits hlen hrest) hrest.closing.ne_colon
  cases tree with
  | ret _ value =>
    refine .bind reads_current fun t ht => .bind reads_following fun u hu => ?_
    cases value with
    | none =>
      rw [ht]
      refine .bind reads_advance fun _ _ => ?_
      refine .bind (hR.rejects rest hrest.closing).attempt fun value hvalue => ?_
      subst hvalue
      exact .bind (reads_spanFrom _) fun _ _ => .pure _ rfl
    | some value =>
      simp only [Node.fits, Bool.and_eq_true] at h
      simp only [Node.spell, List.length_cons] at hlen
      rw [ht]
      refine .bind reads_advance fun _ _ => ?_
      have hvalue := hR.operand value rest h.2 (Nat.le_of_succ_le hlen) hfinal
      refine .bind hvalue.attempt fun value' hvalue' => ?_
      obtain ⟨node, rfl, hnode⟩ := hvalue'
      refine .bind (reads_spanFrom _) fun _ _ => .pure _ ?_
      simp [Same, Node.erase, hnode]
  | exit _ exit =>
    refine .bind reads_current fun t ht => .bind reads_following fun u hu => ?_
    cases exit <;>
    · rw [ht]
      exact .bind reads_advance fun _ _ => .pure _ rfl
  | assign _ name value =>
    simp only [Node.fits, Bool.and_eq_true] at h
    simp only [Node.spell, Node.grouped_spell, List.length_cons] at hlen
    refine .bind reads_current fun t ht => .bind reads_following fun u hu => ?_
    rw [ht, hu]
    refine .bind reads_advance fun _ _ => .bind reads_advance fun _ _ => ?_
    have hvalue := hR.operand value rest h.2 (by omega) hfinal
    refine .bind hvalue fun node hnode => .bind (reads_spanFrom _) fun _ _ => .pure _ ?_
    simp [Same, Node.erase, hnode]
  | setAttr tag object name value =>
    simp only [Node.fits, Bool.and_eq_true] at h
    simp only [Node.spell, Node.grouped_spell, List.length_append, List.length_cons] at hlen
    have heq : Node.spell (.setAttr tag object name value) ++ rest = object.spellOperand ++
        .symbol .dot :: .ident name :: .symbol .colon :: (value.spellOperand ++ rest) := by
      simp [Node.spell, Node.spellOperand]
    rw [heq]
    have hvalue := hR.operand value rest h.2 (by omega) hfinal
    refine reads_statement (plain_spellOperand h.1.2 (by simp))
      (hR.attr object name _ h.1.2 (by omega) ⟨rfl, rfl, rfl, rfl, rfl, rfl, rfl⟩) ?_
    rintro _ start ⟨tag, o, rfl, ho⟩
    refine .bind reads_current fun t ht => ?_
    rw [ht]
    refine .bind reads_advance fun _ _ => .bind hvalue fun node hnode => ?_
    refine .bind (reads_spanFrom _) fun _ _ => .pure _ ?_
    simp [Same, Node.erase, ho, hnode]
  | block => simp [Node.fits] at h
  | _ => exact hexpression h

/-! ### Sequences -/

theorem dropWhile_of_starts (h : starts (headKind ks) = true) :
    ks.dropWhile TokenKind.isNewline = ks := by
  cases ks with
  | nil => rfl
  | cons k ks =>
    have hk : k.isNewline = false := by
      cases k <;> first | rfl | exact Bool.noConfusion h
    exact List.dropWhile_cons_of_neg (by simp [hk])

theorem Reader.rejects_statement (hR : Reader α e n) (h : Closing (headKind ks)) :
    Rejects (Parser.statement e) ks := by
  have hdefault := (hR.rejects ks h).orExpected .statement
  refine Reads.bind_rejects reads_current fun t ht => ?_
  refine Reads.bind_rejects reads_following fun u _ => ?_
  rw [ht]
  generalize headKind ks = k at h
  cases h <;> exact .bind hdefault

/-- A statement that others follow, each on a line of its own. -/
theorem closed_spellMoreLines {items : List (Node α)} (hfit : allFit .statement items = true)
    (hrest : Closed rest) : Closed (spellMoreLines items ++ rest) := by
  cases items with
  | nil => exact hrest
  | cons item items =>
    simp only [allFit, Bool.and_eq_true] at hfit
    simp only [spellMoreLines, List.cons_append, List.append_assoc]
    exact closed_newline (starts_spell hfit.1 nofun)

/-- Line breaks before a statement do not matter. -/
theorem dropWhile_spellMoreLines (items : List (Node α)) :
    (spellMoreLines items ++ rest).dropWhile TokenKind.isNewline =
      (spellLines items ++ rest).dropWhile TokenKind.isNewline := by
  cases items with
  | nil => rfl
  | cons item items =>
    simp only [spellMoreLines, List.cons_append]
    exact List.dropWhile_cons_of_pos rfl

theorem Reader.statementsFrom (hR : Reader α e n) (items : List (Node α))
    (hfit : allFit .statement items = true) (hlen : (spellLines items).length ≤ n)
    (hrest : Closed rest) (hend : Closing (headKind (rest.dropWhile TokenKind.isNewline)))
    (hks : ks.dropWhile TokenKind.isNewline =
      (spellLines items ++ rest).dropWhile TokenKind.isNewline)
    (done : List (Node Span)) (m : Nat) (hm : items.length < m) :
    Reads (statementsFrom e m done) ks (rest.dropWhile TokenKind.isNewline) fun l =>
      eraseAll l = eraseAll done ++ eraseAll items := by
  obtain ⟨m, rfl⟩ := Nat.exists_eq_succ_of_ne_zero (Nat.ne_zero_of_lt hm)
  induction items generalizing ks done m with
  | nil =>
    refine .bind (hks ▸ reads_skipNewlines) fun _ _ => ?_
    refine .bind (hR.rejects_statement hend).attempt fun item hitem => ?_
    subst hitem
    exact .pure done (by simp [eraseAll])
  | cons item items ih =>
    simp only [allFit, Bool.and_eq_true] at hfit
    simp only [spellLines, List.length_append] at hlen
    have hmore : (spellLines items).length ≤ (spellMoreLines items).length := by
      cases items <;> simp [spellLines, spellMoreLines]
    have hstart : (spellLines (item :: items) ++ rest).dropWhile TokenKind.isNewline =
        item.spell ++ (spellMoreLines items ++ rest) := by
      simp only [spellLines, List.append_assoc]
      exact dropWhile_of_starts (starts_spell hfit.1 nofun)
    rw [hstart] at hks
    refine .bind (hks ▸ reads_skipNewlines) fun _ _ => ?_
    have hitem := hR.statement hfit.1 (by omega) (closed_spellMoreLines hfit.2 hrest)
    refine .bind hitem.attempt fun found hfound => ?_
    obtain ⟨node, rfl, hnode⟩ := hfound
    have hdone : eraseAll (done ++ [node]) ++ eraseAll items =
        eraseAll done ++ eraseAll (item :: items) := by
      simp [eraseAll_append, eraseAll, hnode]
    refine .bind reads_atNewline fun b hb => ?_
    cases b with
    | true =>
      obtain ⟨m, rfl⟩ : ∃ m', m = m' + 1 := ⟨m - 1, by simp at hm; omega⟩
      refine (ih hfit.2 (by omega) (dropWhile_spellMoreLines items) (done ++ [node]) m
        (by simpa using hm)).weaken fun l hl => ?_
      rw [hl, hdone]
    | false =>
      cases items with
      | nil =>
        have hkeep : rest.dropWhile TokenKind.isNewline = rest := by
          cases rest with
          | nil => rfl
          | cons k rest => exact List.dropWhile_cons_of_neg (by simpa [spellMoreLines] using hb.symm)
        rw [hkeep]
        exact .pure _ (by rw [← hdone]; simp [eraseAll])
      | cons => exact Bool.noConfusion hb

theorem length_le_spellLines (items : List (Node α)) (hfit : allFit .statement items = true) :
    items.length ≤ (spellLines items).length := by
  have hmore : ∀ items : List (Node α), items.length ≤ (spellMoreLines items).length := by
    intro items
    induction items with
    | nil => simp
    | cons item items ih =>
      simp only [spellMoreLines, List.length_cons, List.length_append]
      omega
  cases items with
  | nil => simp
  | cons item items =>
    simp only [allFit, Bool.and_eq_true] at hfit
    have hitem := List.length_pos_iff.mpr (spell_ne_nil hfit.1 nofun)
    have hitems := hmore items
    simp only [spellLines, List.length_cons, List.length_append]
    omega

/-- A sequence of statements is read as a block. -/
theorem Reader.statements (hR : Reader α e n) (items : List (Node α))
    (hfit : allFit .statement items = true) (hlen : (spellLines items).length ≤ n)
    (hrest : Closed rest) (hend : Closing (headKind (rest.dropWhile TokenKind.isNewline)))
    (hks : ks.dropWhile TokenKind.isNewline =
      (spellLines items ++ rest).dropWhile TokenKind.isNewline)
    (hlong : items.length ≤ ks.length) (tag : α) :
    Reads (statements e) ks (rest.dropWhile TokenKind.isNewline) (Same (.block tag items)) := by
  refine .bind reads_current fun t _ => .bind reads_remaining fun m hm => ?_
  subst hm
  refine .bind (hR.statementsFrom items hfit hlen hrest hend hks [] _ (by omega))
    fun l hl => .pure _ ?_
  exact Node.erase_block_congr (by simpa [eraseAll] using hl)

/-! ### Bodies -/

theorem closed_end : Closed (.newline :: .symbol .rightBrace :: ks) := ⟨.newline, rfl, rfl⟩

/-- A block on lines of its own, up to the brace behind it. -/
theorem Reader.block (hR : Reader α e n) (h : tree.fits .block = true)
    (hlen : tree.spell.length ≤ n) (hks : ks = tree.spell ++ .newline :: .symbol .rightBrace :: rest ∨
      ks = .newline :: (tree.spell ++ .newline :: .symbol .rightBrace :: rest)) :
    Reads (Parser.statements e) ks (.symbol .rightBrace :: rest) (Same tree) := by
  obtain ⟨tag, items, rfl, hitems⟩ := Node.eq_block_of_fits h
  have hlong := length_le_spellLines items hitems
  refine hR.statements items hitems hlen closed_end .brace ?_ ?_ tag
  · rcases hks with rfl | rfl
    · rfl
    · exact List.dropWhile_cons_of_pos rfl
  · rcases hks with rfl | rfl <;>
    · simp only [Node.spell, List.length_cons, List.length_append]
      omega

theorem Reader.branchBody (hR : Reader α e n) {body : Body α} (h : body.fits = true)
    (hlen : body.spellBraced.length ≤ n) :
    Reads (branchBody e) (body.spellBraced ++ rest) rest fun b => b.erase = body.erase := by
  obtain ⟨tree, emitsNull⟩ := body
  cases emitsNull with
  | true =>
    simp only [Body.spellBraced, List.length_cons, List.length_append] at hlen
    have heq : (Body.mk tree true).spellBraced ++ rest = .symbol .leftBrace :: .newline ::
        (tree.spell ++ .newline :: .symbol .rightBrace :: rest) := by
      simp [Body.spellBraced]
    rw [heq]
    refine .bind reads_current fun t ht => ?_
    rw [ht]
    refine .bind reads_advance fun _ _ => .bind reads_atNewline fun b hb => ?_
    subst hb
    refine .bind reads_advance fun _ _ => ?_
    refine .bind (hR.block h (by omega) (.inl rfl)) fun node hnode => ?_
    have hbody : (Body.mk node true).erase = (Body.mk tree true).erase := by
      simp [Body.erase, hnode]
    refine .bind (.pure (P := fun b => b.erase = _) _ hbody) fun body hbody => ?_
    exact .bind reads_skipNewlines fun _ _ => .bind (reads_expect _ _) fun _ _ => .pure body hbody
  | false =>
    simp only [Body.spellBraced, List.length_cons, List.length_append] at hlen
    have heq : (Body.mk tree false).spellBraced ++ rest = .symbol .leftBrace ::
        (tree.spell ++ .symbol .rightBrace :: rest) := by
      simp [Body.spellBraced]
    rw [heq]
    refine .bind reads_current fun t ht => ?_
    rw [ht]
    refine .bind reads_advance fun _ _ => .bind reads_atNewline fun b hb => ?_
    have hfalse : b = false := by
      have hstarts : starts (headKind (tree.spell ++ .symbol .rightBrace :: rest)) = true :=
        starts_spell h nofun
      rw [hb]
      generalize headKind _ = k at hstarts
      cases k <;> first | rfl | exact Bool.noConfusion hstarts
    rw [hfalse]
    refine .bind (hR.statement h (by omega) closed_brace) fun node hnode => ?_
    have hbody : (Body.mk node false).erase = (Body.mk tree false).erase := by
      simp [Body.erase, hnode]
    refine .bind (.pure (P := fun b => b.erase = _) _ hbody) fun body hbody => ?_
    exact .bind reads_skipNewlines fun _ _ => .bind (reads_expect _ _) fun _ _ => .pure body hbody

/-- The body of a loop, by whichever of its parsers. -/
theorem Reader.loopBody (hR : Reader α e n) {body : Body α} (h : body.fits = true)
    (hlen : body.spellLooped.length ≤ n) (hrest : Closed rest) :
    Reads (forBody e) (body.spellLooped ++ rest) rest (fun b => b.erase = body.erase) ∧
      Reads (whileBody e) (body.spellLooped ++ rest) rest fun b => b.erase = body.erase := by
  obtain ⟨tree, emitsNull⟩ := body
  cases emitsNull with
  | true =>
    simp only [Body.spellLooped, List.length_cons, List.length_append] at hlen
    have heq : (Body.mk tree true).spellLooped ++ rest = .symbol .leftBrace ::
        .newline :: (tree.spell ++ .newline :: .symbol .rightBrace :: rest) := by
      simp [Body.spellLooped]
    rw [heq]
    have hbraced : Reads (bracedBody e) (.symbol .leftBrace ::
        .newline :: (tree.spell ++ .newline :: .symbol .rightBrace :: rest)) rest
        fun b => b.erase = (Body.mk tree true).erase := by
      refine .bind reads_advance fun _ _ => ?_
      refine .bind (hR.block h (by omega) (.inr rfl)) fun node hnode => ?_
      refine .bind (reads_expect _ _) fun _ _ => .pure _ ?_
      simp [Body.erase, hnode]
    constructor <;>
    · refine .bind reads_current fun t ht => .bind reads_following fun u _ => ?_
      rw [ht]
      exact hbraced
  | false =>
    simp only [Body.spellLooped, List.length_cons] at hlen
    have heq : (Body.mk tree false).spellLooped ++ rest = .symbol .colon :: (tree.spell ++ rest) := rfl
    rw [heq]
    have hinline : Reads (inlineBody e) (.symbol .colon :: (tree.spell ++ rest)) rest
        fun b => b.erase = (Body.mk tree false).erase := by
      refine .bind reads_advance fun _ _ => ?_
      refine .bind (hR.statement h (by omega) hrest) fun node hnode => .pure _ ?_
      simp [Body.erase, hnode]
    have hnext : headKind (tree.spell ++ rest) ≠ .newline := by
      have hstarts : starts (headKind (tree.spell ++ rest)) = true := starts_spell h nofun
      intro hnewline
      rw [hnewline] at hstarts
      exact Bool.noConfusion hstarts
    constructor <;>
    · refine .bind reads_current fun t ht => .bind reads_following fun u hu => ?_
      rw [ht]
      generalize u.kind = k at hu
      cases k <;> first | exact hinline | exact absurd hu.symm hnext

/-! ### Compound forms -/

theorem eraseBranches_append (xs ys : List (Branch β)) :
    eraseBranches (xs ++ ys) = eraseBranches xs ++ eraseBranches ys := by
  induction xs with
  | nil => rfl
  | cons x xs ih =>
    cases x
    simp [eraseBranches, ih]

theorem final_spellBraced (body : Body α) : Final (headKind (body.spellBraced ++ ks)) := by
  obtain ⟨_, emitsNull⟩ := body
  cases emitsNull <;> exact ⟨rfl, rfl, rfl, rfl, rfl, rfl, rfl⟩

theorem final_spellLooped (body : Body α) : Final (headKind (body.spellLooped ++ ks)) := by
  obtain ⟨_, emitsNull⟩ := body
  cases emitsNull <;> exact ⟨rfl, rfl, rfl, rfl, rfl, rfl, rfl⟩

/-- Branches behind the word of the first, and what stands behind `else`. -/
theorem Reader.branchesFrom (hR : Reader α e n) {otherwise : Option (Body α)}
    (ho : otherwiseFits otherwise = true) (hrest : Closed rest) (condition : Node α) (body : Body α)
    (branches : List (Branch α)) (hc : condition.fits .expression = true) (hb : body.fits = true)
    (hfit : branchesFit branches = true)
    (hlen : (condition.spellOperand ++ (body.spellBraced ++
      (spellBranches .elif branches ++ spellOtherwise otherwise))).length ≤ n)
    (done : List (Branch Span)) (m : Nat) (hm : branches.length < m) :
    Reads (branchesFrom e m done) (condition.spellOperand ++ (body.spellBraced ++
        (spellBranches .elif branches ++ spellOtherwise otherwise)) ++ rest) rest
      fun r => eraseBranches r.1 = eraseBranches done ++
          eraseBranches (.mk condition body :: branches) ∧
        eraseOtherwise r.2 = eraseOtherwise otherwise := by
  obtain ⟨m, rfl⟩ := Nat.exists_eq_succ_of_ne_zero (Nat.ne_zero_of_lt hm)
  induction branches generalizing condition body done m with
  | nil =>
    simp only [List.length_append, spellBranches, List.nil_append] at hlen ⊢
    rw [List.append_assoc, List.append_assoc]
    refine .bind (hR.operand condition _ hc (by omega) (final_spellBraced body)) fun c hc' => ?_
    refine .bind (hR.branchBody hb (by omega)) fun b hb' => ?_
    refine .bind reads_get fun s hs => .bind reads_skipNewlines fun _ _ => ?_
    refine .bind (reads_atKeyword .elif) fun found hfound => ?_
    have hdone : eraseBranches (done ++ [.mk c b]) =
        eraseBranches done ++ eraseBranches [.mk condition body] := by
      simp [eraseBranches_append, eraseBranches, hc', hb']
    cases otherwise with
    | none =>
      have hfalse : found = false := hfound.trans hrest.elif
      rw [hfalse]
      refine .bind (reads_atKeyword .elseWord) fun found hfound => ?_
      have hfalse : found = false := hfound.trans hrest.otherwise
      rw [hfalse]
      exact .bind (reads_rewind hs) fun _ _ => .pure _ ⟨hdone, rfl⟩
    | some final =>
      simp only [spellOtherwise, List.length_cons] at hlen
      have hfalse : found = false := hfound
      rw [hfalse]
      refine .bind (reads_atKeyword .elseWord) fun found hfound => ?_
      have htrue : found = true := hfound
      rw [htrue]
      refine .bind reads_advance fun _ _ => ?_
      refine .bind (hR.branchBody ho (by omega)) fun final' hfinal => .pure _ ⟨hdone, ?_⟩
      simp [eraseOtherwise, hfinal]
  | cons branch branches ih =>
    obtain ⟨condition', body'⟩ := branch
    simp only [branchesFit, Bool.and_eq_true] at hfit
    simp only [List.length_append, spellBranches, List.length_cons, Node.grouped_spell] at hlen
    have heq : spellBranches .elif (.mk condition' body' :: branches) = .keyword .elif ::
        (condition'.spellOperand ++ (body'.spellBraced ++ spellBranches .elif branches)) := rfl
    simp only [heq, List.append_assoc, List.cons_append]
    refine .bind (hR.operand condition _ hc (by omega) (final_spellBraced body)) fun c hc' => ?_
    refine .bind (hR.branchBody hb (by omega)) fun b hb' => ?_
    refine .bind reads_get fun _ _ => .bind reads_skipNewlines fun _ _ => ?_
    refine .bind (reads_atKeyword .elif) fun found hfound => ?_
    have htrue : found = true := hfound
    rw [htrue]
    refine .bind reads_advance fun _ _ => ?_
    obtain ⟨m, rfl⟩ : ∃ m', m = m' + 1 := ⟨m - 1, by simp at hm; omega⟩
    have hnext := ih condition' body' hfit.1.1 hfit.1.2 hfit.2
      (by simp only [List.length_append]; omega) (done ++ [.mk c b]) m (by simpa using hm)
    simp only [List.append_assoc] at hnext
    refine hnext.weaken fun r hr => ⟨?_, hr.2⟩
    rw [hr.1]
    simp [eraseBranches_append, eraseBranches, hc', hb']

theorem ofWord?_word (type : DeclaredType) : DeclaredType.ofWord? type.word = some type := by
  cases type <;> decide

theorem reads_paramsFrom (param : Param α) (params : List (Param α)) (done : List (Param Span))
    (m : Nat) (hm : params.length < m) :
    Reads (paramsFrom m done) (spellParams (param :: params) ++ .symbol .rightParen :: rest)
      (.symbol .rightParen :: rest) fun l =>
        l.map Param.erase = done.map Param.erase ++ (param :: params).map Param.erase := by
  obtain ⟨m, rfl⟩ := Nat.exists_eq_succ_of_ne_zero (Nat.ne_zero_of_lt hm)
  induction params generalizing param done m with
  | nil =>
    refine .bind reads_current fun t ht => ?_
    rw [ht]
    simp only [spellParams, List.cons_append, headKind_cons, TokenKind.ident?, Option.bind_some,
      ofWord?_word]
    refine .bind reads_advance fun _ _ => .bind (reads_expectIdent _ _) fun r hr => ?_
    refine .bind (reads_atSymbol .comma) fun b hb => ?_
    have hfalse : b = false := hb
    rw [hfalse]
    refine .pure _ ?_
    simp [Param.erase, hr]
  | cons param' params ih =>
    refine .bind reads_current fun t ht => ?_
    rw [ht]
    simp only [spellParams, List.cons_append, headKind_cons, TokenKind.ident?, Option.bind_some,
      ofWord?_word]
    refine .bind reads_advance fun _ _ => .bind (reads_expectIdent _ _) fun r hr => ?_
    refine .bind (reads_atSymbol .comma) fun b hb => ?_
    have htrue : b = true := hb
    rw [htrue]
    refine .bind reads_advance fun _ _ => ?_
    obtain ⟨m, rfl⟩ : ∃ m', m = m' + 1 := ⟨m - 1, by simp at hm; omega⟩
    refine (ih param' _ m (by simpa using hm)).weaken fun l hl => ?_
    rw [hl]
    simp [Param.erase, hr]

theorem length_le_spellParams (params : List (Param α)) :
    params.length ≤ (spellParams params).length := by
  induction params with
  | nil => simp
  | cons param params ih =>
    cases params with
    | nil => simp [spellParams]
    | cons =>
      simp only [spellParams, List.length_cons] at ih ⊢
      omega

/-- The parameters of a function, in their parentheses. -/
theorem reads_params (params : List (Param α)) {f : List (Param Span) → Parser β}
    {R : β → Prop} {ks' : List TokenKind}
    (hf : ∀ l, l.map Param.erase = params.map Param.erase →
      Reads (f l) (.symbol .rightParen :: rest) ks' R) :
    Reads (do
      let params ←
        if ← atSymbol .rightParen then pure [] else paramsFrom ((← remaining) + 1) []
      f params) (spellParams params ++ .symbol .rightParen :: rest) ks' R := by
  refine .bind (reads_atSymbol .rightParen) fun b hb => ?_
  cases params with
  | nil =>
    have htrue : b = true := hb
    rw [htrue]
    exact hf [] rfl
  | cons param params =>
    have hfalse : b = false := by
      cases params <;> exact hb
    rw [hfalse]
    refine .bind reads_remaining fun m hm => ?_
    have hlong := length_le_spellParams (param :: params)
    refine .bind (reads_paramsFrom param params [] (m + 1) ?_) fun l hl => hf l hl
    simp only [hm, List.length_append, List.length_cons] at hlong ⊢
    omega

/-- What stands behind the parameters of a function, and behind it. -/
def functionEnd (body : Node α) (autoReturn : Bool) (rest : List TokenKind) : List TokenKind :=
  if autoReturn then .symbol .arrow :: (body.spellOperand ++ rest)
  else .symbol .leftBrace :: .newline :: (body.spell ++ .newline :: .symbol .rightBrace :: rest)

theorem Reader.functionBody (hR : Reader α e n) (start : Position) {autoReturn : Bool}
    (h : tree.fits (if autoReturn then .expression else .block) = true)
    (hlen : tree.spellOperand.length ≤ n) (hrest : Final (headKind rest)) :
    Reads (functionBody e start) (functionEnd tree autoReturn rest) rest fun r =>
      Same tree r.1 ∧ r.2 = autoReturn := by
  cases autoReturn with
  | true =>
    refine .bind reads_current fun t ht => ?_
    rw [ht]
    refine .bind reads_advance fun _ _ => ?_
    exact .bind (hR.operand tree rest h hlen hrest) fun node hnode => .pure _ ⟨hnode, rfl⟩
  | false =>
    have hshort := Nat.le_trans (spellOperand_length_le tree) hlen
    refine .bind reads_current fun t ht => ?_
    rw [ht]
    refine .bind reads_advance fun _ _ => .bind reads_atNewline fun b hb => ?_
    have htrue : b = true := hb
    rw [htrue]
    refine .bind reads_advance fun _ _ => ?_
    refine .bind (hR.block h hshort (.inl rfl)) fun node hnode => ?_
    refine .bind reads_skipNewlines fun _ _ => .bind reads_current fun t ht => ?_
    rw [ht]
    exact .bind reads_advance fun _ _ => .pure _ ⟨hnode, rfl⟩

theorem Reader.function (hR : Reader α e n) {definition : FuncDef α} (h : definition.fits = true)
    (hlen : definition.spell.length ≤ n + 1) (hrest : Final (headKind rest)) :
    Reads (function e) (definition.spell ++ rest) rest fun d => d.erase = definition.erase := by
  obtain ⟨name, params, body, autoReturn⟩ := definition
  have hshort : body.spellOperand.length ≤ n := by
    have hgroup := spellOperand_length_le_add body
    cases autoReturn <;>
    · simp only [FuncDef.spell, Node.grouped_spell, List.length_cons, List.length_append] at hlen
      omega
  have heq : (FuncDef.mk name params body autoReturn).spell ++ rest = .keyword .func ::
      (spellName name ++ .symbol .leftParen :: (spellParams params ++ .symbol .rightParen ::
        functionEnd body autoReturn rest)) := by
    cases autoReturn <;> simp [FuncDef.spell, Node.grouped_spell, functionEnd]
  rw [heq]
  refine .bind reads_advance fun t _ => .bind reads_current fun u hu => ?_
  have hparams : Reads (do
      let params ←
        if ← atSymbol .rightParen then pure [] else paramsFrom ((← remaining) + 1) []
      let _ ← expect .rightParen .parameterEnd
      let r ← Parser.functionBody e t.span.start
      return FuncDef.mk name params r.1 r.2)
      (spellParams params ++ .symbol .rightParen :: functionEnd body autoReturn rest) rest
      fun d => d.erase = (FuncDef.mk name params body autoReturn).erase := by
    refine reads_params params fun l hl => .bind (reads_expect _ _) fun _ _ => ?_
    refine .bind (hR.functionBody _ h hshort hrest) fun r hr => .pure _ ?_
    simp [FuncDef.erase, hl, hr.1, hr.2]
  cases name with
  | none =>
    rw [hu]
    exact .bind (reads_expect _ _) fun _ _ => hparams
  | some name =>
    rw [hu]
    exact .bind reads_advance fun _ _ => .bind (reads_expect _ _) fun _ _ => hparams

theorem eraseMethods_append (xs ys : List (FuncDef β)) :
    eraseMethods (xs ++ ys) = eraseMethods xs ++ eraseMethods ys := by
  induction xs with
  | nil => rfl
  | cons x xs ih => simp [eraseMethods, ih]

theorem name_erase (definition : FuncDef β) : definition.erase.name = definition.name := by
  cases definition
  simp [FuncDef.erase, FuncDef.name]

theorem spell_method (method : FuncDef α) : ∃ ks, method.spell = .keyword .func :: ks := by
  obtain ⟨_, _, _, autoReturn⟩ := method
  cases autoReturn <;> exact ⟨_, rfl⟩

theorem dropWhile_spellMethods (methods : List (FuncDef α)) :
    (TokenKind.newline :: (spellMethods methods ++ .symbol .rightBrace :: rest)).dropWhile
      TokenKind.isNewline = spellMethods methods ++ .symbol .rightBrace :: rest := by
  cases methods with
  | nil => rfl
  | cons method methods =>
    obtain ⟨ks, heq⟩ := spell_method method
    simp only [spellMethods, heq, List.cons_append]
    rfl

theorem Reader.methodsFrom (hR : Reader α e n) (methods : List (FuncDef α))
    (hfit : methodsFit methods = true) (hlen : (spellMethods methods).length ≤ n + 1)
    (hks : ks.dropWhile TokenKind.isNewline = spellMethods methods ++ .symbol .rightBrace :: rest)
    (done : List (FuncDef Span)) (m : Nat) (hm : methods.length < m) :
    Reads (methodsFrom e true m done) ks rest fun l =>
      eraseMethods l = eraseMethods done ++ eraseMethods methods := by
  obtain ⟨m, rfl⟩ := Nat.exists_eq_succ_of_ne_zero (Nat.ne_zero_of_lt hm)
  induction methods generalizing ks done m with
  | nil =>
    refine .bind (hks ▸ reads_skipNewlines) fun _ _ => .bind reads_current fun t ht => ?_
    rw [ht]
    exact .bind reads_advance fun _ _ => .pure done (by simp [eraseMethods])
  | cons method methods ih =>
    simp only [methodsFit, Bool.and_eq_true] at hfit
    simp only [spellMethods, List.length_append, List.length_cons] at hlen
    have hnext : ks.dropWhile TokenKind.isNewline =
        method.spell ++ .newline :: (spellMethods methods ++ .symbol .rightBrace :: rest) := by
      rw [hks]
      simp [spellMethods]
    refine .bind (hnext ▸ reads_skipNewlines) fun _ _ => .bind reads_current fun t ht => ?_
    have hfunc : t.kind = .keyword .func := by
      obtain ⟨ks, heq⟩ := spell_method method
      rw [ht, heq]
      rfl
    rw [hfunc]
    refine .bind (hR.function hfit.1.2 (by omega) ⟨rfl, rfl, rfl, rfl, rfl, rfl, rfl⟩)
      fun d hd => ?_
    have hnamed : d.name.isNone = false := by
      rw [← name_erase, hd, name_erase]
      simpa using hfit.1.1
    rw [hnamed]
    obtain ⟨m, rfl⟩ : ∃ m', m = m' + 1 := ⟨m - 1, by simp at hm; omega⟩
    refine (ih hfit.2 (by omega) (dropWhile_spellMethods methods) (done ++ [d]) m
      (by simpa using hm)).weaken fun l hl => ?_
    rw [hl]
    simp [eraseMethods_append, eraseMethods, hd]

theorem length_le_spellMethods (methods : List (FuncDef α)) :
    methods.length ≤ (spellMethods methods).length := by
  induction methods with
  | nil => simp
  | cons method methods ih =>
    simp only [spellMethods, List.length_cons, List.length_append]
    omega

theorem Reader.classDefinition (hR : Reader α e n) {name : String} {parent : Option String}
    {methods : List (FuncDef α)} (tag : α) (hfit : methodsFit methods = true)
    (hlen : (spellMethods methods).length ≤ n + 1) :
    Reads (classDefinition e) (Node.spell (.cls tag name parent methods) ++ rest) rest
      (Same (.cls tag name parent methods)) := by
  have heq : Node.spell (.cls tag name parent methods) ++ rest = .ident "class" :: .ident name ::
      (spellParent parent ++ .symbol .leftBrace :: .newline ::
        (spellMethods methods ++ .symbol .rightBrace :: rest)) := by
    simp [Node.spell]
  rw [heq]
  refine .bind reads_advance fun t _ => .bind (reads_expectIdent _ _) fun r hr => ?_
  have hbody : Reads (do
      let kind := (← current).kind
      if !(kind.isSymbol .leftBrace || kind.isSymbol .colon) then
        raiseHere .colonOrBrace
      let _ ← advance
      let methods ← Parser.methodsFrom e (kind.isSymbol .leftBrace) ((← remaining) + 1) []
      return Node.cls (← spanFrom t.span.start) r.1 parent methods) (.symbol .leftBrace :: .newline ::
        (spellMethods methods ++ .symbol .rightBrace :: rest)) rest
      (Same (.cls tag name parent methods)) := by
    refine .bind reads_current fun u hu => ?_
    rw [hu]
    refine .bind reads_advance fun _ _ => .bind reads_remaining fun m hm => ?_
    have hlong := length_le_spellMethods methods
    refine .bind (hR.methodsFrom methods hfit hlen (dropWhile_spellMethods methods) [] _ ?_)
      fun l hl => .bind (reads_spanFrom _) fun _ _ => .pure _ ?_
    · simp only [hm, List.length_cons, List.length_append]
      omega
    · simp [Same, Node.erase, hr, hl, eraseMethods]
  refine .bind reads_current fun u hu => ?_
  rw [hu]
  cases parent with
  | none => exact hbody
  | some parent =>
    refine .bind reads_advance fun _ _ => .bind (reads_expectIdent _ _) fun p hp => ?_
    rw [hp]
    exact hbody

theorem length_le_spellBranches (word : Keyword) (branches : List (Branch α)) :
    branches.length ≤ (spellBranches word branches).length := by
  induction branches generalizing word with
  | nil => simp
  | cons branch branches ih =>
    cases branch
    have hbranches := ih .elif
    simp only [spellBranches, List.length_cons, List.length_append]
    omega

theorem Reader.conditional (hR : Reader α e n) {branches : List (Branch α)}
    {otherwise : Option (Body α)} (tag : α) (h : Node.fits .expression (.cond tag branches otherwise) = true)
    (hlen : (Node.spell (.cond tag branches otherwise)).length ≤ n + 1) (hrest : Closed rest) :
    Reads (conditional e) (Node.spell (.cond tag branches otherwise) ++ rest) rest
      (Same (.cond tag branches otherwise)) := by
  simp only [Node.fits, Bool.and_eq_true] at h
  cases branches with
  | nil => simp at h
  | cons branch branches =>
    obtain ⟨condition, body⟩ := branch
    obtain ⟨⟨_, hbranches⟩, hotherwise⟩ := h
    simp only [branchesFit, Bool.and_eq_true] at hbranches
    obtain ⟨⟨hc, hb⟩, hfit⟩ := hbranches
    have heq : Node.spell (.cond tag (.mk condition body :: branches) otherwise) =
        .keyword .ifWord :: (condition.spellOperand ++ (body.spellBraced ++
          (spellBranches .elif branches ++ spellOtherwise otherwise))) := by
      simp [Node.spell, spellBranches, Node.grouped_spell]
    rw [heq] at hlen ⊢
    rw [List.cons_append]
    refine .bind reads_advance fun _ _ => .bind reads_remaining fun m hm => ?_
    have hlong := length_le_spellBranches .elif branches
    refine .bind (hR.branchesFrom hotherwise hrest condition body branches hc hb hfit
      (Nat.le_of_succ_le_succ hlen) [] _ ?_) fun r hr => ?_
    · simp only [hm, List.length_append]
      omega
    · refine .bind (reads_spanFrom _) fun _ _ => .pure _ ?_
      simp [Same, Node.erase, hr.1, hr.2, eraseBranches]

theorem final_spellStep (step : Option (Node α)) (body : Body α) :
    Final (headKind (spellStep step ++ (body.spellLooped ++ ks))) := by
  cases step with
  | none => exact final_spellLooped body
  | some node => exact ⟨rfl, rfl, rfl, rfl, rfl, rfl, rfl⟩

theorem Reader.forLoop (hR : Reader α e n) {counter : String} {start stop : Node α}
    {step : Option (Node α)} {body : Body α} (tag : α)
    (h : Node.fits .expression (.forLoop tag counter start stop step body) = true)
    (hlen : (Node.spell (.forLoop tag counter start stop step body)).length ≤ n + 1)
    (hrest : Closed rest) :
    Reads (forLoop e) (Node.spell (.forLoop tag counter start stop step body) ++ rest) rest
      (Same (.forLoop tag counter start stop step body)) := by
  simp only [Node.fits, Bool.and_eq_true] at h
  obtain ⟨⟨⟨⟨_, hstart⟩, hstop⟩, hstep⟩, hbody⟩ := h
  simp only [Node.spell, Node.grouped_spell, List.length_cons, List.length_append] at hlen
  have heq : Node.spell (.forLoop tag counter start stop step body) ++ rest =
      .keyword .forWord :: .ident counter :: .symbol .equal :: (start.spellOperand ++
        .keyword .toWord :: (stop.spellOperand ++ (spellStep step ++ (body.spellLooped ++ rest)))) := by
    simp [Node.spell, Node.grouped_spell]
  rw [heq]
  refine .bind reads_advance fun t _ => .bind (reads_expectIdent _ _) fun r hr => ?_
  refine .bind (reads_expect _ _) fun _ _ => ?_
  refine .bind (hR.operand start _ hstart (by omega) ⟨rfl, rfl, rfl, rfl, rfl, rfl, rfl⟩)
    fun first hfirst => ?_
  refine .bind (reads_expectKeyword _) fun _ _ => ?_
  refine .bind (hR.operand stop _ hstop (by omega) (final_spellStep step body)) fun last hlast => ?_
  refine .bind (reads_atKeyword .step) fun b hb => ?_
  have hloop := (hR.loopBody hbody (by omega) hrest).1
  have hend : ∀ step', eraseStep step' = eraseStep step → Reads (do
      let body ← forBody e
      return Node.forLoop (← spanFrom t.span.start) r.1 first last step' body)
      (body.spellLooped ++ rest) rest (Same (.forLoop tag counter start stop step body)) := by
    intro step' hstep'
    refine .bind hloop fun body' hbody' => .bind (reads_spanFrom _) fun _ _ => .pure _ ?_
    simp [Same, Node.erase, hr, hfirst, hlast, hstep', hbody']
  cases step with
  | none =>
    have hfalse : b = false := by
      rw [hb]
      obtain ⟨_, emitsNull⟩ := body
      cases emitsNull <;> rfl
    rw [hfalse]
    exact .bind (.pure (P := fun s => eraseStep s = none) none rfl) hend
  | some node =>
    have htrue : b = true := hb
    rw [htrue]
    simp only [spellStep, Node.grouped_spell, List.length_cons] at hlen
    refine .bind reads_advance fun _ _ => ?_
    refine .bind (hR.operand node _ hstep (by omega) (final_spellLooped body)) fun by_ hby => ?_
    have hby' : eraseStep (some by_) = eraseStep (some node) := by
      simp [eraseStep, hby]
    exact .bind (.pure (P := fun s => eraseStep s = _) _ hby') hend

theorem Reader.whileLoop (hR : Reader α e n) {condition : Node α} {body : Body α} (tag : α)
    (h : Node.fits .expression (.whileLoop tag condition body) = true)
    (hlen : (Node.spell (.whileLoop tag condition body)).length ≤ n + 1) (hrest : Closed rest) :
    Reads (whileLoop e) (Node.spell (.whileLoop tag condition body) ++ rest) rest
      (Same (.whileLoop tag condition body)) := by
  simp only [Node.fits, Bool.and_eq_true] at h
  simp only [Node.spell, Node.grouped_spell, List.length_cons, List.length_append] at hlen
  have heq : Node.spell (.whileLoop tag condition body) ++ rest =
      .keyword .whileWord :: (condition.spellOperand ++ (body.spellLooped ++ rest)) := by
    simp [Node.spell, Node.grouped_spell]
  rw [heq]
  refine .bind reads_advance fun t _ => ?_
  refine .bind (hR.operand condition _ h.1.2 (by omega) (final_spellLooped body)) fun c hc => ?_
  refine .bind (hR.loopBody h.2 (by omega) hrest).2 fun body' hbody => ?_
  refine .bind (reads_spanFrom _) fun _ _ => .pure _ ?_
  simp [Same, Node.erase, hc, hbody]

/-! ### Suffixes -/

/-- An operand with one suffix. -/
theorem Reader.suffixed (hR : Reader α e n) {object : Node α} (h : object.fits .expression = true)
    (hlen : object.spellOperand.length ≤ n + 1) (hk : k.isOperand = false)
    (hsuffix : ∀ (node : Node Span) (m : Nat), Same object node →
      Reads (suffixesFrom e (m + 1) node) (k :: ks) rest P) :
    Reads (Parser.call e (Parser.atom hint e)) (object.spellOperand ++ k :: ks) rest P := by
  refine .bind (hR.atom h hlen hk) fun node hnode => .bind reads_remaining fun m hm => ?_
  subst hm
  exact hsuffix node _ hnode

theorem Reader.call (hR : Reader α e n) {callee : Node α} {args : List (Node α)} (tag : α)
    (h : Node.fits .expression (.call tag callee args) = true)
    (hlen : (Node.spell (.call tag callee args)).length ≤ n + 1)
    (hrest : isSuffix (headKind rest) = false) :
    Reads (Parser.call e (Parser.atom hint e)) (Node.spell (.call tag callee args) ++ rest) rest
      (Same (.call tag callee args)) := by
  simp only [Node.fits, Bool.and_eq_true] at h
  simp only [Node.spell, Node.grouped_spell, List.length_append, List.length_cons] at hlen
  have heq : Node.spell (.call tag callee args) ++ rest = callee.spellOperand ++
      .symbol .leftParen :: (spellArgs args ++ .symbol .rightParen :: rest) := by
    simp [Node.spell, Node.grouped_spell]
  rw [heq]
  refine hR.suffixed h.1.2 (by omega) rfl fun node m hnode => ?_
  refine .bind reads_current fun t ht => ?_
  rw [ht]
  refine .bind (hR.arguments (.inl rfl) args h.2 (by omega)) fun l hl => ?_
  refine .bind (reads_spanFrom _) fun _ _ => reads_suffixes_none hrest m ?_
  simp [Same, Node.erase, hnode, hl]

theorem Reader.index (hR : Reader α e n) {target index : Node α} (tag : α)
    (h : Node.fits .expression (.index tag target index) = true)
    (hlen : (Node.spell (.index tag target index)).length ≤ n + 1)
    (hrest : isSuffix (headKind rest) = false) :
    Reads (Parser.call e (Parser.atom hint e)) (Node.spell (.index tag target index) ++ rest) rest
      (Same (.index tag target index)) := by
  simp only [Node.fits, Bool.and_eq_true] at h
  simp only [Node.spell, Node.grouped_spell, List.length_append, List.length_cons] at hlen
  have heq : Node.spell (.index tag target index) ++ rest = target.spellOperand ++
      .symbol .leftSquare :: (index.spellOperand ++ .symbol .rightSquare :: rest) := by
    simp [Node.spell, Node.grouped_spell]
  rw [heq]
  refine hR.suffixed h.1.2 (by omega) rfl fun node m hnode => ?_
  refine .bind reads_current fun t ht => ?_
  rw [ht]
  refine .bind reads_advance fun _ _ => ?_
  refine .bind (hR.operand index _ h.2 (by omega) ⟨rfl, rfl, rfl, rfl, rfl, rfl, rfl⟩)
    fun i hi => ?_
  refine .bind (reads_expect _ _) fun _ _ => ?_
  refine .bind (reads_spanFrom _) fun _ _ => reads_suffixes_none hrest m ?_
  simp [Same, Node.erase, hnode, hi]

theorem Reader.attribute (hR : Reader α e n) {object : Node α} (name : String)
    (h : object.fits .expression = true) (hlen : object.spellOperand.length + 2 ≤ n + 1)
    (hrest : isSuffix (headKind rest) = false) :
    Reads (Parser.call e (Parser.atom hint e))
      (object.spellOperand ++ .symbol .dot :: .ident name :: rest) rest fun node =>
        ∃ tag o, node = .getAttr tag o name ∧ Same object o := by
  refine hR.suffixed h (by omega) rfl fun node m hnode => ?_
  refine .bind reads_current fun t ht => ?_
  rw [ht]
  refine .bind reads_advance fun _ _ => .bind (reads_expectIdent _ _) fun r hr => ?_
  refine .bind (reads_atSymbol .leftParen) fun b hb => ?_
  have hfalse : b = false := by
    rw [hb]
    generalize headKind rest = k at hrest
    cases k with
    | symbol s => cases s <;> first | rfl | exact Bool.noConfusion hrest
    | _ => rfl
  rw [hfalse]
  refine .bind (reads_spanFrom _) fun tag _ => reads_suffixes_none hrest m ?_
  exact ⟨tag, node, by rw [hr], hnode⟩

theorem Reader.methodCall (hR : Reader α e n) {object : Node α} {name : String}
    {args : List (Node α)} (tag : α)
    (h : Node.fits .expression (.methodCall tag object name args) = true)
    (hlen : (Node.spell (.methodCall tag object name args)).length ≤ n + 1)
    (hrest : isSuffix (headKind rest) = false) :
    Reads (Parser.call e (Parser.atom hint e))
      (Node.spell (.methodCall tag object name args) ++ rest) rest
      (Same (.methodCall tag object name args)) := by
  simp only [Node.fits, Bool.and_eq_true] at h
  simp only [Node.spell, Node.grouped_spell, List.length_append, List.length_cons] at hlen
  have heq : Node.spell (.methodCall tag object name args) ++ rest = object.spellOperand ++
      .symbol .dot :: .ident name :: .symbol .leftParen ::
        (spellArgs args ++ .symbol .rightParen :: rest) := by
    simp [Node.spell, Node.grouped_spell]
  rw [heq]
  refine hR.suffixed h.1.2 (by omega) rfl fun node m hnode => ?_
  refine .bind reads_current fun t ht => ?_
  rw [ht]
  refine .bind reads_advance fun _ _ => .bind (reads_expectIdent _ _) fun r hr => ?_
  refine .bind (reads_atSymbol .leftParen) fun b hb => ?_
  have htrue : b = true := hb
  rw [htrue]
  refine .bind (hR.arguments (.inl rfl) args h.2 (by omega)) fun l hl => ?_
  refine .bind (reads_spanFrom _) fun _ _ => reads_suffixes_none hrest m ?_
  simp [Same, Node.erase, hnode, hr, hl]

/-! ### Whole expressions -/

theorem reads_expressionStep (h : Undeclared ks)
    (hlogic : Reads (logic e (Parser.atom hint e)) ks ks' P) :
    Reads (expressionStep hint e) ks ks' P := by
  refine .bind reads_current fun t ht => .bind reads_following fun u hu => ?_
  obtain ⟨huntyped, hvar⟩ := h
  rw [← ht, ← hu] at huntyped
  rw [← ht] at hvar
  split
  · next _ heq => exact absurd heq hvar
  · next word name hword hname =>
    rw [huntyped word name hword hname]
    exact hlogic
  · exact hlogic

/-- A token that no declaration starts with. -/
theorem undeclared_cons (hk : k.ident? = none) (hvar : k.isKeyword .var = false) :
    Undeclared (k :: ks) := by
  refine ⟨fun word _ hword _ => ?_, ne_keyword hvar⟩
  rw [headKind_cons] at hword
  simp [hword, TokenKind.ident?] at hk

/-- An expression without an operator of its own. -/
theorem reads_lone (ha : Reads (Parser.call e (Parser.atom hint e)) ks ks' P)
    (hi : Initial (headKind ks)) (hu : Undeclared ks) (hf : Final (headKind ks')) :
    Reads (expressionStep hint e) ks ks' P :=
  reads_expressionStep hu (reads_alone ha hi hf)

/-- An expression that is an atom. -/
theorem reads_atomic (ha : Reads (Parser.atom hint e) (k :: ks) ks' P) (hi : Initial k)
    (hk : k.ident? = none) (hvar : k.isKeyword .var = false) (hf : Final (headKind ks')) :
    Reads (expressionStep hint e) (k :: ks) ks' P :=
  reads_lone (reads_call ha hf.suffix) hi (undeclared_cons hk hvar) hf

/-- An operand with a suffix. -/
theorem reads_suffixed {object : Node α} (h : object.fits .expression = true) {more : List TokenKind}
    (hk : k.isOperand = false) (heq : ks = object.spellOperand ++ k :: more)
    (hread : Reads (Parser.call e (Parser.atom hint e)) ks ks' P) (hf : Final (headKind ks')) :
    Reads (expressionStep hint e) ks ks' P := by
  subst heq
  exact reads_lone hread (initial_spellOperand h) (undeclared_spellOperand h hk) hf

theorem Reader.operandStep (hR : Reader α e n) (h : tree.fits .expression = true)
    (hlen : tree.spellOperand.length ≤ n + 1) (hf : Final (headKind rest)) :
    Reads (expressionStep hint e) (tree.spellOperand ++ rest) rest (Same tree) :=
  reads_lone (reads_call (hR.atom h hlen hf.operand) hf.suffix) (initial_spellOperand h)
    (undeclared_spellOperand h hf.operand) hf

theorem Reader.attributeStep (hR : Reader α e n) {object : Node α} (name : String)
    (h : object.fits .expression = true) (hlen : object.spellOperand.length + 2 ≤ n + 1)
    (hf : Final (headKind rest)) :
    Reads (expressionStep hint e) (object.spellOperand ++ .symbol .dot :: .ident name :: rest) rest
      fun node => ∃ tag o, node = .getAttr tag o name ∧ Same object o :=
  reads_lone (hR.attribute name h hlen hf.suffix) (initial_spellOperand h)
    (undeclared_spellOperand h rfl) hf

theorem Reader.declaration (hR : Reader α e n) {name : String} {type : Option DeclaredType}
    {constant : Bool} {value : Node α} (tag : α)
    (h : Node.fits .expression (.declare tag name type constant value) = true)
    (hlen : (Node.spell (.declare tag name type constant value)).length ≤ n + 1)
    (hf : Final (headKind rest)) :
    Reads (expressionStep hint e)
      (Node.spell (.declare tag name type constant value) ++ rest) rest
      (Same (.declare tag name type constant value)) := by
  simp only [Node.fits, Bool.and_eq_true] at h
  have hvalue (hshort : value.spellOperand.length ≤ n) (start : Position) :
      Reads (Parser.declaration e start name type constant) (value.spellOperand ++ rest) rest
        (Same (.declare tag name type constant value)) := by
    refine .bind (hR.operand value rest h.2 hshort hf) fun v hv => ?_
    refine .bind (reads_spanFrom _) fun _ _ => .pure _ ?_
    simp [Same, Node.erase, hv]
  refine .bind reads_current fun t ht => .bind reads_following fun u hu => ?_
  cases type with
  | none =>
    have hconstant : constant = false := by simpa using h.1.2
    subst hconstant
    simp only [Node.spell, Node.grouped_spell, List.length_cons] at hlen
    rw [ht]
    refine .bind reads_advance fun _ _ => .bind (reads_expectIdent name _) fun r hr => ?_
    refine .bind (reads_expect _ _) fun _ _ => ?_
    rw [hr]
    exact hvalue (by omega) _
  | some type =>
    simp only [Node.spell, Node.grouped_spell, List.length_cons] at hlen
    have hword : t.kind = .ident type.word := ht
    have hname : u.kind = .ident name := hu
    rw [hword, hname]
    dsimp only
    rw [ofWord?_word]
    refine .bind reads_advance fun _ _ => .bind reads_advance fun _ _ => ?_
    refine .bind reads_current fun v hv => ?_
    rw [hv]
    cases constant with
    | true => exact .bind reads_advance fun _ _ => hvalue (by omega) _
    | false => exact .bind reads_advance fun _ _ => hvalue (by omega) _

theorem Reader.bareStep (hR : Reader α e n) (h : tree.fits .expression = true)
    (hlen : tree.spell.length ≤ n + 1) (hrest : Closed rest) :
    Reads (expressionStep hint e) (tree.spell ++ rest) rest (Same tree) := by
  have hf := hrest.closing.final
  cases tree with
  | int | float | string | name => exact hR.operandStep h hlen hf
  | declare tag => exact hR.declaration tag h hlen hf
  | list tag items =>
    simp only [Node.fits, Bool.and_eq_true] at h
    simp only [Node.spell, List.length_cons, List.length_append] at hlen
    have heq : Node.spell (.list tag items) ++ rest =
        .symbol .leftSquare :: (spellArgs items ++ .symbol .rightSquare :: rest) := by
      simp [Node.spell]
    rw [heq]
    refine reads_atomic ?_ ⟨rfl, rfl⟩ rfl rfl hf
    refine .bind reads_current fun t ht => ?_
    rw [ht]
    refine .bind (hR.arguments (.inr rfl) items h.2 (by omega)) fun l hl => ?_
    refine .bind (reads_spanFrom _) fun _ _ => .pure _ ?_
    simp [Same, Node.erase, hl]
  | binary tag op left right =>
    simp only [Node.fits, Bool.and_eq_true] at h
    simp only [Node.spell, Node.grouped_spell, List.length_cons, List.length_append] at hlen
    have heq : Node.spell (.binary tag op left right) ++ rest =
        left.spellOperand ++ op.token :: (right.spellOperand ++ rest) := by
      simp [Node.spell, Node.grouped_spell]
    have hop : op.token.isOperand = false := by cases op <;> rfl
    have hsuffix : isSuffix op.token = false := by cases op <;> rfl
    rw [heq]
    refine reads_expressionStep (undeclared_spellOperand h.1.2 hop) ?_
    refine (reads_binary op
      (reads_call (hR.atom h.1.2 (by omega) hop) hsuffix) (initial_spellOperand h.1.2)
      (reads_call (hR.atom h.2 (by omega) hf.operand) hf.suffix) (initial_spellOperand h.2) hf
      (by simp)).weaken ?_
    rintro _ ⟨tag, l, r, rfl, hl, hr⟩
    simp [Same, Node.erase, hl, hr]
  | unary tag op operand =>
    simp only [Node.fits, Bool.and_eq_true] at h
    simp only [Node.spell, Node.grouped_spell, List.length_cons] at hlen
    have hundeclared : Undeclared (op.token :: (operand.spellOperand ++ rest)) := by
      cases op <;> exact undeclared_cons rfl rfl
    refine reads_expressionStep hundeclared ?_
    refine (reads_unary op (reads_call (hR.atom h.2 (by omega) hf.operand) hf.suffix)
      (initial_spellOperand h.2) hf).weaken ?_
    rintro _ ⟨tag, o, rfl, ho⟩
    simp [Same, Node.erase, ho]
  | cond tag branches otherwise =>
    have hread := hR.conditional tag h hlen hrest
    cases branches with
    | nil => simp [Node.fits] at h
    | cons branch branches =>
      cases branch
      refine reads_atomic ?_ ⟨rfl, rfl⟩ rfl rfl hf
      refine .bind reads_current fun t ht => ?_
      rw [ht]
      exact hread
  | forLoop tag =>
    refine reads_atomic ?_ ⟨rfl, rfl⟩ rfl rfl hf
    refine .bind reads_current fun t ht => ?_
    rw [ht]
    exact hR.forLoop tag h hlen hrest
  | whileLoop tag =>
    refine reads_atomic ?_ ⟨rfl, rfl⟩ rfl rfl hf
    refine .bind reads_current fun t ht => ?_
    rw [ht]
    exact hR.whileLoop tag h hlen hrest
  | func tag definition =>
    simp only [Node.fits, Bool.and_eq_true] at h
    have hread : Reads (Parser.function e) (definition.spell ++ rest) rest _ :=
      hR.function h.2 hlen hf
    obtain ⟨ks, heq⟩ := spell_method definition
    rw [show Node.spell (.func tag definition) = definition.spell from rfl]
    rw [heq] at hread ⊢
    refine reads_atomic ?_ ⟨rfl, rfl⟩ rfl rfl hf
    refine .bind reads_current fun t ht => ?_
    rw [ht]
    refine .bind hread fun d hd => .bind (reads_spanFrom _) fun _ _ => .pure _ ?_
    simp [Same, Node.erase, hd]
  | cls tag name parent methods =>
    simp only [Node.fits, Bool.and_eq_true] at h
    simp only [Node.spell, List.length_cons, List.length_append] at hlen
    have hundeclared : Undeclared (Node.spell (.cls tag name parent methods) ++ rest) := by
      refine ⟨fun word _ hword _ => ?_, TokenKind.noConfusion⟩
      cases hword
      decide
    refine reads_lone (reads_call ?_ hf.suffix) ⟨rfl, rfl⟩ hundeclared hf
    refine .bind reads_current fun t ht => ?_
    rw [ht]
    refine .bind reads_following fun u hu => ?_
    rw [hu]
    exact hR.classDefinition tag h.2 (by omega)
  | new tag cls args =>
    simp only [Node.fits, Bool.and_eq_true] at h
    simp only [Node.spell, List.length_cons, List.length_append] at hlen
    have heq : Node.spell (.new tag cls args) ++ rest = .ident "new" :: .ident cls ::
        .symbol .leftParen :: (spellArgs args ++ .symbol .rightParen :: rest) := by
      simp [Node.spell]
    have hundeclared : Undeclared (.ident "new" :: .ident cls :: .symbol .leftParen ::
        (spellArgs args ++ .symbol .rightParen :: rest)) := by
      refine ⟨fun word _ hword _ => ?_, TokenKind.noConfusion⟩
      cases hword
      decide
    rw [heq]
    refine reads_lone (reads_call ?_ hf.suffix) ⟨rfl, rfl⟩ hundeclared hf
    refine .bind reads_current fun t ht => ?_
    rw [ht]
    refine .bind reads_following fun u hu => ?_
    rw [hu]
    refine .bind reads_advance fun _ _ => .bind (reads_expectIdent cls _) fun r hr => ?_
    refine .bind (reads_atSymbol .leftParen) fun b hb => ?_
    have htrue : b = true := hb
    rw [htrue]
    refine .bind (hR.arguments (.inl rfl) args h.2 (by omega)) fun l hl => ?_
    refine .bind (reads_spanFrom _) fun _ _ => .pure _ ?_
    simp [Same, Node.erase, hr, hl]
  | call tag callee args =>
    exact reads_suffixed (by simp_all [Node.fits] : callee.fits .expression = true) rfl
      (by simp only [Node.spell, List.append_assoc]; rfl) (hR.call tag h hlen hf.suffix) hf
  | index tag target index =>
    exact reads_suffixed (by simp_all [Node.fits] : target.fits .expression = true) rfl
      (by simp only [Node.spell, List.append_assoc]; rfl) (hR.index tag h hlen hf.suffix) hf
  | methodCall tag object name args =>
    exact reads_suffixed (by simp_all [Node.fits] : object.fits .expression = true) rfl
      (by simp only [Node.spell, List.append_assoc]; rfl) (hR.methodCall tag h hlen hf.suffix) hf
  | getAttr tag object name =>
    simp only [Node.fits, Bool.and_eq_true] at h
    simp only [Node.spell, Node.grouped_spell, List.length_append, List.length_cons] at hlen
    simp only [Node.spell, Node.grouped_spell, List.append_assoc]
    refine (hR.attributeStep name h.2 (by simpa using hlen) hf).weaken ?_
    rintro _ ⟨tag, o, rfl, ho⟩
    simp [Same, Node.erase, ho]
  | ret _ value => cases value <;> simp [Node.fits] at h
  | block | assign | exit | setAttr => simp [Node.fits] at h

/-! ### The induction -/

theorem Reader.step (hR : Reader α e n) : Reader α (expressionStep hint e) (n + 1) where
  bare _ _ h hlen hrest := hR.bareStep h hlen hrest
  operand _ _ h hlen hf := hR.operandStep h hlen hf
  attr _ name _ h hlen hf := hR.attributeStep name h hlen hf
  rejects _ h := rejects_expressionStep h

/-- Expressions are as deep as there are tokens, so what is written down is read. -/
theorem reader_expression (α : Type) (hint : String → Option Keyword) (n : Nat) :
    Reader α (expression hint n) n := by
  induction n with
  | zero =>
    have hnil (tree : Node α) (h : tree.fits .expression = true) : ¬ tree.spell.length ≤ 0 := by
      have := List.length_pos_iff.mpr (spell_ne_nil h nofun)
      omega
    refine ⟨fun tree _ h hlen => absurd hlen (hnil tree h), fun tree _ h hlen => ?_,
      fun object _ _ _ hlen => absurd hlen (Nat.not_succ_le_zero _),
      fun _ h => rejects_expressionStep h⟩
    exact absurd (Nat.le_trans (spellOperand_length_le tree) hlen) (hnil tree h)
  | succ n ih => exact ih.step

theorem reads_program (hint : String → Option Keyword) (h : tree.fits .block = true) :
    Reads (program hint) tree.spell [] (Same tree) := by
  refine .bind reads_remaining fun n hn => ?_
  subst hn
  obtain ⟨tag, items, rfl, hitems⟩ := Node.eq_block_of_fits h
  have hR := reader_expression α hint (spellLines items).length
  refine .bind (hR.statements items hitems (Nat.le_refl _) closed_nil .eof (by simp)
    (length_le_spellLines items hitems) tag) fun node hnode => ?_
  refine .bind reads_current fun t ht => ?_
  rw [ht]
  exact .pure node hnode

/-- A statement on its own is a program. -/
theorem reads_singleProgram (hstart : starts (headKind ks) = true)
    (h : Reads (Parser.statement (expression hint ks.length)) ks [] P) :
    Reads (program hint) ks [] fun node => ∃ tag item, node = .block tag [item] ∧ P item := by
  have hitems : ∀ m, Reads (Parser.statementsFrom (expression hint ks.length) (m + 1) []) ks []
      fun items => ∃ item, items = [item] ∧ P item := by
    intro m
    have hskip : Reads skipNewlines ks ks fun _ => True := by
      have hdropped : Reads skipNewlines ks (ks.dropWhile TokenKind.isNewline) fun _ => True :=
        reads_skipNewlines
      rw [dropWhile_of_starts hstart] at hdropped
      exact hdropped
    apply Reads.bind hskip
    intro _ _
    apply Reads.bind h.attempt
    rintro _ ⟨item, rfl, hitem⟩
    apply Reads.bind reads_atNewline
    intro b hb
    subst hb
    exact .pure _ ⟨item, rfl, hitem⟩
  have hblock : Reads (Parser.statements (expression hint ks.length)) ks [] fun node =>
      ∃ tag item, node = .block tag [item] ∧ P item := by
    apply Reads.bind reads_current
    intro t _
    apply Reads.bind reads_remaining
    intro m _
    apply Reads.bind (hitems m)
    rintro _ ⟨item, rfl, hitem⟩
    exact .pure _ ⟨_, item, rfl, hitem⟩
  apply Reads.bind reads_remaining
  rintro n rfl
  apply Reads.bind hblock
  intro node hnode
  apply Reads.bind reads_current
  intro t ht
  rw [ht]
  exact .pure node hnode

/-- Where parsing starts, if there are no markers. -/
theorem at_start {tokens : List Token} {eof : Token}
    (hkinds : tokens.map Token.kind = ks) (hks : unmarked ks = true) (heof : eof.kind = .eof) :
    At (start tokens eof) ks := by
  have hfilter : tokens.filter (fun t => !t.kind.isNoBlankLine) = tokens := by
    rw [List.filter_eq_self]
    intro t ht
    rw [← hkinds, unmarked, List.all_map, List.all_eq_true] at hks
    exact hks t ht
  refine ⟨?_, heof⟩
  rw [← hkinds]
  exact congrArg (List.map Token.kind) hfilter

end Parser

/-- **A program that is written down is read back**, up to spans: every tree that fits,
from any tokens that spell it. -/
theorem Node.parse_spell (hint : String → Option Keyword) (tree : Node α)
    (h : tree.fits .block = true) (tokens : List Token) (eof : Token)
    (htokens : tokens.map Token.kind = tree.spell) (heof : eof.kind = .eof) :
    ∃ node, parseTokens hint tokens eof = .ok node ∧ node.erase = tree.erase := by
  have hplain : tokens.filter (fun t => !t.kind.isNoBlankLine) = tokens := by
    rw [List.filter_eq_self]
    intro t ht
    have hall := unmarked_spell tree
    rw [← htokens, unmarked, List.all_map, List.all_eq_true] at hall
    exact hall t ht
  have hat : Parser.At (Parser.start tokens eof) tree.spell :=
    ⟨by rw [← htokens]; exact congrArg (List.map Token.kind) hplain, heof⟩
  obtain ⟨node, s, hread, _, hsame⟩ := Parser.reads_program hint h _ hat
  refine ⟨node, ?_, hsame⟩
  unfold parseTokens
  rw [hread]

/-- A class with two methods, a loop over a chain of branches, and a call. -/
def Node.sample : Node Unit :=
  .block ()
    [.cls () "Counter" (some "Base")
      [.mk (some "__init__") [⟨"start", .int, ()⟩, ⟨"name", .string, ()⟩]
        (.block () [.setAttr () (.name () "self") "count" (.name () "start"), .ret () none]) false,
       .mk (some "next") [] (.binary () .add (.getAttr () (.name () "self") "count") (.int () 1))
        true],
     .declare () "limit" (some .int) true (.unary () .minus (.int () 5)),
     .forLoop () "i" (.int () 0) (.name () "limit") (some (.int () 2))
      (.mk (.cond ()
        [.mk (.binary () .lt (.name () "i") (.int () 3)) (.mk (.exit () .continuing) false),
         .mk (.unary () .not (.name () "done"))
          (.mk (.block () [.assign () "done" (.list () [.name () "i", .string () "x"])]) true)]
        (some (.mk (.block () []) true))) false),
     .whileLoop () (.index () (.name () "done") (.int () 0))
      (.mk (.ret () (some (.func () (.mk none [] (.name () "i") true)))) false),
     .methodCall () (.new () "Counter" [.int () 1]) "next"
      [.call () (.name () "f") [.declare () "x" none false (.binary () .pow (.int () 2)
        (.int () 3))]]]

theorem Node.parse_spell_sample : Node.sample.fits .block = true ∧
    ∃ node, parseTokens Keyword.suggest (Node.sample.spell.map fun k => ⟨k, default⟩)
      ⟨.eof, default⟩ = .ok node ∧ node.erase = Node.sample :=
  ⟨by decide, Node.parse_spell Keyword.suggest Node.sample (by decide) _ _ (by rfl) rfl⟩

end Script
