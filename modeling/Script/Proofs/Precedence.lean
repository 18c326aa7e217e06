import Script.Proofs.RoundTrip

/-! How tightly operators bind.

The forms of a formula stand on levels: `and` and `or` bind loosest, then `not`,
comparisons, sums, products, signs, powers, and tightest calls, indexing and
attributes. A formula is written with parentheses only around an operand of a looser
level than its place asks for (`Node.print`). An operator that groups to the left asks
its own level of its left operand and the next of its right one; a power asks for a
suffixed atom on its left and for a sign or a power on its right.

Behind an attribute, parentheses make a method call. So an attribute that is called is
put in parentheses too, though its level is not looser: with the levels alone, the call of
an attribute and a method call are written with the same tokens (`levels_do_not_suffice`).

A chain of operators that group to the left is read by a loop, and the tree to the left
of an operator is not read by a call of its own but by the rounds of the loop before it.
`Goes` says so: a parser that has read some tokens goes on as another.

Main statement, `parse_print`: a formula that is written with these parentheses only is
read back, and nothing is left behind it. -/
namespace Script

/-! ### Levels -/

inductive Level where
  | logic | negation | comparison | sum | product | sign | power | suffix | atom
deriving DecidableEq, Repr

namespace Level

/-- How tight the forms of a level bind. -/
def rank : Level → Nat
  | .logic => 0
  | .negation => 1
  | .comparison => 2
  | .sum => 3
  | .product => 4
  | .sign => 5
  | .power => 6
  | .suffix => 7
  | .atom => 8

/-- The next looser level; the loosest is its own. -/
def looser : Level → Level
  | .logic | .negation => .logic
  | .comparison => .negation
  | .sum => .comparison
  | .product => .sum
  | .sign => .product
  | .power => .sign
  | .suffix => .power
  | .atom => .suffix

/-- The operator of a level that a token is. -/
def op? : Level → TokenKind → Option BinaryOp
  | .logic => BinaryOp.logical?
  | .comparison => BinaryOp.comparison?
  | .sum => BinaryOp.additive?
  | .product => BinaryOp.multiplicative?
  | .power => BinaryOp.power?
  | _ => fun _ => none

/-- Whether the forms of a level are read by a loop, and so group to the left. -/
def loops : Level → Bool
  | .logic | .comparison | .sum | .product | .suffix => true
  | _ => false

/-- What a loop starts from, and what its operators join. -/
def tighter : Level → Level
  | .logic => .negation
  | .comparison => .sum
  | .sum => .product
  | .product => .sign
  | _ => .atom

theorem rank_tighter {l : Level} (h : l.loops = true) : l.tighter.rank = l.rank + 1 := by
  cases l <;> first | rfl | exact Bool.noConfusion h

theorem rank_looser (l : Level) : l.looser.rank = l.rank - 1 := by cases l <;> rfl

theorem eq_of_rank_eq {l k : Level} (h : l.rank = k.rank) : l = k := by
  cases l <;> cases k <;> first | rfl | exact absurd h (by decide)

end Level

/-- The level of what the operator makes. -/
def BinaryOp.level : BinaryOp → Level
  | .and | .or => .logic
  | .eq | .ne | .lt | .gt | .le | .ge => .comparison
  | .add | .sub => .sum
  | .mul | .div => .product
  | .pow => .power

/-- The level that the operator asks of its left operand. -/
def BinaryOp.leftLevel : BinaryOp → Level
  | .pow => .suffix
  | op => op.level

/-- The level that the operator asks of its right operand. -/
def BinaryOp.rightLevel : BinaryOp → Level
  | .and | .or => .negation
  | .eq | .ne | .lt | .gt | .le | .ge => .sum
  | .add | .sub => .product
  | .mul | .div | .pow => .sign

theorem BinaryOp.level_le_leftLevel (op : BinaryOp) : op.level.rank ≤ op.leftLevel.rank := by
  cases op <;> decide

/-- The level of what the operator makes, which it also asks of its operand. -/
def UnaryOp.level : UnaryOp → Level
  | .not => .negation
  | .plus | .minus => .sign

def Node.level : Node α → Level
  | .binary _ op .. => op.level
  | .unary _ op _ => op.level
  | .call .. | .index .. | .getAttr .. | .methodCall .. => .suffix
  | _ => .atom

/-! ### Formulas and how they are written -/

mutual

/-- Whether a tree is made of literals, names, lists, suffixes and operators only. -/
def Node.isFormula : Node α → Bool
  | .int .. | .string .. | .name .. => true
  | .list _ items => areFormulas items
  | .binary _ _ left right => left.isFormula && right.isFormula
  | .unary _ _ operand => operand.isFormula
  | .call _ callee args => callee.isFormula && areFormulas args
  | .index _ target index => target.isFormula && index.isFormula
  | .getAttr _ object _ => object.isFormula
  | .methodCall _ object _ args => object.isFormula && areFormulas args
  | _ => false

def areFormulas : List (Node α) → Bool
  | [] => true
  | node :: nodes => node.isFormula && areFormulas nodes

end

/-- The level that a call asks of its callee, where it asks `called` of an attribute. -/
def Node.calleeLevel (called : Level) : Node α → Level
  | .getAttr .. => called
  | _ => .suffix

theorem Node.suffix_le_calleeLevel (node : Node α) :
    Level.suffix.rank ≤ (node.calleeLevel .atom).rank := by
  cases node with
  | getAttr => exact Nat.le_succ _
  | _ => exact Nat.le_refl _

/-- The tokens of a node, in parentheses if its level is looser than the one asked for. -/
def Node.bracketed (node : Node α) (asked : Level) (ks : List TokenKind) : List TokenKind :=
  if node.level.rank < asked.rank then .symbol .leftParen :: (ks ++ [.symbol .rightParen]) else ks

mutual

/-- A formula as tokens, with no more parentheses than the levels ask for. A call asks
the level `called` of an attribute. -/
def Node.printBy (called : Level) : Node α → List TokenKind
  | .int _ n => [.int n]
  | .string _ s => [.string s]
  | .name _ name => [.ident name]
  | .list _ items => .symbol .leftSquare :: (printItemsBy called items ++ [.symbol .rightSquare])
  | .binary _ op left right =>
    left.bracketed op.leftLevel (left.printBy called) ++
      op.token :: right.bracketed op.rightLevel (right.printBy called)
  | .unary _ op operand => op.token :: operand.bracketed op.level (operand.printBy called)
  | .call _ callee args =>
    callee.bracketed (callee.calleeLevel called) (callee.printBy called) ++
      .symbol .leftParen :: (printItemsBy called args ++ [.symbol .rightParen])
  | .index _ target index =>
    target.bracketed .suffix (target.printBy called) ++
      .symbol .leftSquare :: (index.printBy called ++ [.symbol .rightSquare])
  | .getAttr _ object name =>
    object.bracketed .suffix (object.printBy called) ++ .symbol .dot :: [.ident name]
  | .methodCall _ object name args =>
    object.bracketed .suffix (object.printBy called) ++ .symbol .dot :: .ident name ::
      .symbol .leftParen :: (printItemsBy called args ++ [.symbol .rightParen])
  | _ => []

/-- Formulas, with commas between them. -/
def printItemsBy (called : Level) : List (Node α) → List TokenKind
  | [] => []
  | node :: nodes => node.printBy called ++ printMoreBy called nodes

/-- Formulas, each behind a comma. -/
def printMoreBy (called : Level) : List (Node α) → List TokenKind
  | [] => []
  | node :: nodes => .symbol .comma :: (node.printBy called ++ printMoreBy called nodes)

end

/-- A formula as tokens, with an attribute that is called in parentheses. -/
abbrev Node.print (node : Node α) : List TokenKind := node.printBy .atom

/-- An operand where a level is asked for. -/
def Node.shown (node : Node α) (asked : Level) : List TokenKind := node.bracketed asked node.print

example : Node.print (.binary () .sub (.name () "a") (.binary () .sub (.name () "b") (.name () "c"))) =
    [.ident "a", .symbol .minus, .symbol .leftParen, .ident "b", .symbol .minus, .ident "c",
      .symbol .rightParen] := by rfl

namespace Parser

variable {α β γ : Type} {ks ks' ks'' rest : List TokenKind} {k : TokenKind}

/-! ### Tokens around a formula -/

/-- The level on which a token goes on an operand before it. -/
def joins : TokenKind → Option Level
  | .symbol .leftParen | .symbol .leftSquare | .symbol .dot => some .suffix
  | .symbol .caret => some .power
  | .symbol .star | .symbol .slash => some .product
  | .symbol .plus | .symbol .minus => some .sum
  | .symbol .equalEqual | .symbol .bangEqual | .symbol .less | .symbol .greater
  | .symbol .lessEqual | .symbol .greaterEqual => some .comparison
  | .keyword .and | .keyword .or => some .logic
  | _ => none

/-- A token that goes on nothing of a level, nor of a tighter one. -/
structure Ends (l : Level) (k : TokenKind) : Prop where
  operand : k.isOperand = false
  looser : ∀ j, joins k = some j → j.rank < l.rank

theorem Ends.mono {l l' : Level} (h : Ends l k) (hle : l.rank ≤ l'.rank) : Ends l' k :=
  ⟨h.operand, fun j hj => Nat.lt_of_lt_of_le (h.looser j hj) hle⟩

/-- No token goes on a sign. -/
theorem Ends.sign (h : Ends .power k) : Ends .sign k := by
  refine ⟨h.operand, fun j hj => ?_⟩
  have hlt := h.looser j hj
  have hne : j ≠ .sign := by
    rintro rfl
    revert hj
    unfold joins
    split <;> simp
  cases j <;> simp_all [Level.rank]

/-- A token that ends a level is none of the operators of that level or a tighter one. -/
theorem Ends.joins_ne {l j : Level} (h : Ends l k) (hle : l.rank ≤ j.rank) : joins k ≠ some j :=
  fun hj => Nat.not_lt.mpr hle (h.looser j hj)

theorem isSuffix_of_joins (h : joins k ≠ some .suffix) : isSuffix k = false := by
  cases k with
  | symbol s => cases s <;> first | rfl | exact absurd rfl h
  | _ => rfl

theorem op?_of_joins {l : Level} (h : joins k ≠ some l) : l.op? k = none := by
  cases k with
  | symbol s => cases s <;> cases l <;> first | rfl | exact absurd rfl h
  | keyword w => cases w <;> cases l <;> first | rfl | exact absurd rfl h
  | _ => cases l <;> rfl

theorem isSymbol_of_ne {symbol : Symbol} (h : k ≠ .symbol symbol) : k.isSymbol symbol = false := by
  cases k with
  | symbol s => exact beq_eq_false_iff_ne.mpr fun hs => h (congrArg TokenKind.symbol hs)
  | _ => rfl

/-- A token that a formula of a level can start with. -/
def leads (l : Level) : TokenKind → Bool
  | .int _ | .string _ | .ident _ | .symbol .leftParen | .symbol .leftSquare => true
  | .symbol .plus | .symbol .minus => l.rank ≤ Level.sign.rank
  | .keyword .not => l.rank ≤ Level.negation.rank
  | _ => false

theorem leads_mono {l l' : Level} (h : leads l k = true) (hle : l'.rank ≤ l.rank) :
    leads l' k = true := by
  unfold leads at *
  split at h <;> simp_all <;> omega

theorem sign?_of_leads {l : Level} (h : leads l k = true) (hl : Level.sign.rank < l.rank) :
    UnaryOp.sign? k = none := by
  unfold leads at h
  split at h <;> simp_all [UnaryOp.sign?] <;> omega

theorem isKeyword_not_of_leads {l : Level} (h : leads l k = true)
    (hl : Level.negation.rank < l.rank) : k.isKeyword .not = false := by
  unfold leads at h
  split at h <;> simp_all [TokenKind.isKeyword]
  omega

/-! ### Reading on a level -/

section Levels

variable {e a : Parser (Node Span)} {P Q : Node Span → Prop} {l l' : Level}

/-- On a level, `ks` is read and what comes behind it is left. -/
def ReadsAt (e a : Parser (Node Span)) (l : Level) (ks rest : List TokenKind)
    (P : Node Span → Prop) : Prop :=
  match l with
  | .logic => Reads (logic e a) (ks ++ rest) rest P
  | .negation => ∀ n, ks.length ≤ n → Reads (comparison e a n) (ks ++ rest) rest P
  | .comparison => Reads (compared e a) (ks ++ rest) rest P
  | .sum => Reads (arith e a) (ks ++ rest) rest P
  | .product => Reads (term e a) (ks ++ rest) rest P
  | .sign | .power => ∀ n, ks.length ≤ n → Reads (factor e a n) (ks ++ rest) rest P
  | .suffix => Reads (call e a) (ks ++ rest) rest P
  | .atom => Reads a (ks ++ rest) rest P

theorem ReadsAt.anyFactor (h : ReadsAt e a .sign ks rest P) :
    Reads (anyFactor e a) (ks ++ rest) rest P := by
  apply Reads.bind reads_remaining
  intro n hn
  apply h
  simp [hn]

theorem ReadsAt.anyComparison (h : ReadsAt e a .negation ks rest P) :
    Reads (anyComparison e a) (ks ++ rest) rest P := by
  apply Reads.bind reads_remaining
  intro n hn
  apply h
  simp [hn]

/-- What is read on a level is read on the next looser one. -/
theorem ReadsAt.looser (h : ReadsAt e a l ks rest P) (hlead : leads l (headKind (ks ++ rest)) = true)
    (hend : Ends l.looser (headKind rest)) : ReadsAt e a l.looser ks rest P := by
  have hop : ∀ j : Level, l.looser.rank ≤ j.rank → j.op? (headKind rest) = none :=
    fun j hj => op?_of_joins (hend.joins_ne hj)
  cases l with
  | logic => exact h
  | negation => exact reads_logic h.anyComparison (hop .logic (by decide))
  | comparison => exact fun n _ => reads_comparison h (isKeyword_not_of_leads hlead (by decide)) n
  | sum => exact reads_compared h (hop .comparison (by decide))
  | product => exact reads_arith h (hop .sum (by decide))
  | sign => exact reads_term h.anyFactor (hop .product (by decide))
  | power => exact h
  | suffix =>
    exact fun n _ => reads_factor h (sign?_of_leads hlead (by decide)) (hop .power (by decide)) n
  | atom => exact reads_call h (isSuffix_of_joins (hend.joins_ne (by decide)))

/-- What is read on a level is read on every looser one. -/
theorem ReadsAt.loosest (h : ReadsAt e a l ks rest P) (hlead : leads l (headKind (ks ++ rest)) = true)
    (hle : l'.rank ≤ l.rank) (hend : Ends l' (headKind rest)) : ReadsAt e a l' ks rest P := by
  generalize hd : l.rank - l'.rank = d
  induction d generalizing l with
  | zero =>
    have heq : l' = l := Level.eq_of_rank_eq (by omega)
    rw [heq]
    exact h
  | succ d ih =>
    have hrank := Level.rank_looser l
    have hle' : l'.rank ≤ l.looser.rank := by omega
    exact ih (h.looser hlead (hend.mono hle')) (leads_mono hlead (by omega)) hle' (by omega)

/-! ### Loops -/

/-- Where `ks` come, `x` reads some of them and goes on as `y` from `ks'`. -/
def Goes (x : Parser β) (y : γ → Parser β) (ks ks' : List TokenKind) (post : γ → Prop) : Prop :=
  ∀ s, At s ks → ∃ c s', x s = y c s' ∧ At s' ks' ∧ post c

namespace Goes

variable {y : γ → Parser β} {post post' : γ → Prop}

theorem here (c : γ) (h : post c) : Goes (y c) y ks ks post :=
  fun s hs => ⟨c, s, rfl, hs, h⟩

theorem bind {p : Parser α} {f : α → Parser β} {R : α → Prop} (hp : Reads p ks ks' R)
    (hf : ∀ x, R x → Goes (f x) y ks' ks'' post) : Goes (p >>= f) y ks ks'' post := by
  intro s hs
  obtain ⟨x, s', heq, hs', hx⟩ := hp s hs
  obtain ⟨c, s'', heq', hrest⟩ := hf x hx s' hs'
  refine ⟨c, s'', ?_, hrest⟩
  show EStateM.bind p f s = _
  rw [EStateM.bind, heq]
  exact heq'

theorem trans {x : Parser β} (h : Goes x y ks ks' post)
    (h' : ∀ c, post c → Goes (y c) y ks' ks'' post') : Goes x y ks ks'' post' := by
  intro s hs
  obtain ⟨c, s', heq, hs', hc⟩ := h s hs
  obtain ⟨c', s'', heq', hrest⟩ := h' c hc s' hs'
  exact ⟨c', s'', heq.trans heq', hrest⟩

theorem reads {x : Parser β} {R : β → Prop} (h : Goes x y ks ks' post)
    (h' : ∀ c, post c → Reads (y c) ks' ks'' R) : Reads x ks ks'' R := by
  intro s hs
  obtain ⟨c, s', heq, hs', hc⟩ := h s hs
  rw [heq]
  exact h' c hc s' hs'

end Goes

/-- The parser of what the operators of a level join. -/
def joined (e a : Parser (Node Span)) : Level → Parser (Node Span)
  | .logic => anyComparison e a
  | .comparison => arith e a
  | .sum => term e a
  | _ => anyFactor e a

/-- The parser of a level that is read by a loop. -/
def entering (e a : Parser (Node Span)) : Level → Parser (Node Span)
  | .suffix => call e a
  | l => chain (joined e a l) l.op? (joined e a l)

/-- The loop, from the rounds that are left and the tree so far. -/
def looping (e a : Parser (Node Span)) : Level → Nat × Node Span → Parser (Node Span)
  | .suffix, r => suffixesFrom e r.1 r.2
  | l, r => chainFrom l.op? (joined e a l) r.1 r.2

/-- On a level, `ks` is read and the loop goes on behind it, with rounds enough. -/
def LoopsAt (e a : Parser (Node Span)) (l : Level) (ks rest : List TokenKind)
    (P : Node Span → Prop) : Prop :=
  Goes (entering e a l) (looping e a l) (ks ++ rest) rest fun r => rest.length ≤ r.1 ∧ P r.2

theorem LoopsAt.weaken (h : LoopsAt e a l ks rest P) (hPQ : ∀ node, P node → Q node) :
    LoopsAt e a l ks rest Q := by
  intro s hs
  obtain ⟨r, s', heq, hs', hr, hnode⟩ := h s hs
  exact ⟨r, s', heq, hs', hr, hPQ _ hnode⟩

/-- What a loop starts from. -/
theorem LoopsAt.start (hl : l.loops = true) (h : ReadsAt e a l.tighter ks rest P) :
    LoopsAt e a l ks rest P := by
  have hremaining : ∀ node, P node → Goes (do looping e a l (← remaining, node)) (looping e a l)
      rest rest fun r => rest.length ≤ r.1 ∧ P r.2 := by
    intro node hnode
    apply Goes.bind reads_remaining
    intro n hn
    exact .here (n, node) ⟨Nat.le_of_eq hn.symm, hnode⟩
  cases l with
  | logic => exact .bind h.anyComparison hremaining
  | product => exact .bind h.anyFactor hremaining
  | comparison | sum | suffix => exact .bind h hremaining
  | _ => exact Bool.noConfusion hl

/-- One more round. -/
theorem LoopsAt.round (h : LoopsAt e a l ks (k :: ks' ++ rest) P)
    (hround : ∀ n node, P node → Goes (looping e a l (n + 1, node)) (looping e a l)
      (k :: ks' ++ rest) rest fun r => r.1 = n ∧ Q r.2) :
    LoopsAt e a l (ks ++ k :: ks') rest Q := by
  unfold LoopsAt at *
  rw [List.append_assoc]
  apply h.trans
  rintro ⟨n, node⟩ ⟨hn, hnode⟩
  simp only [List.cons_append, List.length_cons, List.length_append] at hn
  obtain ⟨n, rfl⟩ : ∃ i, n = i + 1 := ⟨n - 1, by omega⟩
  intro s hs
  obtain ⟨r, s', heq, hs', hr, hq⟩ := hround n node hnode s hs
  exact ⟨r, s', heq, hs', by omega, hq⟩

/-- A loop ends where nothing goes on its level. -/
theorem LoopsAt.reads (hl : l.loops = true) (h : LoopsAt e a l ks rest P)
    (hend : Ends l (headKind rest)) : ReadsAt e a l ks rest P := by
  have hop : l.op? (headKind rest) = none := op?_of_joins (hend.joins_ne (Nat.le_refl _))
  have hread : Reads (entering e a l) (ks ++ rest) rest P := by
    apply Goes.reads h
    rintro ⟨n, node⟩ ⟨_, hnode⟩
    cases l with
    | suffix =>
      exact reads_suffixes_none (isSuffix_of_joins (hend.joins_ne (Nat.le_refl _))) n hnode
    | _ => exact reads_chainFrom_none hop n hnode
  cases l with
  | logic | comparison => exact hread.orExpected _
  | sum | product | suffix => exact hread
  | _ => exact Bool.noConfusion hl

/-- An operator of the level and an operand of the next tighter one. -/
theorem LoopsAt.operator {op : BinaryOp} (hl : l.loops = true) (hop : l.op? op.token = some op)
    (h : LoopsAt e a l ks (op.token :: ks' ++ rest) P) (hr : ReadsAt e a l.tighter ks' rest Q) :
    LoopsAt e a l (ks ++ op.token :: ks') rest (Joined op P Q) := by
  have hjoined : Reads (joined e a l) (ks' ++ rest) rest Q := by
    cases l with
    | logic => exact hr.anyComparison
    | product => exact hr.anyFactor
    | comparison | sum => exact hr
    | suffix => exact nomatch hop
    | _ => exact Bool.noConfusion hl
  apply h.round
  intro n node hnode
  have hround : Goes (chainFrom l.op? (joined e a l) (n + 1) node)
      (fun r : Nat × Node Span => chainFrom l.op? (joined e a l) r.1 r.2)
      (op.token :: ks' ++ rest) rest fun r => r.1 = n ∧ Joined op P Q r.2 := by
    apply Goes.bind reads_current
    intro t ht
    rw [ht, List.cons_append, headKind_cons, hop]
    apply Goes.bind reads_advance
    intro _ _
    apply Goes.bind hjoined
    intro right hright
    refine Goes.here (y := fun r => chainFrom l.op? (joined e a l) r.1 r.2) (n, _) ?_
    exact ⟨rfl, _, node, right, rfl, hnode, hright⟩
  cases l with
  | suffix => exact nomatch hop
  | _ => exact hround

end Levels

/-! ### Formulas -/

variable {e : Parser (Node Span)} {hint : String → Option Keyword} {n : Nat} {tree : Node α}

theorem bracketed_of_lt {asked : Level} (h : tree.level.rank < asked.rank) :
    tree.shown asked = .symbol .leftParen :: (tree.print ++ [.symbol .rightParen]) :=
  if_pos h

theorem shown_of_le {asked : Level} (h : asked.rank ≤ tree.level.rank) :
    tree.shown asked = tree.print :=
  if_neg (Nat.not_lt.mpr h)

theorem unmarked_bracketed (tree : Node α) (asked : Level) (ks : List TokenKind) :
    unmarked (tree.bracketed asked ks) = unmarked ks := by
  unfold Node.bracketed
  split <;> simp [TokenKind.isNoBlankLine]

theorem length_print_le_shown (tree : Node α) (asked : Level) :
    tree.print.length ≤ (tree.shown asked).length := by
  unfold Node.shown Node.bracketed
  split
  · simp
    omega
  · exact Nat.le_refl _

/-- The operand that a formula starts with, and the level that is asked of it. -/
def first? : Node α → Option (Node α × Level)
  | .binary _ op left _ => some (left, op.leftLevel)
  | .call _ callee _ => some (callee, callee.calleeLevel .atom)
  | .index _ object _ | .getAttr _ object _ | .methodCall _ object _ _ => some (object, .suffix)
  | _ => none

theorem isFormula_first {object : Node α} {asked : Level} (h : tree.isFormula = true)
    (hfirst : first? tree = some (object, asked)) : object.isFormula = true := by
  cases tree <;> simp_all [first?, Node.isFormula]

/-- The token behind the operand that a formula starts with joins it. -/
theorem print_first {object : Node α} {asked : Level} (hfirst : first? tree = some (object, asked)) :
    tree.level.rank ≤ asked.rank ∧
      ∃ k ks, tree.print = object.shown asked ++ k :: ks ∧ (joins k).isSome = true := by
  cases tree with
  | binary _ op =>
    simp only [first?, Option.some.injEq, Prod.mk.injEq] at hfirst
    obtain ⟨rfl, rfl⟩ := hfirst
    exact ⟨op.level_le_leftLevel, _, _, rfl, by cases op <;> rfl⟩
  | call _ callee =>
    simp only [first?, Option.some.injEq, Prod.mk.injEq] at hfirst
    obtain ⟨rfl, rfl⟩ := hfirst
    exact ⟨callee.suffix_le_calleeLevel, _, _, rfl, rfl⟩
  | index | getAttr | methodCall =>
    simp only [first?, Option.some.injEq, Prod.mk.injEq] at hfirst
    obtain ⟨rfl, rfl⟩ := hfirst
    exact ⟨Nat.le_refl _, _, _, rfl, rfl⟩
  | _ => cases hfirst

/-- Trees, from what they start with. -/
theorem first_induction {motive : Node α → Prop}
    (alone : ∀ tree, first? tree = none → motive tree)
    (behind : ∀ tree object asked, first? tree = some (object, asked) → motive object →
      motive tree) : (tree : Node α) → motive tree
  | .binary _ op left _ => behind _ left op.leftLevel rfl (first_induction alone behind left)
  | .call _ callee _ => behind _ callee _ rfl (first_induction alone behind callee)
  | .index _ object _ | .getAttr _ object _ | .methodCall _ object _ _ =>
    behind _ object .suffix rfl (first_induction alone behind object)
  | .int .. | .float .. | .string .. | .name .. | .list .. | .block .. | .declare .. | .assign ..
  | .unary .. | .cond .. | .forLoop .. | .whileLoop .. | .func .. | .ret .. | .exit .. | .cls ..
  | .new .. | .setAttr .. => alone _ rfl

/-- What a formula starts with, by its level. -/
theorem leads_print (h : tree.isFormula = true) (rest : List TokenKind) :
    leads tree.level (headKind (tree.print ++ rest)) = true := by
  induction tree using first_induction generalizing rest with
  | alone tree hfirst =>
    cases tree with
    | int | string | name | list => rfl
    | unary _ op => cases op <;> rfl
    | binary | call | index | getAttr | methodCall => cases hfirst
    | _ => simp [Node.isFormula] at h
  | behind tree object asked hfirst ih =>
    obtain ⟨hle, k, ks, hprint, _⟩ := print_first hfirst
    rw [hprint, List.append_assoc]
    by_cases hlt : object.level.rank < asked.rank
    · rw [bracketed_of_lt hlt]
      rfl
    · rw [shown_of_le (Nat.not_lt.mp hlt)]
      exact leads_mono (ih (isFormula_first h hfirst) _) (by omega)

/-- Behind a name that a formula starts with the formula ends, or the token joins it. -/
theorem behind_name (h : tree.isFormula = true) {rest : List TokenKind} {name : String}
    (hname : headKind (tree.print ++ rest) = .ident name) :
    headKind (tree.print ++ rest).tail = headKind rest ∨
      (joins (headKind (tree.print ++ rest).tail)).isSome = true := by
  induction tree using first_induction generalizing rest with
  | alone tree hfirst =>
    cases tree with
    | name => exact .inl rfl
    | int | string | list => cases hname
    | unary _ op => cases op <;> cases hname
    | binary | call | index | getAttr | methodCall => cases hfirst
    | _ => simp [Node.isFormula] at h
  | behind tree object asked hfirst ih =>
    obtain ⟨_, k, ks, hprint, hk⟩ := print_first hfirst
    rw [hprint, List.append_assoc] at hname ⊢
    by_cases hlt : object.level.rank < asked.rank
    · rw [bracketed_of_lt hlt] at hname
      cases hname
    · rw [shown_of_le (Nat.not_lt.mp hlt)] at hname ⊢
      right
      rcases ih (isFormula_first h hfirst) hname with heq | hjoins
      · rw [heq]
        exact hk
      · exact hjoins

/-- A parser that reads formulas of at most `n` tokens. -/
def ReadsFormulas (α : Type) (e : Parser (Node Span)) (n : Nat) : Prop :=
  ∀ tree : Node α, tree.isFormula = true → tree.print.length ≤ n → ∀ rest,
    Ends .logic (headKind rest) → Reads e (tree.print ++ rest) rest (Same tree)

/-! ### Items -/

theorem printMoreBy_eq (called : Level) (items : List (Node α)) :
    printMoreBy called items = behindCommas (Node.printBy called) items := by
  induction items with
  | nil => rfl
  | cons item items ih => rw [printMoreBy, behindCommas_cons, ih]

theorem isFormula_of_mem {items : List (Node α)} (h : areFormulas items = true) {item : Node α}
    (hitem : item ∈ items) : item.isFormula = true := by
  induction items with
  | nil => exact nomatch hitem
  | cons node nodes ih =>
    obtain ⟨hnode, hnodes⟩ := Bool.and_eq_true_iff.mp h
    rcases List.mem_cons.mp hitem with rfl | hitem
    · exact hnode
    · exact ih hnodes hitem

/-- Items are read up to the bracket that closes them. -/
theorem ReadsFormulas.arguments (he : ReadsFormulas α e n) {close : Symbol}
    (hclose : close = .rightParen ∨ close = .rightSquare) {args : List (Node α)}
    (h : areFormulas args = true) (hlen : (printItemsBy .atom args).length ≤ n) :
    Reads (arguments e close) (k :: (printItemsBy .atom args ++ .symbol close :: rest)) rest
      fun l => eraseAll l = eraseAll args := by
  have hcomma : close ≠ .comma := by rcases hclose with rfl | rfl <;> exact nofun
  have hends : ∀ k, EndsItem close k → Ends .logic k := by
    rintro k (rfl | rfl)
    · exact ⟨rfl, nofun⟩
    · rcases hclose with rfl | rfl <;> exact ⟨rfl, nofun⟩
  cases args with
  | nil => exact reads_noArguments.weaken fun l hl => by rw [hl]; rfl
  | cons arg args =>
    rw [printItemsBy, printMoreBy_eq] at hlen ⊢
    rw [List.append_assoc]
    apply reads_arguments hcomma arg args
    · intro rest
      have hlead := leads_print (isFormula_of_mem h List.mem_cons_self) rest
      generalize headKind _ = k at hlead
      rcases hclose with rfl | rfl <;>
      · cases k with
        | symbol s => cases s <;> first | rfl | exact Bool.noConfusion hlead
        | _ => rfl
    · intro item hitem rest hrest
      have hshort := length_le_betweenCommas (Node.printBy .atom) hitem
      exact he item (isFormula_of_mem h hitem) (Nat.le_trans hshort hlen) rest (hends _ hrest)

/-! ### Each form on its level -/

/-- Whether the token behind leaves an attribute one: a parenthesis makes a method of it. -/
def Apart (tree : Node α) (k : TokenKind) : Prop :=
  k = .symbol .leftParen → tree.calleeLevel .atom = .suffix

/-- A formula on its own level, and in the loop of it if there is one. -/
structure Legible (e a : Parser (Node Span)) (tree : Node α) : Prop where
  reads : ∀ rest, Ends tree.level (headKind rest) →
    ReadsAt e a tree.level tree.print rest (Same tree)
  loops : tree.level.loops = true → ∀ rest, Ends tree.level.tighter (headKind rest) →
    Apart tree (headKind rest) → LoopsAt e a tree.level tree.print rest (Same tree)

section Forms

variable {a : Parser (Node Span)}

/-- What a level without a loop reads. -/
theorem Legible.of_reads (hl : tree.level.loops = false)
    (h : ∀ rest, Ends tree.level (headKind rest) →
      ReadsAt e a tree.level tree.print rest (Same tree)) : Legible e a tree :=
  ⟨h, fun hloops => absurd (hl.symm.trans hloops) Bool.false_ne_true⟩

theorem Legible.of_loops (hl : tree.level.loops = true)
    (h : ∀ rest, Ends tree.level.tighter (headKind rest) → Apart tree (headKind rest) →
      LoopsAt e a tree.level tree.print rest (Same tree)) : Legible e a tree := by
  have hrank := Level.rank_tighter hl
  have hreads : ∀ rest, Ends tree.level (headKind rest) →
      ReadsAt e a tree.level tree.print rest (Same tree) := by
    intro rest hend
    have hapart : Apart tree (headKind rest) := by
      intro hparen
      have hlt := hend.looser .suffix (by rw [hparen]; rfl)
      generalize tree.level = l at hl hlt
      cases l <;> first | exact Bool.noConfusion hl | exact absurd hlt (by decide)
    exact (h rest (hend.mono (by omega)) hapart).reads hl hend
  exact ⟨hreads, fun _ => h⟩

theorem reads_bracketed (hint : String → Option Keyword) (he : ReadsFormulas α e n)
    (h : tree.isFormula = true) (hlen : tree.print.length ≤ n) (rest : List TokenKind) :
    ReadsAt e (atom hint e) .atom (.symbol .leftParen :: (tree.print ++ [.symbol .rightParen])) rest
      (Same tree) := by
  show Reads _ (.symbol .leftParen :: (tree.print ++ [.symbol .rightParen]) ++ rest) rest _
  rw [List.cons_append, List.append_assoc]
  apply Reads.bind reads_current
  intro t ht
  rw [ht]
  apply Reads.bind reads_advance
  intro _ _
  apply Reads.bind (he tree h hlen (.symbol .rightParen :: rest) ⟨rfl, nofun⟩)
  intro node hnode
  apply Reads.bind (reads_expect _ _)
  intro _ _
  exact .pure node hnode

/-- An operand is read on the level that is asked of it. -/
theorem Legible.shown (hT : Legible e (atom hint e) tree) (he : ReadsFormulas α e n)
    (h : tree.isFormula = true) {asked : Level} (hlen : (tree.shown asked).length ≤ n + 1)
    (hend : Ends asked (headKind rest)) :
    ReadsAt e (atom hint e) asked (tree.shown asked) rest (Same tree) := by
  by_cases hlt : tree.level.rank < asked.rank
  · rw [bracketed_of_lt hlt] at hlen ⊢
    simp only [List.length_cons, List.length_append] at hlen
    have hatom := reads_bracketed hint he h (by omega) rest
    exact hatom.loosest rfl (by cases asked <;> decide) hend
  · have hle := Nat.not_lt.mp hlt
    rw [shown_of_le hle]
    exact (hT.reads rest (hend.mono hle)).loosest (leads_print h rest) hle hend

/-- An operand that a loop starts with is read by rounds of it, if its own level is that
of the loop, and else before the first round. -/
theorem Legible.shown_loops (hT : Legible e (atom hint e) tree) (he : ReadsFormulas α e n)
    (h : tree.isFormula = true) {l : Level} (hl : l.loops = true)
    (hlen : (tree.shown l).length ≤ n + 1) (hend : Ends l.tighter (headKind rest))
    (hapart : Apart tree (headKind rest)) :
    LoopsAt e (atom hint e) l (tree.shown l) rest (Same tree) := by
  by_cases heq : tree.level = l
  · subst heq
    rw [shown_of_le (Nat.le_refl _)]
    exact hT.loops hl rest hend hapart
  · have hne : tree.level.rank ≠ l.rank := fun hrank => heq (Level.eq_of_rank_eq hrank)
    have hrank := Level.rank_tighter hl
    have hsame : tree.shown l = tree.shown l.tighter := by
      by_cases hlt : tree.level.rank < l.rank
      · rw [bracketed_of_lt hlt, bracketed_of_lt (by omega)]
      · rw [shown_of_le (Nat.not_lt.mp hlt), shown_of_le (by omega)]
    rw [hsame] at hlen ⊢
    exact .start hl (hT.shown he h hlen hend)

theorem leads_shown (h : tree.isFormula = true) (asked : Level) (rest : List TokenKind) :
    leads asked (headKind (tree.shown asked ++ rest)) = true := by
  by_cases hlt : tree.level.rank < asked.rank
  · rw [bracketed_of_lt hlt]
    rfl
  · have hle := Nat.not_lt.mp hlt
    rw [shown_of_le hle]
    exact leads_mono (leads_print h rest) hle

theorem ends_token (op : BinaryOp) {l : Level} (h : op.level.rank < l.rank) : Ends l op.token := by
  have hjoins : joins op.token = some op.level := by cases op <;> rfl
  refine ⟨by cases op <;> rfl, fun j hj => ?_⟩
  rw [hjoins, Option.some.injEq] at hj
  rw [← hj]
  exact h

theorem ends_suffix (h : isSuffix k = true) : Ends .atom k := by
  have hk : k = .symbol .leftParen ∨ k = .symbol .leftSquare ∨ k = .symbol .dot := by
    cases k with
    | symbol s => cases s <;> first | exact Bool.noConfusion h | simp
    | _ => cases h
  rcases hk with rfl | rfl | rfl <;> exact ⟨rfl, fun j hj => by cases hj; decide⟩

/-- What the operators but the power ask of their operands. -/
theorem chained {op : BinaryOp} (hop : op ≠ .pow) :
    op.level.loops = true ∧ op.leftLevel = op.level ∧ op.rightLevel = op.level.tighter ∧
      op.level.op? op.token = some op := by
  cases op <;> first | exact ⟨rfl, rfl, rfl, rfl⟩ | exact absurd rfl hop

end Forms

section Operators

variable {left right operand : Node α} (he : ReadsFormulas α e n)

include he

theorem Legible.chain {op : BinaryOp} (hop : op ≠ .pow) (tag : α)
    (hl : Legible e (atom hint e) left) (hr : Legible e (atom hint e) right)
    (h : (Node.binary tag op left right).isFormula = true)
    (hlen : (Node.print (.binary tag op left right)).length ≤ n + 1) :
    Legible e (atom hint e) (.binary tag op left right) := by
  obtain ⟨hloops, hleft, hright, hself⟩ := chained hop
  obtain ⟨hfl, hfr⟩ := Bool.and_eq_true_iff.mp h
  have hprint : Node.print (.binary tag op left right) =
      left.shown op.level ++ op.token :: right.shown op.level.tighter := by
    have hasked : Node.print (.binary tag op left right) =
        left.shown op.leftLevel ++ op.token :: right.shown op.rightLevel := rfl
    rw [hasked, hleft, hright]
  rw [hprint, List.length_append, List.length_cons] at hlen
  have hlevel : (Node.binary tag op left right).level.loops = true := hloops
  apply Legible.of_loops hlevel
  intro rest hend _
  have hend : Ends op.level.tighter (headKind rest) := hend
  rw [hprint]
  have hlooped : LoopsAt e (atom hint e) op.level (left.shown op.level)
      (op.token :: right.shown op.level.tighter ++ rest) (Same left) := by
    apply hl.shown_loops he hfl hloops (by omega)
    · exact ends_token op (by rw [Level.rank_tighter hloops]; exact Nat.lt_succ_self _)
    · intro hparen
      cases op <;> cases hparen
  have hoperand := hr.shown he hfr (by omega) hend
  apply (hlooped.operator hloops hself hoperand).weaken
  rintro _ ⟨tag', l, r, rfl, hsl, hsr⟩
  simp [Same, Node.erase, hsl, hsr]

/-- A power is no loop: its right operand is a sign or a power again. -/
theorem Legible.power (tag : α) (hl : Legible e (atom hint e) left)
    (hr : Legible e (atom hint e) right) (h : (Node.binary tag .pow left right).isFormula = true)
    (hlen : (Node.print (.binary tag .pow left right)).length ≤ n + 1) :
    Legible e (atom hint e) (.binary tag .pow left right) := by
  obtain ⟨hfl, hfr⟩ := Bool.and_eq_true_iff.mp h
  have hprint : Node.print (.binary tag .pow left right) =
      left.shown .suffix ++ .symbol .caret :: right.shown .sign := rfl
  rw [hprint, List.length_append, List.length_cons] at hlen
  apply Legible.of_reads rfl
  intro rest hend m hm
  rw [hprint, List.length_append, List.length_cons] at hm
  obtain ⟨m, rfl⟩ : ∃ i, m = i + 1 := ⟨m - 1, by omega⟩
  rw [hprint, List.append_assoc]
  have hleft : ReadsAt e (atom hint e) .suffix (left.shown .suffix)
      (.symbol .caret :: right.shown .sign ++ rest) (Same left) :=
    hl.shown he hfl (by omega) (ends_token .pow (by decide))
  have hright : ReadsAt e (atom hint e) .sign (right.shown .sign) rest (Same right) :=
    hr.shown he hfr (by omega) (Ends.sign hend)
  apply Reads.bind reads_current
  intro t ht
  rw [ht, sign?_of_leads (leads_shown hfl .suffix _) (by decide)]
  have hpower : BinaryOp.power? (headKind rest) = none :=
    op?_of_joins (l := .power) (hend.joins_ne (Nat.le_refl _))
  apply (reads_chain_one hleft rfl (hright m (by omega)) hpower).weaken
  rintro _ ⟨tag', l, r, rfl, hsl, hsr⟩
  simp [Same, Node.erase, hsl, hsr]

theorem Legible.negation (tag : α) (ho : Legible e (atom hint e) operand)
    (h : operand.isFormula = true)
    (hlen : (Node.print (.unary tag .not operand)).length ≤ n + 1) :
    Legible e (atom hint e) (.unary tag .not operand) := by
  have hprint : Node.print (.unary tag .not operand) =
      .keyword .not :: operand.shown .negation := rfl
  rw [hprint, List.length_cons] at hlen
  apply Legible.of_reads rfl
  intro rest hend m hm
  have hoperand : ReadsAt e (atom hint e) .negation (operand.shown .negation) rest
      (Same operand) := ho.shown he h (by omega) hend
  rw [hprint, List.length_cons] at hm
  obtain ⟨m, rfl⟩ : ∃ i, m = i + 1 := ⟨m - 1, by omega⟩
  apply Reads.bind (reads_atKeyword .not)
  intro b hb
  subst hb
  apply Reads.bind reads_advance
  intro _ _
  apply Reads.bind (hoperand m (by omega))
  intro node hnode
  exact .pure _ (by simp [Same, Node.erase, hnode])

theorem Legible.sign {op : UnaryOp} (hop : UnaryOp.sign? op.token = some op) (tag : α)
    (ho : Legible e (atom hint e) operand) (h : operand.isFormula = true)
    (hlen : (Node.print (.unary tag op operand)).length ≤ n + 1) :
    Legible e (atom hint e) (.unary tag op operand) := by
  have hlevel : op.level = .sign := by cases op <;> first | rfl | cases hop
  have hprint : Node.print (.unary tag op operand) = op.token :: operand.shown .sign := by
    rw [← hlevel]
    rfl
  rw [hprint, List.length_cons] at hlen
  have hreads : ∀ rest, Ends .sign (headKind rest) →
      ReadsAt e (atom hint e) .sign (Node.print (.unary tag op operand)) rest
        (Same (.unary tag op operand)) := by
    intro rest hend m hm
    rw [hprint] at hm ⊢
    rw [List.length_cons] at hm
    obtain ⟨m, rfl⟩ : ∃ i, m = i + 1 := ⟨m - 1, by omega⟩
    apply Reads.bind reads_current
    intro t ht
    rw [ht, List.cons_append, headKind_cons, hop]
    apply Reads.bind reads_advance
    intro _ _
    apply Reads.bind (ho.shown he h (by omega) hend m (by omega))
    intro node hnode
    exact .pure _ (by simp [Same, Node.erase, hnode])
  cases op with
  | not => cases hop
  | plus | minus => exact Legible.of_reads rfl hreads

end Operators

section Suffixes

variable {object key : Node α} {args : List (Node α)} (he : ReadsFormulas α e n)

include he

theorem reads_list (tag : α) (h : areFormulas args = true)
    (hlen : (Node.print (.list tag args)).length ≤ n + 1) :
    Reads (atom hint e) (Node.print (.list tag args) ++ rest) rest (Same (.list tag args)) := by
  have hprint : Node.print (.list tag args) ++ rest =
      .symbol .leftSquare :: (printItemsBy .atom args ++ .symbol .rightSquare :: rest) := by
    simp [Node.printBy]
  simp only [Node.print, Node.printBy, List.length_cons, List.length_append] at hlen
  rw [hprint]
  apply Reads.bind reads_current
  intro t ht
  rw [ht]
  apply Reads.bind (he.arguments (.inr rfl) h (by omega))
  intro l hl
  apply Reads.bind (reads_spanFrom _)
  intro _ _
  exact .pure _ (by simp [Same, Node.erase, hl])

/-- What a suffix goes on, a call apart. -/
theorem Legible.suffixed (ho : Legible e (atom hint e) object) (h : object.isFormula = true)
    (hlen : (object.shown .suffix).length ≤ n + 1)
    (hk : k = .symbol .leftSquare ∨ k = .symbol .dot) :
    LoopsAt e (atom hint e) .suffix (object.shown .suffix) (k :: ks) (Same object) := by
  apply ho.shown_loops he h rfl hlen
  · rcases hk with rfl | rfl <;> exact ends_suffix rfl
  · rcases hk with rfl | rfl <;> exact nofun

/-- What a call is made of. An attribute in its place is in parentheses, and so an atom. -/
theorem Legible.callee (ho : Legible e (atom hint e) object) (h : object.isFormula = true)
    (hlen : (object.shown (object.calleeLevel .atom)).length ≤ n + 1) :
    LoopsAt e (atom hint e) .suffix (object.shown (object.calleeLevel .atom))
      (.symbol .leftParen :: ks) (Same object) := by
  have hend : Ends .atom (.symbol .leftParen) := ends_suffix rfl
  by_cases hlevel : object.calleeLevel .atom = .suffix
  · rw [hlevel] at hlen ⊢
    exact ho.shown_loops he h rfl hlen hend fun _ => hlevel
  · have hatom : object.calleeLevel .atom = .atom := by
      cases object <;> first | rfl | exact absurd rfl hlevel
    rw [hatom] at hlen ⊢
    exact .start rfl (ho.shown he h hlen hend)

theorem Legible.call (tag : α) (ho : Legible e (atom hint e) object)
    (h : (Node.call tag object args).isFormula = true)
    (hlen : (Node.print (.call tag object args)).length ≤ n + 1) :
    Legible e (atom hint e) (.call tag object args) := by
  obtain ⟨hobject, hargs⟩ := Bool.and_eq_true_iff.mp h
  have hprint : Node.print (.call tag object args) = object.shown (object.calleeLevel .atom) ++
      .symbol .leftParen :: (printItemsBy .atom args ++ [.symbol .rightParen]) := rfl
  rw [hprint] at hlen
  simp only [List.length_append, List.length_cons] at hlen
  have hlevel : (Node.call tag object args).level.loops = true := rfl
  apply Legible.of_loops hlevel
  intro rest hend _
  rw [hprint]
  apply LoopsAt.round (ho.callee he hobject (by omega))
  intro m node hnode
  apply Goes.bind reads_current
  intro t ht
  rw [ht, List.cons_append, List.append_assoc]
  apply Goes.bind (he.arguments (.inl rfl) hargs (by omega))
  intro l hl
  apply Goes.bind (reads_spanFrom _)
  intro _ _
  exact Goes.here (y := looping e (atom hint e) .suffix) (m, _)
    ⟨rfl, by simp [Same, Node.erase, hnode, hl]⟩

theorem Legible.index (tag : α) (ho : Legible e (atom hint e) object)
    (h : (Node.index tag object key).isFormula = true)
    (hlen : (Node.print (.index tag object key)).length ≤ n + 1) :
    Legible e (atom hint e) (.index tag object key) := by
  obtain ⟨hobject, hkey⟩ := Bool.and_eq_true_iff.mp h
  have hprint : Node.print (.index tag object key) = object.shown .suffix ++
      .symbol .leftSquare :: (key.print ++ [.symbol .rightSquare]) := rfl
  rw [hprint] at hlen
  simp only [List.length_append, List.length_cons] at hlen
  have hlevel : (Node.index tag object key).level.loops = true := rfl
  apply Legible.of_loops hlevel
  intro rest hend _
  rw [hprint]
  apply LoopsAt.round (ho.suffixed he hobject (by omega) (.inl rfl))
  intro m node hnode
  apply Goes.bind reads_current
  intro t ht
  rw [ht, List.cons_append, List.append_assoc]
  apply Goes.bind reads_advance
  intro _ _
  apply Goes.bind (he key hkey (by omega) (.symbol .rightSquare :: rest) ⟨rfl, nofun⟩)
  intro i hi
  apply Goes.bind (reads_expect _ _)
  intro _ _
  apply Goes.bind (reads_spanFrom _)
  intro _ _
  exact Goes.here (y := looping e (atom hint e) .suffix) (m, _)
    ⟨rfl, by simp [Same, Node.erase, hnode, hi]⟩

theorem Legible.getAttr (tag : α) (name : String) (ho : Legible e (atom hint e) object)
    (h : object.isFormula = true)
    (hlen : (Node.print (.getAttr tag object name)).length ≤ n + 1) :
    Legible e (atom hint e) (.getAttr tag object name) := by
  have hprint : Node.print (.getAttr tag object name) =
      object.shown .suffix ++ .symbol .dot :: [.ident name] := rfl
  rw [hprint] at hlen
  simp only [List.length_append, List.length_cons] at hlen
  have hlevel : (Node.getAttr tag object name).level.loops = true := rfl
  apply Legible.of_loops hlevel
  intro rest hend hapart
  rw [hprint]
  apply LoopsAt.round (ho.suffixed he h (by omega) (.inr rfl))
  intro m node hnode
  apply Goes.bind reads_current
  intro t ht
  rw [ht]
  apply Goes.bind reads_advance
  intro _ _
  apply Goes.bind (reads_expectIdent name _)
  intro r hr
  apply Goes.bind (reads_atSymbol .leftParen)
  intro b hb
  have hfalse : b = false := by
    rw [hb]
    exact isSymbol_of_ne fun hparen => nomatch hapart hparen
  rw [hfalse]
  apply Goes.bind (reads_spanFrom _)
  intro _ _
  exact Goes.here (y := looping e (atom hint e) .suffix) (m, _)
    ⟨rfl, by simp [Same, Node.erase, hnode, hr]⟩

theorem Legible.methodCall (tag : α) (name : String) (ho : Legible e (atom hint e) object)
    (h : (Node.methodCall tag object name args).isFormula = true)
    (hlen : (Node.print (.methodCall tag object name args)).length ≤ n + 1) :
    Legible e (atom hint e) (.methodCall tag object name args) := by
  obtain ⟨hobject, hargs⟩ := Bool.and_eq_true_iff.mp h
  have hprint : Node.print (.methodCall tag object name args) = object.shown .suffix ++
      .symbol .dot :: .ident name :: .symbol .leftParen ::
        (printItemsBy .atom args ++ [.symbol .rightParen]) := rfl
  rw [hprint] at hlen
  simp only [List.length_append, List.length_cons] at hlen
  have hlevel : (Node.methodCall tag object name args).level.loops = true := rfl
  apply Legible.of_loops hlevel
  intro rest hend _
  rw [hprint]
  apply LoopsAt.round (ho.suffixed he hobject (by omega) (.inr rfl))
  intro m node hnode
  apply Goes.bind reads_current
  intro t ht
  rw [ht]
  simp only [List.cons_append, List.append_assoc]
  apply Goes.bind reads_advance
  intro _ _
  apply Goes.bind (reads_expectIdent name _)
  intro r hr
  apply Goes.bind (reads_atSymbol .leftParen)
  rintro _ rfl
  apply Goes.bind (he.arguments (.inl rfl) hargs (by omega))
  intro l hl
  apply Goes.bind (reads_spanFrom _)
  intro _ _
  exact Goes.here (y := looping e (atom hint e) .suffix) (m, _)
    ⟨rfl, by simp [Same, Node.erase, hnode, hr, hl]⟩

end Suffixes

/-! ### Whole formulas -/

/-- Every formula on its level, by recursion on the operands that stand bare; what is in
brackets is shorter and left to `e`. -/
theorem legible (he : ReadsFormulas α e n) : (tree : Node α) → tree.isFormula = true →
    tree.print.length ≤ n + 1 → Legible e (atom hint e) tree
  | .int _ i, _, _ => by
    apply Legible.of_reads rfl
    intro rest _
    apply Reads.bind reads_current
    intro t ht
    rw [ht]
    apply Reads.bind reads_advance
    intro _ _
    exact .pure _ rfl
  | .string _ s, _, _ => by
    apply Legible.of_reads rfl
    intro rest _
    apply Reads.bind reads_current
    intro t ht
    rw [ht]
    apply Reads.bind reads_advance
    intro _ _
    exact .pure _ rfl
  | .name _ name, _, _ => by
    apply Legible.of_reads rfl
    intro rest hend
    apply (reads_name hend.operand).weaken
    rintro _ ⟨tag, rfl⟩
    rfl
  | .list tag items, h, hlen => .of_reads rfl fun _ _ => reads_list he tag h hlen
  | .binary tag op left right, h, hlen => by
    obtain ⟨hfl, hfr⟩ := Bool.and_eq_true_iff.mp h
    have hprint : (Node.print (.binary tag op left right)).length =
        (left.shown op.leftLevel).length + ((right.shown op.rightLevel).length + 1) :=
      List.length_append
    have hshort := length_print_le_shown left op.leftLevel
    have hshort' := length_print_le_shown right op.rightLevel
    have hl := legible he left hfl (by omega)
    have hr := legible he right hfr (by omega)
    by_cases hop : op = .pow
    · subst hop
      exact .power he tag hl hr h hlen
    · exact .chain he hop tag hl hr h hlen
  | .unary tag op operand, h, hlen => by
    have hprint : (Node.print (.unary tag op operand)).length =
        (operand.shown op.level).length + 1 := rfl
    have hshort := length_print_le_shown operand op.level
    have ho := legible he operand h (by omega)
    cases op with
    | not => exact .negation he tag ho h hlen
    | plus | minus => exact .sign he rfl tag ho h hlen
  | .call tag callee args, h, hlen => by
    have hprint : (Node.print (.call tag callee args)).length =
        (callee.shown (callee.calleeLevel .atom)).length +
          ((printItemsBy .atom args ++ [TokenKind.symbol .rightParen]).length + 1) := List.length_append
    have hshort := length_print_le_shown callee (callee.calleeLevel .atom)
    exact .call he tag (legible he callee (Bool.and_eq_true_iff.mp h).1 (by omega)) h hlen
  | .index tag target index, h, hlen => by
    have hprint : (Node.print (.index tag target index)).length = (target.shown .suffix).length +
        ((index.print ++ [TokenKind.symbol .rightSquare]).length + 1) := List.length_append
    have hshort := length_print_le_shown target .suffix
    exact .index he tag (legible he target (Bool.and_eq_true_iff.mp h).1 (by omega)) h hlen
  | .getAttr tag object name, h, hlen => by
    have hprint : (Node.print (.getAttr tag object name)).length =
        (object.shown .suffix).length + 2 := List.length_append
    have hshort := length_print_le_shown object .suffix
    exact .getAttr he tag name (legible he object h (by omega)) h hlen
  | .methodCall tag object name args, h, hlen => by
    have hprint : (Node.print (.methodCall tag object name args)).length =
        (object.shown .suffix).length +
          ((printItemsBy .atom args ++ [TokenKind.symbol .rightParen]).length + 3) := List.length_append
    have hshort := length_print_le_shown object .suffix
    exact .methodCall he tag name
      (legible he object (Bool.and_eq_true_iff.mp h).1 (by omega)) h hlen

/-- A formula is no declaration: no name in it has an operand right behind it. -/
theorem undeclared_print (h : tree.isFormula = true) (hrest : (headKind rest).isOperand = false) :
    Undeclared (tree.print ++ rest) := by
  constructor
  · intro word name hword hname
    rcases behind_name h hword with heq | hjoins
    · rw [← heq, hname] at hrest
      cases hrest
    · rw [hname] at hjoins
      cases hjoins
  · intro hvar
    have hlead := leads_print h rest
    rw [hvar] at hlead
    cases hlead

theorem ReadsFormulas.step (he : ReadsFormulas α e n) :
    ReadsFormulas α (expressionStep hint e) (n + 1) := by
  intro tree h hlen rest hend
  have hT : Legible e (atom hint e) tree := legible he tree h hlen
  have hlogic : ReadsAt e (atom hint e) .logic tree.print rest (Same tree) :=
    (hT.reads rest (hend.mono (Nat.zero_le _))).loosest (leads_print h rest) (Nat.zero_le _) hend
  exact reads_expressionStep (undeclared_print h hend.operand) hlogic

theorem print_ne_nil (h : tree.isFormula = true) : tree.print ≠ [] := by
  intro hnil
  have hlead := leads_print h []
  rw [hnil] at hlead
  cases hlead

/-- Formulas nest no deeper than they have tokens. -/
theorem readsFormulas_expression (α : Type) (hint : String → Option Keyword) (n : Nat) :
    ReadsFormulas α (expression hint n) n := by
  induction n with
  | zero =>
    intro tree h hlen
    exact absurd (List.length_eq_zero_iff.mp (Nat.le_zero.mp hlen)) (print_ne_nil h)
  | succ n ih => exact ih.step

mutual

theorem unmarked_print : (tree : Node α) → unmarked tree.print = true
  | .int .. | .string .. | .name .. => rfl
  | .list _ items => by
    simp [Node.printBy, unmarked_printItems items, TokenKind.isNoBlankLine]
  | .binary _ op left right => by
    have hop : op.token.isNoBlankLine = false := by cases op <;> rfl
    simp [Node.printBy, unmarked_bracketed, unmarked_print left, unmarked_print right, hop]
  | .unary _ op operand => by
    have hop : op.token.isNoBlankLine = false := by cases op <;> rfl
    simp [Node.printBy, unmarked_bracketed, unmarked_print operand, hop]
  | .call _ object args | .methodCall _ object _ args => by
    simp [Node.printBy, unmarked_bracketed, unmarked_print object, unmarked_printItems args,
      TokenKind.isNoBlankLine]
  | .index _ object index => by
    simp [Node.printBy, unmarked_bracketed, unmarked_print object, unmarked_print index,
      TokenKind.isNoBlankLine]
  | .getAttr _ object _ => by
    simp [Node.printBy, unmarked_bracketed, unmarked_print object, TokenKind.isNoBlankLine]
  | .float .. | .block .. | .declare .. | .assign .. | .cond .. | .forLoop .. | .whileLoop ..
  | .func .. | .ret .. | .exit .. | .cls .. | .new .. | .setAttr .. => rfl

theorem unmarked_printItems : (items : List (Node α)) →
    unmarked (printItemsBy .atom items) = true
  | [] => rfl
  | item :: items => by simp [printItemsBy, unmarked_print item, unmarked_printMore items]

theorem unmarked_printMore : (items : List (Node α)) → unmarked (printMoreBy .atom items) = true
  | [] => rfl
  | item :: items => by
    simp [printMoreBy, unmarked_print item, unmarked_printMore items, TokenKind.isNoBlankLine]

end

/-- A formula and the end of the text, read as an expression. -/
theorem reads_formula (hint : String → Option Keyword) (h : tree.isFormula = true)
    (hn : tree.print.length ≤ n) : Reads (expression hint n) tree.print [] (Same tree) := by
  have hread := readsFormulas_expression α hint n tree h hn [] ⟨rfl, nofun⟩
  rw [List.append_nil] at hread
  exact hread

/-- A formula starts no other statement. -/
theorem plain_print (h : tree.isFormula = true) (hrest : headKind rest ≠ .symbol .colon) :
    Plain (tree.print ++ rest) := by
  have hlead := leads_print h rest
  constructor
  · intro name hname hcolon
    rcases behind_name h hname with heq | hjoins
    · exact hrest (heq.symm.trans hcolon)
    · rw [hcolon] at hjoins
      cases hjoins
  all_goals
    intro hword
    rw [hword] at hlead
    cases hlead

theorem starts_of_leads {l : Level} (h : leads l k = true) : starts k = true := by
  unfold leads at h
  split at h <;> first | rfl | cases h

/-- A formula and the end of the text, read as a program. -/
theorem reads_formulaProgram (hint : String → Option Keyword) (h : tree.isFormula = true) :
    Reads (program hint) tree.print [] fun node =>
      ∃ tag item, node = .block tag [item] ∧ Same tree item := by
  have hlead := leads_print h []
  have hplain : Plain (tree.print ++ []) := plain_print h nofun
  rw [List.append_nil] at hlead hplain
  exact reads_singleProgram (starts_of_leads hlead)
    (reads_statement_expression hplain (reads_formula hint h (Nat.le_refl _)) nofun)

end Parser

/-- **A formula is read back from its tokens**, with parentheses only where the levels ask
for them and around an attribute that is called: all tokens are read, and the tree is the
same up to spans; and so is the program of this one statement. -/
theorem Node.parse_print (hint : String → Option Keyword) (tree : Node α)
    (h : tree.isFormula = true) (tokens : List Token) (eof : Token)
    (htokens : tokens.map Token.kind = tree.print) (heof : eof.kind = .eof) :
    (∀ depth, tokens.length ≤ depth →
      ∃ node s, Parser.expression hint depth (Parser.start tokens eof) = .ok node s ∧
        s.cursor.rest = [] ∧ node.erase = tree.erase) ∧
    ∃ tag node, parseTokens hint tokens eof = .ok (.block tag [node]) ∧
      node.erase = tree.erase := by
  have hat := Parser.at_start htokens (Parser.unmarked_print tree) heof
  constructor
  · intro depth hdepth
    have hlen : tree.print.length ≤ depth := by
      rw [← htokens, List.length_map]
      exact hdepth
    obtain ⟨node, s, hread, hs, hsame⟩ := Parser.reads_formula hint h hlen _ hat
    exact ⟨node, s, hread, List.map_eq_nil_iff.mp hs.rest, hsame⟩
  · obtain ⟨_, s, hread, _, tag, node, rfl, hsame⟩ := Parser.reads_formulaProgram hint h _ hat
    refine ⟨tag, node, ?_, hsame⟩
    unfold parseTokens
    rw [hread]

/-- `not a or b and -x ^ -2 ^ 3 - (y - z) * 4 < f(x, [1])[0].g("s") and (o.m)(a == (b == c))` -/
def Node.formula : Node Unit :=
  .binary () .and
    (.binary () .and
      (.binary () .or (.unary () .not (.name () "a")) (.name () "b"))
      (.binary () .lt
        (.binary () .sub
          (.unary () .minus (.binary () .pow (.name () "x")
            (.unary () .minus (.binary () .pow (.int () 2) (.int () 3)))))
          (.binary () .mul (.binary () .sub (.name () "y") (.name () "z")) (.int () 4)))
        (.methodCall ()
          (.index () (.call () (.name () "f") [.name () "x", .list () [.int () 1]]) (.int () 0))
          "g" [.string () "s"])))
    (.call () (.getAttr () (.name () "o") "m")
      [.binary () .eq (.name () "a") (.binary () .eq (.name () "b") (.name () "c"))])

def Node.formulaTokens : List Token := Node.formula.print.map fun k => ⟨k, default⟩

theorem Node.parse_print_formula : Node.formula.isFormula = true ∧
    (∀ depth, Node.formulaTokens.length ≤ depth →
      ∃ node s, Parser.expression Keyword.suggest depth
        (Parser.start Node.formulaTokens ⟨.eof, default⟩) = .ok node s ∧
        s.cursor.rest = [] ∧ node.erase = Node.formula) ∧
    ∃ tag node, parseTokens Keyword.suggest Node.formulaTokens ⟨.eof, default⟩ =
      .ok (.block tag [node]) ∧ node.erase = Node.formula :=
  ⟨by decide, Node.parse_print Keyword.suggest Node.formula (by decide) _ _ (by rfl) rfl⟩

/-- **The levels do not suffice**: with parentheses for them alone, the call of an attribute
is written as `a.b()`, and read as a method call. -/
theorem Node.levels_do_not_suffice :
    ¬ ∀ (tree : Node Unit) (tokens : List Token) (eof : Token), tree.isFormula = true →
      tokens.map Token.kind = tree.printBy .suffix → eof.kind = .eof →
      ∃ node s, Parser.expression Keyword.suggest tokens.length (Parser.start tokens eof) =
        .ok node s ∧ s.cursor.rest = [] ∧ node.erase = tree.erase := by
  intro hall
  let called : Node Unit := .call () (.getAttr () (.name () "a") "b") []
  let method : Node Unit := .methodCall () (.name () "a") "b" []
  let tokens : List Token := method.print.map fun k => ⟨k, default⟩
  have hat : Parser.At (Parser.start tokens ⟨.eof, default⟩) method.print :=
    Parser.at_start rfl rfl rfl
  have hreads : Parser.Reads (Parser.expression Keyword.suggest tokens.length) method.print []
      (Parser.Same method) := Parser.reads_formula Keyword.suggest rfl (Nat.le_refl _)
  obtain ⟨node, s, hread, _, hmethod⟩ := hreads _ hat
  obtain ⟨node', s', hread', _, hcalled⟩ := hall called tokens ⟨.eof, default⟩ rfl rfl rfl
  have heq : node = node' := by
    have hsame : EStateM.Result.ok node s = .ok node' s' := hread.symm.trans hread'
    exact (EStateM.Result.ok.inj hsame).1
  rw [← heq] at hcalled
  cases hmethod.symm.trans hcalled

end Script
