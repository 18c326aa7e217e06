import Script.Proofs.Reading
import Script.Proofs.Spelling

/-! Reading operands and operators.

An operand is read on every level of the grammar alike, as long as the token behind it
belongs to none of the levels passed on the way up (`Final`) and the token it starts
with is not a sign or a `not` (`Initial`). So an operator between two such operands is
read on its own level, and what it makes is carried up unchanged (`reads_binary`,
`reads_unary`). -/
namespace Script.Parser

/-! ### Where operands start and end -/

/-- A token that opens a suffix. -/
def isSuffix : TokenKind → Bool
  | .symbol .leftParen | .symbol .leftSquare | .symbol .dot => true
  | _ => false

/-- A token that goes on no expression. -/
structure Final (k : TokenKind) : Prop where
  operand : k.isOperand = false
  suffix : isSuffix k = false
  power : BinaryOp.power? k = none
  multiplicative : BinaryOp.multiplicative? k = none
  additive : BinaryOp.additive? k = none
  comparison : BinaryOp.comparison? k = none
  logical : BinaryOp.logical? k = none

/-- A token that starts an operand without an operator before it. -/
structure Initial (k : TokenKind) : Prop where
  sign : UnaryOp.sign? k = none
  negation : k.isKeyword .not = false

variable {α : Type} {ks ks' ks'' : List TokenKind} {k : TokenKind} {e a : Parser (Node Span)}
  {P Q : Node Span → Prop}

/-! ### Suffixes -/

theorem reads_suffixes_none (h : isSuffix (headKind ks) = false) (n : Nat) {node : Node Span}
    (hnode : P node) : Reads (suffixesFrom e n node) ks ks P := by
  cases n with
  | zero => exact .pure node hnode
  | succ n =>
    refine .bind reads_current fun t ht => ?_
    rw [ht]
    split
    · next hk => simp [hk, isSuffix] at h
    · next hk => simp [hk, isSuffix] at h
    · next hk => simp [hk, isSuffix] at h
    · exact .pure node hnode

theorem reads_call (ha : Reads a ks ks' P) (h : isSuffix (headKind ks') = false) :
    Reads (call e a) ks ks' P :=
  .bind ha fun _ hnode => .bind reads_remaining fun n _ => reads_suffixes_none h n hnode

/-! ### Chains -/

section Chains

variable {operand right : Parser (Node Span)} {op? : TokenKind → Option BinaryOp} {op : BinaryOp}

theorem reads_chainFrom_none (h : op? (headKind ks) = none) (n : Nat) {node : Node Span}
    (hnode : P node) : Reads (chainFrom op? right n node) ks ks P := by
  cases n with
  | zero => exact .pure node hnode
  | succ n =>
    refine .bind reads_current fun t ht => ?_
    rw [ht, h]
    exact .pure node hnode

theorem reads_chain_none (hl : Reads operand ks ks' P) (h : op? (headKind ks') = none) :
    Reads (chain operand op? right) ks ks' P :=
  .bind hl fun _ hnode => .bind reads_remaining fun n _ => reads_chainFrom_none h n hnode

/-- Two operands with an operator between them, as they are read. -/
def Joined (op : BinaryOp) (P Q : Node Span → Prop) (node : Node Span) : Prop :=
  ∃ tag left right, node = .binary tag op left right ∧ P left ∧ Q right

theorem reads_chain_one (hl : Reads operand ks (k :: ks') P) (hop : op? k = some op)
    (hr : Reads right ks' ks'' Q) (h : op? (headKind ks'') = none) :
    Reads (chain operand op? right) ks ks'' (Joined op P Q) := by
  refine .bind hl fun l hl' => .bind reads_remaining fun n hn => ?_
  subst hn
  rw [List.length_cons]
  refine .bind reads_current fun t ht => ?_
  rw [ht, headKind_cons, hop]
  refine .bind reads_advance fun _ _ => .bind hr fun r hr' => ?_
  exact reads_chainFrom_none h _ ⟨_, l, r, rfl, hl', hr'⟩

end Chains

/-! ### Going up the levels -/

theorem reads_factor (h : Reads (call e a) ks ks' P) (hs : UnaryOp.sign? (headKind ks) = none)
    (hp : BinaryOp.power? (headKind ks') = none) (n : Nat) : Reads (factor e a n) ks ks' P := by
  cases n with
  | zero => exact reads_chain_none h hp
  | succ n =>
    refine .bind reads_current fun t ht => ?_
    rw [ht, hs]
    exact reads_chain_none h hp

theorem reads_anyFactor (h : Reads (call e a) ks ks' P)
    (hs : UnaryOp.sign? (headKind ks) = none) (hp : BinaryOp.power? (headKind ks') = none) :
    Reads (anyFactor e a) ks ks' P :=
  .bind reads_remaining fun n _ => reads_factor h hs hp n

theorem reads_term (h : Reads (anyFactor e a) ks ks' P)
    (hm : BinaryOp.multiplicative? (headKind ks') = none) : Reads (term e a) ks ks' P :=
  reads_chain_none h hm

theorem reads_arith (h : Reads (term e a) ks ks' P)
    (ha : BinaryOp.additive? (headKind ks') = none) : Reads (arith e a) ks ks' P :=
  reads_chain_none h ha

theorem reads_compared (h : Reads (arith e a) ks ks' P)
    (hc : BinaryOp.comparison? (headKind ks') = none) : Reads (compared e a) ks ks' P :=
  (reads_chain_none h hc).orExpected _

theorem reads_comparison (h : Reads (compared e a) ks ks' P)
    (hn : (headKind ks).isKeyword .not = false) (n : Nat) :
    Reads (comparison e a n) ks ks' P := by
  cases n with
  | zero => exact h
  | succ n =>
    refine .bind (reads_atKeyword .not) fun b hb => ?_
    subst hb
    rw [hn]
    exact h

theorem reads_anyComparison (h : Reads (compared e a) ks ks' P)
    (hn : (headKind ks).isKeyword .not = false) : Reads (anyComparison e a) ks ks' P :=
  .bind reads_remaining fun n _ => reads_comparison h hn n

theorem reads_logic (h : Reads (anyComparison e a) ks ks' P)
    (hl : BinaryOp.logical? (headKind ks') = none) : Reads (logic e a) ks ks' P :=
  (reads_chain_none h hl).orExpected _

section Final

variable (hn : (headKind ks).isKeyword .not = false) (hf : Final (headKind ks'))

include hf

theorem logic_of_anyComparison (h : Reads (anyComparison e a) ks ks' P) :
    Reads (logic e a) ks ks' P :=
  reads_logic h hf.logical

include hn

theorem logic_of_compared (h : Reads (compared e a) ks ks' P) : Reads (logic e a) ks ks' P :=
  logic_of_anyComparison hf (reads_anyComparison h hn)

theorem logic_of_arith (h : Reads (arith e a) ks ks' P) : Reads (logic e a) ks ks' P :=
  logic_of_compared hn hf (reads_compared h hf.comparison)

theorem logic_of_term (h : Reads (term e a) ks ks' P) : Reads (logic e a) ks ks' P :=
  logic_of_arith hn hf (reads_arith h hf.additive)

theorem logic_of_anyFactor (h : Reads (anyFactor e a) ks ks' P) : Reads (logic e a) ks ks' P :=
  logic_of_term hn hf (reads_term h hf.multiplicative)

end Final

/-- What is neither before nor behind an operator. -/
theorem reads_alone (h : Reads (call e a) ks ks' P) (hi : Initial (headKind ks))
    (hf : Final (headKind ks')) : Reads (logic e a) ks ks' P :=
  logic_of_anyFactor hi.negation hf (reads_anyFactor h hi.sign hf.power)

/-! ### Operators -/

/-- An operator between two operands. The left operand is read up to the level of the
operator, to which the token behind it belongs; the right one as far as that level
reads it, where the token behind it is final. -/
theorem reads_binary (op : BinaryOp) (hl : Reads (call e a) ks (op.token :: ks') P)
    (hil : Initial (headKind ks)) (hr : Reads (call e a) ks' ks'' Q)
    (hir : Initial (headKind ks')) (hf : Final (headKind ks'')) (hne : ks ≠ []) :
    Reads (logic e a) ks ks'' (Joined op P Q) := by
  have hrf : Reads (anyFactor e a) ks' ks'' Q := reads_anyFactor hr hir.sign hf.power
  have hrt : Reads (term e a) ks' ks'' Q := reads_term hrf hf.multiplicative
  have hra : Reads (arith e a) ks' ks'' Q := reads_arith hrt hf.additive
  have hrc : Reads (anyComparison e a) ks' ks'' Q :=
    reads_anyComparison (reads_compared hra hf.comparison) hir.negation
  have hlf : BinaryOp.power? op.token = none → Reads (anyFactor e a) ks (op.token :: ks') P :=
    fun h => reads_anyFactor hl hil.sign h
  have hpower : op = .pow → Reads (logic e a) ks ks'' (Joined op P Q) := by
    rintro rfl
    refine logic_of_anyFactor hil.negation hf (.bind reads_remaining fun n hn => ?_)
    subst hn
    obtain ⟨k, ks, rfl⟩ := List.exists_cons_of_ne_nil hne
    rw [List.length_cons]
    refine .bind reads_current fun t ht => ?_
    rw [ht, hil.sign]
    exact reads_chain_one hl rfl (reads_factor hr hir.sign hf.power _) hf.power
  have hterm : BinaryOp.multiplicative? op.token = some op →
      Reads (logic e a) ks ks'' (Joined op P Q) := by
    intro hop
    refine logic_of_term hil.negation hf (reads_chain_one (hlf ?_) hop hrf hf.multiplicative)
    cases op <;> first | rfl | cases hop
  have harith : BinaryOp.additive? op.token = some op →
      Reads (logic e a) ks ks'' (Joined op P Q) := by
    intro hop
    refine logic_of_arith hil.negation hf
      (reads_chain_one (reads_term (hlf ?_) ?_) hop hrt hf.additive) <;>
    cases op <;> first | rfl | cases hop
  have hcompared : BinaryOp.comparison? op.token = some op →
      Reads (logic e a) ks ks'' (Joined op P Q) := by
    intro hop
    refine logic_of_compared hil.negation hf (Reads.orExpected
      (reads_chain_one (reads_arith (reads_term (hlf ?_) ?_) ?_) hop hra hf.comparison) _) <;>
    cases op <;> first | rfl | cases hop
  have hlogic : BinaryOp.logical? op.token = some op →
      Reads (logic e a) ks ks'' (Joined op P Q) := by
    intro hop
    refine Reads.orExpected (reads_chain_one (reads_anyComparison
      (reads_compared (reads_arith (reads_term (hlf ?_) ?_) ?_) ?_) hil.negation)
      hop hrc hf.logical) _ <;>
    cases op <;> first | rfl | cases hop
  cases op with
  | pow => exact hpower rfl
  | mul | div => exact hterm rfl
  | add | sub => exact harith rfl
  | eq | ne | lt | gt | le | ge => exact hcompared rfl
  | and | or => exact hlogic rfl

/-- An operator before an operand. -/
theorem reads_unary (op : UnaryOp) (h : Reads (call e a) ks ks' P) (hi : Initial (headKind ks))
    (hf : Final (headKind ks')) :
    Reads (logic e a) (op.token :: ks) ks' fun node =>
      ∃ tag operand, node = .unary tag op operand ∧ P operand := by
  have hsign : UnaryOp.sign? op.token = some op →
      Reads (logic e a) (op.token :: ks) ks' fun node =>
        ∃ tag operand, node = .unary tag op operand ∧ P operand := by
    intro hop
    refine logic_of_anyFactor ?_ hf (.bind reads_remaining fun n hn => ?_)
    · cases op <;> first | rfl | cases hop
    · subst hn
      rw [List.length_cons]
      refine .bind reads_current fun t ht => ?_
      rw [ht, headKind_cons, hop]
      refine .bind reads_advance fun _ _ => ?_
      refine .bind (reads_factor h hi.sign hf.power _) fun operand ho => ?_
      exact .pure _ ⟨_, operand, rfl, ho⟩
  cases op with
  | plus => exact hsign rfl
  | minus => exact hsign rfl
  | not =>
    refine logic_of_anyComparison hf (.bind reads_remaining fun n hn => ?_)
    subst hn
    rw [List.length_cons]
    refine .bind (reads_atKeyword .not) fun b hb => ?_
    subst hb
    have hcompared : Reads (compared e a) ks ks' P :=
      reads_compared (reads_arith (reads_term (reads_anyFactor h hi.sign hf.power)
        hf.multiplicative) hf.additive) hf.comparison
    refine .bind reads_advance fun _ _ => ?_
    refine .bind (reads_comparison hcompared hi.negation _) fun operand ho => ?_
    exact .pure _ ⟨_, operand, rfl, ho⟩

end Script.Parser
