import Script.Proofs.Furthest
import Script.Proofs.Onward

/-! Bounds that are never met.

Each procedure of the grammar goes onward from where it is called, together with one that has
larger bounds. Most advance: if they succeed they have passed a token. `Works` says so of the
parser `e` of nested expressions wherever fewer than `N` tokens are to come, and from that it
follows of everything an expression is made of with one token more (`works_expressionStep`),
as nothing is nested before the first token. What parses operands may itself start at the
first token, so the atom `a` is given the same bound as the operators around it.

At the end all procedures are listed (`Procedure`), and places in a sequence of tokens are
counted (`AtPlace`). Main statement, `stays_in_bounds`. -/
namespace Script

variable {α β : Type}

namespace Parser

variable {X : Extension} {s : ParseState} {N : Nat} {e e' a a' : Parser (Node Span)}

/-! ### Operators -/

theorem OfMarks.eq_none {op? : TokenKind → Option β} (hop : OfMarks op?) {kind : TokenKind}
    (h : kind = .eof) : op? kind = none := by
  cases hop? : op? kind with
  | none => rfl
  | some op => exact absurd h (TokenKind.ne_eof_of_isMark (hop _ _ hop?))

theorem chainFrom_end {op? : TokenKind → Option BinaryOp} (hop : OfMarks op?)
    (right : Parser (Node Span)) {t : ParseState} (n : Nat) (left : Node Span)
    (h : t.cursor.current.kind = .eof) : chainFrom op? right n left t = .ok left t := by
  cases n with
  | zero => rfl
  | succ n =>
    rw [chainFrom, current_bind, hop.eq_none h]
    rfl

theorem together_chainFrom {op? : TokenKind → Option BinaryOp} (hop : OfMarks op?)
    {right right' : Parser (Node Span)} (hright : Works X N right right') {n n' : Nat}
    (hs : s.Room X (N + 1)) (hn : s.left ≤ n) (hn' : s.left ≤ n') (left : Node Span) :
    Steadily X s (chainFrom op? right n left) (chainFrom op? right' n' left) := by
  refine together_rounds (chainFrom_end hop right) (chainFrom_end hop right')
    (fun {t k k'} left ht hne hloop => ?_) hs hn hn' left
  refine .current ht ?_
  split
  · exact .pure trivial
  · refine .advance ht hne (.bind (hright _ (ht.pass hne)) fun r u ho hlt => ?_)
    have hleft := ht.left_pass hne
    exact hloop _ (t.onward_pass.trans ho) (by omega)

theorem together_chain {op? : TokenKind → Option BinaryOp} (hop : OfMarks op?)
    {operand operand' right right' : Parser (Node Span)} (hs : s.Room X (N + 1))
    (hoperand : Advances X s operand operand') (hright : Works X N right right') :
    Advances X s (chain operand op? right) (chain operand' op? right') :=
  hoperand.first fun left _ ho _ => .remaining fun _ _ hn hn' =>
    together_chainFrom hop hright (hs.later ho) hn hn' left

theorem argumentsFrom_end (e : Parser (Node Span)) {t : ParseState} (n : Nat)
    (items : List (Node Span)) (h : t.cursor.current.kind = .eof) :
    argumentsFrom e n items t = .ok items t := by
  cases n with
  | zero => rfl
  | succ n =>
    show (if t.cursor.current.kind.isSymbol .comma then _ else (pure items : Parser _)) t = _
    rw [h]
    rfl

theorem together_argumentsFrom (he : Works X N e e') {n n' : Nat} (hs : s.Room X N)
    (hn : s.left ≤ n) (hn' : s.left ≤ n') (items : List (Node Span)) :
    Steadily X s (argumentsFrom e n items) (argumentsFrom e' n' items) := by
  refine together_rounds (argumentsFrom_end e) (argumentsFrom_end e')
    (fun {t k k'} items ht hne hloop => ?_) hs hn hn' items
  refine .atSymbol ht fun b hb => ?_
  split
  · have hpass := ht.later t.onward_pass
    refine .advance ht hne (.bind (he _ hpass) fun item u ho hlt => ?_)
    have hleft := ht.left_pass hne
    exact hloop _ (t.onward_pass.trans ho) (by omega)
  · exact .pure trivial

theorem together_arguments (he : Works X N e e') (close : Symbol) (hs : s.Room X (N + 1))
    (hne : s.cursor.current.kind ≠ .eof) :
    Advances X s (arguments e close) (arguments e' close) := by
  have hs' := hs.pass hne
  refine .behind hs hne (.atSymbol hs' fun b hb => ?_)
  split
  · next h =>
    exact .advance hs' (TokenKind.ne_eof_of_isSymbol (hb.trans h)) (.pure trivial)
  · refine .bind (.orExpected hs' (he _ hs') _) fun first t ho _ => ?_
    have ht := hs'.later ho
    refine .remaining fun n n' hn hn' => ?_
    refine .bind (together_argumentsFrom he ht hn hn' [first]) fun items u ho' _ => ?_
    exact .bind (.expect (ht.later ho') _ _) fun _ _ _ _ => .pure trivial

theorem suffixesFrom_end (e : Parser (Node Span)) {t : ParseState} (n : Nat) (node : Node Span)
    (h : t.cursor.current.kind = .eof) : suffixesFrom e n node t = .ok node t := by
  cases n with
  | zero => rfl
  | succ n =>
    rw [suffixesFrom, current_bind, h]
    rfl

theorem together_suffixesFrom (he : Works X N e e') {n n' : Nat} (hs : s.Room X (N + 1))
    (hn : s.left ≤ n) (hn' : s.left ≤ n') (node : Node Span) :
    Steadily X s (suffixesFrom e n node) (suffixesFrom e' n' node) := by
  refine together_rounds (suffixesFrom_end e) (suffixesFrom_end e')
    (fun {t k k'} node ht hne hloop => ?_) hs hn hn' node
  have hleft := ht.left_pass hne
  refine .current ht ?_
  split
  · refine .bind (together_arguments he _ ht hne) fun args u ho hlt => ?_
    exact .spanFrom (ht.later ho) fun span => hloop _ ho hlt
  · refine .advance ht hne (.bind (he _ (ht.pass hne)) fun index u ho hlt => ?_)
    have hu := (ht.pass hne).later ho
    refine .bind (.expect hu _ _) fun _ v ho' hlt' => .spanFrom (hu.later ho') fun span => ?_
    exact hloop _ (t.onward_pass.trans (ho.trans ho')) (by omega)
  · refine .advance ht hne (.bind (.expectIdent (ht.pass hne) _) fun name u ho hlt => ?_)
    have hu := (ht.pass hne).later ho
    refine .atSymbol hu fun b hb => ?_
    split
    · next h =>
      have hopen := TokenKind.ne_eof_of_isSymbol (hb.trans h)
      refine .bind (together_arguments he _ hu.wider hopen) fun args v ho' hlt' => ?_
      refine .spanFrom (hu.later ho') fun span => ?_
      exact hloop _ (t.onward_pass.trans (ho.trans ho')) (by omega)
    · exact .spanFrom hu fun span => hloop _ (t.onward_pass.trans ho) (by omega)
  · exact .pure trivial

theorem together_call (he : Works X N e e') (hs : s.Room X (N + 1))
    (ha : Advances X s a a') : Advances X s (call e a) (call e' a') :=
  ha.first fun node _ ho _ => .remaining fun _ _ hn hn' =>
    together_suffixesFrom he (hs.later ho) hn hn' node

/-- What a power is raised to, within a bound on signs. -/
def exponent (e a : Parser (Node Span)) : Nat → Parser (Node Span)
  | 0 => raiseHere .atom
  | n + 1 => factor e a n

theorem factor_of_none (n : Nat) (h : UnaryOp.sign? s.cursor.current.kind = none) :
    factor e a n s = power e a (exponent e a n) s := by
  cases n with
  | zero => rfl
  | succ n =>
    rw [factor, current_bind, h]
    rfl

theorem comparison_of_not (n : Nat) (h : s.cursor.current.kind.isKeyword .not = false) :
    comparison e a n s = compared e a s := by
  cases n with
  | zero => rfl
  | succ n =>
    show (if s.cursor.current.kind.isKeyword .not then _ else compared e a) s = _
    rw [h]
    rfl

section Operands

variable (he : Works X N e e') (ha : Works X (N + 1) a a')
include he ha

theorem together_power {right right' : Parser (Node Span)} (hs : s.Room X (N + 1))
    (hright : Works X s.left right right') :
    Advances X s (power e a right) (power e' a' right') := by
  have hself : s.Room X (s.left + 1) := ⟨Nat.lt_succ_self _, hs.onward⟩
  exact together_chain ofMarks_power hself (together_call he hs (ha s hs)) hright

theorem together_factor {n n' : Nat} (hs : s.Room X (N + 1)) (hn : s.left ≤ n)
    (hn' : s.left ≤ n') : Advances X s (factor e a n) (factor e' a' n') := by
  have hplain : ∀ {s : ParseState} {n n'}, s.Room X (N + 1) →
      UnaryOp.sign? s.cursor.current.kind = none →
      Works X s.left (exponent e a n) (exponent e' a' n') →
      Advances X s (factor e a n) (factor e' a' n') := by
    intro s n n' hs hsign hright
    have hsign' : UnaryOp.sign? (s.pad X.extra).cursor.current.kind = none := by
      rwa [hs.current_pad]
    exact .congr (factor_of_none n hsign) (factor_of_none n' hsign')
      (together_power he ha hs hright)
  induction n generalizing s n' with
  | zero =>
    refine hplain hs (ofMarks_sign.eq_none (hs.eof_of_left hn)) fun t ht => ?_
    exact absurd ht.left (by omega)
  | succ n ih =>
    cases hsign : UnaryOp.sign? s.cursor.current.kind with
    | none =>
      refine hplain hs hsign fun t ht => ?_
      have hlt := ht.left
      obtain ⟨k, rfl⟩ : ∃ k, n' = k + 1 := ⟨n' - 1, by omega⟩
      exact ih ⟨Nat.lt_trans hlt hs.left, ht.onward⟩ (by omega) (by omega)
    | some op =>
      have hne := TokenKind.ne_eof_of_isMark (ofMarks_sign _ _ hsign)
      have hleft := hs.left_pass hne
      obtain ⟨k, rfl⟩ : ∃ k, n' = k + 1 := ⟨n' - 1, by omega⟩
      refine .current hs ?_
      rw [hsign]
      exact .behind hs hne (ih (hs.later s.onward_pass) (by omega) (by omega)).steadily.finish

theorem works_anyFactor : Works X (N + 1) (anyFactor e a) (anyFactor e' a') :=
  fun _ hs => .remaining fun _ _ hn hn' => together_factor he ha hs hn hn'

theorem works_term : Works X (N + 1) (term e a) (term e' a') :=
  fun s hs => together_chain ofMarks_multiplicative hs (works_anyFactor he ha s hs)
    (works_anyFactor he ha).narrow

theorem works_arith : Works X (N + 1) (arith e a) (arith e' a') :=
  fun s hs => together_chain ofMarks_additive hs (works_term he ha s hs) (works_term he ha).narrow

theorem works_compared : Works X (N + 1) (compared e a) (compared e' a') :=
  fun s hs => .orExpected hs (together_chain ofMarks_comparison hs (works_arith he ha s hs)
    (works_arith he ha).narrow) _

theorem together_comparison {n n' : Nat} (hs : s.Room X (N + 1)) (hn : s.left ≤ n)
    (hn' : s.left ≤ n') : Advances X s (comparison e a n) (comparison e' a' n') := by
  have hplain : ∀ {s : ParseState} {n n'}, s.Room X (N + 1) →
      s.cursor.current.kind.isKeyword .not = false →
      Advances X s (comparison e a n) (comparison e' a' n') := by
    intro s n n' hs hnot
    have hnot' : (s.pad X.extra).cursor.current.kind.isKeyword .not = false := by
      rwa [hs.current_pad]
    exact .congr (comparison_of_not n hnot) (comparison_of_not n' hnot') (works_compared he ha s hs)
  induction n generalizing s n' with
  | zero =>
    refine hplain hs ?_
    rw [hs.eof_of_left hn]
    rfl
  | succ n ih =>
    cases hnot : s.cursor.current.kind.isKeyword .not with
    | false => exact hplain hs hnot
    | true =>
      have hne := TokenKind.ne_eof_of_isKeyword hnot
      have hleft := hs.left_pass hne
      obtain ⟨k, rfl⟩ : ∃ k, n' = k + 1 := ⟨n' - 1, by omega⟩
      refine .atKeyword hs fun b hb => ?_
      rw [if_pos (hb.symm.trans hnot), if_pos (hb.symm.trans hnot)]
      exact .behind hs hne (ih (hs.later s.onward_pass) (by omega) (by omega)).steadily.finish

theorem works_anyComparison : Works X (N + 1) (anyComparison e a) (anyComparison e' a') :=
  fun _ hs => .remaining fun _ _ hn hn' => together_comparison he ha hs hn hn'

theorem works_logic : Works X (N + 1) (logic e a) (logic e' a') :=
  fun s hs => .orExpected hs (together_chain ofMarks_logical hs (works_anyComparison he ha s hs)
    (works_anyComparison he ha).narrow) _

end Operands

/-! ### Statements -/

section Statements

variable (he : Works X N e e')
include he

theorem works_statement : Works X N (statement e) (statement e') := by
  intro s hs
  have hpass := hs.later s.onward_pass
  refine .current hs (.following hs ?_ fun heof next => by rw [heof])
  split
  · next h =>
    refine .behind hs (by rw [h]; nofun) ?_
    refine .attempt hpass (he _ hpass) (fun value t ho _ => ?_) fun t ho => ?_
    · exact .spanFrom (hpass.later ho) fun _ => .pure trivial
    · exact .spanFrom (hpass.later ho) fun _ => .pure trivial
  · next h => exact .behind hs (by rw [h]; nofun) (.pure trivial)
  · next h => exact .behind hs (by rw [h]; nofun) (.pure trivial)
  · next name hname hcolon =>
    have hne : s.cursor.current.kind ≠ .eof := by
      rw [hname]
      nofun
    have hcurrent := ParseState.current_pass hs.eof hne
    have hpass' := hpass.later s.pass.onward_pass
    refine .behind hs hne (.advance hpass (by rw [hcurrent, hcolon]; nofun) ?_)
    exact Together.tagged hpass' (he _ hpass').steadily
  · refine .first (.orExpected hs (he s hs) _) fun node t ho _ => ?_
    have ht := hs.later ho
    refine .current ht ?_
    split
    · next h =>
      have ht' := ht.later t.onward_pass
      exact .advance ht (by rw [h]; nofun) (Together.tagged ht' (he _ ht').steadily)
    · exact .pure trivial

theorem together_statementsFrom {n n' : Nat} (hs : s.Room X N) (hn : s.left < n)
    (hn' : s.left < n') (items : List (Node Span)) :
    Steadily X s (statementsFrom e n items) (statementsFrom e' n' items) := by
  refine together_loop (fun {t k k'} items ht hloop => ?_) hs hn hn' items
  have hskip := t.onward_skip t.left
  have ht' := ht.later hskip
  have hle := hskip.left_le
  refine .skipNewlines ht (.attempt ht' (works_statement he _ ht') (fun item u ho hlt => ?_) ?_)
  · refine .atNewline (ht'.later ho) fun b hb => ?_
    split
    · exact hloop _ (hskip.trans ho) (by omega)
    · exact .pure trivial
  · exact fun t _ => .pure trivial

theorem together_statements (hs : s.Room X N) :
    Steadily X s (statements e) (statements e') :=
  .current hs (.remaining fun _ _ hn hn' => (together_statementsFrom he hs (Nat.lt_succ_of_le hn)
    (Nat.lt_succ_of_le hn') []).finish)

/-! ### Bodies -/

/-- A body that the token `kind` has opened: a closing brace may stand behind line breaks. -/
def closedBody (kind : TokenKind) (body : Body Span) : Parser (Body Span) := do
  if kind.isSymbol .leftBrace then
    skipNewlines
    let _ ← expect .rightBrace (.symbol .rightBrace)
  return body

omit he in
theorem together_closedBody (hs : s.Room X N) (kind : TokenKind) (body : Body Span) :
    Steadily X s (closedBody kind body) (closedBody kind body) := by
  unfold closedBody
  dsimp only
  split
  · refine .skipNewlines hs (.bind (.expect (hs.later (s.onward_skip _)) _ _) ?_)
    exact fun _ _ _ _ => .pure trivial
  · exact .pure trivial

theorem together_branchBody (hs : s.Room X N) :
    Advances X s (branchBody e) (branchBody e') := by
  refine .current hs ?_
  dsimp only
  split
  · exact .raiseHere_bind hs _
  · next h =>
    have hne : s.cursor.current.kind ≠ .eof := by
      rw [Bool.not_eq_true', Bool.not_eq_false, Bool.or_eq_true] at h
      exact h.elim TokenKind.ne_eof_of_isSymbol TokenKind.ne_eof_of_isSymbol
    have hs' := hs.later s.onward_pass
    refine .behind hs hne (.atNewline hs' fun b hb => ?_)
    split
    · next h =>
      have hs'' := hs'.later s.pass.onward_pass
      refine .advance hs' (TokenKind.ne_eof_of_isNewline (hb.trans h)) ?_
      exact .bind (together_statements he hs'') fun block t ho _ =>
        together_closedBody (hs''.later ho) _ _
    · exact .bind (works_statement he _ hs') fun item t ho _ =>
        together_closedBody (hs'.later ho) _ _

section Opened

variable (hs : s.Room X N) (hne : s.cursor.current.kind ≠ .eof)
include hs hne

theorem together_bracedBody : Advances X s (bracedBody e) (bracedBody e') := by
  have hs' := hs.later s.onward_pass
  refine .behind hs hne (.bind (together_statements he hs') fun block t ho _ => ?_)
  exact .bind (.expect (hs'.later ho) _ _) fun _ _ _ _ => .pure trivial

theorem together_endedBody : Advances X s (endedBody e) (endedBody e') := by
  have hs' := hs.later s.onward_pass
  refine .behind hs hne (.bind (together_statements he hs') fun block t ho _ => ?_)
  exact .bind (.expectKeyword (hs'.later ho) _) fun _ _ _ _ => .pure trivial

theorem together_inlineBody : Advances X s (inlineBody e) (inlineBody e') :=
  .behind hs hne (works_statement he _ (hs.later s.onward_pass)).steadily.finish

/-- A colon and a line break, and then a sequence up to `end`. -/
theorem together_behindColon (hnewline : s.cursor.following.kind = .newline) :
    Advances X s (do let _ ← advance; endedBody e) (do let _ ← advance; endedBody e') := by
  have hcurrent := ParseState.current_pass hs.eof hne
  refine .behind hs hne (Together.steadily (together_endedBody he (hs.later s.onward_pass) ?_))
  rw [hcurrent, hnewline]
  nofun

end Opened

theorem together_forBody (hs : s.Room X N) : Advances X s (forBody e) (forBody e') := by
  refine .current hs (.following hs ?_ fun heof next => by rw [heof])
  split
  · next h hnewline => exact together_behindColon he hs (by rw [h]; nofun) hnewline
  · next h _ => exact together_inlineBody he hs (by rw [h]; nofun)
  · next h => exact together_bracedBody he hs (by rw [h]; nofun)
  · exact .raiseHere hs _

theorem together_whileBody (hs : s.Room X N) :
    Advances X s (whileBody e) (whileBody e') := by
  refine .current hs (.following hs ?_ fun heof next => by rw [heof])
  split
  · next h => exact together_bracedBody he hs (by rw [h]; nofun)
  · next h hnewline => exact together_behindColon he hs (by rw [h]; nofun) hnewline
  · next h _ => exact together_inlineBody he hs (by rw [h]; nofun)
  · next h => exact together_endedBody he hs (by rw [h]; nofun)
  · exact .raiseHere hs _

/-! ### Conditionals and loops -/

/-- What may come behind the branches so far, of which the last ends at `back`. -/
def furtherBranches (e : Parser (Node Span)) (n : Nat) (branches : List (Branch Span))
    (back : Cursor) : Parser (List (Branch Span) × Option (Body Span)) := do
  skipNewlines
  if ← atKeyword .elif then
    let _ ← advance
    branchesFrom e n branches
  else if ← atKeyword .elseWord then
    let _ ← advance
    return (branches, some (← branchBody e))
  else
    modify fun s => { s with cursor := back }
    return (branches, none)

omit he in
/-- The line breaks before something else are given back. -/
theorem furtherBranches_end {n : Nat} (branches : List (Branch Span))
    (helif : (s.skip s.left).cursor.current.kind.isKeyword .elif ≠ true)
    (helse : (s.skip s.left).cursor.current.kind.isKeyword .elseWord ≠ true) :
    furtherBranches e n branches s.cursor s = .ok (branches, none) s := by
  show (if (s.skip s.left).cursor.current.kind.isKeyword .elif then _ else _ : Parser _)
    (s.skip s.left) = _
  rw [if_neg helif]
  show (if (s.skip s.left).cursor.current.kind.isKeyword .elseWord then _ else _ : Parser _)
    (s.skip s.left) = _
  rw [if_neg helse]
  rfl

theorem together_furtherBranches {n n' : Nat} (hs : s.Room X N) (branches : List (Branch Span))
    (hloop : ∀ t, s.Onward t → t.left < s.left →
      Steadily X t (branchesFrom e n branches) (branchesFrom e' n' branches)) :
    Steadily X s (furtherBranches e n branches s.cursor)
      (furtherBranches e' n' branches (s.pad X.extra).cursor) := by
  have hskip := s.onward_skip s.left
  have ht := hs.later hskip
  have hpad : ((s.pad X.extra).skip (s.pad X.extra).left).cursor.current =
      (s.skip s.left).cursor.current := by
    rw [hs.skip_pad (Nat.le_refl _) (s.left_le_pad _)]
    exact ht.current_pad
  have hpass := (s.skip s.left).onward_pass
  by_cases helif : (s.skip s.left).cursor.current.kind.isKeyword .elif = true
  · have hne := TokenKind.ne_eof_of_isKeyword helif
    have hleft := ht.left_pass hne
    have hle := hskip.left_le
    refine .skipNewlines hs (.atKeyword ht fun b hb => ?_)
    rw [if_pos (hb.symm.trans helif), if_pos (hb.symm.trans helif)]
    exact .advance ht hne (hloop _ (hskip.trans hpass) (by omega))
  by_cases helse : (s.skip s.left).cursor.current.kind.isKeyword .elseWord = true
  · refine .skipNewlines hs (.atKeyword ht fun b hb => ?_)
    rw [if_neg fun h => helif (hb.trans h), if_neg fun h => helif (hb.trans h)]
    refine .atKeyword ht fun b hb => ?_
    rw [if_pos (hb.symm.trans helse), if_pos (hb.symm.trans helse)]
    exact .advance ht (TokenKind.ne_eof_of_isKeyword helse)
      (together_branchBody he (ht.later hpass)).steadily.finish
  · exact .still (furtherBranches_end _ helif helse)
      (furtherBranches_end _ (by rwa [hpad]) (by rwa [hpad])) trivial

theorem together_branchesFrom {n n' : Nat} (hs : s.Room X N) (hn : s.left < n)
    (hn' : s.left < n') (branches : List (Branch Span)) :
    Steadily X s (branchesFrom e n branches) (branchesFrom e' n' branches) := by
  refine together_loop (fun {t k k'} branches ht hloop => ?_) hs hn hn' branches
  refine .bind (he t ht) fun condition u ho hlt => ?_
  have hu := ht.later ho
  refine .bind (together_branchBody he hu) fun body v ho' hlt' => .get ?_
  refine together_furtherBranches he (hu.later ho') _ fun w ho'' hlt'' => ?_
  exact hloop _ (ho.trans (ho'.trans ho'')) (by omega)

end Statements

section Compounds

variable (he : Works X N e e') (hs : s.Room X (N + 1))
  (hne : s.cursor.current.kind ≠ .eof)
include he hs hne

theorem together_conditional : Advances X s (conditional e) (conditional e') := by
  have hs' := hs.pass hne
  refine .behind hs hne (.remaining fun n n' hn hn' => ?_)
  exact Together.tagged hs' (together_branchesFrom he hs' (Nat.lt_succ_of_le hn)
    (Nat.lt_succ_of_le hn') [])

theorem together_forLoop : Advances X s (forLoop e) (forLoop e') := by
  have hs' := hs.pass hne
  refine .behind hs hne (.bind (.expectIdent hs' _) fun counter t ho _ => ?_)
  have ht := hs'.later ho
  refine .bind (.expect ht _ _) fun _ u ho _ => ?_
  have hu := ht.later ho
  refine .bind (he u hu) fun first v ho _ => ?_
  have hv := hu.later ho
  refine .bind (.expectKeyword hv _) fun _ w ho _ => ?_
  have hw := hv.later ho
  refine .bind (he w hw) fun last x ho _ => ?_
  have hx := hw.later ho
  refine .atKeyword hx fun b hb => ?_
  dsimp only
  split
  · next h =>
    have hx' := hx.later x.onward_pass
    refine .advance hx (TokenKind.ne_eof_of_isKeyword (hb.trans h)) ?_
    refine .bind (he _ hx') fun step y ho _ => ?_
    exact Together.tagged (hx'.later ho) (together_forBody he (hx'.later ho)).steadily
  · exact Together.tagged hx (together_forBody he hx).steadily

theorem together_whileLoop : Advances X s (whileLoop e) (whileLoop e') := by
  have hs' := hs.pass hne
  refine .behind hs hne (.bind (he _ hs') fun condition t ho _ => ?_)
  exact Together.tagged (hs'.later ho) (together_whileBody he (hs'.later ho)).steadily

end Compounds

/-! ### Functions and classes -/

theorem together_paramsFrom {n n' : Nat} (hs : s.Room X N) (hn : s.left < n) (hn' : s.left < n')
    (params : List (Param Span)) :
    Steadily X s (paramsFrom n params) (paramsFrom n' params) := by
  refine together_loop (fun {t k k'} params ht hloop => .current ht ?_) hs hn hn' params
  split
  · exact .raiseHere ht _
  · next type h =>
    obtain ⟨word, hword, _⟩ := Option.bind_eq_some_iff.mp h
    have hne : t.cursor.current.kind ≠ .eof := by
      rw [TokenKind.eq_of_ident? hword]
      nofun
    have ht' := ht.later t.onward_pass
    have hleft := ht.left_pass hne
    refine .advance ht hne (.bind (.expectIdent ht' _) fun name u ho hlt => ?_)
    have hu := ht'.later ho
    refine .atSymbol hu fun b hb => ?_
    split
    · next h =>
      have hcomma := TokenKind.ne_eof_of_isSymbol (hb.trans h)
      have hleft' := hu.left_pass hcomma
      refine .advance hu hcomma (hloop _ ?_ (by omega))
      exact t.onward_pass.trans (ho.trans u.onward_pass)
    · exact .pure trivial

section Functions

variable (he : Works X N e e')
include he

theorem together_closedBlock (hs : s.Room X N) :
    Steadily X s (closedBlock e) (closedBlock e') := by
  refine .bind (together_statements he hs) fun block t ho _ => ?_
  have ht := hs.later ho
  have hskip := ht.later (t.onward_skip t.left)
  refine .skipNewlines ht (.current hskip ?_)
  dsimp only
  split
  · next h =>
    rw [Bool.or_eq_true] at h
    have hne := h.elim TokenKind.ne_eof_of_isSymbol TokenKind.ne_eof_of_isKeyword
    exact .advance hskip hne (.pure trivial)
  · exact .raiseHere hskip _

/-- A block behind the current token. It may start on the next line. -/
def openedBlock (e : Parser (Node Span)) : Parser (Node Span × Bool) := do
  let _ ← advance
  if ← atNewline then
    let _ ← advance
  closedBlock e

theorem together_openedBlock (hs : s.Room X N) (hne : s.cursor.current.kind ≠ .eof) :
    Advances X s (openedBlock e) (openedBlock e') := by
  have hs' := hs.later s.onward_pass
  refine .behind hs hne (.atNewline hs' fun b hb => ?_)
  split
  · next h =>
    have hnewline := TokenKind.ne_eof_of_isNewline (hb.trans h)
    exact .advance hs' hnewline (together_closedBlock he (hs'.later s.pass.onward_pass))
  · exact together_closedBlock he hs'

theorem together_functionBody (start : Position) (hs : s.Room X N) :
    Advances X s (functionBody e start) (functionBody e' start) := by
  have hs' := hs.later s.onward_pass
  refine .current hs ?_
  split
  · next h => exact .behind hs (by rw [h]; nofun) (he _ hs').steadily.finish
  · next h => exact .behind hs (by rw [h]; nofun) (he _ hs').steadily.finish
  · next h => exact together_openedBlock he hs (by rw [h]; nofun)
  · next h => exact together_openedBlock he hs (by rw [h]; nofun)
  · exact .raiseHere hs _

/-- From the closing parenthesis of the parameters on. -/
def behindParameters (e : Parser (Node Span)) (name : Option String) (start : Position)
    (params : List (Param Span)) : Parser (FuncDef Span) := do
  let _ ← expect .rightParen .parameterEnd
  let (body, autoReturn) ← functionBody e start
  return .mk name params body autoReturn

theorem together_behindParameters (name : Option String) (start : Position)
    (params : List (Param Span)) (hs : s.Room X N) :
    Steadily X s (behindParameters e name start params) (behindParameters e' name start params) :=
  .bind (.expect hs _ _) fun _ _ ho _ =>
    (together_functionBody he start (hs.later ho)).steadily.finish

/-- From the parameters on, behind the name if there is one. -/
def parametersAndBody (e : Parser (Node Span)) (name : Option String) (start : Position) :
    Parser (FuncDef Span) := do
  let _ ← expect .leftParen (if name.isSome then .symbol .leftParen else .identifierOrParen)
  let params ←
    if ← atSymbol .rightParen then pure [] else paramsFrom ((← remaining) + 1) []
  behindParameters e name start params

theorem together_parametersAndBody (name : Option String) (start : Position)
    (hs : s.Room X N) :
    Steadily X s (parametersAndBody e name start) (parametersAndBody e' name start) := by
  refine .bind (.expect hs _ _) fun _ t ho _ => ?_
  have ht := hs.later ho
  refine .atSymbol ht fun b hb => ?_
  split
  · exact together_behindParameters he name start [] ht
  · refine .remaining fun n n' hn hn' => ?_
    have hparams := together_paramsFrom ht (Nat.lt_succ_of_le hn) (Nat.lt_succ_of_le hn') []
    exact .bind hparams fun params u ho' _ =>
      together_behindParameters he name start params (ht.later ho')

theorem together_function (hs : s.Room X (N + 1)) (hne : s.cursor.current.kind ≠ .eof) :
    Advances X s (function e) (function e') := by
  have hs' := hs.pass hne
  refine .behind hs hne (.current hs' ?_)
  cases hname : s.pass.cursor.current.kind.ident? with
  | none => exact together_parametersAndBody he none _ hs'
  | some name =>
    have hne : s.pass.cursor.current.kind ≠ .eof := by
      rw [TokenKind.eq_of_ident? hname]
      nofun
    exact .advance hs' hne (together_parametersAndBody he (some name) _
      (hs'.later s.pass.onward_pass))

theorem together_methodsFrom (braced : Bool) {n n' : Nat} (hs : s.Room X N) (hn : s.left < n)
    (hn' : s.left < n') (methods : List (FuncDef Span)) :
    Steadily X s (methodsFrom e braced n methods) (methodsFrom e' braced n' methods) := by
  refine together_loop (fun {t k k'} methods ht hloop => ?_) hs hn hn' methods
  have hskip := t.onward_skip t.left
  have hu := ht.later hskip
  refine .skipNewlines ht (.current hu ?_)
  generalize t.skip t.left = u at hskip hu ⊢
  have hle := hskip.left_le
  have hended : (if braced then u.cursor.current.kind.isSymbol .rightBrace
      else u.cursor.current.kind.isKeyword .endWord) = true →
      u.cursor.current.kind ≠ .eof := by
    cases braced with
    | true => exact TokenKind.ne_eof_of_isSymbol
    | false => exact TokenKind.ne_eof_of_isKeyword
  generalize (if braced then u.cursor.current.kind.isSymbol .rightBrace
    else u.cursor.current.kind.isKeyword .endWord) = ended at hended ⊢
  cases ended with
  | true => exact .advance hu (hended rfl) (.pure trivial)
  | false =>
    rw [if_neg Bool.false_ne_true, if_neg Bool.false_ne_true]
    split
    · next h =>
      have hfunc := TokenKind.ne_eof_of_isKeyword h
      refine .bind (together_function he hu.wider hfunc) fun method v ho hlt => ?_
      dsimp only
      split
      · exact .raise_bind _
      · exact hloop _ (hskip.trans ho) (by omega)
    · exact .raiseHere hu _

/-- From the methods of a class on, behind its parent if there is one. -/
def methodsAndEnd (e : Parser (Node Span)) (name : String) (parent : Option String)
    (start : Position) : Parser (Node Span) := do
  let kind := (← current).kind
  if !(kind.isSymbol .leftBrace || kind.isSymbol .colon) then
    raiseHere .colonOrBrace
  let _ ← advance
  let methods ← methodsFrom e (kind.isSymbol .leftBrace) ((← remaining) + 1) []
  return .cls (← spanFrom start) name parent methods

theorem together_methodsAndEnd (name : String) (parent : Option String) (start : Position)
    (hs : s.Room X N) :
    Steadily X s (methodsAndEnd e name parent start) (methodsAndEnd e' name parent start) := by
  refine .current hs ?_
  dsimp only
  split
  · exact .raiseHere_bind hs _
  · next h =>
    rw [Bool.not_eq_true', Bool.not_eq_false, Bool.or_eq_true] at h
    have hne := h.elim TokenKind.ne_eof_of_isSymbol TokenKind.ne_eof_of_isSymbol
    have hs' := hs.later s.onward_pass
    refine .advance hs hne (.remaining fun n n' hn hn' => ?_)
    exact Together.tagged hs' (together_methodsFrom he _ hs' (Nat.lt_succ_of_le hn)
      (Nat.lt_succ_of_le hn') [])

section Words

variable (hs : s.Room X (N + 1)) (hne : s.cursor.current.kind ≠ .eof)
include hs hne

theorem together_classDefinition : Advances X s (classDefinition e) (classDefinition e') := by
  have hs' := hs.pass hne
  refine .behind hs hne (.bind (.expectIdent hs' _) fun name t ho _ => ?_)
  have ht := hs'.later ho
  refine .current ht ?_
  dsimp only
  split
  · next h =>
    have hext : t.cursor.current.kind ≠ .eof := by
      rw [TokenKind.eq_of_ident? h]
      nofun
    have ht' := ht.later t.onward_pass
    refine .advance ht hext (.bind (.expectIdent ht' _) fun parent u ho _ => ?_)
    exact together_methodsAndEnd he _ _ _ (ht'.later ho)
  · exact together_methodsAndEnd he _ _ _ ht

theorem together_instanceCreation : Advances X s (instanceCreation e) (instanceCreation e') := by
  have hs' := hs.pass hne
  refine .behind hs hne (.bind (.expectIdent hs' _) fun cls t ho _ => ?_)
  have ht := hs'.later ho
  refine .atSymbol ht fun b hb => ?_
  dsimp only
  split
  · exact .raiseHere_bind ht _
  · next h =>
    rw [Bool.not_eq_true', Bool.not_eq_false] at h
    have hopen := TokenKind.ne_eof_of_isSymbol (hb.trans h)
    exact Together.tagged ht (together_arguments he _ ht.wider hopen).steadily

end Words

end Functions

/-! ### Expressions and programs -/

section Expressions

variable (hint : String → Option Keyword) (he : Works X N e e')
include he

theorem works_atom : Works X (N + 1) (atom hint e) (atom hint e') := by
  intro s hs
  unfold atom
  refine .current hs ?_
  split
  · next h => exact .behind hs (by rw [h]; nofun) (.pure trivial)
  · next h => exact .behind hs (by rw [h]; nofun) (.pure trivial)
  · next h => exact .behind hs (by rw [h]; nofun) (.pure trivial)
  · next name hname =>
    have hne : s.cursor.current.kind ≠ .eof := by
      rw [hname]
      nofun
    refine .following hs ?_ fun heof => absurd heof hne
    dsimp only
    split
    · exact together_classDefinition he hs hne
    · split
      · exact together_instanceCreation he hs hne
      · split
        · exact .raise _
        · exact .behind hs hne (.pure trivial)
  · next h =>
    have hne : s.cursor.current.kind ≠ .eof := by
      rw [h]
      nofun
    have hs' := hs.pass hne
    refine .behind hs hne (.bind (he _ hs') fun node t ho _ => ?_)
    exact .bind (.expect (hs'.later ho) _ _) fun _ _ _ _ => .pure trivial
  · next h => exact Together.tagged hs (together_arguments he _ hs (by rw [h]; nofun))
  · next h => exact together_conditional he hs (by rw [h]; nofun)
  · next h => exact together_forLoop he hs (by rw [h]; nofun)
  · next h => exact together_whileLoop he hs (by rw [h]; nofun)
  · next h => exact Together.tagged hs (together_function he hs (by rw [h]; nofun))
  · exact .raiseHere hs _

theorem works_expressionStep :
    Works X (N + 1) (expressionStep hint e) (expressionStep hint e') := by
  intro s hs
  have hlogic := works_logic he (works_atom hint he) s hs
  have hdeclaration : ∀ {t : ParseState} start name type constant, t.Room X N →
      Steadily X t (declaration e start name type constant)
        (declaration e' start name type constant) :=
    fun _ _ _ _ ht => Together.tagged ht (he _ ht).steadily
  unfold expressionStep
  refine .current hs (.following hs ?_ fun heof next => by rw [heof])
  split
  · next h =>
    have hne : s.cursor.current.kind ≠ .eof := by
      rw [h]
      nofun
    have hs' := hs.pass hne
    refine .behind hs hne (.bind (.expectIdent hs' _) fun r t ho _ => ?_)
    have ht := hs'.later ho
    exact .bind (.expect ht _ _) fun _ u ho _ => hdeclaration _ _ _ _ (ht.later ho)
  · next word name hword hname =>
    split
    · exact hlogic
    · have hne : s.cursor.current.kind ≠ .eof := by
        rw [hword]
        nofun
      have hs' := hs.pass hne
      have hcurrent := ParseState.current_pass hs.eof hne
      have ht := hs'.later s.pass.onward_pass
      have ht' := ht.later s.pass.pass.onward_pass
      refine .behind hs hne (.advance hs' (by rw [hcurrent, hname]; nofun) (.current ht ?_))
      split
      · next h => exact .advance ht (by rw [h]; nofun) (hdeclaration _ _ _ _ ht')
      · next h => exact .advance ht (by rw [h]; nofun) (hdeclaration _ _ _ _ ht')
      · exact .raiseHere ht _
  · exact hlogic

end Expressions

section Programs

variable (hint : String → Option Keyword)

theorem expression_eq (n : Nat) : ∃ e, expression hint n = expressionStep hint e := by
  cases n with
  | zero => exact ⟨_, rfl⟩
  | succ n => exact ⟨_, rfl⟩

/-- An expression may nest as deep as it likes. -/
theorem works_expression {n n' : Nat} (hn : N ≤ n) (hn' : N ≤ n') :
    Works X (N + 1) (expression hint n) (expression hint n') := by
  induction N generalizing n n' with
  | zero =>
    obtain ⟨e, he⟩ := expression_eq hint n
    obtain ⟨e', he'⟩ := expression_eq hint n'
    rw [he, he']
    exact works_expressionStep hint (works_zero e e')
  | succ N ih =>
    obtain ⟨k, rfl⟩ : ∃ k, n = k + 1 := ⟨n - 1, by omega⟩
    obtain ⟨k', rfl⟩ : ∃ k', n' = k' + 1 := ⟨n' - 1, by omega⟩
    exact works_expressionStep hint (ih (by omega) (by omega))

theorem together_program (hs : s.Room X N) : Steadily X s (program hint) (program hint) := by
  refine .remaining fun n n' hn hn' => ?_
  have hself : s.Room X (s.left + 1) := ⟨Nat.lt_succ_self _, hs.onward⟩
  refine .bind (together_statements (works_expression hint hn hn') hself) fun block t ho _ => ?_
  have ht := hs.later ho
  refine .current ht ?_
  split
  · exact .pure trivial
  · next heof =>
    refine .following ht (.raise _) fun h => absurd ?_ heof
    rw [h]
    rfl

end Programs

/-! ### Procedures -/

/-- The procedures of the grammar, by what they yield. -/
inductive Procedure : Type → Type where
  | advance : Procedure Token
  | skipNewlines : Procedure Unit
  | expect (symbol : Symbol) (what : Expectation) : Procedure Token
  | expectKeyword (keyword : Keyword) : Procedure Token
  | expectIdent (what : Expectation) : Procedure (String × Span)
  | atom : Procedure (Node Span)
  | call : Procedure (Node Span)
  | power : Procedure (Node Span)
  | factor : Procedure (Node Span)
  | term : Procedure (Node Span)
  | arith : Procedure (Node Span)
  | comparison : Procedure (Node Span)
  | expression : Procedure (Node Span)
  | statement : Procedure (Node Span)
  | statements : Procedure (Node Span)
  | arguments (close : Symbol) : Procedure (List (Node Span))
  | branchBody : Procedure (Body Span)
  | forBody : Procedure (Body Span)
  | whileBody : Procedure (Body Span)
  | conditional : Procedure (Node Span)
  | forLoop : Procedure (Node Span)
  | whileLoop : Procedure (Node Span)
  | functionBody (start : Position) : Procedure (Node Span × Bool)
  | function : Procedure (FuncDef Span)
  | classDefinition : Procedure (Node Span)
  | instanceCreation : Procedure (Node Span)
  | program : Procedure (Node Span)

namespace Procedure

/-- What a procedure does, where `e` parses expressions. Signs and `not` may be repeated `n`
times. -/
def parser (hint : String → Option Keyword) (e : Parser (Node Span)) (n : Nat)
    (p : Procedure α) : Parser α :=
  let a := Parser.atom hint e
  match p with
  | .advance => Parser.advance
  | .skipNewlines => Parser.skipNewlines
  | .expect symbol what => Parser.expect symbol what
  | .expectKeyword keyword => Parser.expectKeyword keyword
  | .expectIdent what => Parser.expectIdent what
  | .atom => a
  | .call => Parser.call e a
  | .power => Parser.power e a (Parser.factor e a n)
  | .factor => Parser.factor e a n
  | .term => Parser.term e a
  | .arith => Parser.arith e a
  | .comparison => Parser.comparison e a n
  | .expression => e
  | .statement => Parser.statement e
  | .statements => Parser.statements e
  | .arguments close => Parser.arguments e close
  | .branchBody => Parser.branchBody e
  | .forBody => Parser.forBody e
  | .whileBody => Parser.whileBody e
  | .conditional => Parser.conditional e
  | .forLoop => Parser.forLoop e
  | .whileLoop => Parser.whileLoop e
  | .functionBody start => Parser.functionBody e start
  | .function => Parser.function e
  | .classDefinition => Parser.classDefinition e
  | .instanceCreation => Parser.instanceCreation e
  | .program => Parser.program hint

/-- Whether it has passed a token whenever it succeeds. -/
def moves : Procedure α → Bool
  | .skipNewlines | .statements | .program => false
  | _ => true

/-- Whether it passes the first token without a look at it. It is called only where that is
not the end token. -/
def opens : Procedure α → Bool
  | .advance | .arguments _ | .conditional | .forLoop | .whileLoop | .function
  | .classDefinition | .instanceCreation => true
  | _ => false

theorem together (p : Procedure α) (hint : String → Option Keyword) {n n' : Nat}
    (hs : s.Room X (s.left + 1)) (hopens : p.opens = true → s.cursor.current.kind ≠ .eof)
    (he : Works X (s.left + 1) e e') (hn : s.left ≤ n) (hn' : s.left ≤ n') :
    Together X s (p.parser hint e n) (p.parser hint e' n')
      fun t => p.moves = true → t.left < s.left := by
  have ha := works_atom hint he.narrow
  have hmoves : ∀ {p q : Parser α} {b : Bool}, Advances X s p q →
      Together X s p q fun t => b = true → t.left < s.left :=
    fun h => h.mono fun _ _ hlt _ => hlt
  have hstays : ∀ {p q : Parser α}, Steadily X s p q →
      Together X s p q fun t => false = true → t.left < s.left :=
    fun h => h.mono fun _ _ _ hb => absurd hb Bool.false_ne_true
  cases p with
  | advance => exact hmoves (.congr rfl rfl (.behind hs (hopens rfl) (.pure trivial)))
  | skipNewlines => exact hstays (.congr rfl rfl (.skipNewlines hs (.pure trivial)))
  | expect symbol what => exact hmoves (.expect hs symbol what)
  | expectKeyword keyword => exact hmoves (.expectKeyword hs keyword)
  | expectIdent what => exact hmoves (.expectIdent hs what)
  | atom => exact hmoves (ha s hs)
  | call => exact hmoves (together_call he.narrow hs (ha s hs))
  | power =>
    refine hmoves (together_power he.narrow ha hs fun t ht => ?_)
    have hlt := ht.left
    exact together_factor he.narrow ha ⟨by omega, ht.onward⟩ (by omega) (by omega)
  | factor => exact hmoves (together_factor he.narrow ha hs hn hn')
  | term => exact hmoves (works_term he.narrow ha s hs)
  | arith => exact hmoves (works_arith he.narrow ha s hs)
  | comparison => exact hmoves (together_comparison he.narrow ha hs hn hn')
  | expression => exact hmoves (he s hs)
  | statement => exact hmoves (works_statement he s hs)
  | statements => exact hstays (together_statements he hs)
  | arguments close => exact hmoves (together_arguments he.narrow close hs (hopens rfl))
  | branchBody => exact hmoves (together_branchBody he hs)
  | forBody => exact hmoves (together_forBody he hs)
  | whileBody => exact hmoves (together_whileBody he hs)
  | conditional => exact hmoves (together_conditional he.narrow hs (hopens rfl))
  | forLoop => exact hmoves (together_forLoop he.narrow hs (hopens rfl))
  | whileLoop => exact hmoves (together_whileLoop he.narrow hs (hopens rfl))
  | functionBody start => exact hmoves (together_functionBody he start hs)
  | function => exact hmoves (together_function he.narrow hs (hopens rfl))
  | classDefinition => exact hmoves (together_classDefinition he.narrow hs (hopens rfl))
  | instanceCreation => exact hmoves (together_instanceCreation he.narrow hs (hopens rfl))
  | program => exact hstays (together_program hint hs)

end Procedure

/-! ### Places in a sequence of tokens -/

/-- A state whose cursor has passed `i` tokens of a sequence, and no more than there are. -/
structure AtPlace (tokens : List Token) (eof : Token) (i : Nat) (s : ParseState) : Prop where
  le : i ≤ tokens.length
  cursor : s.cursor = Cursor.advance^[i] ⟨none, tokens, eof⟩

section Places

variable {tokens : List Token} {eof : Token} {i : Nat} {t : ParseState}

theorem exists_place (h : Cursor.Onward ⟨none, tokens, eof⟩ s.cursor) :
    ∃ i, AtPlace tokens eof i s :=
  h.imp fun _ h => ⟨h.1, h.2⟩

theorem AtPlace.onward (hs : AtPlace tokens eof i s) : Cursor.Onward ⟨none, tokens, eof⟩ s.cursor :=
  ⟨i, hs.le, hs.cursor⟩

theorem AtPlace.left_eq (hs : AtPlace tokens eof i s) : s.left = tokens.length - i := by
  unfold ParseState.left
  rw [hs.cursor, Cursor.rest_iterate, List.length_drop]

/-- The current token is the one at the place of the cursor. -/
theorem AtPlace.getElem? (hs : AtPlace tokens eof i s) :
    (tokens ++ [eof])[i]? = some s.cursor.current := by
  unfold Cursor.current
  rw [hs.cursor, Cursor.rest_iterate, Cursor.eof_iterate, List.head?_drop]
  rcases Nat.lt_or_eq_of_le hs.le with hlt | rfl
  · rw [List.getElem?_append_left hlt, List.getElem?_eq_getElem hlt]
    rfl
  · rw [List.getElem?_concat_length, List.getElem?_eq_none (Nat.le_refl _)]
    rfl

theorem AtPlace.later (hs : AtPlace tokens eof i s) (h : s.Onward t) :
    ∃ j, i ≤ j ∧ AtPlace tokens eof j t ∧ (t.left < s.left → i < j) := by
  obtain ⟨k, hk, ht⟩ := h
  have hle := hs.le
  have hleft : s.cursor.rest.length = tokens.length - i := hs.left_eq
  rw [hs.cursor, ← Function.iterate_add_apply] at ht
  have hat : AtPlace tokens eof (k + i) t := ⟨by omega, ht⟩
  refine ⟨k + i, by omega, hat, fun hlt => ?_⟩
  rw [hat.left_eq, hs.left_eq] at hlt
  omega

/-- However a parser ends that is called at place `i`, it has not gone back. -/
def EndsFrom (tokens : List Token) (eof : Token) (i : Nat) (moves : Bool) :
    EStateM.Result Failure ParseState α → Prop
  | .ok _ t => ∃ j, i ≤ j ∧ AtPlace tokens eof j t ∧ (moves = true → i < j)
  | .error _ t => ∃ j, i ≤ j ∧ AtPlace tokens eof j t

theorem AtPlace.endsFrom (hs : AtPlace tokens eof i s) {moves : Bool}
    {r : EStateM.Result Failure ParseState α}
    (h : EndsOnward s (fun t => moves = true → t.left < s.left) r) :
    EndsFrom tokens eof i moves r := by
  cases r with
  | ok a t =>
    obtain ⟨j, hj, ht, hlt⟩ := hs.later h.1
    exact ⟨j, hj, ht, fun hmoves => hlt (h.2 hmoves)⟩
  | error f t =>
    obtain ⟨j, hj, ht, _⟩ := hs.later h
    exact ⟨j, hj, ht⟩

/-- An expression, with as many nested in it as there are tokens. -/
def anyExpression (hint : String → Option Keyword) : Parser (Node Span) := do
  expression hint (← remaining)

/-- Whether `e` parses expressions at the places from `i` on. -/
def ParsesFrom (hint : String → Option Keyword) (tokens : List Token) (eof : Token) (i : Nat)
    (e : Parser (Node Span)) : Prop :=
  ∀ j t, i ≤ j → AtPlace tokens eof j t → e t = anyExpression hint t

section Expressions

variable (hint : String → Option Keyword)

theorem ParsesFrom.works (hX : X.first = ⟨none, tokens, eof⟩)
    (he : ParsesFrom hint tokens eof i e) (hN : N ≤ tokens.length + 1 - i) :
    Works X N e (anyExpression hint) := by
  intro t ht
  have hlt := ht.left
  obtain ⟨j, hj⟩ := exists_place (hX ▸ ht.onward)
  have hij : i ≤ j := by
    have hle := hj.le
    rw [hj.left_eq] at hlt
    omega
  have hself : t.Room X (t.left + 1) := ⟨Nat.lt_succ_self _, ht.onward⟩
  have hany := works_expression hint (Nat.le_refl t.left) (t.left_le_pad X.extra) t hself
  exact .congr (he j t hij hj) rfl hany

variable (heof : eof.kind = .eof) (hs : AtPlace tokens eof i s)
include heof hs

theorem expression_eq_any {n : Nat} (hn : s.left ≤ n) :
    expression hint n s = anyExpression hint s := by
  let X : Extension := ⟨⟨none, tokens, eof⟩, [], heof, .inl rfl⟩
  have hroom : s.Room X (s.left + 1) := ⟨Nat.lt_succ_self _, hs.onward⟩
  exact (works_expression hint (Nat.le_refl s.left) hn s hroom).eq_of_nil rfl

/-- An expression asks only for those nested in it behind its first token: what else could be
parsed in their place does not matter. -/
theorem expressionStep_eq_any (he : ParsesFrom hint tokens eof (i + 1) e) :
    expressionStep hint e s = anyExpression hint s := by
  let X : Extension := ⟨⟨none, tokens, eof⟩, [], heof, .inl rfl⟩
  have hroom : s.Room X (s.left + 1) := ⟨Nat.lt_succ_self _, hs.onward⟩
  have hnested : ParsesFrom hint tokens eof (i + 1) (expression hint s.left) := by
    intro j t hij ht
    exact expression_eq_any hint heof ht (by rw [ht.left_eq, hs.left_eq]; omega)
  have hN : s.left ≤ tokens.length + 1 - (i + 1) := by
    rw [hs.left_eq]
    omega
  have hstep := works_expressionStep hint (he.works hint rfl hN) s hroom
  have hstep' := works_expressionStep hint (hnested.works hint rfl hN) s hroom
  calc
    expressionStep hint e s = expressionStep hint (anyExpression hint) s :=
      (hstep.eq_of_nil rfl).symm
    _ = expression hint (s.left + 1) s := hstep'.eq_of_nil rfl
    _ = anyExpression hint s := expression_eq_any hint heof hs (Nat.le_succ _)

end Expressions

/-- **Parsing ends, and stays within the tokens.** Be `tokens` any tokens before an end token.

A parser starts at place 0. At every place the current token is the one there, and the place
behind the last is that of the end token. An expression is parsed by parsing those nested in
it, each further on than itself. Every procedure that is called at a place ends at one that is
not before it, whether it fails or not, and those that move have passed a token if they
succeed. With more tokens behind the end token it does the same, and so it does if expressions
may nest deeper: no bound on the rounds of a loop or on nesting is met, and nothing behind the
end token is looked at. A sequence of statements never fails. -/
theorem stays_in_bounds (hint : String → Option Keyword) (tokens : List Token) {eof : Token}
    (heof : eof.kind = .eof) :
    (∀ all : List Token, (all.filter fun t => !t.kind.isNoBlankLine) = tokens →
      AtPlace tokens eof 0 (start all eof)) ∧
    (∀ i s, AtPlace tokens eof i s →
      (tokens ++ [eof])[i]? = some s.cursor.current ∧
      (∀ n, s.left ≤ n → expression hint n s = anyExpression hint s) ∧
      (∀ e, ParsesFrom hint tokens eof (i + 1) e →
        expressionStep hint e s = anyExpression hint s) ∧
      ∀ {α : Type} (p : Procedure α) e n, ParsesFrom hint tokens eof i e → s.left ≤ n →
        (p.opens = true → s.cursor.current.kind ≠ .eof) →
        EndsFrom tokens eof i p.moves (p.parser hint e n s) ∧
        ∀ n' extra, s.left ≤ n' → (extra = [] ∨ extra.head? = some eof) →
          p.parser hint (anyExpression hint) n' (s.pad extra) =
            padded extra (p.parser hint e n s)) ∧
    ∀ (e : Parser (Node Span)) s, ∃ block t, statements e s = .ok block t := by
  refine ⟨?_, fun i s hs => ⟨hs.getElem?, fun n hn => expression_eq_any hint heof hs hn,
    fun e he => expressionStep_eq_any hint heof hs he, ?_⟩, fun e => succeeds_statements⟩
  · rintro all rfl
    exact ⟨Nat.zero_le _, rfl⟩
  · intro α p e n he hn hopens
    have htogether : ∀ (X : Extension), X.first = ⟨none, tokens, eof⟩ → ∀ n', s.left ≤ n' →
        Together X s (p.parser hint e n) (p.parser hint (anyExpression hint) n')
          fun t => p.moves = true → t.left < s.left := by
      intro X hX n' hn'
      have hle := hs.le
      have hN : s.left + 1 ≤ tokens.length + 1 - i := by
        rw [hs.left_eq]
        omega
      exact p.together hint ⟨Nat.lt_succ_self _, hX ▸ hs.onward⟩ hopens (he.works hint hX hN) hn hn'
    refine ⟨hs.endsFrom (htogether ⟨_, [], heof, .inl rfl⟩ rfl n hn).2, ?_⟩
    intro n' extra hn' hextra
    exact (htogether ⟨_, extra, heof, hextra⟩ rfl n' hn').1

/-- A call whose parenthesis is not closed, `f(`, and the end token behind it. -/
def unclosedCall : List Token × Token :=
  let here := Span.point (.start ⟨"<test>", "f("⟩)
  ([⟨.ident "f", here⟩, ⟨.symbol .leftParen, here⟩], ⟨.eof, here⟩)

theorem stays_in_bounds_unclosed :
    unclosedCall.2.kind = .eof ∧
    EndsFrom unclosedCall.1 unclosedCall.2 0 true
      (statement (anyExpression Keyword.suggest) (start unclosedCall.1 unclosedCall.2)) ∧
    ∀ behind : List Token,
      program Keyword.suggest ((start unclosedCall.1 unclosedCall.2).pad
        (unclosedCall.2 :: behind)) =
      padded (unclosedCall.2 :: behind)
        (program Keyword.suggest (start unclosedCall.1 unclosedCall.2)) := by
  obtain ⟨hstart, hplaces, _⟩ :=
    @stays_in_bounds Keyword.suggest unclosedCall.1 unclosedCall.2 rfl
  obtain ⟨_, _, _, hprocedures⟩ := hplaces 0 _ (hstart unclosedCall.1 rfl)
  have hparses : ParsesFrom Keyword.suggest unclosedCall.1 unclosedCall.2 0
      (anyExpression Keyword.suggest) := fun _ _ _ _ => rfl
  obtain ⟨hends, _⟩ := hprocedures .statement _ 2 hparses (Nat.le_refl 2) nofun
  obtain ⟨_, hsame⟩ := hprocedures .program _ 2 hparses (Nat.le_refl 2) nofun
  exact ⟨rfl, hends, fun behind => hsame 2 _ (Nat.le_refl 2) (.inr rfl)⟩

end Places

end Parser

end Script
