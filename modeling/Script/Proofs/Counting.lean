import Script.Proofs.Constants
import Script.Proofs.Exactness

/-! What a counting loop counts.

A loop from `a` to `b` in steps of `s` takes the numbers `a`, `a + s`, `a + 2 * s` and so on
that are before `b` in the direction of the step (`IsDue`, `loopTerms`). The counter is
compared as an integer as long as it is one. Where it outgrows 64 bits it becomes a float,
and there the loop has to end: no number before `b` is that large. That the float is not
before `b` either is assumed (`SumsEnd`); nothing else is said of floats.

Main statement, `Task.counting_loop`: the loop does what the rounds over these numbers do,
one after the other (`eachTerm`), however they end. If all of them come through (`Rounds`),
its value is null or the list of their values. -/
namespace Script

/-! ### Numbers on the way -/

/-- Whether a loop in steps of `s` that has come to `x` still has to go on to `b`. -/
def IsDue (b s x : Int) : Prop := if 0 < s then x < b else b < x

/-- The number of rounds of a loop: the way by the step, rounded up. -/
def termCount (a b s : Int) : Nat :=
  let way := if 0 < s then b - a else a - b
  (way.toNat + s.natAbs - 1) / s.natAbs

/-- The numbers that a loop from `a` to `b` counts in steps of `s`. -/
def loopTerms (a b s : Int) : List Int64 :=
  (List.range (termCount a b s)).map fun (k : Nat) => Int64.ofInt (a + k * s)

/-- A sum that is no 64-bit integer is as a float not before `b`. -/
def SumsEnd (b s : Int64) : Prop :=
  ∀ i : Int64, IsDue b.toInt s.toInt i.toInt → ¬ IsInt64 (i.toInt + s.toInt) →
    if 0 < s.toInt then ¬ i.toFloat + s.toFloat < b.toFloat
    else ¬ b.toFloat < i.toFloat + s.toFloat

section Terms

variable {a b s : Int}

theorem lt_termCount (hs : s ≠ 0) (k : Nat) : k < termCount a b s ↔ IsDue b s (a + k * s) := by
  have hsize : 0 < s.natAbs := by omega
  have hsteps : ((k * s.natAbs : Nat) : Int) = k * |s| := by
    rw [Nat.cast_mul, Int.natCast_natAbs]
  have hcount : k < termCount a b s ↔ k * s.natAbs < (if 0 < s then b - a else a - b).toNat := by
    unfold termCount
    rw [Nat.lt_iff_add_one_le, Nat.le_div_iff_mul_le hsize, Nat.add_mul]
    omega
  rw [hcount]
  unfold IsDue
  split
  · next hpos =>
    rw [abs_of_pos hpos] at hsteps
    omega
  · next hneg =>
    rw [abs_of_neg (by omega), Int.mul_neg] at hsteps
    omega

theorem term_succ (a s : Int) (k : Nat) : a + ((k + 1 : Nat) : Int) * s = a + s + k * s := by
  rw [Nat.cast_add_one, Int.add_mul]
  omega

theorem termCount_of_isDue (hs : s ≠ 0) (h : IsDue b s a) :
    termCount a b s = termCount (a + s) b s + 1 := by
  apply eq_of_forall_lt_iff
  intro k
  cases k with
  | zero =>
    rw [lt_termCount hs]
    simpa using h
  | succ k =>
    rw [lt_termCount hs, Nat.add_lt_add_iff_right, lt_termCount hs, term_succ]

theorem termCount_of_not_isDue (hs : s ≠ 0) (h : ¬ IsDue b s a) : termCount a b s = 0 := by
  have hzero := mt (lt_termCount (a := a) (b := b) hs 0).mp (by simpa using h)
  omega

theorem loopTerms_of_isDue (hs : s ≠ 0) (h : IsDue b s a) :
    loopTerms a b s = Int64.ofInt a :: loopTerms (a + s) b s := by
  unfold loopTerms
  rw [termCount_of_isDue hs h, List.range_succ_eq_map, List.map_cons, List.map_map]
  congr 1
  · simp
  · apply List.map_congr_left
    intro k _
    exact congrArg Int64.ofInt (term_succ a s k)

theorem loopTerms_of_not_isDue (hs : s ≠ 0) (h : ¬ IsDue b s a) : loopTerms a b s = [] := by
  unfold loopTerms
  rw [termCount_of_not_isDue hs h]
  rfl

/-- A number on the way between two 64-bit integers has 64 bits itself. -/
theorem isInt64_of_isDue (ha : IsInt64 a) (hb : IsInt64 b) {k : Nat}
    (h : IsDue b s (a + k * s)) : IsInt64 (a + k * s) := by
  unfold IsDue at h
  unfold IsInt64 at *
  split at h
  · next hs =>
    have hway : 0 ≤ k * s := Int.mul_nonneg (Int.natCast_nonneg k) hs.le
    omega
  · next hs =>
    have hback : s ≤ 0 := by omega
    have hway := Int.mul_nonpos_of_nonneg_of_nonpos (Int.natCast_nonneg k) hback
    omega

/-- No number that is counted is wrapped around. -/
theorem toInt_loopTerms (hs : s ≠ 0) (ha : IsInt64 a) (hb : IsInt64 b) :
    (loopTerms a b s).map Int64.toInt =
      (List.range (termCount a b s)).map fun (k : Nat) => a + k * s := by
  unfold loopTerms
  rw [List.map_map]
  apply List.map_congr_left
  intro k hk
  have hdue := (lt_termCount hs k).mp (List.mem_range.mp hk)
  obtain ⟨hlow, hhigh⟩ := isInt64_of_isDue ha hb hdue
  exact Int64.toInt_ofInt_of_le hlow hhigh

end Terms

/-! ### The counter -/

namespace Number

variable {i b s : Int64}

theorem isPositive_int (s : Int64) : isPositive (.int s) = decide (0 < s.toInt) := by
  simp [isPositive, Int64.lt_iff_toInt_lt]

theorem isBefore_int (i b s : Int64) :
    isBefore (isPositive (.int s)) (.int i) (.int b) = true ↔ IsDue b.toInt s.toInt i.toInt := by
  have hcompare : compare (.int i) (.int b) = some
      (if i.toInt < b.toInt then .lt else if i.toInt = b.toInt then .eq else .gt) := by
    simp only [compare, Int64.lt_iff_toInt_lt, Int64.toInt_inj]
  unfold isBefore IsDue
  rw [hcompare, isPositive_int]
  rcases Int.lt_trichotomy i.toInt b.toInt with h | h | h
  · simp [h, h.not_gt]
  · simp [h]
  · simp [h, h.not_gt, h.ne']

/-- A float compares with an integer as with the float of that. -/
theorem isBefore_float {ascending : Bool} {x : Float}
    (h : if ascending then ¬ x < b.toFloat else ¬ b.toFloat < x) :
    isBefore ascending (.float x) (.int b) = false := by
  have hcompare : compare (.float x) (.int b) = if x < b.toFloat then some .lt
      else if x == b.toFloat then some .eq
      else if b.toFloat < x then some .gt else none := rfl
  unfold isBefore
  rw [hcompare]
  cases ascending with
  | true =>
    rw [if_neg (show ¬ x < b.toFloat from h)]
    split_ifs <;> rfl
  | false =>
    rw [if_neg (show ¬ b.toFloat < x from h)]
    split_ifs <;> rfl

/-- The next number is exact, or too large for 64 bits. -/
theorem add_int_cases (i s : Int64) :
    (∃ j : Int64, add (.int i) (.int s) = .int j ∧ j.toInt = i.toInt + s.toInt) ∨
      ¬ IsInt64 (i.toInt + s.toInt) ∧
        add (.int i) (.int s) = .float (i.toFloat + s.toFloat) := by
  by_cases h : IsInt64 (i.toInt + s.toInt)
  · exact .inl ((computes_combine (.inl rfl)).exact h)
  · exact .inr ⟨h, combine_of_none (int64?_of_not_isInt64 h)⟩

end Number

/-! ### Rounds -/

theorem Scopes.get?_bind_self (scopes : Scopes α) {id : ScopeId} (h : id < scopes.tables.size)
    (name : String) (value : α) (constant : Bool) :
    (scopes.bind id name value constant).get? id name = some value := by
  have htable : scopes.table? id = some scopes.tables[id] := Array.getElem?_eq_getElem h
  have hown : (scopes.bind id name value constant).table? id =
      some (scopes.tables[id].bind name value constant) := by
    rw [table?_bind, if_pos rfl, htable]
    rfl
  -- The walk upwards begins with the table itself.
  have hchain : ∃ above, (scopes.bind id name value constant).chain id = id :: above := by
    unfold chain walk
    simp only [hown]
    split
    · exact ⟨_, rfl⟩
    · exact ⟨_, rfl⟩
  obtain ⟨above, hchain⟩ := hchain
  unfold get?
  rw [hchain, List.findSome?_cons, hown]
  simp [Table.bind]

namespace Eval

section Rounds

variable (perform : Performer) (c : Context) (span : Span) (counter : String) (body : Body Span)

/-- Rounds over numbers, one after the other, until one of them breaks the loop. -/
def eachTerm : List Int64 → Array Value → Eval (Array Value)
  | [], results => return results
  | i :: terms, results => do
    define c counter (.int i) false span
    match ← round perform c body with
    | .value v => eachTerm terms (collect body results v)
    | .continued => eachTerm terms results
    | .broken => return results

/-- Rounds over numbers that all come through: from one machine to another, with the values
of those that were not cut short by `continue`. In each the counter is bound anew before
the body is run. -/
inductive Rounds : List Int64 → Machine → List Value → Machine → Prop where
  | done (m : Machine) : Rounds [] m [] m
  | value {i : Int64} {terms : List Int64} {m bound k l : Machine} {v : Value} {vs : List Value} :
      define c counter (.int i) false span m = .ok () bound →
      perform (.node body.node c) bound = .ok v k →
      Rounds terms k vs l → Rounds (i :: terms) m (v :: vs) l
  | continued {i : Int64} {terms : List Int64} {m bound k l : Machine} {vs : List Value}
      {at_ : Span} :
      define c counter (.int i) false span m = .ok () bound →
      perform (.node body.node c) bound = .error (.exit .continuing at_) k →
      Rounds terms k vs l → Rounds (i :: terms) m vs l

end Rounds

variable {perform : Performer} {c : Context} {span : Span} {counter : String} {body : Body Span}
  {m k : Machine}

/-- The counter is compared with `b` before each round, and the loop ends where it is a
float: then the number it stands for is not on the way any more. -/
theorem countFrom_eq {b s : Int64} (hs : s.toInt ≠ 0) (hend : SumsEnd b s) (n : Nat) (i : Int64)
    (results : Array Value) (hn : termCount i.toInt b.toInt s.toInt < n) :
    countFrom perform c span counter (.int b) (.int s) body n (.int i) results =
      eachTerm perform c span counter body (loopTerms i.toInt b.toInt s.toInt) results := by
  induction n generalizing i results with
  | zero => exact absurd hn (Nat.not_lt_zero _)
  | succ n ih =>
    unfold countFrom
    by_cases hdue : IsDue b.toInt s.toInt i.toInt
    · rw [if_pos ((Number.isBefore_int i b s).mpr hdue), loopTerms_of_isDue hs hdue,
        Int64.ofInt_toInt]
      rw [termCount_of_isDue hs hdue] at hn
      -- Whatever this round did, the others are those from the next number on.
      have hnext : ∀ results, countFrom perform c span counter (.int b) (.int s) body n
          ((Number.int i).add (.int s)) results =
            eachTerm perform c span counter body (loopTerms (i.toInt + s.toInt) b.toInt s.toInt)
              results := by
        intro results
        rcases Number.add_int_cases i s with ⟨j, hj, hsum⟩ | ⟨hlarge, hfloat⟩
        · rw [hj, ← hsum]
          exact ih j results (by rw [hsum]; omega)
        · have hover : ¬ IsDue b.toInt s.toInt (i.toInt + s.toInt) := by
            intro h
            have hterm := isInt64_of_isDue (k := 1) (isInt64_toInt i) (isInt64_toInt b)
              (by simpa using h)
            exact hlarge (by simpa using hterm)
          rw [hfloat, loopTerms_of_not_isDue hs hover]
          obtain ⟨n, rfl⟩ : ∃ p, n = p + 1 := ⟨n - 1, by omega⟩
          have hstops := hend i hdue hlarge
          unfold countFrom
          rw [Number.isPositive_int, Number.isBefore_float (by simpa using hstops)]
          rfl
      unfold eachTerm
      apply bind_congr
      intro _
      apply bind_congr
      intro r
      cases r with
      | value v => exact hnext _
      | continued => exact hnext _
      | broken => rfl
    · rw [if_neg (mt (Number.isBefore_int i b s).mp hdue), loopTerms_of_not_isDue hs hdue]
      rfl

theorem round_value {v : Value} (h : perform (.node body.node c) m = .ok v k) :
    round perform c body m = .ok (.value v) k := by
  unfold round
  rw [h]

theorem round_continued {at_ : Span}
    (h : perform (.node body.node c) m = .error (.exit .continuing at_) k) :
    round perform c body m = .ok .continued k := by
  unfold round
  rw [h]

/-- The values of rounds that come through are collected in their order. -/
theorem Rounds.eachTerm_eq {terms : List Int64} {vs : List Value}
    (h : Rounds perform c span counter body terms m vs k) (results : Array Value) :
    eachTerm perform c span counter body terms results m =
      .ok (if body.emitsNull then results else results ++ vs.toArray) k := by
  induction h generalizing results with
  | done m =>
    simp
    rfl
  | value hbind hbody _ ih =>
    unfold eachTerm
    rw [bind_ok hbind, bind_ok (round_value hbody)]
    dsimp only
    rw [ih, collect]
    split
    · rfl
    · simp
  | continued hbind hbody _ ih =>
    unfold eachTerm
    rw [bind_ok hbind, bind_ok (round_continued hbody)]
    exact ih results

/-- What was just bound is found, whatever was bound before. -/
theorem get?_define {value : Value} (hc : c.In m)
    (h : define c counter value false span m = .ok () k) :
    k.scopes.get? c.scope counter = some value := by
  cases hfree : m.scopes.isProtected c.scope counter with
  | true =>
    cases (bindAt_of_protected hfree).symm.trans h
  | false =>
    cases (bindAt_of_free hfree).symm.trans h
    exact Scopes.get?_bind_self _ hc ..

/-! ### Loops -/

/-- The step of a loop evaluates to `s`; without a node it is one. -/
def StepIs (perform : Performer) (c : Context) (m : Machine) (s : Int64) (k : Machine) :
    Option (Node Span) → Prop
  | none => s = 1 ∧ k = m
  | some node => perform (.node node c) m = .ok (.int s) k

theorem loopNumber_of_ok {node : Node Span} {a : Int64}
    (h : perform (.node node c) m = .ok (.int a) k) :
    loopNumber perform c node m = .ok (.int a) k := by
  unfold loopNumber
  rw [bind_ok h]
  rfl

theorem StepIs.loopStep_eq {s : Int64} {step : Option (Node Span)}
    (h : StepIs perform c m s k step) (hs : s ≠ 0) :
    loopStep perform c step m = .ok (.int s) k := by
  cases step with
  | none =>
    obtain ⟨rfl, rfl⟩ := h
    rfl
  | some node =>
    have hzero : Number.isZero (.int s) = false := beq_false_of_ne hs
    refine (bind_ok (loopNumber_of_ok h)).trans ?_
    dsimp only
    rw [hzero]
    rfl

end Eval

open Eval

/-- **A counting loop counts the numbers from its start on that are before its end.** Its
bounds and its step are the integers `a`, `b` and `s`, and its numbers are the `a + k * s`
that are due, none of them wrapped around. The loop is the rounds over them in their order,
however these end; if all of them come through, its value is null or the list of their
values. Each round finds the counter bound to its own number, whatever the rounds before
have made of it. -/
theorem Task.counting_loop {n : Nat} {c : Context} {m₀ m₁ m₂ m₃ : Machine} {a b s : Int64}
    {start stop : Node Span} {step : Option (Node Span)}
    (hstart : Task.perform n (.node start c) m₀ = .ok (.int a) m₁)
    (hstop : Task.perform n (.node stop c) m₁ = .ok (.int b) m₂)
    (hstep : StepIs (Task.perform n) c m₂ s m₃ step) (hs : s ≠ 0) (hend : SumsEnd b s)
    (hn : termCount a.toInt b.toInt s.toInt < n) (span : Span) (counter : String)
    (body : Body Span) :
    let count := termCount a.toInt b.toInt s.toInt
    let terms := loopTerms a.toInt b.toInt s.toInt
    let loop := Task.perform (n + 1) (.node (.forLoop span counter start stop step body) c) m₀
    (∀ k : Nat, k < count ↔ IsDue b.toInt s.toInt (a.toInt + k * s.toInt)) ∧
    (terms.map Int64.toInt = (List.range count).map fun (k : Nat) => a.toInt + k * s.toInt) ∧
    loop = (do
      loopValue body (← eachTerm (Task.perform n) c span counter body terms #[])) m₃ ∧
    (∀ vs k, Rounds (Task.perform n) c span counter body terms m₃ vs k →
      loop = if body.emitsNull then .ok .null k else newList vs.toArray k) ∧
    ∀ (i : Int64) (m k : Machine), c.In m → define c counter (.int i) false span m = .ok () k →
      k.scopes.get? c.scope counter = some (.int i) := by
  have hs' : s.toInt ≠ 0 := fun h => hs (Int64.toInt_inj.mp h)
  have hloop : Task.perform (n + 1) (.node (.forLoop span counter start stop step body) c) m₀ = (do
      loopValue body (← eachTerm (Task.perform n) c span counter body
        (loopTerms a.toInt b.toInt s.toInt) #[])) m₃ := by
    rw [← countFrom_eq hs' hend n a #[] hn]
    show (loopNumber (Task.perform n) c start >>= _) m₀ = _
    rw [bind_ok (loopNumber_of_ok hstart), bind_ok (loopNumber_of_ok hstop),
      bind_ok (hstep.loopStep_eq hs)]
  refine ⟨lt_termCount hs', toInt_loopTerms hs' (isInt64_toInt a) (isInt64_toInt b), hloop, ?_,
    fun i m k => get?_define⟩
  intro vs k hrounds
  rw [hloop, bind_ok (hrounds.eachTerm_eq #[])]
  unfold loopValue
  split
  · rfl
  · simp

/-! ### A loop downwards whose body overwrites the counter -/

/-- Assigns 100 to the counter. -/
def overwriting : Body Span := .mk (.assign default "i" (.int default 100)) false

/-- The step -3, as it is written. -/
def minusThree : Node Span := .unary default .minus (.int default 3)

/-- From 7 to 0 in steps of -3. -/
def downwards : Node Span :=
  .forLoop default "i" (.int default 7) (.int default 0) (some minusThree) overwriting

theorem sumsEnd_downwards : SumsEnd 0 (-3) := by
  intro i hdue hlarge
  have hstep : (-3 : Int64).toInt = -3 := rfl
  have hlow : 0 < i.toInt := hdue
  have hhigh := i.toInt_lt
  have hsum : IsInt64 (i.toInt + (-3 : Int64).toInt) := by
    rw [hstep]
    exact ⟨by omega, by omega⟩
  exact absurd hsum hlarge

/-- A new session, and its top level. -/
def newSession : Machine := Machine.start default

def newTop : Context := topLevel newSession.globals

theorem Task.counting_loop_downwards :
    ∃ k, Rounds (Task.perform 4) newTop default "i" overwriting [7, 4, 1] newSession
        [.int 100, .int 100, .int 100] k ∧
      Task.perform 5 (.node downwards newTop) newSession =
        newList #[.int 100, .int 100, .int 100] k := by
  have hterms : loopTerms (7 : Int64).toInt (0 : Int64).toInt (-3 : Int64).toInt = [7, 4, 1] := by
    decide
  have hstart : Task.perform 4 (.node (.int default 7) newTop) newSession =
      .ok (.int 7) newSession := rfl
  have hstop : Task.perform 4 (.node (.int default 0) newTop) newSession =
      .ok (.int 0) newSession := rfl
  have hstep : StepIs (Task.perform 4) newTop newSession (-3) newSession (some minusThree) := rfl
  have hrounds : Rounds (Task.perform 4) newTop default "i" overwriting [7, 4, 1] newSession
      [.int 100, .int 100, .int 100] _ :=
    .value rfl rfl (.value rfl rfl (.value rfl rfl (.done _)))
  have hloop := counting_loop hstart hstop hstep (by decide) sumsEnd_downwards (by decide)
    default "i" overwriting
  rw [hterms] at hloop
  exact ⟨_, hrounds, hloop.2.2.2.1 _ _ hrounds⟩

end Script
