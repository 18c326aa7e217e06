import Mathlib.Algebra.Ring.Parity
import Mathlib.Algebra.Order.Ring.Int
import Script.Number

/-! Where integer arithmetic is exact.

The sum, difference, product, negation or power of 64-bit integers is an integer again if
its value has 64 bits, and a float if not (`Number.Computes`). For powers that takes an
argument: a base other than 0, 1 and -1 outgrows 64 bits before the exponent is 64, and of
those three only the parity of the exponent counts (`Number.boundedPower_cases`).

Main statement, `Number.arithmetic_exact`. It leaves out the powers of 0, 1 and -1 whose
exponents have more than 32 bits: they are floats although their values fit
(`Number.unit_power_is_float`). -/
namespace Script

/-- The value of some 64-bit integer. -/
def IsInt64 (r : Int) : Prop := -2 ^ 63 ≤ r ∧ r < 2 ^ 63

variable {r : Int}

theorem isInt64_iff : IsInt64 r ↔ Int64.minValue.toInt ≤ r ∧ r ≤ Int64.maxValue.toInt := by
  have hmin : Int64.minValue.toInt = -2 ^ 63 := rfl
  have hmax : Int64.maxValue.toInt = 2 ^ 63 - 1 := rfl
  rw [IsInt64, hmin, hmax]
  omega

theorem isInt64_toInt (n : Int64) : IsInt64 n.toInt := ⟨n.le_toInt, n.toInt_lt⟩

theorem int64?_of_isInt64 (h : IsInt64 r) : ∃ k : Int64, int64? r = some k ∧ k.toInt = r :=
  ⟨Int64.ofInt r, if_pos (isInt64_iff.mp h), Int64.toInt_ofInt_of_le h.1 h.2⟩

theorem int64?_of_not_isInt64 (h : ¬ IsInt64 r) : int64? r = none :=
  if_neg (mt isInt64_iff.mpr h)

namespace Number

/-- The number is the integer `r` if that has 64 bits, and a float if not. -/
structure Computes (n : Number) (r : Int) : Prop where
  exact : IsInt64 r → ∃ k : Int64, n = .int k ∧ k.toInt = r
  approximate : ¬ IsInt64 r → ∃ x, n = .float x

section Combine

variable {exact : Int → Int → Option Int} {approx : Float → Float → Float} {a b : Int64}

theorem combine_of_none (h : (exact a.toInt b.toInt).bind int64? = none) :
    combine exact approx (.int a) (.int b) = .float (approx a.toFloat b.toFloat) := by
  simp only [combine, h]

/-- An exact operation may give up only where its result does not fit. -/
theorem computes_combine (h : exact a.toInt b.toInt = some r ∨
    exact a.toInt b.toInt = none ∧ ¬ IsInt64 r) :
    (combine exact approx (.int a) (.int b)).Computes r := by
  constructor
  · intro hr
    obtain ⟨k, hk, hkr⟩ := int64?_of_isInt64 hr
    rcases h with h | ⟨_, hnot⟩
    · refine ⟨k, ?_, hkr⟩
      simp only [combine, h, Option.bind_some, hk]
    · exact absurd hr hnot
  · intro hr
    refine ⟨_, combine_of_none ?_⟩
    rcases h with h | ⟨h, _⟩
    · rw [h, Option.bind_some, int64?_of_not_isInt64 hr]
    · rw [h, Option.bind_none]

end Combine

theorem computes_neg (a : Int64) : (neg (.int a)).Computes (-a.toInt) := by
  constructor
  · intro hr
    obtain ⟨k, hk, hkr⟩ := int64?_of_isInt64 hr
    refine ⟨k, ?_, hkr⟩
    simp only [neg, hk]
  · intro hr
    refine ⟨-a.toFloat, ?_⟩
    simp only [neg, int64?_of_not_isInt64 hr]

/-! ### Powers -/

variable {base : Int} {exponent : Nat}

/-- A power that is too large for 64 bits whatever its sign. -/
theorem not_isInt64_pow (hbase : 1 < base.natAbs) (hexponent : 64 ≤ exponent) :
    ¬ IsInt64 (base ^ exponent) := by
  have hlarge : 2 ^ 64 ≤ (base ^ exponent).natAbs := by
    rw [Int.natAbs_pow]
    calc 2 ^ 64 ≤ 2 ^ exponent := Nat.pow_le_pow_right (by decide) hexponent
      _ ≤ base.natAbs ^ exponent := Nat.pow_le_pow_left hbase exponent
  unfold IsInt64
  omega

/-- Of 0, 1 and -1 the power to a positive exponent depends on its parity only. -/
theorem pow_parity (hbase : base.natAbs ≤ 1) (hexponent : 0 < exponent) :
    base ^ (2 - exponent % 2) = base ^ exponent := by
  have hcases : base = 0 ∨ base = 1 ∨ base = -1 := by omega
  rcases hcases with rfl | rfl | rfl
  · rw [zero_pow (by omega), zero_pow (by omega)]
  · rw [one_pow, one_pow]
  · rcases Nat.mod_two_eq_zero_or_one exponent with h | h
    · rw [h, (Nat.even_iff.mpr h).neg_one_pow]
      rfl
    · rw [h, (Nat.odd_iff.mpr h).neg_one_pow]
      rfl

theorem boundedPower_cases (base : Int) (exponent : Nat) :
    boundedPower base exponent = some (base ^ exponent) ∨
      boundedPower base exponent = none ∧ ¬ IsInt64 (base ^ exponent) := by
  unfold boundedPower
  split
  · exact .inl rfl
  · next hexponent =>
    split
    · next hbase => exact .inl (congrArg some (pow_parity hbase (by omega)))
    · next hbase => exact .inr ⟨rfl, not_isInt64_pow (by omega) (by omega)⟩

theorem computes_pow {a b : Int64} (hb : 0 ≤ b.toInt) (h : b.toInt < 2 ^ 32 ∨ 1 < a.toInt.natAbs) :
    (pow (.int a) (.int b)).Computes (a.toInt ^ b.toInt.toNat) := by
  apply computes_combine
  by_cases hexponent : b.toInt < 2 ^ 32
  · rw [if_pos ⟨hb, hexponent⟩]
    exact boundedPower_cases ..
  · refine .inr ⟨if_neg fun h => hexponent h.2, not_isInt64_pow ?_ (by omega)⟩
    exact h.resolve_left hexponent

theorem pow_eq_float {a b : Int64} (h : b.toInt < 0 ∨ 2 ^ 32 ≤ b.toInt) :
    pow (.int a) (.int b) = .float (Float.pow a.toFloat b.toFloat) := by
  apply combine_of_none
  have hnot : ¬ (0 ≤ b.toInt ∧ b.toInt < UInt32.size) := by
    have hsize : (UInt32.size : Int) = 2 ^ 32 := rfl
    omega
  rw [if_neg hnot, Option.bind_none]

/-- **Integer arithmetic is exact where the result fits**: sums, differences, products,
negations, and powers with exponents from 0 on are the integer of their value if it has 64
bits, and floats if not. Powers with negative exponents are floats, and so are those of 0, 1
and -1 with exponents of more than 32 bits. -/
theorem arithmetic_exact (a b : Int64) :
    (add (.int a) (.int b)).Computes (a.toInt + b.toInt) ∧
    (sub (.int a) (.int b)).Computes (a.toInt - b.toInt) ∧
    (mul (.int a) (.int b)).Computes (a.toInt * b.toInt) ∧
    (neg (.int a)).Computes (-a.toInt) ∧
    (0 ≤ b.toInt → b.toInt < 2 ^ 32 ∨ 1 < a.toInt.natAbs →
      (pow (.int a) (.int b)).Computes (a.toInt ^ b.toInt.toNat)) ∧
    (b.toInt < 0 ∨ 2 ^ 32 ≤ b.toInt ∧ a.toInt.natAbs ≤ 1 →
      ∃ x, pow (.int a) (.int b) = .float x) := by
  refine ⟨computes_combine (.inl rfl), computes_combine (.inl rfl), computes_combine (.inl rfl),
    computes_neg a, computes_pow, fun h => ⟨_, pow_eq_float ?_⟩⟩
  omega

/-- Not all powers that fit are integers: with an exponent of 33 bits even those of 1 are
floats. -/
theorem unit_power_is_float : ¬ ∀ a b : Int64, 0 ≤ b.toInt →
    (pow (.int a) (.int b)).Computes (a.toInt ^ b.toInt.toNat) := by
  intro hall
  have hone : (1 : Int64).toInt = 1 := rfl
  have hfits : IsInt64 ((1 : Int64).toInt ^ (4294967296 : Int64).toInt.toNat) := by
    rw [hone, one_pow]
    exact ⟨by decide, by decide⟩
  obtain ⟨k, hk, _⟩ := (hall 1 4294967296 (by decide)).exact hfits
  rw [pow_eq_float (.inr (by decide))] at hk
  cases hk

end Number

end Script
