/-
This file models the decimals of 18 places that fees and exchange rates are computed
with. A decimal is the integer of its units. Products and quotients are rounded to the
nearest unit, from the middle to the even one, and a result of too many bits panics.
-/

import Mathlib.Algebra.Order.Group.MinMax
import Mathlib.Data.Int.ConditionallyCompleteOrder
import Mathlib.Tactic.Linarith
import Mathlib.Tactic.Ring

namespace SeiChain.Cosmos

/-- A decimal, as the number of its units of `10^-18`. -/
abbrev Dec := Int

/-- To the nearest whole number, and from the middle to the even one. -/
def roundHalfEven (units : Nat) : Nat :=
  let quo := units / 10 ^ 18
  let rem := units % 10 ^ 18
  if rem < 5 * 10 ^ 17 ∨ rem = 5 * 10 ^ 17 ∧ quo % 2 = 0 then quo else quo + 1

def chopPrecisionAndRound (d : Int) : Int := d.sign * roundHalfEven d.natAbs

def maxDecBitLen : Nat := 315

/-- A result of more bits panics. -/
def assertInValidRange (d : Dec) : Option Dec :=
  if d.natAbs < 2 ^ maxDecBitLen then some d else none

def newDec (i : Int) : Dec := i * 10 ^ 18

def Dec.add (d d2 : Dec) : Option Dec := assertInValidRange (d + d2)

def Dec.sub (d d2 : Dec) : Option Dec := assertInValidRange (d - d2)

def Dec.mul (d d2 : Dec) : Option Dec := assertInValidRange (chopPrecisionAndRound (d * d2))

def Dec.quo (d d2 : Dec) : Option Dec :=
  if d2 = 0 then none
  else assertInValidRange (chopPrecisionAndRound ((d * 10 ^ 18 * 10 ^ 18).tdiv d2))

/-- The quotient by a whole number other than zero, which is not rounded. -/
def Dec.quoInt64 (d : Dec) (i : Int) : Dec := Int.tdiv d i

/-! ### Rounding -/

theorem roundHalfEven_mono : Monotone roundHalfEven := by
  intro units more le
  simp only [roundHalfEven]
  split <;> split <;> omega

theorem roundHalfEven_mul (whole : Nat) : roundHalfEven (whole * 10 ^ 18) = whole := by
  simp only [roundHalfEven]
  split <;> omega

theorem roundHalfEven_near (units : Nat) : roundHalfEven units * 10 ^ 18 ≤ units + 5 * 10 ^ 17 ∧
    units ≤ roundHalfEven units * 10 ^ 18 + 5 * 10 ^ 17 := by
  simp only [roundHalfEven]
  split <;> omega

theorem roundHalfEven_le {units whole : Nat} (le : units ≤ whole * 10 ^ 18) :
    roundHalfEven units ≤ whole :=
  (roundHalfEven_mono le).trans_eq (roundHalfEven_mul whole)

theorem chopPrecisionAndRound_natCast (n : Nat) : chopPrecisionAndRound n = roundHalfEven n := by
  cases n with
  | zero => rfl
  | succ n => rw [chopPrecisionAndRound, Int.sign_natCast_of_ne_zero n.succ_ne_zero, one_mul,
      Int.natAbs_natCast]

theorem chopPrecisionAndRound_neg (d : Int) :
    chopPrecisionAndRound (-d) = -chopPrecisionAndRound d := by
  rw [chopPrecisionAndRound, chopPrecisionAndRound, Int.sign_neg, Int.natAbs_neg, neg_mul]

theorem chopPrecisionAndRound_mono : Monotone chopPrecisionAndRound := by
  intro d d2 le
  obtain ⟨n, rfl | rfl⟩ := d.eq_nat_or_neg <;> obtain ⟨m, rfl | rfl⟩ := d2.eq_nat_or_neg <;>
    simp only [chopPrecisionAndRound_neg, chopPrecisionAndRound_natCast]
  · exact_mod_cast roundHalfEven_mono (by omega)
  · have zero : n = 0 ∧ m = 0 := by omega
    rw [zero.1, zero.2]
    decide
  · omega
  · have := roundHalfEven_mono (show m ≤ n by omega)
    omega

theorem chopPrecisionAndRound_near (d : Int) :
    chopPrecisionAndRound d * 10 ^ 18 ≤ d + 5 * 10 ^ 17 ∧
      d ≤ chopPrecisionAndRound d * 10 ^ 18 + 5 * 10 ^ 17 := by
  obtain ⟨n, rfl | rfl⟩ := d.eq_nat_or_neg
  all_goals
    have near := roundHalfEven_near n
    simp only [chopPrecisionAndRound_neg, chopPrecisionAndRound_natCast]
    omega

/-- A difference rounds to the whole number it was taken from if it is less than half a unit, or a
half and the number is even. -/
theorem chopPrecisionAndRound_sub_eq (whole units : Nat) :
    chopPrecisionAndRound (whole * 10 ^ 18 - units) = whole ↔
      2 * units < 10 ^ 18 ∨ 2 * units = 10 ^ 18 ∧ whole % 2 = 0 := by
  rcases le_total units (whole * 10 ^ 18) with le | ge
  · have difference : (whole * 10 ^ 18 - units : Int) = (whole * 10 ^ 18 - units : Nat) := by omega
    rw [difference, chopPrecisionAndRound_natCast]
    simp only [roundHalfEven]
    split <;> omega
  · have difference : (whole * 10 ^ 18 - units : Int) = -(units - whole * 10 ^ 18 : Nat) := by omega
    rw [difference, chopPrecisionAndRound_neg, chopPrecisionAndRound_natCast]
    simp only [roundHalfEven]
    split <;> omega

theorem chopPrecisionAndRound_mul (d : Int) : chopPrecisionAndRound (d * 10 ^ 18) = d := by
  obtain ⟨n, rfl | rfl⟩ := d.eq_nat_or_neg
  · exact_mod_cast (chopPrecisionAndRound_natCast _).trans (congrArg _ (roundHalfEven_mul n))
  · rw [neg_mul, chopPrecisionAndRound_neg]
    exact_mod_cast congrArg (- ·) ((chopPrecisionAndRound_natCast (n * 10 ^ 18)).trans
      (congrArg _ (roundHalfEven_mul n)))

theorem assertInValidRange_natCast {n : Nat} (small : n < 2 ^ maxDecBitLen) :
    assertInValidRange n = some (n : Int) :=
  if_pos small

theorem assertInValidRange_eq_some {d : Int} (small : d.natAbs < 2 ^ maxDecBitLen) :
    assertInValidRange d = some d := if_pos small

theorem lt_maxDec {n : Nat} (small : n ≤ 2 ^ 200) : n < 2 ^ maxDecBitLen :=
  small.trans_lt (Nat.pow_lt_pow_right (by norm_num) (by decide))

theorem newDec_natCast (n : Nat) : newDec n = (n * 10 ^ 18 : Nat) := by
  simp [newDec]

theorem newDec_lt {n m : Int} : newDec n < newDec m ↔ n < m := Int.mul_lt_mul_right (by norm_num)

theorem newDec_ne_zero {n : Int} (nonzero : n ≠ 0) : newDec n ≠ 0 :=
  mul_ne_zero nonzero (by norm_num)

theorem sub_newDec {n m : Int} (le : m ≤ n) (small : n - m ≤ 2 ^ 64) :
    (newDec n).sub (newDec m) = some (newDec ((n - m).toNat : Nat)) := by
  have difference : newDec n - newDec m = newDec ((n - m).toNat : Nat) := by
    rw [Int.toNat_of_nonneg (by omega)]
    exact (sub_mul n m _).symm
  rw [Dec.sub, difference, newDec_natCast]
  exact assertInValidRange_natCast (lt_maxDec (by omega))

/-- The quotient of two whole numbers. -/
def ratio (n d : Nat) : Nat := roundHalfEven (n * 10 ^ 18 * 10 ^ 18 / d)

variable {n m d : Nat}

theorem ratio_le {bound : Nat} (le : n ≤ bound * d) : ratio n d ≤ bound * 10 ^ 18 := by
  refine roundHalfEven_le (Nat.div_le_of_le_mul ?_)
  calc n * 10 ^ 18 * 10 ^ 18 ≤ bound * d * 10 ^ 18 * 10 ^ 18 := by gcongr
    _ = d * (bound * 10 ^ 18 * 10 ^ 18) := by ring

theorem quo_newDec (positive : 0 < d) (le : n ≤ 2 * d) :
    (newDec n).quo (newDec d) = some (ratio n d : Int) := by
  have scaled : n * 10 ^ 18 * 10 ^ 18 * 10 ^ 18 / (d * 10 ^ 18) = n * 10 ^ 18 * 10 ^ 18 / d :=
    Nat.mul_div_mul_right _ _ (by norm_num)
  have quotient : (newDec n * 10 ^ 18 * 10 ^ 18).tdiv (newDec d) =
      ((n * 10 ^ 18 * 10 ^ 18 / d : Nat) : Int) := by
    rw [newDec_natCast, newDec_natCast, ← scaled, Int.ofNat_tdiv]
    norm_cast
  unfold Dec.quo
  rw [if_neg (newDec_ne_zero (by omega)), quotient, chopPrecisionAndRound_natCast]
  exact assertInValidRange_natCast (lt_maxDec ((ratio_le le).trans (by norm_num)))

theorem quo_zero {d : Int} (nonzero : d ≠ 0) : (newDec 0).quo (newDec d) = some 0 := by
  unfold Dec.quo
  rw [if_neg (newDec_ne_zero nonzero)]
  simpa [newDec, chopPrecisionAndRound] using assertInValidRange_natCast (lt_maxDec (Nat.zero_le _))

/-- The part `n / d` of a rate. -/
def factor (rate n d : Nat) : Nat := roundHalfEven (rate * ratio n d)

variable {rate : Nat}

theorem factor_le {bound : Nat} (le : n ≤ bound * d) : factor rate n d ≤ rate * bound := by
  refine roundHalfEven_le ?_
  rw [mul_assoc]
  exact Nat.mul_le_mul_left _ (ratio_le le)

theorem factor_mono (le : n ≤ m) : factor rate n d ≤ factor rate m d :=
  roundHalfEven_mono (Nat.mul_le_mul_left _ (roundHalfEven_mono (by gcongr)))

theorem factor_self (positive : 0 < d) : factor rate d d = rate := by
  have whole : ratio d d = 10 ^ 18 := by
    rw [ratio, mul_assoc, Nat.mul_div_cancel_left _ positive]
    decide
  rw [factor, whole, roundHalfEven_mul]

theorem mul_ratio (bounded : rate ≤ 10 ^ 18) (le : n ≤ 2 * d) :
    Dec.mul rate (ratio n d : Nat) = some (factor rate n d : Int) := by
  rw [Dec.mul, ← Nat.cast_mul, chopPrecisionAndRound_natCast]
  exact assertInValidRange_natCast (lt_maxDec ((factor_le le).trans (by omega)))

end SeiChain.Cosmos
