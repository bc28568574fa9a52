/-
This file models how the base fee follows the gas that a block used: above the
target the fee rises, below it falls, by at most a configured rate, and it stays
between a minimum and a maximum. For a block limit that is given the fee rises with
the gas used, through the roundings and across the target. A limit of -1, which
stands for none, is taken for a limit below all targets, so that every block of such
a chain counts as an empty one. The law of the fee is shown to hold exactly if no
product overflows and a chain without a limit has no fall to make.
-/

import SeiChain.Cosmos.Decimal

namespace SeiChain.Evm.BaseFee

open Cosmos

/-! ### The adjustment -/

/-- What the adjustment reads. The fees and rates of the parameters are validated not to be
negative. -/
structure Keeper where
  /-- `Block.MaxGas`, if there are consensus parameters. -/
  blockMaxGas : Option Int
  nextBaseFeePerGas : Option Dec
  targetGasUsedPerBlock : Nat
  minimumFeePerGas : Nat
  maximumFeePerGas : Nat
  maxDynamicBaseFeeUpwardAdjustment : Nat
  maxDynamicBaseFeeDownwardAdjustment : Nat

namespace Keeper

variable (k : Keeper)

def getNextBaseFeePerGas : Dec := k.nextBaseFeePerGas.getD k.minimumFeePerGas

/-- The fee before it is kept between the minimum and the maximum. -/
def newBaseFee (blockGasUsed blockGasLimit targetGasUsed : Dec) : Option Dec := do
  if targetGasUsed < blockGasUsed then
    let percentageFull ← (← blockGasUsed.sub targetGasUsed).quo (← blockGasLimit.sub targetGasUsed)
    let adjustmentFactor ← Dec.mul k.maxDynamicBaseFeeUpwardAdjustment percentageFull
    k.getNextBaseFeePerGas.mul (← (newDec 1).add adjustmentFactor)
  else
    let percentageEmpty ← (← targetGasUsed.sub blockGasUsed).quo targetGasUsed
    let adjustmentFactor ← Dec.mul k.maxDynamicBaseFeeDownwardAdjustment percentageEmpty
    k.getNextBaseFeePerGas.mul (← (newDec 1).sub adjustmentFactor)

/-- The fee that is returned, if any, and the keeper that has stored it. The gas numbers are
64-bit and read as signed ones. -/
def adjustDynamicBaseFeePerGas (blockGasUsed : Nat) : Option (Option Dec × Keeper) := do
  let some maxGas := k.blockMaxGas | return (none, k)
  let targetGasUsed := newDec ((k.targetGasUsedPerBlock : Int).bmod (2 ^ 64))
  if targetGasUsed = 0 then return (some k.getNextBaseFeePerGas, k)
  let blockGasLimit := newDec maxGas
  let blockGasUsedDec := newDec ((blockGasUsed : Int).bmod (2 ^ 64))
  let blockGasUsedDec := if blockGasLimit < blockGasUsedDec then blockGasLimit else blockGasUsedDec
  let newBaseFee ← k.newBaseFee blockGasUsedDec blockGasLimit targetGasUsed
  let newBaseFee :=
    if newBaseFee < k.minimumFeePerGas then (k.minimumFeePerGas : Dec) else newBaseFee
  let newBaseFee :=
    if k.maximumFeePerGas < newBaseFee then (k.maximumFeePerGas : Dec) else newBaseFee
  return (some newBaseFee, { k with nextBaseFeePerGas := some newBaseFee })

end Keeper

/-! ### The fee in closed form -/

namespace Keeper

/-- The keeper of a chain with the given block limit and previous fee. -/
structure Valid (k : Keeper) (limit : Int) (prev : Nat) : Prop where
  maxGas : k.blockMaxGas = some limit
  limit_ge : -1 ≤ limit
  limit_lt : limit < 2 ^ 63
  target_pos : 0 < k.targetGasUsedPerBlock
  target_lt : k.targetGasUsedPerBlock < 2 ^ 64
  upward : k.maxDynamicBaseFeeUpwardAdjustment ≤ 10 ^ 18
  downward : k.maxDynamicBaseFeeDownwardAdjustment ≤ 10 ^ 18
  isPrev : k.getNextBaseFeePerGas = prev
  minimum : k.minimumFeePerGas ≤ prev
  maximum : prev ≤ k.maximumFeePerGas
  small : prev < 2 ^ maxDecBitLen

/-- The target, as the signed number that it is read as. -/
def signedTarget (k : Keeper) : Int := (k.targetGasUsedPerBlock : Int).bmod (2 ^ 64)

/-- What the previous fee is multiplied by. -/
def scale (k : Keeper) (limit used : Int) : Int :=
  if k.signedTarget < used then
    10 ^ 18 + factor k.maxDynamicBaseFeeUpwardAdjustment
      (used - k.signedTarget).toNat (limit - k.signedTarget).toNat
  else
    10 ^ 18 - factor k.maxDynamicBaseFeeDownwardAdjustment
      (k.signedTarget - used).toNat k.signedTarget.toNat

/-- A fee, kept between the minimum and the maximum. -/
def clamp (k : Keeper) (fee : Int) : Int := min (max fee k.minimumFeePerGas) k.maximumFeePerGas

/-- The fee that the block leaves behind. -/
def fee (k : Keeper) (limit : Int) (prev used : Nat) : Int :=
  k.clamp (chopPrecisionAndRound (prev * k.scale limit (min used limit)))

variable {k : Keeper} {limit used : Int} {prev : Nat}

theorem factor_zero (rate d : Nat) : factor rate 0 d = 0 := by
  simp [factor, ratio, roundHalfEven]

section

variable (valid : k.Valid limit prev)

include valid

theorem Valid.signedTarget_cases :
    k.targetGasUsedPerBlock < 2 ^ 63 ∧ k.signedTarget = k.targetGasUsedPerBlock ∨
      2 ^ 63 ≤ k.targetGasUsedPerBlock ∧ k.signedTarget = k.targetGasUsedPerBlock - 2 ^ 64 := by
  have small := valid.target_lt
  unfold signedTarget Int.bmod
  lia

theorem Valid.newBaseFee_eq (lower : -1 ≤ used) (below : used ≤ limit) :
    k.newBaseFee (newDec used) (newDec limit) (newDec k.signedTarget) =
      Dec.mul prev (k.scale limit used) := by
  have target := valid.signedTarget_cases
  have positive := valid.target_pos
  have small := valid.target_lt
  have limit_lt := valid.limit_lt
  have upward := valid.upward
  have downward := valid.downward
  have one : newDec 1 = ((10 ^ 18 : Nat) : Int) := by decide
  rw [newBaseFee, valid.isPrev, scale]
  by_cases above : k.signedTarget < used
  · have part : (used - k.signedTarget).toNat ≤ 1 * (limit - k.signedTarget).toNat := by omega
    have bound := @factor_le _ _ k.maxDynamicBaseFeeUpwardAdjustment _ part
    rw [if_pos above, if_pos (newDec_lt.mpr above), sub_newDec above.le (by omega),
      sub_newDec (above.le.trans below) (by omega), Option.bind_eq_bind, Option.bind_some,
      Option.bind_some, quo_newDec (by omega) (by omega), Option.bind_some,
      mul_ratio upward (by omega), Option.bind_some, Dec.add, one, ← Nat.cast_add,
      assertInValidRange_natCast (lt_maxDec (by omega)), Option.bind_some]
    rfl
  · have part : (k.signedTarget - used).toNat ≤ 2 * k.signedTarget.toNat := by omega
    have bound := @factor_le _ _ k.maxDynamicBaseFeeDownwardAdjustment _ part
    have quotient : (newDec ((k.signedTarget - used).toNat : Nat)).quo (newDec k.signedTarget) =
        some (ratio (k.signedTarget - used).toNat k.signedTarget.toNat : Int) := by
      rcases target with ⟨_, signed⟩ | ⟨_, signed⟩
      · have cast : k.signedTarget = (k.signedTarget.toNat : Int) := by omega
        nth_rewrite 2 [cast]
        exact quo_newDec (by omega) part
      · -- A negative target that is not below the gas used is -1, as the gas used is then.
        have same : (k.signedTarget - used).toNat = 0 := by omega
        have zero : ratio 0 k.signedTarget.toNat = 0 := by simp [ratio, roundHalfEven]
        rw [same, zero]
        exact quo_zero (by omega)
    rw [if_neg above, if_neg (newDec_lt.not.mpr above), sub_newDec (not_lt.mp above) (by omega),
      Option.bind_eq_bind, Option.bind_some, quotient, Option.bind_some,
      mul_ratio downward part, Option.bind_some, Dec.sub, one,
      assertInValidRange_eq_some (lt_maxDec (by omega)), Option.bind_some]
    rfl

omit valid in
theorem clamp_eq (k : Keeper) (fee : Int) :
    (let raised := if fee < k.minimumFeePerGas then (k.minimumFeePerGas : Int) else fee
      if k.maximumFeePerGas < raised then (k.maximumFeePerGas : Int) else raised) = k.clamp fee := by
  dsimp only [clamp]
  split <;> split <;> omega

theorem Valid.adjustDynamicBaseFeePerGas_eq {used : Nat} (usedLt : used < 2 ^ 63) :
    k.adjustDynamicBaseFeePerGas used =
      (Dec.mul prev (k.scale limit (min used limit))).map fun fee =>
        (some (k.clamp fee), { k with nextBaseFeePerGas := some (k.clamp fee) }) := by
  have target := valid.signedTarget_cases
  have positive := valid.target_pos
  have limit_ge := valid.limit_ge
  have signed : (used : Int).bmod (2 ^ 64) = used := Int.bmod_eq_of_le (by omega) (by omega)
  have capped : (if newDec limit < newDec used then newDec limit else newDec used) =
      newDec (min used limit) := by
    simp only [newDec_lt]
    split
    · rw [min_eq_right (by omega)]
    · rw [min_eq_left (by omega)]
  have nonzero : k.signedTarget ≠ 0 := by
    have small := valid.target_lt
    omega
  have isTarget : (k.targetGasUsedPerBlock : Int).bmod (2 ^ 64) = k.signedTarget := rfl
  rw [adjustDynamicBaseFeePerGas, valid.maxGas, signed, isTarget]
  dsimp only
  rw [if_neg (newDec_ne_zero nonzero), capped, valid.newBaseFee_eq (by omega) (min_le_right _ _)]
  cases Dec.mul prev (k.scale limit (min used limit)) with
  | none => rfl
  | some fee =>
    rw [Option.bind_eq_bind, Option.bind_some, Option.map_some, ← clamp_eq]
    rfl

omit valid in
theorem scale_mono (k : Keeper) (limit : Int) : Monotone (k.scale limit) := by
  intro used more le
  rw [scale, scale]
  split
  · rw [if_pos (by omega)]
    have rises := @factor_mono _ _ (limit - k.signedTarget).toNat
      k.maxDynamicBaseFeeUpwardAdjustment
      (Int.toNat_le_toNat (Int.sub_le_sub_right le k.signedTarget))
    omega
  · split
    · omega
    · have falls := @factor_mono _ _ k.signedTarget.toNat k.maxDynamicBaseFeeDownwardAdjustment
        (Int.toNat_le_toNat (Int.sub_le_sub_left le k.signedTarget))
      omega

omit valid in
theorem scale_limit (rises : k.signedTarget < limit) :
    k.scale limit limit = 10 ^ 18 + k.maxDynamicBaseFeeUpwardAdjustment := by
  rw [scale, if_pos rises, factor_self (by omega)]

theorem Valid.scale_bounds (lower : -1 ≤ used) (below : used ≤ limit) :
    -10 ^ 18 ≤ k.scale limit used ∧
      k.scale limit used ≤ 10 ^ 18 + k.maxDynamicBaseFeeUpwardAdjustment ∧
      (¬k.signedTarget < used → k.scale limit used ≤ 10 ^ 18) ∧
      (0 ≤ used ∨ k.signedTarget < 0 →
        10 ^ 18 - k.maxDynamicBaseFeeDownwardAdjustment ≤ k.scale limit used) := by
  have target := valid.signedTarget_cases
  have positive := valid.target_pos
  have small := valid.target_lt
  have downward := valid.downward
  rw [scale]
  split
  · have part : (used - k.signedTarget).toNat ≤ 1 * (limit - k.signedTarget).toNat := by omega
    have bound := @factor_le _ _ k.maxDynamicBaseFeeUpwardAdjustment _ part
    omega
  · have part : (k.signedTarget - used).toNat ≤ 2 * k.signedTarget.toNat := by omega
    have bound := @factor_le _ _ k.maxDynamicBaseFeeDownwardAdjustment _ part
    refine ⟨by omega, by omega, fun _ => by omega, fun covered => ?_⟩
    have whole : (k.signedTarget - used).toNat ≤ 1 * k.signedTarget.toNat := by omega
    have bound := @factor_le _ _ k.maxDynamicBaseFeeDownwardAdjustment _ whole
    omega

/-! ### The law -/

/-- The law of the fee, as a function of the gas used: it rises, stays at a target not above the
limit, keeps between the minimum and the maximum and moves by at most the rates, up to half a
unit. -/
structure Law (k : Keeper) (limit : Int) (prev : Nat) (fee : Nat → Int) : Prop where
  returned : ∀ used < 2 ^ 63, k.adjustDynamicBaseFeePerGas used =
    some (some (fee used), { k with nextBaseFeePerGas := some (fee used) })
  monotone : Monotone fee
  unchanged : k.targetGasUsedPerBlock < 2 ^ 63 → limit = -1 ∨ k.targetGasUsedPerBlock ≤ limit →
    fee k.targetGasUsedPerBlock = prev
  minimum : ∀ used, k.minimumFeePerGas ≤ fee used
  maximum : ∀ used, fee used ≤ k.maximumFeePerGas
  rise : ∀ used,
    fee used * 10 ^ 18 ≤ prev * (10 ^ 18 + k.maxDynamicBaseFeeUpwardAdjustment) + 5 * 10 ^ 17
  fall : ∀ used,
    prev * (10 ^ 18 - k.maxDynamicBaseFeeDownwardAdjustment) ≤ fee used * 10 ^ 18 + 5 * 10 ^ 17

/-- What a block of a chain without a limit takes off a fee, in units squared. -/
def unlimitedFall (k : Keeper) (prev : Nat) : Nat :=
  prev * factor k.maxDynamicBaseFeeDownwardAdjustment (k.targetGasUsedPerBlock + 1)
    k.targetGasUsedPerBlock

/-- What the law needs: a fee that can rise does not overflow, and without a limit the fee is at
the minimum or its fall is rounded away. -/
structure Lawful (k : Keeper) (limit : Int) (prev : Nat) : Prop where
  fits : k.signedTarget < limit →
    roundHalfEven (prev * (10 ^ 18 + k.maxDynamicBaseFeeUpwardAdjustment)) < 2 ^ maxDecBitLen
  kept : limit = -1 → k.targetGasUsedPerBlock < 2 ^ 63 → prev = k.minimumFeePerGas ∨
    2 * k.unlimitedFall prev < 10 ^ 18 ∨ 2 * k.unlimitedFall prev = 10 ^ 18 ∧ prev % 2 = 0

theorem Valid.mul_eq (fits : k.signedTarget < limit →
      roundHalfEven (prev * (10 ^ 18 + k.maxDynamicBaseFeeUpwardAdjustment)) < 2 ^ maxDecBitLen)
    (lower : -1 ≤ used) (below : used ≤ limit) :
    Dec.mul prev (k.scale limit used) =
      some (chopPrecisionAndRound (prev * k.scale limit used)) := by
  obtain ⟨least, most, falls, -⟩ := valid.scale_bounds lower below
  have small := valid.small
  have least : -prev ≤ chopPrecisionAndRound (prev * k.scale limit used) := by
    rw [← chopPrecisionAndRound_mul (-prev)]
    exact chopPrecisionAndRound_mono (by nlinarith)
  have most : chopPrecisionAndRound (prev * k.scale limit used) < (2 ^ maxDecBitLen : Nat) := by
    by_cases above : k.signedTarget < used
    · have rounds := chopPrecisionAndRound_mono
        (mul_le_mul_of_nonneg_left most (Int.natCast_nonneg prev))
      have cast : ((prev * (10 ^ 18 + k.maxDynamicBaseFeeUpwardAdjustment) : Nat) : Int) =
          prev * (10 ^ 18 + k.maxDynamicBaseFeeUpwardAdjustment) := by norm_cast
      rw [← cast, chopPrecisionAndRound_natCast] at rounds
      have := fits (above.trans_le below)
      omega
    · have rounds := chopPrecisionAndRound_mono
        (mul_le_mul_of_nonneg_left (falls above) (Int.natCast_nonneg prev))
      rw [chopPrecisionAndRound_mul] at rounds
      omega
  exact assertInValidRange_eq_some (by omega)

theorem Valid.clamp_eq_prev {fee : Int} (le : fee ≤ prev) :
    k.clamp fee = prev ↔ prev = k.minimumFeePerGas ∨ fee = prev := by
  have minimum := valid.minimum
  have maximum := valid.maximum
  rw [clamp]
  omega

theorem Valid.clamp_bounds (fee : Int) : min fee prev ≤ k.clamp fee ∧ k.clamp fee ≤ max fee prev := by
  have minimum := valid.minimum
  have maximum := valid.maximum
  rw [clamp]
  omega

/-- The fee of a chain without a limit does not depend on the gas used. -/
theorem Valid.fee_unlimited (unlimited : limit = -1) (small : k.targetGasUsedPerBlock < 2 ^ 63)
    (used : Nat) :
    k.fee limit prev used = prev ↔ prev = k.minimumFeePerGas ∨
      2 * k.unlimitedFall prev < 10 ^ 18 ∨ 2 * k.unlimitedFall prev = 10 ^ 18 ∧ prev % 2 = 0 := by
  have target := valid.signedTarget_cases
  have capped : min (used : Int) limit = -1 := by omega
  have scaled : prev * k.scale limit (min used limit) =
      (prev * 10 ^ 18 - k.unlimitedFall prev : Int) := by
    have above : (k.signedTarget - -1).toNat = k.targetGasUsedPerBlock + 1 := by omega
    have signed : k.signedTarget.toNat = k.targetGasUsedPerBlock := by omega
    rw [capped, scale, if_neg (by omega), above, signed, unlimitedFall]
    push_cast
    ring
  have falls : chopPrecisionAndRound (prev * 10 ^ 18 - k.unlimitedFall prev) ≤ prev :=
    (chopPrecisionAndRound_mono (Int.sub_le_self _ (Int.natCast_nonneg _))).trans_eq
      (chopPrecisionAndRound_mul prev)
  rw [fee, scaled, valid.clamp_eq_prev falls, chopPrecisionAndRound_sub_eq]

theorem Valid.law_of_lawful (lawful : k.Lawful limit prev) : k.Law limit prev (k.fee limit prev) := by
  have minimum := valid.minimum
  have maximum := valid.maximum
  have limit_ge := valid.limit_ge
  have target := valid.signedTarget_cases
  have covered (used : Nat) : -1 ≤ min (used : Int) limit ∧ min (used : Int) limit ≤ limit := by omega
  constructor
  case returned =>
    intro used usedLt
    rw [valid.adjustDynamicBaseFeePerGas_eq usedLt,
      valid.mul_eq lawful.fits (covered used).1 (covered used).2]
    rfl
  case monotone =>
    intro used more le
    have rises := chopPrecisionAndRound_mono (mul_le_mul_of_nonneg_left
      (k.scale_mono limit (min_le_min_right limit (Int.ofNat_le.mpr le))) (Int.natCast_nonneg prev))
    exact min_le_min_right _ (max_le_max_right _ rises)
  case unchanged =>
    rintro small (unlimited | below)
    · exact (valid.fee_unlimited unlimited small _).mpr (lawful.kept unlimited small)
    · have signed : k.signedTarget = k.targetGasUsedPerBlock := by omega
      rw [fee, min_eq_left below, scale, signed, if_neg (lt_irrefl _), sub_self, Int.toNat_zero,
        factor_zero, Nat.cast_zero, sub_zero, chopPrecisionAndRound_mul,
        valid.clamp_eq_prev le_rfl]
      exact .inr rfl
  case minimum =>
    intro used
    rw [fee, clamp]
    omega
  case maximum =>
    intro used
    exact min_le_right _ _
  case rise =>
    intro used
    have most := (valid.scale_bounds (covered used).1 (covered used).2).2.1
    have near := (chopPrecisionAndRound_near (prev * k.scale limit (min used limit))).1
    have upper := mul_le_mul_of_nonneg_left most (Int.natCast_nonneg prev)
    have above : (prev * 10 ^ 18 : Int) ≤ prev * (10 ^ 18 + k.maxDynamicBaseFeeUpwardAdjustment) :=
      mul_le_mul_of_nonneg_left (by omega) (Int.natCast_nonneg prev)
    rcases le_max_iff.mp (valid.clamp_bounds _).2 with clamped | clamped
    · exact (Int.mul_le_mul_of_nonneg_right clamped (by norm_num)).trans (near.trans (by omega))
    · exact (Int.mul_le_mul_of_nonneg_right clamped (by norm_num)).trans (by omega)
  case fall =>
    intro used
    have under : (prev * (10 ^ 18 - k.maxDynamicBaseFeeDownwardAdjustment) : Int) ≤ prev * 10 ^ 18 :=
      mul_le_mul_of_nonneg_left (by omega) (Int.natCast_nonneg prev)
    by_cases unlimited : limit = -1 ∧ k.targetGasUsedPerBlock < 2 ^ 63
    · rw [(valid.fee_unlimited unlimited.1 unlimited.2 used).mpr
        (lawful.kept unlimited.1 unlimited.2)]
      omega
    · have small := valid.target_lt
      have least := (valid.scale_bounds (covered used).1 (covered used).2).2.2.2 (by omega)
      have near := (chopPrecisionAndRound_near (prev * k.scale limit (min used limit))).2
      have lower := mul_le_mul_of_nonneg_left least (Int.natCast_nonneg prev)
      rw [fee]
      rcases min_le_iff.mp (valid.clamp_bounds _).1 with clamped | clamped
      · refine (lower.trans near).trans ?_
        exact Int.add_le_add_right (Int.mul_le_mul_of_nonneg_right clamped (by norm_num)) _
      · have := Int.mul_le_mul_of_nonneg_right clamped (show (0 : Int) ≤ 10 ^ 18 by norm_num)
        exact under.trans (this.trans (by omega))

theorem Valid.lawful_of_law {fee : Nat → Int} (law : k.Law limit prev fee) : k.Lawful limit prev := by
  have limit_lt := valid.limit_lt
  have limit_ge := valid.limit_ge
  constructor
  case fits =>
    intro rises
    have capped : min (limit.toNat : Int) limit = limit := by omega
    have returned := law.returned limit.toNat (by omega)
    rw [valid.adjustDynamicBaseFeePerGas_eq (by omega), capped, scale_limit rises] at returned
    obtain ⟨product, isProduct, _⟩ := Option.map_eq_some_iff.mp returned
    have cast : (prev * (10 ^ 18 + k.maxDynamicBaseFeeUpwardAdjustment) : Int) =
        (prev * (10 ^ 18 + k.maxDynamicBaseFeeUpwardAdjustment) : Nat) := by norm_cast
    rw [Dec.mul, cast, chopPrecisionAndRound_natCast] at isProduct
    exact (Option.ite_none_right_eq_some.mp isProduct).1
  case kept =>
    intro unlimited small
    have target := valid.signedTarget_cases
    have returned := law.returned _ small
    rw [valid.adjustDynamicBaseFeePerGas_eq small, valid.mul_eq (fun rises => by omega) (by omega)
      (min_le_right _ _)] at returned
    have same : k.fee limit prev k.targetGasUsedPerBlock = fee k.targetGasUsedPerBlock :=
      Option.some.inj (Prod.mk.inj (Option.some.inj returned)).1
    rw [← valid.fee_unlimited unlimited small, same, law.unchanged small (.inl unlimited)]

omit valid in
/-- The law holds exactly if no fee overflows and a chain without a limit has no fall to make. -/
theorem baseFee_law (valid : k.Valid limit prev) :
    (∃ fee, k.Law limit prev fee) ↔ k.Lawful limit prev :=
  ⟨fun ⟨_, law⟩ => valid.lawful_of_law law, fun lawful => ⟨_, valid.law_of_lawful lawful⟩⟩

end

/-- A limit of a thousand with the target in the middle, and rates of an eighth. -/
def sampleKeeper : Keeper where
  blockMaxGas := some 1000
  nextBaseFeePerGas := some (10 ^ 18)
  targetGasUsedPerBlock := 500
  minimumFeePerGas := 0
  maximumFeePerGas := 10 ^ 19
  maxDynamicBaseFeeUpwardAdjustment := 125 * 10 ^ 15
  maxDynamicBaseFeeDownwardAdjustment := 125 * 10 ^ 15

theorem sampleKeeper_valid : sampleKeeper.Valid 1000 (10 ^ 18) where
  maxGas := rfl
  limit_ge := by decide
  limit_lt := by decide
  target_pos := by decide
  target_lt := by decide
  upward := by decide
  downward := by decide
  isPrev := by decide
  minimum := by decide
  maximum := by decide
  small := lt_maxDec (by decide)

theorem baseFee_law_sample : ∃ fee : Nat → Int, Monotone fee ∧ fee 500 = 10 ^ 18 := by
  have lawful : sampleKeeper.Lawful 1000 (10 ^ 18) := ⟨fun _ => lt_maxDec (by decide), nofun⟩
  obtain ⟨fee, law⟩ := (baseFee_law sampleKeeper_valid).mpr lawful
  exact ⟨fee, law.monotone, law.unchanged (by decide) (.inr (by decide))⟩

/-- With no limit a block that uses exactly the target takes the fee to zero, at a rate of one
half: the used gas is capped at `-1`. -/
theorem unlimited_falls :
    (({ sampleKeeper with
        blockMaxGas := some (-1)
        targetGasUsedPerBlock := 1
        maxDynamicBaseFeeDownwardAdjustment := 5 * 10 ^ 17 }).adjustDynamicBaseFeePerGas 1).map
      Prod.fst = some (some 0) := by
  decide +kernel

end Keeper

end SeiChain.Evm.BaseFee
