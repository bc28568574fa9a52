/-
This file models the ballots of the price oracle and their weighted median: the
rate of the first vote, in the order of the rates, at which the running sum of
the powers reaches half of the total. The half is rounded down, so that a bare
majority of an odd total does not fix the median: the votes below its interval
may already reach the half.
-/

import Mathlib.Algebra.Order.BigOperators.Group.List
import Mathlib.Algebra.Order.Ring.Nat
import Mathlib.Data.List.Induction
import Mathlib.Data.List.Sort
import SeiChain.Cosmos.Decimal

namespace SeiChain.Oracle

open List Cosmos

variable {Voter Denom : Type} [DecidableEq Denom]

/-- A vote; its power, which is not negative, enters sums of 64 bits. -/
structure VoteForTally (Voter : Type) where
  exchangeRate : Dec
  voter : Voter
  power : Nat

structure AggregateExchangeRateVote (Voter Denom : Type) where
  voter : Voter
  exchangeRateTuples : List (Denom × Dec)

abbrev ExchangeRateBallot (Voter : Type) := List (VoteForTally Voter)

namespace ExchangeRateBallot

variable (ballot : ExchangeRateBallot Voter)

abbrev isSorted : Prop := ballot.IsChain (Order.Preimage VoteForTally.exchangeRate (· ≤ ·))

/-- The source's sort is not stable, but the order of equal rates has no effect on a median. -/
def sort : ExchangeRateBallot Voter :=
  ballot.insertionSort (Order.Preimage VoteForTally.exchangeRate (· ≤ ·))

/-- The ballot of cross rates. A vote without a reference rate, or whose division panics on
overflow, becomes an abstention. -/
def toCrossRate (bases : Voter → Option Dec) : ExchangeRateBallot Voter :=
  ballot.map fun vote =>
    ((bases vote.voter).bind fun base =>
      if 0 < vote.exchangeRate then base.quo vote.exchangeRate else none).elim
      { vote with exchangeRate := 0, power := 0 } fun rate => { vote with exchangeRate := rate }

def toCrossRateWithSort (bases : Voter → Option Dec) : ExchangeRateBallot Voter :=
  sort (toCrossRate ballot bases)

/-- An addition of 64 bits. -/
def addPower (sum : Int) (vote : VoteForTally Voter) : Int := (sum + vote.power).bmod (2 ^ 64)

def power : Int := ballot.foldl addPower 0

/-- The loop over the votes, with the running sum of the powers. -/
def pivotRate (half : Int) : Int → ExchangeRateBallot Voter → Dec
  | _, [] => 0
  | pivot, vote :: votes =>
    if half ≤ addPower pivot vote then vote.exchangeRate
    else pivotRate half (addPower pivot vote) votes

/-- The median; `none` is the panic on a ballot that is not sorted. -/
def weightedMedianWithAssertion : Option Dec :=
  if ballot.isSorted then some (pivotRate ((power ballot).tdiv 2) 0 ballot) else none

/-- The standard deviation, or zero if it overflows. The root of the variance is taken as a
floating-point number and kept to six places, which is `floatSqrt`. -/
def standardDeviation (floatSqrt : Dec → Dec) (median : Dec) : Dec :=
  if ballot = [] then 0
  else
    let sum := ballot.foldlM (fun sum vote => do
      let deviation ← vote.exchangeRate.sub median
      Dec.add sum (← deviation.mul deviation)) (0 : Dec)
    (sum.map fun sum => floatSqrt (sum.quoInt64 ballot.length)).getD 0

end ExchangeRateBallot

section

variable (validatorClaimMap : Voter → Option Nat)
  (votes : List (AggregateExchangeRateVote Voter Denom)) (denom : Denom)

/-- The votes for a denomination, in the order of the store, with the powers of the active
validators. A vote without a positive rate is an abstention. -/
def collectVotes : ExchangeRateBallot Voter :=
  votes.flatMap fun vote => (validatorClaimMap vote.voter).elim [] fun power =>
    (vote.exchangeRateTuples.filter fun tuple => tuple.1 = denom).map fun tuple =>
      ⟨tuple.2, vote.voter, if 0 < tuple.2 then power else 0⟩

variable {validatorClaimMap votes denom} in
theorem exists_of_mem_collectVotes {vote : VoteForTally Voter}
    (member : vote ∈ collectVotes validatorClaimMap votes denom) :
    ∃ aggregate ∈ votes, denom ∈ aggregate.exchangeRateTuples.map Prod.fst := by
  obtain ⟨aggregate, isAggregate, isVote⟩ := mem_flatMap.mp member
  cases isClaim : validatorClaimMap aggregate.voter with
  | none =>
    rw [isClaim] at isVote
    cases isVote
  | some power =>
    rw [isClaim] at isVote
    obtain ⟨tuple, isTuple, -⟩ := mem_map.mp isVote
    obtain ⟨isTuple, isDenom⟩ := mem_filter.mp isTuple
    exact ⟨aggregate, isAggregate, mem_map.mpr ⟨tuple, isTuple, of_decide_eq_true isDenom⟩⟩

/-- The ballot of a denomination. -/
def organizeBallotByDenom : ExchangeRateBallot Voter :=
  .sort (collectVotes validatorClaimMap votes denom)

end

/-! ### The median and the majority -/

open ExchangeRateBallot

variable {ballot : ExchangeRateBallot Voter}

theorem median_ne_none (sorted : ballot.isSorted) : weightedMedianWithAssertion ballot ≠ none := by
  rw [weightedMedianWithAssertion, if_pos sorted]
  nofun

theorem isSorted_sort : (sort ballot).isSorted := (pairwise_insertionSort _ _).isChain

/-- The total power, without a bound. -/
def totalPower (ballot : ExchangeRateBallot Voter) : Nat := (ballot.map VoteForTally.power).sum

/-- The power of the votes with rates in an interval. -/
def powerWithin (ballot : ExchangeRateBallot Voter) (low high : Dec) : Nat :=
  totalPower (ballot.filter fun vote => low ≤ vote.exchangeRate ∧ vote.exchangeRate ≤ high)

/-- The power of the votes with lower rates. -/
def powerBelow (ballot : ExchangeRateBallot Voter) (low : Dec) : Nat :=
  totalPower (ballot.filter fun vote => vote.exchangeRate < low)

theorem totalPower_append (first second : ExchangeRateBallot Voter) :
    totalPower (first ++ second) = totalPower first + totalPower second := by
  simp [totalPower]

theorem totalPower_le {votes : ExchangeRateBallot Voter} (sublist : votes <+ ballot) :
    totalPower votes ≤ totalPower ballot :=
  (sublist.map _).sum_le_sum fun _ _ => Nat.zero_le _

/-- Votes that a filter drops from the end of a ballot do not count. -/
theorem totalPower_filter_le {before after : ExchangeRateBallot Voter}
    {counts : VoteForTally Voter → Bool} (dropped : ∀ vote ∈ after, counts vote = false) :
    totalPower ((before ++ after).filter counts) ≤ totalPower before := by
  have nothing : after.filter counts = [] := filter_eq_nil_iff.mpr (by simpa using dropped)
  rw [filter_append, nothing, append_nil]
  exact totalPower_le filter_sublist

theorem power_eq (fits : totalPower ballot < 2 ^ 63) : power ballot = totalPower ballot := by
  induction ballot using List.reverseRecOn with
  | nil => rfl
  | append_singleton votes vote ih =>
    have last : totalPower [vote] = vote.power := sum_singleton
    rw [totalPower_append, last] at fits ⊢
    rw [power, foldl_concat, ← power, ih (by omega), addPower, Int.bmod_eq_of_le]
    all_goals omega

/-- The loop stops at the first vote at which the running sum reaches the half. -/
theorem pivotRate_spec {half pivot : Int} (nonempty : ballot ≠ [])
    (reaches : half ≤ ballot.foldl addPower pivot) :
    ∃ before vote after, ballot = before ++ [vote] ++ after ∧
      pivotRate half pivot ballot = vote.exchangeRate ∧
      (before ≠ [] → before.foldl addPower pivot < half) ∧
      half ≤ (before ++ [vote]).foldl addPower pivot := by
  induction ballot generalizing pivot with
  | nil => exact absurd rfl nonempty
  | cons vote votes ih =>
    rw [pivotRate]
    split
    · exact ⟨[], vote, votes, rfl, rfl, nofun, ‹_›⟩
    next waits =>
      have more : votes ≠ [] := by
        rintro rfl
        exact waits reaches
      obtain ⟨before, found, after, rfl, isRate, under, full⟩ := ih more reaches
      refine ⟨vote :: before, found, after, rfl, isRate, fun _ => ?_, full⟩
      cases before with
      | nil => exact not_le.mp waits
      | cons => exact under nofun

/-- The median of a sorted ballot is the rate of a vote at which the power reaches the half, and
before which it does not, unless the vote is the first one. -/
theorem weightedMedian_spec (sorted : ballot.isSorted) (fits : totalPower ballot < 2 ^ 63)
    (nonempty : ballot ≠ []) :
    ∃ before vote after, ballot = before ++ [vote] ++ after ∧
      weightedMedianWithAssertion ballot = some vote.exchangeRate ∧
      (∀ other ∈ before, other.exchangeRate ≤ vote.exchangeRate) ∧
      (∀ other ∈ [vote] ++ after, vote.exchangeRate ≤ other.exchangeRate) ∧
      (before = [] ∨ totalPower before < totalPower ballot / 2) ∧
      totalPower ballot / 2 ≤ totalPower (before ++ [vote]) := by
  have half : (power ballot).tdiv 2 = (totalPower ballot / 2 : Nat) := by
    rw [power_eq fits]
    rfl
  obtain ⟨before, vote, after, rfl, isRate, under, full⟩ :=
    @pivotRate_spec _ ballot ((power ballot).tdiv 2) 0 nonempty
      (by rw [half, ← power, power_eq fits]; omega)
  rw [half, ← power] at under full
  have total := totalPower_append (before ++ [vote]) after
  have reached := totalPower_append before [vote]
  rw [power_eq (by omega)] at under full
  have ordered := isChain_iff_pairwise.mp sorted
  rw [append_assoc, pairwise_append, singleton_append, pairwise_cons] at ordered
  obtain ⟨-, ⟨least, -⟩, across⟩ := ordered
  refine ⟨before, vote, after, rfl, (if_pos sorted).trans (congrArg some isRate),
    fun other member => across other member vote (by simp),
    forall_mem_cons.mpr ⟨le_rfl, least⟩, (eq_or_ne before []).imp id fun some => ?_, ?_⟩
  · exact_mod_cast under some
  · exact_mod_cast full

/-- The median of a sorted ballot whose total fits into 64 bits is in an interval whose votes hold
more than half of the total exactly if no vote is below the interval or these votes do not reach
the half, rounded down. -/
theorem weightedMedian_in_majority (ballot : ExchangeRateBallot Voter) (sorted : ballot.isSorted)
    (fits : totalPower ballot < 2 ^ 63) (low high : Dec)
    (majority : totalPower ballot < 2 * powerWithin ballot low high) :
    (∃ median ∈ weightedMedianWithAssertion ballot, low ≤ median ∧ median ≤ high) ↔
      (∀ vote ∈ ballot, low ≤ vote.exchangeRate) ∨
        powerBelow ballot low < totalPower ballot / 2 := by
  have nonempty : ballot ≠ [] := by
    rintro rfl
    cases majority
  obtain ⟨before, vote, after, rfl, isMedian, earlier, later, early, full⟩ :=
    weightedMedian_spec sorted fits nonempty
  have notAbove : vote.exchangeRate ≤ high := by
    -- Otherwise the majority has voted before, and its sum reaches the half there.
    by_contra above
    have within : powerWithin (before ++ [vote] ++ after) low high ≤ totalPower before := by
      rw [append_assoc]
      refine totalPower_filter_le fun other member => decide_eq_false fun isWithin => ?_
      exact above ((later other member).trans isWithin.2)
    rcases early with rfl | early
    · have nothing : totalPower ([] : ExchangeRateBallot Voter) = 0 := rfl
      omega
    · omega
  simp only [isMedian, Option.mem_some_iff, exists_eq_left', notAbove, and_true]
  constructor
  · intro inside
    have below : powerBelow (before ++ [vote] ++ after) low ≤ totalPower before := by
      rw [append_assoc]
      refine totalPower_filter_le fun other member => decide_eq_false (not_lt.mpr ?_)
      exact inside.trans (later other member)
    rcases early with rfl | early
    · exact .inl fun other member => inside.trans (later other member)
    · exact .inr (below.trans_lt early)
  · intro condition
    by_contra outside
    have lowest : ∀ other ∈ before ++ [vote], decide (other.exchangeRate < low) = true := by
      refine forall_mem_append.mpr ⟨fun other member => ?_, by simpa using outside⟩
      exact decide_eq_true ((earlier other member).trans_lt (not_le.mp outside))
    have below : totalPower (before ++ [vote]) ≤ powerBelow (before ++ [vote] ++ after) low := by
      rw [powerBelow, filter_append, filter_eq_self.mpr lowest]
      exact totalPower_le (sublist_append_left _ _)
    rcases condition with all | few
    · exact outside (all vote (by simp))
    · omega

/-- Two validators, one of power 2 who votes for the rate 10 and one who votes for 1. -/
def twoVotes (power : Nat) : ExchangeRateBallot Bool :=
  organizeBallotByDenom (fun voter => some (if voter then 2 else power))
    [⟨true, [((), 10)]⟩, ⟨false, [((), 1)]⟩] ()

theorem weightedMedian_in_majority_cross : ∃ median ∈ weightedMedianWithAssertion
      (toCrossRateWithSort (twoVotes 0) fun _ => some 30),
    3 * 10 ^ 18 ≤ median ∧ median ≤ 4 * 10 ^ 18 :=
  (weightedMedian_in_majority _ isSorted_sort (by decide +kernel) _ _ (by decide +kernel)).mpr
    (.inl (by decide +kernel))

theorem weightedMedian_below_majority : (twoVotes 1).isSorted ∧
    totalPower (twoVotes 1) < 2 * powerWithin (twoVotes 1) 10 10 ∧
    weightedMedianWithAssertion (twoVotes 1) = some 1 :=
  ⟨isSorted_sort, by decide +kernel, by decide +kernel⟩

end SeiChain.Oracle
