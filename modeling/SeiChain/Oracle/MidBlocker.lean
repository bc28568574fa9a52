/-
This file models the tally of the price oracle in the last block of a vote
period. Go ranges over a map in any order, so an execution is given by the orders
in which it ranges over its maps. The ballots and the counters of distinct keys
do not touch each other, the reference denomination is a maximum, and the other
loops are over sorted keys: all executions agree.
-/

import Mathlib.Data.Finset.Sort
import SeiChain.Oracle.WeightedMedian

namespace SeiChain.Oracle

open List Function ExchangeRateBallot Cosmos

/-- The orders in which one place of the code ranges over maps, by their keys. -/
structure Ranging (K : Type) where
  order : Finset K → List K
  covers : ∀ keys, (order keys : Multiset K) = keys.val

structure Claim where
  power : Nat
  weight : Int
  winCount : Nat
  didVote : Bool

structure VotePenaltyCounter where
  missCount : Nat
  abstainCount : Nat
  successCount : Nat

structure Validator (Voter : Type) where
  operator : Voter
  consensusPower : Nat
  isBonded : Bool

/-- What a block fixes. -/
structure Env (Voter Denom : Type) where
  validators : List (Validator Voter)
  maxValidators : Nat
  whitelist : List Denom
  rewardBand : Dec
  thresholdVotes : Int
  floatSqrt : Dec → Dec

structure Store (Voter Denom : Type) where
  votes : List (AggregateExchangeRateVote Voter Denom)
  voteTargets : Finset Denom
  exchangeRates : Denom → Option Dec
  counters : Voter → VotePenaltyCounter
  /-- The price events, in the order in which they are emitted. -/
  events : List (Denom × Dec)

abbrev ClaimMap (Voter : Type) := Voter → Option Claim

/-- An empty ballot stands for a key that the map does not have. -/
abbrev VoteMap (Voter Denom : Type) := Denom → ExchangeRateBallot Voter

/-- What `pickReferenceDenom` returns and leaves in its maps. -/
@[ext] structure Picked (Voter Denom : Type) where
  referenceDenom : Denom
  largestBallotPower : Int
  voteTargets : Finset Denom
  voteMap : VoteMap Voter Denom
  belowThresholdVoteMap : VoteMap Voter Denom

/-- The places that range over maps. -/
structure Ranges (Voter Denom : Type) where
  organizeBallotByDenom : Ranging Denom
  pickReferenceDenom : Ranging Denom
  ballots : Ranging Denom
  belowThreshold : Ranging Denom
  claims : Ranging Voter

variable {Voter Denom : Type} [DecidableEq Voter] [LinearOrder Denom]

def ballotIsPassing (thresholdVotes : Int) (ballot : ExchangeRateBallot Voter) : Bool :=
  power ballot ≠ 0 ∧ thresholdVotes ≤ power ballot

/-- One round of `pickReferenceDenom`. -/
def Picked.visit (thresholdVotes : Int) (picked : Picked Voter Denom) (denom : Denom) :
    Picked Voter Denom :=
  let ballot := picked.voteMap denom
  if denom ∉ picked.voteTargets then { picked with voteMap := update picked.voteMap denom [] }
  else if ballotIsPassing thresholdVotes ballot then
    if picked.largestBallotPower < power ballot ∨ picked.largestBallotPower = 0 then
      { picked with referenceDenom := denom, largestBallotPower := power ballot }
    else if picked.largestBallotPower = power ballot ∧ denom < picked.referenceDenom then
      { picked with referenceDenom := denom }
    else picked
  else
    { picked with
      belowThresholdVoteMap := update picked.belowThresholdVoteMap denom ballot
      voteTargets := picked.voteTargets.erase denom
      voteMap := update picked.voteMap denom [] }

def toMap (ballot : ExchangeRateBallot Voter) : Voter → Option Dec :=
  ballot.foldl (fun rates vote =>
    if 0 < vote.exchangeRate then update rates vote.voter (some vote.exchangeRate) else rates)
    fun _ => none

namespace ClaimMap

variable (claims : ClaimMap Voter)

/-- The claim of a voter, which is empty for a voter without one. -/
def get (voter : Voter) : Claim := (claims voter).getD ⟨0, 0, 0, false⟩

/-- The voter has voted, and maybe won. -/
def vote (wins : Bool) (vote : VoteForTally Voter) : ClaimMap Voter :=
  let claim := claims.get vote.voter
  let claim := if wins then
      { claim with weight := addPower claim.weight vote, winCount := claim.winCount + 1 }
    else claim
  update claims vote.voter (some { claim with didVote := true })

def updateDidVote (ballot : ExchangeRateBallot Voter) : ClaimMap Voter :=
  ballot.foldl (fun claims vote => claims.vote true vote) claims

/-- What the loop over the claims does for one of them. -/
def count (totalTargets : Nat) (voter : Voter) (counter : VotePenaltyCounter) :
    VotePenaltyCounter :=
  let claim := claims.get voter
  if claim.winCount = totalTargets then { counter with successCount := counter.successCount + 1 }
  else if claim.didVote = false then { counter with abstainCount := counter.abstainCount + 1 }
  else { counter with missCount := counter.missCount + 1 }

end ClaimMap

namespace Env

variable (env : Env Voter Denom)

def validatorClaimMap : ClaimMap Voter :=
  ((env.validators.filter Validator.isBonded).take env.maxValidators).foldl
    (fun claims validator =>
      update claims validator.operator (some ⟨validator.consensusPower, 0, 0, false⟩))
    fun _ => none

/-- The tally of a ballot; `none` is a panic, of the assertion or of an operation on decimals. -/
def tally (ballot : ExchangeRateBallot Voter) (claims : ClaimMap Voter) :
    Option (Dec × ClaimMap Voter) := do
  let weightedMedian ← weightedMedianWithAssertion ballot
  let standardDeviation := standardDeviation ballot env.floatSqrt weightedMedian
  let rewardSpread ← weightedMedian.mul (env.rewardBand.quoInt64 2)
  let rewardSpread := max rewardSpread standardDeviation
  let claims ← ballot.foldlM (fun claims vote => do
    let low ← weightedMedian.sub rewardSpread
    if low ≤ vote.exchangeRate then do
      let distance ← vote.exchangeRate.sub weightedMedian
      some (claims.vote (distance ≤ rewardSpread) vote)
    else some (claims.vote false vote)) claims
  some (weightedMedian, claims)

end Env

/-- The keys of a map, as a sorted list. -/
def sortedKeys (range : Ranging Denom) (keys : Finset Denom) : List Denom :=
  (range.order keys).insertionSort (· ≤ ·)

namespace Store

variable (env : Env Voter Denom) (ranges : Ranges Voter Denom) (store : Store Voter Denom)

/-- The keys of a map of ballots. -/
def denoms (ballots : VoteMap Voter Denom) : Finset Denom :=
  (store.votes.flatMap fun vote => vote.exchangeRateTuples.map Prod.fst).toFinset.filter
    fun denom => ballots denom ≠ []

/-- The ballots before they are sorted. -/
def collectVotes : VoteMap Voter Denom :=
  Oracle.collectVotes (fun voter => (env.validatorClaimMap voter).map Claim.power) store.votes

def organizeBallotByDenom : VoteMap Voter Denom :=
  let votes := store.collectVotes env
  (ranges.organizeBallotByDenom.order (store.denoms votes)).foldl
    (fun votes denom => update votes denom (sort (votes denom))) votes

/-- The loop over the claims. -/
def countMisses (claims : ClaimMap Voter) : Voter → VotePenaltyCounter :=
  let voters := (env.validators.map Validator.operator).toFinset
  (ranges.claims.order (voters.filter fun voter => (claims voter).isSome)).foldl
    (fun counters voter =>
      update counters voter (claims.count store.voteTargets.card voter (counters voter)))
    store.counters

def applyWhitelist (whitelist : List Denom) (voteTargets : Finset Denom) : Finset Denom :=
  if voteTargets.card ≠ whitelist.length ∨ ∃ item ∈ whitelist, item ∉ voteTargets then
    whitelist.toFinset
  else store.voteTargets

def setBaseExchangeRateWithEvent (denom : Denom) (exchangeRate : Dec) : Store Voter Denom :=
  { store with
    exchangeRates := update store.exchangeRates denom (some exchangeRate)
    events := store.events ++ [(denom, exchangeRate)] }

/-- The round of a ballot that passes. -/
def tallyBallot (picked : Picked Voter Denom) (exchangeRateRD : Dec)
    (state : ClaimMap Voter × Store Voter Denom) (denom : Denom) :
    Option (ClaimMap Voter × Store Voter Denom) := do
  let ballot := picked.voteMap denom
  let ballot := if denom ≠ picked.referenceDenom then
      toCrossRateWithSort ballot (toMap (picked.voteMap picked.referenceDenom))
    else ballot
  let (exchangeRate, claims) ← env.tally ballot state.1
  if exchangeRate = 0 then some (claims, state.2)
  else do
    let exchangeRate ← if denom ≠ picked.referenceDenom then exchangeRateRD.quo exchangeRate
      else some exchangeRate
    some (claims, state.2.setBaseExchangeRateWithEvent denom exchangeRate)

variable [OrderBot Denom]

/-- The least denomination is the empty string. -/
def pickReferenceDenom : Picked Voter Denom :=
  let voteMap := store.organizeBallotByDenom env ranges
  (ranges.pickReferenceDenom.order (store.denoms voteMap)).foldl (Picked.visit env.thresholdVotes)
    ⟨⊥, 0, store.voteTargets, voteMap, fun _ => []⟩

/-- The loop over the ballots that pass. -/
def tallyBallots (picked : Picked Voter Denom) : Option (ClaimMap Voter × Store Voter Denom) :=
  let keys := sortedKeys ranges.ballots (store.denoms picked.voteMap)
  if picked.referenceDenom = ⊥ then some (env.validatorClaimMap, store)
  else do
    let exchangeRateRD ←
      weightedMedianWithAssertion (picked.voteMap picked.referenceDenom)
    keys.foldlM (tallyBallot env picked exchangeRateRD) (env.validatorClaimMap, store)

def midBlocker : Option (Store Voter Denom) := do
  let picked := store.pickReferenceDenom env ranges
  let (claims, after) ← store.tallyBallots env ranges picked
  let belowThresholdKeys :=
    sortedKeys ranges.belowThreshold (store.denoms picked.belowThresholdVoteMap)
  let claims := belowThresholdKeys.foldl
    (fun claims denom => claims.updateDidVote (picked.belowThresholdVoteMap denom)) claims
  some { after with
    counters := store.countMisses env ranges claims
    votes := []
    voteTargets := store.applyWhitelist env.whitelist picked.voteTargets }

end Store

/-! ### The orders do not matter -/

namespace Ranging

variable {K V : Type} [DecidableEq K] (range : Ranging K) (keys : Finset K)

theorem toFinset_order : (range.order keys).toFinset = keys := by
  ext key
  rw [mem_toFinset, ← Multiset.mem_coe, range.covers, Finset.mem_val]

omit [DecidableEq K] in
theorem nodup_order : (range.order keys).Nodup :=
  Multiset.coe_nodup.mp (range.covers keys ▸ keys.nodup)

/-- A loop that changes in each round the value of its key. -/
theorem foldl_update (change : K → V → V) (map : K → V) :
    (range.order keys).foldl (fun map key => update map key (change key (map key))) map =
      fun key => if key ∈ keys then change key (map key) else map key := by
  have visited : ∀ order : List K, order.Nodup →
      order.foldl (fun map key => update map key (change key (map key))) map =
        fun key => if key ∈ order then change key (map key) else map key := by
    intro order distinct
    induction order using reverseRecOn with
    | nil => simp
    | append_singleton done key ih =>
      obtain ⟨distinct, -, fresh⟩ := nodup_append'.mp distinct
      rw [foldl_concat, ih distinct]
      grind
  simp only [visited _ (range.nodup_order keys), ← mem_toFinset, toFinset_order]

end Ranging

theorem insertionSort_eq_of_perm {K : Type} [LinearOrder K] {keys others : List K}
    (same : keys ~ others) : keys.insertionSort (· ≤ ·) = others.insertionSort (· ≤ ·) :=
  ((perm_insertionSort _ _).trans (same.trans (perm_insertionSort _ _).symm)).eq_of_pairwise
    (fun _ _ _ _ => le_antisymm) (pairwise_insertionSort _ _) (pairwise_insertionSort _ _)

theorem sortedKeys_order (first second : Ranging Denom) (keys : Finset Denom) :
    sortedKeys first keys = sortedKeys second keys :=
  insertionSort_eq_of_perm
    (Multiset.coe_eq_coe.mp ((first.covers keys).trans (second.covers keys).symm))

/-- A map may be ranged over in the order of its keys. -/
def Ranging.ascending {K : Type} [LinearOrder K] : Ranging K where
  order keys := keys.val.liftOn (insertionSort (· ≤ ·)) fun _ _ => insertionSort_eq_of_perm
  covers keys := Quotient.inductionOn keys.val fun order =>
    Multiset.coe_eq_coe.mpr (perm_insertionSort _ order)

namespace Picked

omit [DecidableEq Voter]

variable [OrderBot Denom] (threshold : Int) (start : Picked Voter Denom)

/-- The denomination is a target whose ballot passes. -/
abbrev Passes (denom : Denom) : Prop :=
  denom ∈ start.voteTargets ∧ ballotIsPassing threshold (start.voteMap denom)

/-- The passing denomination of the largest power, and of these the first one. -/
def IsReference (denoms : Finset Denom) (reference : Denom) : Prop :=
  reference ∈ denoms ∧ start.Passes threshold reference ∧
    ∀ denom ∈ denoms, start.Passes threshold denom →
      power (start.voteMap denom) < power (start.voteMap reference) ∨
        power (start.voteMap denom) = power (start.voteMap reference) ∧ reference ≤ denom

/-- What the rounds for the given denominations have left. -/
structure Visited (done : Finset Denom) (picked : Picked Voter Denom) : Prop where
  voteMap : ∀ denom, picked.voteMap denom =
    if denom ∈ done ∧ ¬start.Passes threshold denom then [] else start.voteMap denom
  below : ∀ denom, picked.belowThresholdVoteMap denom =
    if denom ∈ done ∧ denom ∈ start.voteTargets ∧ ¬ballotIsPassing threshold (start.voteMap denom)
    then start.voteMap denom else []
  voteTargets : ∀ denom, denom ∈ picked.voteTargets ↔
    denom ∈ start.voteTargets ∧ (denom ∈ done → start.Passes threshold denom)
  reference : picked.referenceDenom = ⊥ ∧ picked.largestBallotPower = 0 ∧
      (∀ denom ∈ done, ¬start.Passes threshold denom) ∨
    picked.largestBallotPower = power (start.voteMap picked.referenceDenom) ∧
      start.IsReference threshold done picked.referenceDenom

variable {threshold start} {done : Finset Denom} {picked other : Picked Voter Denom}

theorem Visited.visit (visited : Visited threshold start done picked) {denom : Denom}
    (fresh : denom ∉ done) :
    Visited threshold start (insert denom done) (picked.visit threshold denom) := by
  obtain ⟨isMap, isBelow, isTargets, isReference⟩ := visited
  have here : picked.voteMap denom = start.voteMap denom := by simp [isMap, fresh]
  have target : denom ∈ picked.voteTargets ↔ denom ∈ start.voteTargets := by simp [isTargets, fresh]
  unfold Picked.visit
  simp only [here, target]
  split
  · constructor <;> grind [IsReference]
  · split
    · split
      · constructor <;> grind [IsReference, ballotIsPassing]
      · split
        · constructor <;> grind [IsReference, ballotIsPassing]
        · constructor <;> grind [IsReference, ballotIsPassing]
    · refine ⟨by grind, fun other => ?_, by grind, by grind [IsReference]⟩
      dsimp only
      rcases eq_or_ne other denom with rfl | isOther
      · rw [update_self, if_pos (by grind)]
      · rw [update_of_ne isOther, isBelow]
        simp only [Finset.mem_insert, isOther, false_or]

theorem visited_foldl (voteTargets : Finset Denom) (voteMap : VoteMap Voter Denom)
    {order : List Denom} (distinct : order.Nodup) :
    let start : Picked Voter Denom := ⟨⊥, 0, voteTargets, voteMap, fun _ => []⟩
    Visited threshold start order.toFinset (order.foldl (visit threshold) start) := by
  induction order using reverseRecOn with
  | nil => exact ⟨by simp, by simp, by simp, .inl ⟨rfl, rfl, by simp⟩⟩
  | append_singleton done denom ih =>
    obtain ⟨distinct, -, fresh⟩ := nodup_append'.mp distinct
    intro start
    rw [foldl_concat, toFinset_append, Finset.union_comm]
    exact (ih distinct).visit (by simpa using fresh)

/-- The rounds leave the same in any order. -/
theorem Visited.unique (visited : Visited threshold start done picked)
    (visited' : Visited threshold start done other) : picked = other := by
  have reference : picked.referenceDenom = other.referenceDenom ∧
      picked.largestBallotPower = other.largestBallotPower := by
    have := visited.reference
    have := visited'.reference
    grind [IsReference]
  refine Picked.ext reference.1 reference.2 ?_ ?_ ?_
  · ext denom
    rw [visited.voteTargets, visited'.voteTargets]
  · funext denom
    rw [visited.voteMap, visited'.voteMap]
  · funext denom
    rw [visited.below, visited'.below]

end Picked

/-! ### The block -/

namespace Store

variable (env : Env Voter Denom) (ranges : Ranges Voter Denom) (store : Store Voter Denom)

/-- The ballots of the period, one by one. -/
def ballots : VoteMap Voter Denom :=
  Oracle.organizeBallotByDenom (fun voter => (env.validatorClaimMap voter).map Claim.power)
    store.votes

variable {env store}

theorem eq_nil_of_notMem {ballots : VoteMap Voter Denom} {denom : Denom}
    (isBallot : ballots denom ~ store.collectVotes env denom)
    (absent : denom ∉ store.denoms ballots) : ballots denom = [] := by
  by_contra present
  obtain ⟨vote, member⟩ := exists_mem_of_ne_nil _ present
  have listed := mem_flatMap.mpr (exists_of_mem_collectVotes (isBallot.mem_iff.mp member))
  exact absent (Finset.mem_filter.mpr ⟨mem_toFinset.mpr listed, present⟩)

theorem organizeBallotByDenom_eq : store.organizeBallotByDenom env ranges = store.ballots env := by
  have sorted := ranges.organizeBallotByDenom.foldl_update (store.denoms (store.collectVotes env))
    (fun _ => sort) (store.collectVotes env)
  refine sorted.trans (funext fun denom => ?_)
  split
  · rfl
  · next absent =>
    have empty := eq_nil_of_notMem (.refl _) absent
    rw [empty]
    exact (congrArg sort empty).symm

omit [LinearOrder Denom] in
theorem countMisses_order (first second : Ranges Voter Denom) (claims : ClaimMap Voter) :
    store.countMisses env first claims = store.countMisses env second claims :=
  let change := claims.count store.voteTargets.card
  (first.claims.foldl_update _ change _).trans (second.claims.foldl_update _ change _).symm

variable [OrderBot Denom] (env store)

theorem visited_picked : Picked.Visited env.thresholdVotes
    ⟨⊥, 0, store.voteTargets, store.ballots env, fun _ => []⟩ (store.denoms (store.ballots env))
    (store.pickReferenceDenom env ranges) := by
  have visited := @Picked.visited_foldl _ _ _ _ env.thresholdVotes store.voteTargets
    (store.ballots env) _
    (ranges.pickReferenceDenom.nodup_order (store.denoms (store.ballots env)))
  rw [Ranging.toFinset_order] at visited
  unfold pickReferenceDenom
  rwa [organizeBallotByDenom_eq]

/-- All executions that differ only in the orders in which they range over maps end in the same
way, and in none of them a ballot is not sorted. The reference is the passing denomination with
the largest power and, among equals, the first one. -/
theorem midBlocker_order (env : Env Voter Denom) (first second : Ranges Voter Denom)
    (store : Store Voter Denom) :
    let picked := store.pickReferenceDenom env first
    let passes denom := denom ∈ store.voteTargets ∧
      ballotIsPassing env.thresholdVotes (store.ballots env denom) = true
    store.midBlocker env first = store.midBlocker env second ∧
      (∀ denom bases, weightedMedianWithAssertion (picked.voteMap denom) ≠ none ∧
        weightedMedianWithAssertion (toCrossRateWithSort (picked.voteMap denom) bases) ≠ none) ∧
      ((∀ denom, ¬passes denom) ∧ picked.referenceDenom = ⊥ ∨
        passes picked.referenceDenom ∧ ∀ denom, passes denom →
          power (store.ballots env denom) < power (store.ballots env picked.referenceDenom) ∨
            power (store.ballots env denom) = power (store.ballots env picked.referenceDenom) ∧
              picked.referenceDenom ≤ denom) := by
  intro picked passes
  have visited := store.visited_picked env first
  have same : store.pickReferenceDenom env first = store.pickReferenceDenom env second :=
    visited.unique (store.visited_picked env second)
  have listed {denom : Denom} (passing : passes denom) : denom ∈ store.denoms (store.ballots env) := by
    by_contra absent
    have empty := eq_nil_of_notMem (perm_insertionSort _ _) absent
    simp [passes, empty, ballotIsPassing, power] at passing
  refine ⟨?_, fun denom bases => ⟨median_ne_none ?_, median_ne_none isSorted_sort⟩, ?_⟩
  · simp only [midBlocker, tallyBallots, same, sortedKeys_order first.ballots second.ballots,
      sortedKeys_order first.belowThreshold second.belowThreshold, countMisses_order first second]
  · rw [visited.voteMap]
    split
    · exact .nil
    · exact isSorted_sort
  · rcases visited.reference with ⟨isNone, -, none⟩ | ⟨-, -, isPassing, best⟩
    · exact .inl ⟨fun denom passing => none denom (listed passing) passing, isNone⟩
    · exact .inr ⟨isPassing, fun denom passing => best denom (listed passing) passing⟩

/-- Two validators vote on the denominations 1 and 2. -/
def sampleStore : Store Bool Nat where
  votes := [⟨true, [(1, 20), (2, 10)]⟩, ⟨false, [(1, 20), (2, 5)]⟩]
  voteTargets := {1, 2}
  exchangeRates _ := none
  counters _ := ⟨0, 0, 0⟩
  events := []

def sampleEnv : Env Bool Nat where
  validators := [⟨true, 3, true⟩, ⟨false, 1, true⟩]
  maxValidators := 2
  whitelist := [1, 2]
  rewardBand := 0
  thresholdVotes := 2
  floatSqrt _ := 0

def sampleRanges : Ranges Bool Nat := ⟨.ascending, .ascending, .ascending, .ascending, .ascending⟩

example : (sampleStore.midBlocker sampleEnv sampleRanges).map events =
    some [(1, 20), (2, 10)] := by decide +kernel

end Store

end SeiChain.Oracle
