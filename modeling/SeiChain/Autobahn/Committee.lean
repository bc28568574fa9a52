/-
This file models the consensus committee: how `NewCommittee` accepts a table of
weights, which weights make a quorum, and how a leader is drawn. A committee
carries what `NewCommittee` checked, so that every later proof can use it. Two
results are for the rest of the development: two commit quorums share an honest
replica as soon as the Byzantine ones weigh at most `Faulty()`, and the draw of
a leader never runs off the end of the replicas.
-/

import Mathlib.Data.List.AList
import Mathlib.Data.List.Sort
import SeiChain.Autobahn.AbFile
import SeiChain.Library.LockedVoting

namespace SeiChain.Autobahn

open Library List

/-- An ed25519 public key, as the number its bytes spell; `Compare` is the order of these
numbers. -/
abbrev PublicKey := Nat

/-- The producer of a lane identifies it. -/
abbrev LaneID := PublicKey

def maxValidators : Nat := 100

/-- The table of weights that `NewCommittee` is given, in the order in which it is walked. -/
abbrev WeightMap := AList fun _ : PublicKey => Nat

/-- A committee with what `NewCommittee` established. -/
structure Committee where
  replicas : List PublicKey
  weight : PublicKey → Nat
  totalWeight : Nat
  sorted : replicas.Pairwise (· < ·)
  mem_replicas : ∀ key, key ∈ replicas ↔ 0 < weight key
  total : totalWeight = (replicas.map weight).sum
  positive : 0 < totalWeight
  bounded : totalWeight < 2 ^ 64
  few : replicas.length ≤ maxValidators

variable (committee : Committee)

namespace Committee

def hasReplica (key : PublicKey) : Bool := key ∈ committee.replicas

def hasLane (lane : LaneID) : Bool := lane ∈ committee.replicas

def lanes : List LaneID := committee.replicas

/-- The maximal total weight of faulty replicas that consensus tolerates. -/
def faulty : Nat := (committee.totalWeight - 1) / 3

def commitQuorum : Nat := committee.totalWeight - committee.faulty

def appQuorum : Nat := committee.commitQuorum

def prepareQuorum : Nat := committee.commitQuorum

def timeoutQuorum : Nat := committee.commitQuorum

def laneQuorum : Nat := committee.faulty + 1

theorem three_mul_faulty_lt : 3 * committee.faulty < committee.totalWeight := by
  have positive := committee.positive
  unfold faulty
  omega

theorem nodup : committee.replicas.Nodup := committee.sorted.imp fun below => ne_of_lt below

theorem total_eq_sum :
    committee.totalWeight = committee.replicas.toFinset.sum committee.weight := by
  rw [committee.total, sum_toFinset _ committee.nodup]

/-- The quorums of a committee whose Byzantine replicas weigh at most `Faulty()`. -/
def quorumSystem (byzantine : Finset PublicKey)
    (light : byzantine.sum committee.weight ≤ committee.faulty) : QuorumSystem PublicKey where
  quorum signers :=
    signers ⊆ committee.replicas.toFinset ∧ committee.commitQuorum ≤ signers.sum committee.weight
  honest key := key ∉ byzantine
  intersect first second firstQuorum secondQuorum := by
    have third := committee.three_mul_faulty_lt
    have firstHeavy := firstQuorum.2
    have secondHeavy := secondQuorum.2
    rw [commitQuorum] at firstHeavy secondHeavy
    rw [committee.total_eq_sum] at third firstHeavy secondHeavy
    exact exists_common_nonfaulty firstQuorum.1 secondQuorum.1 light third firstHeavy secondHeavy

end Committee

/-! ### NewCommittee -/

inductive CommitteeError where
  | totalWeightOverflow
  | totalWeightZero
  | tooManyValidators (got : Nat)
  deriving DecidableEq, Repr

/-- The loop that adds up the weights and stops before the sum leaves 64 bits. -/
def sumWeights : List Nat → Nat → Option Nat
  | [], total => some total
  | weight :: rest, total =>
    if 2 ^ 64 - 1 - total < weight then none else sumWeights rest (total + weight)

theorem sumWeights_eq {weights : List Nat} {total : Nat} (small : total < 2 ^ 64) :
    sumWeights weights total =
      if total + weights.sum < 2 ^ 64 then some (total + weights.sum) else none := by
  induction weights generalizing total with
  | nil => exact (if_pos small).symm
  | cons weight rest ih =>
    rw [sumWeights, sum_cons, ← add_assoc]
    split
    · rw [if_neg (by omega)]
    · exact ih (by omega)

namespace WeightMap

variable (weights : WeightMap)

/-- `weights[key]`, which is zero for a key that is not in the map. -/
def get (key : PublicKey) : Nat := (weights.lookup key).getD 0

def values : List Nat := weights.entries.map fun entry => entry.2

/-- The keys that are left once the zero weights are deleted. -/
def kept : List PublicKey := (weights.entries.filter fun entry => entry.2 != 0).keys

theorem mem_kept {key : PublicKey} : key ∈ weights.kept ↔ 0 < weights.get key := by
  simp only [kept, mem_keys, mem_filter, ← AList.mem_lookup_iff, bne_iff_ne]
  unfold get
  cases weights.lookup key <;> simp [Nat.pos_iff_ne_zero]

theorem sum_kept : (weights.kept.map weights.get).sum = weights.values.sum := by
  rw [← sum_filter_bne_zero weights.values, values, filter_map, kept, keys, map_map]
  refine congrArg sum (map_congr_left fun entry member => ?_)
  exact congrArg (·.getD 0) (AList.mem_lookup_iff.mpr (mem_filter.mp member).1)

end WeightMap

/-- `NewCommittee`. -/
def newCommittee (weights : WeightMap) : Except CommitteeError Committee :=
  match summed : sumWeights weights.values 0 with
  | none => .error .totalWeightOverflow
  | some totalWeight =>
    if zero : totalWeight = 0 then .error .totalWeightZero
    else if many : weights.kept.length > maxValidators then
      .error (.tooManyValidators weights.kept.length)
    else
      have sum : weights.values.sum < 2 ^ 64 ∧ weights.values.sum = totalWeight := by
        simpa [sumWeights_eq] using summed
      have sorts := perm_insertionSort (· ≤ ·) weights.kept
      .ok {
        replicas := weights.kept.insertionSort (· ≤ ·)
        weight := weights.get
        totalWeight := totalWeight
        sorted := by
          have distinct := sorts.nodup_iff.mpr (weights.nodupKeys.sublist filter_sublist)
          exact (sortedLE_insertionSort.sortedLT_of_nodup distinct).pairwise
        mem_replicas := fun key => by
          rw [sorts.mem_iff]
          exact weights.mem_kept
        total := by rw [← sum.2, (sorts.map weights.get).sum_eq, weights.sum_kept]
        positive := Nat.pos_of_ne_zero zero
        bounded := sum.2 ▸ sum.1
        few := by
          rw [sorts.length_eq]
          omega }

/-- A table of weights makes a committee exactly if the total is positive and below `2 ^ 64` and
not too many weights are positive, and the committee then has the weights of the table. -/
theorem newCommittee_accepts {weights : WeightMap} :
    ((∃ committee, newCommittee weights = .ok committee) ↔
      0 < weights.values.sum ∧ weights.values.sum < 2 ^ 64 ∧ weights.kept.length ≤ maxValidators) ∧
    ∀ committee, newCommittee weights = .ok committee → committee.weight = weights.get := by
  unfold newCommittee
  split
  · next overflow =>
    have large : ¬weights.values.sum < 2 ^ 64 := by simpa [sumWeights_eq] using overflow
    exact ⟨iff_of_false (by simp) fun accepted => large accepted.2.1, nofun⟩
  · next total summed =>
    obtain ⟨small, rfl⟩ : weights.values.sum < 2 ^ 64 ∧ _ = total := by
      simpa [sumWeights_eq] using summed
    split_ifs with zero many
    · simp [zero]
    · simp [many.not_ge]
    · refine ⟨iff_of_true ⟨_, rfl⟩ ⟨Nat.pos_of_ne_zero zero, small, not_lt.mp many⟩, ?_⟩
      rintro committee ⟨⟩
      rfl

/-! ### Leaders -/

/-- The replica in whose share of the total weight `point` falls. -/
def pickReplica (weight : PublicKey → Nat) : List PublicKey → Nat → Option PublicKey
  | [], _ => none
  | key :: rest, point =>
    if point < weight key then some key else pickReplica weight rest (point - weight key)

theorem pickReplica_isSome {weight : PublicKey → Nat} {replicas : List PublicKey} {point : Nat}
    (within : point < (replicas.map weight).sum) :
    ∃ key ∈ replicas, pickReplica weight replicas point = some key := by
  induction replicas generalizing point with
  | nil => simp at within
  | cons key rest ih =>
    rw [map_cons, sum_cons] at within
    by_cases here : point < weight key
    · exact ⟨key, .head _, by simp [pickReplica, here]⟩
    · obtain ⟨found, member, picked⟩ := @ih (point - weight key) (by omega)
      exact ⟨found, .tail _ member, by simp [pickReplica, here, picked]⟩

namespace Committee

/-- `randomReplica`, with the hash of the seed read as a number. -/
def randomReplica (sha256 : Bytes → Nat) (seed : Bytes) : Option PublicKey :=
  pickReplica committee.weight committee.replicas (sha256 seed % committee.totalWeight)

/-- The draw always ends at a replica: the point lies below the total weight. -/
theorem randomReplica_isSome (sha256 : Bytes → Nat) (seed : Bytes) :
    ∃ key ∈ committee.replicas, committee.randomReplica sha256 seed = some key := by
  refine pickReplica_isSome ?_
  rw [← committee.total]
  exact Nat.mod_lt _ committee.positive

end Committee

/-- Two replicas of the same weight, so that both have to sign. -/
def Data.pairCommittee : Committee where
  replicas := [1, 2]
  weight key := if key = 1 then 1 else if key = 2 then 1 else 0
  totalWeight := 2
  sorted := by simp
  mem_replicas key := by
    by_cases first : key = 1 <;> by_cases second : key = 2 <;> simp [first, second]
  total := rfl
  positive := by decide
  bounded := by decide
  few := by decide

/-- Replica `1` next to replica `2`, whose weight is a quorum. -/
def unevenCommittee : Committee where
  replicas := [1, 2]
  weight key := if key = 1 then 1 else if key = 2 then 3 else 0
  totalWeight := 4
  sorted := by simp
  mem_replicas key := by
    by_cases first : key = 1 <;> by_cases second : key = 2 <;> simp [first, second]
  total := rfl
  positive := by decide
  bounded := by decide
  few := by decide

/-- Four replicas of equal weight, of which one may be faulty. -/
def fourCommittee : Committee where
  replicas := [1, 2, 3, 4]
  weight key := if key ∈ [1, 2, 3, 4] then 1 else 0
  totalWeight := 4
  sorted := by decide
  mem_replicas key := by
    by_cases member : key ∈ [1, 2, 3, 4]
    all_goals
      simp only [member]
      decide
  total := by decide
  positive := by decide
  bounded := by decide
  few := by decide

end SeiChain.Autobahn
