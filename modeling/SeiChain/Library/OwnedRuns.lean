/-
This file is about lists that put the numbered items of several owners one after the
other: the owners in increasing order, and the items of an owner numbered without a
gap. From any position on, the items of one owner are a run of consecutive numbers,
and where it starts can be read off the single item at that position.
-/

import Mathlib.Data.List.Basic
import Mathlib.Order.Lattice

namespace SeiChain.Library

open List

variable {Owner : Type}

/-- Owner after owner, the items numbered from `first` to below `next`. -/
def ownedRuns (first next : Owner → Nat) (owners : List Owner) : List (Owner × Nat) :=
  owners.flatMap fun owner => (List.range' (first owner) (next owner - first owner)).map (owner, ·)

variable {first next : Owner → Nat} {owners : List Owner} {owner : Owner}

theorem ownedRuns_cons (first next : Owner → Nat) (head : Owner) (rest : List Owner) :
    ownedRuns first next (head :: rest) =
      (List.range' (first head) (next head - first head)).map (head, ·) ++
        ownedRuns first next rest :=
  flatMap_cons

variable {item : Owner × Nat}

theorem owner_of_mem_ownedRuns (member : item ∈ ownedRuns first next owners) : item.1 ∈ owners := by
  obtain ⟨owner, isOwner, inRun⟩ := mem_flatMap.mp member
  obtain ⟨-, _, rfl⟩ := mem_map.mp inRun
  exact isOwner

variable [LinearOrder Owner]

/-- The numbers of the items of one owner. -/
def numbersOf (owner : Owner) (items : List (Owner × Nat)) : List Nat :=
  items.filterMap fun item => if item.1 = owner then some item.2 else none

theorem numbersOf_append (owner : Owner) (items more : List (Owner × Nat)) :
    numbersOf owner (items ++ more) = numbersOf owner items ++ numbersOf owner more :=
  filterMap_append

theorem numbersOf_map_self (owner : Owner) (numbers : List Nat) :
    numbersOf owner (numbers.map (owner, ·)) = numbers := by
  simp [numbersOf]

theorem numbersOf_map_of_ne {owner other : Owner} (different : other ≠ owner)
    (numbers : List Nat) : numbersOf owner (numbers.map (other, ·)) = [] := by
  simp [numbersOf, different]

theorem numbersOf_ownedRuns_of_notMem (absent : owner ∉ owners) :
    numbersOf owner (ownedRuns first next owners) = [] := by
  induction owners with
  | nil => rfl
  | cons head rest ih =>
    rw [mem_cons, not_or] at absent
    rw [ownedRuns_cons, numbersOf_append, numbersOf_map_of_ne (Ne.symm absent.1),
      nil_append, ih absent.2]

/-- All items of an owner. An owner that has no place in the list has no items. -/
theorem numbersOf_ownedRuns (increasing : owners.Pairwise (· < ·))
    (absent : owner ∉ owners → first owner = next owner) :
    numbersOf owner (ownedRuns first next owners) =
      List.range' (first owner) (next owner - first owner) := by
  induction owners with
  | nil =>
    rw [absent not_mem_nil, Nat.sub_self]
    rfl
  | cons head rest ih =>
    obtain ⟨above, restIncreasing⟩ := pairwise_cons.mp increasing
    rw [ownedRuns_cons, numbersOf_append]
    by_cases isHead : head = owner
    · subst isHead
      have notInRest : head ∉ rest := fun member => lt_irrefl _ (above head member)
      rw [numbersOf_ownedRuns_of_notMem notInRest, append_nil, numbersOf_map_self]
    · rw [numbersOf_map_of_ne isHead]
      refine ih restIncreasing fun notInRest => absent ?_
      exact fun member => notInRest ((mem_cons.mp member).resolve_left (Ne.symm isHead))

/-- The first number of an owner from a position on, read off the item at the position. -/
def nextFrom (first next : Owner → Nat) (owner : Owner) (item : Owner × Nat) : Nat :=
  if owner < item.1 then next owner else if item.1 < owner then first owner else item.2

theorem nextFrom_of_lt (before : owner < item.1) : nextFrom first next owner item = next owner :=
  if_pos before

theorem nextFrom_of_gt (after : item.1 < owner) : nextFrom first next owner item = first owner := by
  rw [nextFrom, if_neg (lt_asymm after), if_pos after]

theorem nextFrom_self (number : Nat) : nextFrom first next owner (owner, number) = number := by
  rw [nextFrom, if_neg (lt_irrefl _), if_neg (lt_irrefl _)]

/-- From a position on, the items of an owner are those from `nextFrom` to its last. -/
theorem numbersOf_drop (increasing : owners.Pairwise (· < ·))
    (ordered : ∀ owner, first owner ≤ next owner)
    (absent : owner ∉ owners → first owner = next owner) {position : Nat}
    (found : (ownedRuns first next owners)[position]? = some item) :
    nextFrom first next owner item ≤ next owner ∧
    numbersOf owner ((ownedRuns first next owners).drop position) =
      List.range' (nextFrom first next owner item)
        (next owner - nextFrom first next owner item) := by
  induction owners generalizing position with
  | nil => exact nomatch found
  | cons head rest ih =>
    obtain ⟨above, restIncreasing⟩ := pairwise_cons.mp increasing
    have headNotInRest : head ∉ rest := fun member => lt_irrefl _ (above head member)
    have restAbsent (isOther : head ≠ owner) (notInRest : owner ∉ rest) :
        first owner = next owner :=
      absent fun member => notInRest ((mem_cons.mp member).resolve_left (Ne.symm isOther))
    rw [ownedRuns_cons] at found ⊢
    have length : ((List.range' (first head) (next head - first head)).map (head, ·)).length =
        next head - first head := by
      rw [length_map, length_range']
    by_cases inHead : position < next head - first head
    · -- The position is in the run of the first owner.
      rw [getElem?_append_left (by omega), getElem?_map,
        getElem?_range' inHead, Option.map_some, Option.some_inj] at found
      subst found
      rw [drop_append_of_le_length (by omega), numbersOf_append, ← map_drop, drop_range']
      by_cases isHead : head = owner
      · subst isHead
        rw [numbersOf_map_self, numbersOf_ownedRuns_of_notMem headNotInRest, append_nil]
        rw [nextFrom_self, Nat.one_mul, Nat.mul_one, Nat.sub_sub]
        exact ⟨by omega, rfl⟩
      · rw [numbersOf_map_of_ne isHead, numbersOf_ownedRuns restIncreasing (restAbsent isHead)]
        rcases lt_or_gt_of_ne isHead with below | beyond
        · rw [nextFrom_of_gt below]
          exact ⟨ordered owner, rfl⟩
        · have notInRest : owner ∉ rest := fun member => lt_asymm beyond (above owner member)
          rw [nextFrom_of_lt beyond, restAbsent isHead notInRest]
          exact ⟨Nat.le_refl _, rfl⟩
    · -- The position is in the runs of the others.
      rw [getElem?_append_right (by omega), length] at found
      rw [drop_append, drop_eq_nil_of_le (by omega), length]
      by_cases isHead : head = owner
      · subst isHead
        have later := above _ (owner_of_mem_ownedRuns (mem_of_getElem? found))
        have none : numbersOf head ((ownedRuns first next rest).drop
            (position - (next head - first head))) = [] := by
          refine sublist_nil.mp ?_
          rw [← numbersOf_ownedRuns_of_notMem headNotInRest]
          exact (drop_sublist _ _).filterMap _
        rw [nextFrom_of_lt later, Nat.sub_self]
        exact ⟨Nat.le_refl _, none⟩
      · exact ih restIncreasing (restAbsent isHead) found

/-- The items from a bound on, of items that are numbered from `start`. -/
theorem filterMap_zipIdx_from {Item Value : Type} (f : Item → Option Value) (items : List Item)
    (start bound : Nat) :
    (items.zipIdx start).filterMap (fun entry => if bound ≤ entry.2 then f entry.1 else none) =
      (items.drop (bound - start)).filterMap f := by
  induction items generalizing start with
  | nil => simp
  | cons item rest ih =>
    rw [zipIdx_cons, filterMap_cons, ih]
    by_cases reached : bound ≤ start
    · rw [Nat.sub_eq_zero_of_le reached, Nat.sub_eq_zero_of_le (Nat.le_succ_of_le reached)]
      simp only [reached, if_true, drop_zero, filterMap_cons]
    · have later : bound - start = bound - (start + 1) + 1 := by omega
      simp only [reached, if_false]
      rw [later, drop_succ_cons]

end SeiChain.Library
