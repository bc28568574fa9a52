/-
This file models the iterator of a transaction's view of a store. It merges the keys
that earlier transactions wrote into the iterator of the parent, as the iterator of a
cache store does, and notes in the read set what it took from the parent. Every call
first goes on to the next item that exists; so the calls between two `Next` all see
the same item, and the items are those of the overlay in order.
-/

import SeiChain.CacheKV.Store

namespace SeiChain.MultiVersion

open Std CacheKV List

variable {K V R : Type}

/-! ### The loop that skips deleted items -/

section Skip

variable (cmp : K → K → Ordering)

/-- The loop of `skipUntilExistsOrInvalid`, if it ends within the given number of rounds. -/
def skipLoop : Nat → List (K × V) → List (K × Option V) →
    Option (List (K × V) × List (K × Option V))
  | 0, _, _ => none
  | _ + 1, [], cache => some ([], skipCacheDeletes cmp none cache)
  | _ + 1, parent, [] => some (parent, [])
  | rounds + 1, (keyP, valueP) :: parent, (keyC, none) :: cache =>
    match cmp keyP keyC with
    | .lt => some ((keyP, valueP) :: parent, (keyC, none) :: cache)
    | .eq => skipLoop rounds parent cache
    | .gt => skipLoop rounds ((keyP, valueP) :: parent)
        (skipCacheDeletes cmp (some keyP) ((keyC, none) :: cache))
  | _ + 1, parent, cache => some (parent, cache)

variable {cmp} [OrientedCmp cmp] {parent : List (K × V)} {cache : List (K × Option V)}

/-- Every round but the last takes an item of the cache, so the loop ends. -/
theorem skipLoop_eq {rounds : Nat} (enough : cache.length < rounds) :
    skipLoop cmp rounds parent cache = some (skipUntilExistsOrInvalid cmp parent cache) := by
  obtain ⟨rounds, rfl⟩ := Nat.exists_eq_add_one_of_ne_zero (Nat.ne_zero_of_lt enough)
  fun_induction skipUntilExistsOrInvalid cmp parent cache generalizing rounds with
  | case1 cache => rfl
  | case2 parent => cases parent <;> rfl
  | case3 keyP valueP parent keyC valueC cache compared =>
    cases valueC <;> simp [skipLoop, compared]
  | case4 keyP valueP parent keyC cache compared ih =>
    rw [length_cons, Nat.add_lt_add_iff_right] at enough
    obtain ⟨rounds, rfl⟩ := Nat.exists_eq_add_one_of_ne_zero (Nat.ne_zero_of_lt enough)
    rw [skipLoop, compared]
    exact ih rounds enough
  | case5 => rfl
  | case6 keyP valueP parent keyC cache compared ih =>
    rw [length_cons, Nat.add_lt_add_iff_right] at enough
    obtain ⟨rounds, rfl⟩ := Nat.exists_eq_add_one_of_ne_zero (Nat.ne_zero_of_lt enough)
    rw [skipLoop, compared]
    refine ih rounds (Nat.lt_of_le_of_lt ?_ enough)
    rw [skipCacheDeletes, if_pos (by simpa using OrientedCmp.gt_iff_lt.mp compared)]
    exact (skipCacheDeletes_sublist cmp _ _).length_le
  | case7 => rfl

theorem skipUntilExistsOrInvalid_of_settled (settled : Settled cmp parent cache) :
    skipUntilExistsOrInvalid cmp parent cache = (parent, cache) := by
  have sameOnce : skipLoop cmp (cache.length + 1) parent cache = some (parent, cache) := by
    match parent, cache with
    | [], [] | [], (_, some _) :: _ | _ :: _, [] | _ :: _, (_, some _) :: _ => rfl
    | [], (_, none) :: _ => exact settled.elim
    | (keyP, _) :: _, (keyC, none) :: _ =>
      simp [skipLoop, show cmp keyP keyC = .lt from settled]
  rw [skipLoop_eq (Nat.lt_succ_self _)] at sameOnce
  exact Option.some.inj sameOnce

end Skip

/-! ### The iterator -/

/-- What takes note of the values that are read from the parent. To note a value twice is to note
it once. -/
structure ReadsetHandler (K V R : Type) where
  updateReadSet : R → K → V → R
  idempotent : ∀ readset key value,
    updateReadSet (updateReadSet readset key value) key value = updateReadSet readset key value

/-- The handler of a transaction: the different values that were read for each key. -/
def versionIndexedHandler [DecidableEq K] [BEq V] [ReflBEq V] :
    ReadsetHandler K V (K → Option (List V)) where
  updateReadSet readset key value :=
    match readset key with
    | none => Function.update readset key (some [value])
    | some existing =>
      if existing.any (value == ·) then readset
      else Function.update readset key (some (existing ++ [value]))
  idempotent readset key value := by
    cases stored : readset key with
    | none => simp
    | some existing =>
      by_cases known : existing.any (value == ·)
      · simp [known, stored]
      · simp [known]

/-- `mvsMergeIterator`, with the items that its two iterators have still to give. -/
structure MvsMergeIterator (K V R : Type) where
  parent : List (K × V)
  cache : List (K × Option V)
  ascending : Bool
  readset : R

namespace MvsMergeIterator

variable [Ord K] [TransOrd K]
  (handler : ReadsetHandler K V R) (iter : MvsMergeIterator K V R)

def skip : MvsMergeIterator K V R :=
  let position := skipUntilExistsOrInvalid (iterCompare iter.ascending) iter.parent iter.cache
  { iter with parent := position.1, cache := position.2 }

def valid : Bool × MvsMergeIterator K V R :=
  (!(iter.skip.parent.isEmpty && iter.skip.cache.isEmpty), iter.skip)

/-- The panic is `none`. -/
def assertValid : Option (MvsMergeIterator K V R) :=
  if iter.valid.1 then some iter.valid.2 else none

/-- The body of `Key` for an iterator that stands on an item. -/
def currentKey : Option K :=
  match iter.parent, iter.cache with
  | [], [] => none
  | [], (keyC, _) :: _ => some keyC
  | (keyP, _) :: _, [] => some keyP
  | (keyP, _) :: _, (keyC, _) :: _ =>
    match iterCompare iter.ascending keyP keyC with
    | .lt | .eq => some keyP
    | .gt => some keyC

def key (iter : MvsMergeIterator K V R) : Option (K × MvsMergeIterator K V R) :=
  iter.skip.assertValid.bind fun iter => iter.currentKey.map fun key => (key, iter)

/-- The body of `Value` for an iterator that stands on an item, with the read set after it. -/
def currentValue : Option (Option V × R) :=
  match iter.parent, iter.cache with
  | [], [] => none
  | [], (_, valueC) :: _ => some (valueC, iter.readset)
  | (keyP, valueP) :: _, [] =>
    some (some valueP, handler.updateReadSet iter.readset keyP valueP)
  | (keyP, valueP) :: _, (keyC, valueC) :: _ =>
    match iterCompare iter.ascending keyP keyC with
    | .lt => some (some valueP, handler.updateReadSet iter.readset keyP valueP)
    | .eq | .gt => some (valueC, iter.readset)

def value : Option (Option V × MvsMergeIterator K V R) :=
  iter.skip.assertValid.bind fun iter => (iter.currentValue handler).map fun read =>
    (read.1, { iter with readset := read.2 })

def next : Option (MvsMergeIterator K V R) :=
  iter.skip.assertValid.map fun iter =>
    let position := advance (iterCompare iter.ascending) iter.parent iter.cache
    { iter with parent := position.1, cache := position.2 }

/-- The pairs that a loop over `Valid`, `Key`, `Value` and `Next` takes; `none` if a call panics
or the loop does not end within the given number of rounds. -/
def collect (handler : ReadsetHandler K V R) : Nat → MvsMergeIterator K V R →
    Option (List (K × Option V) × MvsMergeIterator K V R)
  | 0, _ => none
  | rounds + 1, iter => do
    if iter.valid.1 then
      let (key, iter) ← iter.valid.2.key
      let (value, iter) ← iter.value handler
      let iter ← iter.next
      let (pairs, iter) ← collect handler rounds iter
      pure ((key, value) :: pairs, iter)
    else pure ([], iter.valid.2)

/-! ### The calls between two `Next` -/

variable {handler : ReadsetHandler K V R} {iter : MvsMergeIterator K V R}

/-- The iterator is on an item that exists, or at its end. -/
def Stands (iter : MvsMergeIterator K V R) : Prop :=
  Settled (iterCompare iter.ascending) iter.parent iter.cache

theorem stands_skip : iter.skip.Stands := settled_skipUntilExistsOrInvalid _ _

section Stands

variable (stands : iter.Stands)

include stands

theorem Stands.skip : iter.skip = iter := by
  rw [MvsMergeIterator.skip, skipUntilExistsOrInvalid_of_settled stands]

theorem Stands.assertValid : iter.assertValid =
    if iter.parent = [] ∧ iter.cache = [] then none else some iter := by
  rw [MvsMergeIterator.assertValid, valid, stands.skip]
  obtain ⟨_ | _, _ | _, _⟩ := iter <;> rfl

theorem Stands.key : iter.key = iter.currentKey.map fun key => (key, iter) := by
  rw [MvsMergeIterator.key, stands.skip, stands.assertValid]
  split
  · next ended => rw [currentKey, ended.1, ended.2]; rfl
  · rfl

theorem Stands.value : iter.value handler =
    (iter.currentValue handler).map fun read => (read.1, { iter with readset := read.2 }) := by
  rw [MvsMergeIterator.value, stands.skip, stands.assertValid]
  split
  · next ended => rw [currentValue, ended.1, ended.2]; rfl
  · rfl

theorem Stands.next (notEnded : ¬ (iter.parent = [] ∧ iter.cache = [])) :
    iter.next = some { iter with
      parent := (advance (iterCompare iter.ascending) iter.parent iter.cache).1
      cache := (advance (iterCompare iter.ascending) iter.parent iter.cache).2 } := by
  rw [MvsMergeIterator.next, stands.skip, stands.assertValid, if_neg notEnded]
  rfl

end Stands

theorem skip_skip : iter.skip.skip = iter.skip := stands_skip.skip

theorem valid_valid : iter.valid.2.valid = iter.valid := by
  simp only [valid, skip_skip]

theorem key_skip : iter.skip.key = iter.key := by
  rw [key, key, skip_skip]

theorem value_skip : iter.skip.value handler = iter.value handler := by
  rw [value, value, skip_skip]

theorem key_key {key : K} {after : MvsMergeIterator K V R} (got : iter.key = some (key, after)) :
    after = iter.valid.2 ∧ after.key = some (key, after) := by
  rw [← key_skip, stands_skip.key] at got
  obtain ⟨_, isKey, ⟨⟩⟩ := Option.map_eq_some_iff.mp got
  exact ⟨rfl, by rw [stands_skip.key, isKey]; rfl⟩

omit [TransOrd K] in
/-- A value that is noted is noted for good. -/
theorem currentValue_currentValue {read : Option V × R}
    (got : iter.currentValue handler = some read) :
    { iter with readset := read.2 }.currentValue handler = some read := by
  obtain ⟨parent, cache, ascending, readset⟩ := iter
  match parent, cache with
  | [], [] => cases got
  | [], _ :: _ =>
    cases got
    rfl
  | (keyP, valueP) :: _, [] =>
    cases got
    exact congrArg (fun noted => some (some valueP, noted)) (handler.idempotent readset keyP valueP)
  | (keyP, valueP) :: _, (keyC, valueC) :: _ =>
    unfold currentValue at got ⊢
    dsimp only at got ⊢
    cases compared : iterCompare ascending keyP keyC with
    | lt =>
      rw [compared] at got
      cases got
      exact congrArg (fun noted => some (some valueP, noted))
        (handler.idempotent readset keyP valueP)
    | eq | gt =>
      rw [compared] at got
      cases got
      rfl

theorem value_value {value : Option V} {after : MvsMergeIterator K V R}
    (got : iter.value handler = some (value, after)) :
    after = { iter.valid.2 with readset := after.readset } ∧
      after.value handler = some (value, after) := by
  rw [← value_skip, stands_skip.value] at got
  obtain ⟨read, isRead, ⟨⟩⟩ := Option.map_eq_some_iff.mp got
  have stands : { iter.skip with readset := read.2 }.Stands := stands_skip
  exact ⟨rfl, by rw [stands.value, currentValue_currentValue isRead]; rfl⟩

/-! ### The pairs in order -/

omit [TransOrd K] in
theorem currentKey_of_current (iter : MvsMergeIterator K V R) (handler : ReadsetHandler K V R)
    {item : K × V}
    (found : current (iterCompare iter.ascending) iter.parent iter.cache = some item) :
    iter.currentKey = some item.1 ∧
      ∃ noted, iter.currentValue handler = some (some item.2, noted) := by
  obtain ⟨parent, cache, ascending, readset⟩ := iter
  match parent, cache with
  | [], [] => cases found
  | [], (_, none) :: _ => cases found
  | [], (_, some _) :: _ | _ :: _, [] =>
    cases found
    exact ⟨rfl, _, rfl⟩
  | (keyP, valueP) :: _, (keyC, valueC) :: _ =>
    unfold current at found
    unfold currentKey currentValue
    dsimp only at found ⊢
    cases compared : iterCompare ascending keyP keyC with
    | lt =>
      rw [compared] at found
      cases found
      exact ⟨rfl, _, rfl⟩
    | eq | gt =>
      rw [compared] at found
      obtain ⟨-, rfl, rfl⟩ := Option.map_eq_some_iff.mp found
      exact ⟨rfl, _, rfl⟩

/-- The loop takes the items of the merged iterator. -/
theorem collect_eq {rounds : Nat} (ascending : Bool) (parent : List (K × V))
    (cache : List (K × Option V)) (readset : R) (enough : parent.length + cache.length < rounds) :
    ∃ after, collect handler rounds ⟨parent, cache, ascending, readset⟩ =
      some ((drain (iterCompare ascending) parent cache).map fun item => (item.1, some item.2),
        after) := by
  obtain ⟨rounds, rfl⟩ := Nat.exists_eq_add_one_of_ne_zero (Nat.ne_zero_of_lt enough)
  fun_induction drain (iterCompare ascending) parent cache generalizing rounds readset with
  | case1 parent cache position ended =>
    obtain ⟨noParent, noCache⟩ := shows_none (settled_skipUntilExistsOrInvalid parent cache) ended
    exact ⟨⟨[], [], ascending, readset⟩, by simp [collect, valid, skip, noParent, noCache]⟩
  | case2 parent cache position item found left ih =>
    let iter : MvsMergeIterator K V R := ⟨parent, cache, ascending, readset⟩
    have skipped := length_skipUntilExistsOrInvalid_le (iterCompare ascending) parent cache
    have advanced := length_advance_lt (iterCompare ascending) position.1 position.2 found
    obtain ⟨rounds, rfl⟩ := Nat.exists_eq_add_one_of_ne_zero (show rounds ≠ 0 by lia)
    have notEnded : ¬ (iter.skip.parent = [] ∧ iter.skip.cache = []) := by
      rintro ⟨noParent, noCache⟩
      cases found.symm.trans (congrArg₂ (current _) noParent noCache)
    have isValid : iter.valid.1 = true := by
      simpa [valid, imp_iff_not_or] using notEnded
    obtain ⟨isKey, noted, isValue⟩ := iter.skip.currentKey_of_current handler found
    have stands : { iter.skip with readset := noted }.Stands := stands_skip
    obtain ⟨after, rest⟩ := ih noted rounds (by lia)
    refine ⟨after, ?_⟩
    rw [collect, if_pos isValid]
    change (iter.skip.key >>= _) = _
    rw [stands_skip.key, isKey]
    change (iter.skip.value handler >>= _) = _
    rw [stands_skip.value, isValue]
    change ({ iter.skip with readset := noted }.next >>= _) = _
    rw [stands.next notEnded]
    change (collect handler (rounds + 1) ⟨left.1, left.2, ascending, noted⟩ >>= _) = _
    rw [rest]
    rfl

variable [LawfulEqOrd K]

/-- The merged iterator is the overlay. Its pairs are the entries of the parent and the cache in
the order of the direction, each key once: what the cache has, unless it is deleted there, and
what the parent has where the cache has nothing. `Valid`, `Key` and `Value` may be called any
number of times, and the loop that skips deleted items ends. -/
theorem mergeIterator_overlays (handler : ReadsetHandler K V R) (iter : MvsMergeIterator K V R)
    (parentSorted : SortedBy (iterCompare iter.ascending) iter.parent)
    (cacheSorted : SortedBy (iterCompare iter.ascending) iter.cache) :
    (∃ pairs, (∀ rounds > iter.parent.length + iter.cache.length,
        ∃ after, iter.collect handler rounds = some (pairs, after)) ∧
      SortedBy (iterCompare iter.ascending) pairs ∧
      ∀ key value, (key, value) ∈ pairs ↔
        ∃ shown, value = some shown ∧ Shows iter.parent iter.cache key shown) ∧
    iter.valid.2.valid = iter.valid ∧
    (∀ key after, iter.key = some (key, after) →
      after = iter.valid.2 ∧ after.key = some (key, after)) ∧
    (∀ value after, iter.value handler = some (value, after) →
      after = { iter.valid.2 with readset := after.readset } ∧
        after.value handler = some (value, after)) ∧
    ∀ rounds > iter.cache.length,
      skipLoop (iterCompare iter.ascending) rounds iter.parent iter.cache =
        some (iter.valid.2.parent, iter.valid.2.cache) := by
  obtain ⟨sorted, shown⟩ := drain_spec iter.parent iter.cache parentSorted cacheSorted
  refine ⟨⟨(drain (iterCompare iter.ascending) iter.parent iter.cache).map fun item =>
    (item.1, some item.2), fun rounds enough => ?_, ?_, fun key value => ?_⟩, valid_valid,
    fun _ _ => key_key, fun _ _ => value_value, fun rounds enough => skipLoop_eq enough⟩
  · exact collect_eq iter.ascending iter.parent iter.cache iter.readset enough
  · exact pairwise_map.mpr sorted
  · simp only [mem_map, Prod.exists, Prod.mk.injEq, shown]
    constructor
    · rintro ⟨_, value, isShown, rfl, rfl⟩
      exact ⟨value, rfl, isShown⟩
    · rintro ⟨value, rfl, isShown⟩
      exact ⟨key, value, isShown, rfl, rfl⟩

end MvsMergeIterator

/-- A descending iterator over a replaced, a new and a deleted key. -/
def sampleIterator : MvsMergeIterator Nat Nat (Nat → Option (List Nat)) where
  parent := [(7, 70), (4, 40), (2, 20)]
  cache := [(7, some 77), (5, some 50), (2, none)]
  ascending := false
  readset _ := none

theorem mergeIterator_overlays_descending : ∃ pairs after,
    sampleIterator.collect versionIndexedHandler 7 = some (pairs, after) ∧
      (7, some 77) ∈ pairs ∧ (4, some 40) ∈ pairs ∧ ∀ value, (2, value) ∉ pairs := by
  obtain ⟨⟨pairs, collected, -, shown⟩, -⟩ :=
    MvsMergeIterator.mergeIterator_overlays versionIndexedHandler sampleIterator
      (by simp [SortedBy, sampleIterator, iterCompare]; decide)
      (by simp [SortedBy, sampleIterator, iterCompare]; decide)
  obtain ⟨after, isResult⟩ := collected 7 (by decide)
  refine ⟨pairs, after, isResult, (shown _ _).mpr ⟨77, rfl, .inl (by decide)⟩,
    (shown _ _).mpr ⟨40, rfl, .inr ⟨by decide, by simp [sampleIterator]⟩⟩, fun value member => ?_⟩
  obtain ⟨found, -, inCache | ⟨-, absent⟩⟩ := (shown _ _).mp member
  · simp [sampleIterator] at inCache
  · exact absent none (by simp [sampleIterator])

end SeiChain.MultiVersion
