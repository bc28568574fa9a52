/-
This file models the iterator that merges a cache layer into its parent. An
iterator is the list of the items it has still to give. The cache gives, in the
order of the keys, the keys that were written, with no value where the key was
deleted; it shadows the parent. The merged iterator gives what the cache shows
over the parent, in order and once.
-/

import Mathlib.Data.List.Basic
import Mathlib.Data.Nat.Basic
import Std.Data.ExtTreeMap

namespace SeiChain.CacheKV

open Std List List.Pairwise

variable {K V : Type}

/-- The items are the entries of `view` in the range, in the order of `cmp` and once each. -/
structure Enumerates (cmp : K → K → Ordering) (view : K → Option V) (range : K → Prop)
    (items : List (K × V)) : Prop where
  sorted : items.Pairwise fun first second => cmp first.1 second.1 = .lt
  mem : ∀ key value, (key, value) ∈ items ↔ range key ∧ view key = some value

section Merge

variable (cmp : K → K → Ordering)

/-! ### The iterator -/

/-- Skip the deletes of the cache below `until`, or all that come next without a limit. -/
def skipCacheDeletes (limit : Option K) : List (K × Option V) → List (K × Option V)
  | [] => []
  | (key, some value) :: rest => (key, some value) :: rest
  | (key, none) :: rest =>
    if limit.all fun limit => cmp key limit = .lt then skipCacheDeletes limit rest
    else (key, none) :: rest

theorem skipCacheDeletes_sublist (limit : Option K) (cache : List (K × Option V)) :
    (skipCacheDeletes cmp limit cache).Sublist cache := by
  induction cache with
  | nil => exact .refl _
  | cons entry rest ih =>
    obtain ⟨-, _ | -⟩ := entry
    · rw [skipCacheDeletes]
      split
      · exact ih.cons _
      · exact .refl _
    · exact .refl _

/-- Go on until the next item exists or there is none. -/
def skipUntilExistsOrInvalid [OrientedCmp cmp] :
    List (K × V) → List (K × Option V) → List (K × V) × List (K × Option V)
  | [], cache => ([], skipCacheDeletes cmp none cache)
  | parent, [] => (parent, [])
  | (keyP, valueP) :: parent, (keyC, valueC) :: cache =>
    match _ : cmp keyP keyC with
    | .lt => ((keyP, valueP) :: parent, (keyC, valueC) :: cache)
    | .eq =>
      match valueC with
      | none => skipUntilExistsOrInvalid parent cache
      | some value => ((keyP, valueP) :: parent, (keyC, some value) :: cache)
    | .gt =>
      match valueC with
      | none => skipUntilExistsOrInvalid ((keyP, valueP) :: parent)
          (skipCacheDeletes cmp (some keyP) ((keyC, none) :: cache))
      | some value => ((keyP, valueP) :: parent, (keyC, some value) :: cache)
termination_by _ cache => cache.length
decreasing_by
  · simp
  · rename_i compared
    have below : cmp keyC keyP = .lt := OrientedCmp.gt_iff_lt.mp compared
    simp only [skipCacheDeletes, Option.all_some, below, decide_true, if_true, length_cons]
    exact Nat.lt_succ_of_le (skipCacheDeletes_sublist cmp _ _).length_le

/-- `Key` and `Value` of the next item, once the iterator stands on one. -/
def current : List (K × V) → List (K × Option V) → Option (K × V)
  | [], [] => none
  | [], (key, value) :: _ => value.map fun value => (key, value)
  | item :: _, [] => some item
  | (keyP, valueP) :: _, (keyC, valueC) :: _ =>
    match cmp keyP keyC with
    | .lt => some (keyP, valueP)
    | .eq => valueC.map fun value => (keyP, value)
    | .gt => valueC.map fun value => (keyC, value)

/-- `Next`, once the iterator stands on an item. -/
def advance : List (K × V) → List (K × Option V) → List (K × V) × List (K × Option V)
  | [], cache => ([], cache.tail)
  | parent, [] => (parent.tail, [])
  | (keyP, valueP) :: parent, (keyC, valueC) :: cache =>
    match cmp keyP keyC with
    | .lt => (parent, (keyC, valueC) :: cache)
    | .eq => (parent, cache)
    | .gt => ((keyP, valueP) :: parent, cache)

theorem length_advance_lt (parent : List (K × V)) (cache : List (K × Option V)) {item : K × V}
    (found : current cmp parent cache = some item) :
    (advance cmp parent cache).1.length + (advance cmp parent cache).2.length <
      parent.length + cache.length := by
  match parent, cache with
  | [], [] => cases found
  | [], entry :: rest | entry :: rest, [] => simp [advance]
  | (keyP, valueP) :: parent, (keyC, valueC) :: cache =>
    unfold advance
    dsimp only
    cases cmp keyP keyC <;> simp only [length_cons] <;> lia

theorem length_skipUntilExistsOrInvalid_le [OrientedCmp cmp] (parent : List (K × V))
    (cache : List (K × Option V)) :
    (skipUntilExistsOrInvalid cmp parent cache).1.length ≤ parent.length ∧
      (skipUntilExistsOrInvalid cmp parent cache).2.length ≤ cache.length := by
  fun_induction skipUntilExistsOrInvalid cmp parent cache with
  | case1 cache => exact ⟨le_rfl, (skipCacheDeletes_sublist cmp none cache).length_le⟩
  | case2 parent | case3 | case5 => exact ⟨le_rfl, le_rfl⟩
  | case4 keyP valueP parent keyC cache compared ih =>
    simp only [length_cons]
    lia
  | case6 keyP valueP parent keyC cache compared ih =>
    have skipped := skipCacheDeletes_sublist cmp (some keyP) ((keyC, none) :: cache)
    exact ⟨ih.1, Nat.le_trans ih.2 skipped.length_le⟩
  | case7 => exact ⟨le_rfl, le_rfl⟩

/-- The items of the iterator, taken with `Valid`, `Key`, `Value` and `Next` until it is done. -/
def drain [OrientedCmp cmp] (parent : List (K × V)) (cache : List (K × Option V)) : List (K × V) :=
  let position := skipUntilExistsOrInvalid cmp parent cache
  match _ : current cmp position.1 position.2 with
  | none => []
  | some item =>
    let next := advance cmp position.1 position.2
    item :: drain next.1 next.2
termination_by parent.length + cache.length
decreasing_by
  rename_i found
  have skipped := length_skipUntilExistsOrInvalid_le cmp parent cache
  have advanced := length_advance_lt cmp _ _ found
  lia

end Merge

/-! ### What the iterator gives -/

/-- The cache shows `value` at `key` over the parent. -/
def Shows (parent : List (K × V)) (cache : List (K × Option V)) (key : K) (value : V) : Prop :=
  (key, some value) ∈ cache ∨ (key, value) ∈ parent ∧ ∀ other, (key, other) ∉ cache

/-- The keys of a list increase. -/
def SortedBy {A : Type} (cmp : K → K → Ordering) (items : List (K × A)) : Prop :=
  items.Pairwise fun first second => cmp first.1 second.1 = .lt

section Correct

variable {cmp : K → K → Ordering} {A : Type} {first key' : K} {held held' : A} {rest : List (K × A)}

theorem SortedBy.above (sorted : SortedBy cmp ((first, held) :: rest))
    (member : (key', held') ∈ rest) : cmp first key' = .lt :=
  rel_of_pairwise_cons sorted member

variable {parent : List (K × V)} {cache : List (K × Option V)} {key : K} {value : V}
  {item : K × V}

/-- The next item of the parent is shown unless the cache has its key. -/
theorem shows_cons_parent : Shows (item :: parent) cache key value ↔
    ((key, value) = item ∧ ∀ other, (item.1, other) ∉ cache) ∨ Shows parent cache key value := by
  constructor
  · rintro (inCache | ⟨inParent, notInCache⟩)
    · exact .inr (.inl inCache)
    · rcases mem_cons.mp inParent with rfl | inRest
      · exact .inl ⟨rfl, notInCache⟩
      · exact .inr (.inr ⟨inRest, notInCache⟩)
  · rintro (⟨rfl, notInCache⟩ | inCache | ⟨inRest, notInCache⟩)
    · exact .inr ⟨.head _, notInCache⟩
    · exact .inl inCache
    · exact .inr ⟨.tail _ inRest, notInCache⟩

/-- The next item of the cache hides nothing if the parent does not have its key. -/
theorem shows_cons_cache {entry : K × Option V} (absent : ∀ other, (entry.1, other) ∉ parent) :
    Shows parent (entry :: cache) key value ↔
      (key, some value) = entry ∨ Shows parent cache key value := by
  constructor
  · rintro (inCache | ⟨inParent, notInCache⟩)
    · exact (mem_cons.mp inCache).imp_right .inl
    · exact .inr (.inr ⟨inParent, fun other member => notInCache other (.tail _ member)⟩)
  · rintro (rfl | inCache | ⟨inParent, notInCache⟩)
    · exact .inl mem_cons_self
    · exact .inl (mem_cons_of_mem _ inCache)
    · refine .inr ⟨inParent, fun other member => ?_⟩
      rcases mem_cons.mp member with rfl | inRest
      · exact absent value inParent
      · exact notInCache other inRest

/-- The skipped deletes are below every key of the parent, so they hide nothing. -/
theorem shows_skipCacheDeletes {limit : Option K}
    (below : ∀ key value deleted, (key, value) ∈ parent →
      (limit.all fun limit => cmp deleted limit = .lt) = true → deleted ≠ key)
    (cache : List (K × Option V)) (key : K) (value : V) :
    Shows parent (skipCacheDeletes cmp limit cache) key value ↔ Shows parent cache key value := by
  induction cache with
  | nil => rfl
  | cons entry rest ih =>
    obtain ⟨deleted, _ | -⟩ := entry
    · rw [skipCacheDeletes]
      split
      · next skipped =>
        rw [ih, shows_cons_cache fun other inParent =>
          below deleted other deleted inParent skipped rfl]
        simp
      · rfl
    · rfl

variable [TransCmp cmp] [LawfulEqCmp cmp]

omit [TransCmp cmp] in
theorem ne_of_lt {left right : K} (less : cmp left right = .lt) : left ≠ right := by
  rintro rfl
  have equal : cmp left left = .eq := ReflCmp.compare_self
  rw [less] at equal
  cases equal

omit [LawfulEqCmp cmp] in
theorem SortedBy.lt_of_mem (sorted : SortedBy cmp ((first, held) :: rest))
    (below : cmp key first = .lt) (member : (key', held') ∈ (first, held) :: rest) :
    cmp key key' = .lt := by
  rcases mem_cons.mp member with equal | inRest
  · cases equal
    exact below
  · exact TransCmp.lt_trans below (sorted.above inRest)

theorem SortedBy.notMem_of_lt (sorted : SortedBy cmp ((first, held) :: rest))
    (below : cmp key first = .lt) : ∀ other, (key, other) ∉ (first, held) :: rest :=
  fun _ member => ne_of_lt (sorted.lt_of_mem below member) rfl

omit [TransCmp cmp] in
/-- An entry of the cache replaces the item of the parent with its key. -/
theorem shows_cons_both {entry : Option V} {hidden : V}
    (parentSorted : SortedBy cmp ((key, hidden) :: parent)) :
    Shows ((key, hidden) :: parent) ((key, entry) :: cache) key' value ↔
      (key', some value) = (key, entry) ∨ Shows parent cache key' value := by
  rw [shows_cons_parent, shows_cons_cache fun _ member => ne_of_lt (parentSorted.above member) rfl]
  exact or_iff_right fun both => both.2 entry mem_cons_self

/-- Skipping keeps the order and what is shown. -/
theorem skipUntilExistsOrInvalid_spec (parent : List (K × V)) (cache : List (K × Option V))
    (parentSorted : SortedBy cmp parent) (cacheSorted : SortedBy cmp cache) :
    SortedBy cmp (skipUntilExistsOrInvalid cmp parent cache).1 ∧
      SortedBy cmp (skipUntilExistsOrInvalid cmp parent cache).2 ∧
      ∀ key value, Shows (skipUntilExistsOrInvalid cmp parent cache).1
        (skipUntilExistsOrInvalid cmp parent cache).2 key value ↔ Shows parent cache key value := by
  fun_induction skipUntilExistsOrInvalid cmp parent cache with
  | case1 cache =>
    refine ⟨parentSorted, cacheSorted.sublist (skipCacheDeletes_sublist cmp none cache), ?_⟩
    exact shows_skipCacheDeletes (nofun) cache
  | case2 parent | case3 | case5 => exact ⟨parentSorted, cacheSorted, fun _ _ => Iff.rfl⟩
  | case4 keyP valueP parent keyC cache compared ih =>
    obtain rfl := LawfulEqCmp.eq_of_compare compared
    obtain ⟨parentKept, cacheKept, shown⟩ := ih (of_cons parentSorted) (of_cons cacheSorted)
    refine ⟨parentKept, cacheKept, fun key value => (shown key value).trans ?_⟩
    rw [shows_cons_both parentSorted]
    simp
  | case6 keyP valueP parent keyC cache compared ih =>
    obtain ⟨parentKept, cacheKept, shown⟩ :=
      ih parentSorted (cacheSorted.sublist (skipCacheDeletes_sublist cmp _ _))
    refine ⟨parentKept, cacheKept, fun key value => (shown key value).trans ?_⟩
    refine shows_skipCacheDeletes (fun key value deleted inParent isBelow => ?_) _ key value
    rintro rfl
    exact parentSorted.notMem_of_lt (by simpa using isBelow) value inParent
  | case7 => exact ⟨parentSorted, cacheSorted, fun _ _ => Iff.rfl⟩

/-- The iterator stands on an item that exists, or on none. -/
def Settled (cmp : K → K → Ordering) : List (K × V) → List (K × Option V) → Prop
  | [], (_, none) :: _ => False
  | (keyP, _) :: _, (keyC, none) :: _ => cmp keyP keyC = .lt
  | _, _ => True

omit [TransCmp cmp] [LawfulEqCmp cmp] in
theorem settled_skipCacheDeletes (cache : List (K × Option V)) :
    Settled cmp ([] : List (K × V)) (skipCacheDeletes cmp none cache) := by
  induction cache with
  | nil => trivial
  | cons entry rest ih =>
    obtain ⟨-, _ | -⟩ := entry
    · simpa [skipCacheDeletes] using ih
    · trivial

omit [LawfulEqCmp cmp] in
theorem settled_skipUntilExistsOrInvalid (parent : List (K × V)) (cache : List (K × Option V)) :
    Settled cmp (skipUntilExistsOrInvalid cmp parent cache).1
      (skipUntilExistsOrInvalid cmp parent cache).2 := by
  fun_induction skipUntilExistsOrInvalid cmp parent cache with
  | case1 cache => exact settled_skipCacheDeletes cache
  | case2 parent => cases parent <;> trivial
  | case3 keyP valueP parent keyC valueC cache compared =>
    cases valueC with
    | none => exact compared
    | some => trivial
  | case4 _ _ _ _ _ _ ih | case6 _ _ _ _ _ _ ih => exact ih
  | case5 => trivial
  | case7 => trivial

/-- What one step gives: the lowest item that is shown, with the others left. -/
structure Gives (cmp : K → K → Ordering) (parent : List (K × V)) (cache : List (K × Option V))
    (item : K × V) (parentLeft : List (K × V)) (cacheLeft : List (K × Option V)) : Prop where
  parentSorted : SortedBy cmp parentLeft
  cacheSorted : SortedBy cmp cacheLeft
  shown : ∀ key value, Shows parent cache key value ↔
    (key, value) = item ∨ Shows parentLeft cacheLeft key value
  lowest : ∀ key value, Shows parentLeft cacheLeft key value → cmp item.1 key = .lt

omit [TransCmp cmp] [LawfulEqCmp cmp] in
theorem shows_none (settled : Settled cmp parent cache) (ended : current cmp parent cache = none) :
    parent = [] ∧ cache = [] := by
  match parent, cache with
  | [], [] => exact ⟨rfl, rfl⟩
  | [], (key, none) :: rest => exact settled.elim
  | [], (key, some value) :: rest => cases ended
  | item :: rest, [] => cases ended
  | (keyP, valueP) :: parent, (keyC, none) :: cache =>
    simp [current, show cmp keyP keyC = .lt from settled] at ended
  | (keyP, valueP) :: parent, (keyC, some value) :: cache =>
    unfold current at ended
    dsimp only at ended
    split at ended <;> cases ended

theorem gives_advance (parentSorted : SortedBy cmp parent) (cacheSorted : SortedBy cmp cache)
    (settled : Settled cmp parent cache) (found : current cmp parent cache = some item) :
    Gives cmp parent cache item (advance cmp parent cache).1 (advance cmp parent cache).2 := by
  match parent, cache with
  | [], [] => cases found
  | [], (key, none) :: rest => exact settled.elim
  | [], (key, some value) :: rest =>
    cases found
    refine ⟨parentSorted, of_cons cacheSorted, ?_, ?_⟩
    · simp [Shows, advance]
    · intro key value shown
      simp only [Shows, advance, tail_cons, not_mem_nil, false_and, or_false] at shown
      exact cacheSorted.above shown
  | (key, value) :: rest, [] =>
    cases found
    refine ⟨of_cons parentSorted, cacheSorted, ?_, ?_⟩
    · simp [Shows, advance]
    · intro key value shown
      simp only [Shows, advance, tail_cons, not_mem_nil, false_or] at shown
      exact parentSorted.above shown.1
  | (keyP, valueP) :: parent, (keyC, valueC) :: cache =>
    have parentRest := of_cons parentSorted
    have cacheRest := of_cons cacheSorted
    unfold current at found
    unfold advance
    dsimp only at found ⊢
    cases compared : cmp keyP keyC with
    | lt =>
      rw [compared] at found
      cases found
      refine ⟨parentRest, cacheSorted, fun key value => ?_, ?_⟩
      · rw [shows_cons_parent, and_iff_left (cacheSorted.notMem_of_lt compared)]
      · rintro key value (inCache | ⟨inRest, -⟩)
        · exact cacheSorted.lt_of_mem compared inCache
        · exact parentSorted.above inRest
    | eq =>
      obtain rfl := LawfulEqCmp.eq_of_compare compared
      rw [compared] at found
      obtain ⟨shownValue, rfl, rfl⟩ := Option.map_eq_some_iff.mp found
      refine ⟨parentRest, cacheRest, fun key value => ?_, ?_⟩
      · rw [shows_cons_both parentSorted]
        simp
      · rintro key value (inRest | ⟨inRest, -⟩)
        · exact cacheSorted.above inRest
        · exact parentSorted.above inRest
    | gt =>
      have below : cmp keyC keyP = .lt := OrientedCmp.gt_iff_lt.mp compared
      rw [compared] at found
      obtain ⟨shownValue, rfl, rfl⟩ := Option.map_eq_some_iff.mp found
      refine ⟨parentSorted, cacheRest, fun key value => ?_, ?_⟩
      · rw [shows_cons_cache (parentSorted.notMem_of_lt below)]
        simp
      · rintro key value (inRest | ⟨inParent, -⟩)
        · exact cacheSorted.above inRest
        · exact parentSorted.lt_of_mem below inParent

/-- The merged iterator gives what the cache shows over the parent, in order. -/
theorem drain_spec (parent : List (K × V)) (cache : List (K × Option V))
    (parentSorted : SortedBy cmp parent) (cacheSorted : SortedBy cmp cache) :
    SortedBy cmp (drain cmp parent cache) ∧
      ∀ key value, (key, value) ∈ drain cmp parent cache ↔ Shows parent cache key value := by
  fun_induction drain cmp parent cache with
  | case1 parent cache position ended =>
    obtain ⟨-, -, shown⟩ := skipUntilExistsOrInvalid_spec parent cache parentSorted cacheSorted
    obtain ⟨noParent, noCache⟩ := shows_none (settled_skipUntilExistsOrInvalid parent cache) ended
    refine ⟨nil, fun key value => ?_⟩
    rw [← shown, noParent, noCache]
    simp [Shows]
  | case2 parent cache position item found next ih =>
    obtain ⟨parentKept, cacheKept, shown⟩ :=
      skipUntilExistsOrInvalid_spec parent cache parentSorted cacheSorted
    have gives := gives_advance parentKept cacheKept
      (settled_skipUntilExistsOrInvalid parent cache) found
    obtain ⟨sorted, rest⟩ := ih gives.parentSorted gives.cacheSorted
    refine ⟨pairwise_cons.mpr ⟨fun other member => ?_, sorted⟩, fun key value => ?_⟩
    · exact gives.lowest other.1 other.2 ((rest other.1 other.2).mp member)
    · rw [← shown, gives.shown, mem_cons, rest]

end Correct

end SeiChain.CacheKV
