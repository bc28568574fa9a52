/-
This file proves what one cache layer keeps to itself. Its deleted keys are the
ones written without a value, and every write is either still unsorted or in the
sorted cache with its value. So once the range is sorted, the iterator of the
layer gives exactly its writes in that range, and `Write` passes exactly its
writes on to the parent.
-/

import SeiChain.CacheKV.Store

namespace SeiChain.CacheKV

open Std List Std.ExtTreeMap

variable {K V : Type}

/-! ### Folds over maps -/

/-- What a fold of writes leaves at a key, where all writes to the key agree. -/
theorem foldl_writes {P O I : Type} (step : P → I → P) (observe : P → K → O) (keyOf : I → K)
    (written : K → O) (items : List I)
    (stepped : ∀ item ∈ items, ∀ state key, observe (step state item) key = written key ∧
      keyOf item = key ∨ observe (step state item) key = observe state key ∧ keyOf item ≠ key)
    (state : P) (key : K) :
    ((∃ item ∈ items, keyOf item = key) ∧ observe (items.foldl step state) key = written key) ∨
      ((∀ item ∈ items, keyOf item ≠ key) ∧
        observe (items.foldl step state) key = observe state key) := by
  induction items generalizing state with
  | nil => exact .inr ⟨by simp, rfl⟩
  | cons item rest ih =>
    have restStepped := ih
      (fun other member => stepped other (mem_cons_of_mem _ member)) (step state item)
    rcases restStepped with ⟨⟨other, member, same⟩, observed⟩ | ⟨absent, observed⟩
    · exact .inl ⟨⟨other, mem_cons_of_mem _ member, same⟩, observed⟩
    · rcases stepped item mem_cons_self state key with ⟨wrote, same⟩ | ⟨kept, other⟩
      · exact .inl ⟨⟨item, mem_cons_self, same⟩, observed.trans wrote⟩
      · refine .inr ⟨fun entry member => ?_, observed.trans kept⟩
        rcases mem_cons.mp member with rfl | inRest
        · exact other
        · exact absent entry inRest

variable [Ord K] [TransOrd K]

theorem rangeItems_sorted {A : Type} (map : ExtTreeMap K A) (start stop : Option K)
    (ascending : Bool) : SortedBy (iterCompare ascending) (rangeItems map start stop ascending) := by
  have ordered : SortedBy compare
      (map.toList.filter fun item => inDomain start stop item.1) :=
    List.Pairwise.filter _ ordered_keys_toList
  unfold rangeItems SortedBy
  cases ascending with
  | true => exact ordered
  | false =>
    rw [if_neg (by decide), pairwise_reverse]
    exact ordered

variable [LawfulEqOrd K]

theorem mem_rangeItems {A : Type} (map : ExtTreeMap K A) (start stop : Option K)
    (ascending : Bool) (key : K) (value : A) :
    (key, value) ∈ rangeItems map start stop ascending ↔
      inDomain start stop key = true ∧ map[key]? = some value := by
  have members : (key, value) ∈ rangeItems map start stop ascending ↔
      (key, value) ∈ map.toList.filter fun item => inDomain start stop item.1 := by
    unfold rangeItems
    cases ascending <;> simp
  rw [members, mem_filter, mem_toList_iff_getElem?_eq_some, and_comm]

omit [LawfulEqOrd K] in
/-- A range whose start is above its end has no keys. -/
theorem not_inDomain_of_gt {start stop : Option K}
    (empty : (start.any fun start => stop.any fun stop => compare start stop == .gt) = true)
    (key : K) : inDomain start stop key = false := by
  obtain ⟨first, rfl, last, rfl, above⟩ :
      ∃ first, start = some first ∧ ∃ last, stop = some last ∧ compare first last = .gt := by
    cases start with
    | none => cases empty
    | some first =>
      cases stop with
      | none => cases empty
      | some last => exact ⟨first, rfl, last, rfl, by simpa using empty⟩
  by_contra inside
  simp only [inDomain, Option.all_some, Bool.not_eq_false, Bool.and_eq_true, bne_iff_ne, ne_eq,
    beq_iff_eq] at inside
  have lastBelow : compare last first = .lt := OrientedCmp.gt_iff_lt.mp above
  exact inside.1 (TransCmp.lt_trans inside.2 lastBelow)

/-! ### Coherent layers -/

open Classical in
theorem getElem?_setCacheValue (layer : Layer K V) (key : K) (value : Option V)
    (deleted dirty : Bool) (other : K) :
    (layer.setCacheValue key value deleted dirty).cache[other]? =
      if key = other then some ⟨value, dirty⟩ else layer.cache[other]? := by
  unfold Layer.setCacheValue
  rw [ExtTreeMap.getElem?_insert]
  by_cases same : key = other
  · rw [if_pos (Std.compare_eq_iff_eq.mpr same), if_pos same]
  · rw [if_neg fun equal => same (Std.compare_eq_iff_eq.mp equal), if_neg same]

variable [Inhabited V]

structure Coherent (layer : Layer K V) : Prop where
  clean : layer.dirty = false → ∀ key : K, layer.cache[key]? = none
  allDirty : ∀ (key : K) cacheValue, layer.cache[key]? = some cacheValue → cacheValue.dirty = true
  deleted : ∀ key, key ∈ layer.deleted ↔ layer.cache[key]?.map CValue.value = some none
  unsorted : ∀ key, key ∈ layer.unsortedCache → layer.cache[key]?.isSome = true
  sorted : ∀ key, key ∉ layer.unsortedCache →
    layer.sortedCache[key]? = layer.cache[key]?.map fun cacheValue => cacheValue.value.getD default

namespace Coherent

variable {layer : Layer K V}

omit [LawfulEqOrd K] in
theorem cleared (layer : Layer K V) : Coherent layer.cleared where
  clean _ key := getElem?_empty
  allDirty key cacheValue found := by
    cases found
  deleted key := by simp [Layer.cleared]
  unsorted key member := by simp [Layer.cleared] at member
  sorted key _ := by simp [Layer.cleared]

omit [LawfulEqOrd K] in
theorem empty : Coherent ({} : Layer K V) := cleared {}

section

variable (coherent : Coherent layer) (start stop : Option K)

include coherent

omit [LawfulEqOrd K] in
theorem freeze (frozen : Bool) : Coherent { layer with frozen := frozen } := { coherent with }

theorem setCacheValue (key : K) (value : Option V) :
    Coherent (layer.setCacheValue key value value.isNone true) where
  clean notDirty := by cases notDirty
  allDirty other cacheValue found := by
    rw [getElem?_setCacheValue] at found
    split at found
    · cases found
      rfl
    · exact coherent.allDirty other cacheValue found
  deleted other := by
    rw [getElem?_setCacheValue]
    by_cases same : key = other
    · subst same
      cases value <;> simp [Layer.setCacheValue]
    · rw [if_neg same, ← coherent.deleted]
      cases value <;> simp [Layer.setCacheValue, same]
  unsorted other member := by
    rw [getElem?_setCacheValue]
    split
    · rfl
    · next different =>
      simp only [Layer.setCacheValue, if_true, ExtTreeSet.mem_insert, Std.compare_eq_iff_eq]
        at member
      exact coherent.unsorted other (member.resolve_left different)
  sorted other notMember := by
    simp only [Layer.setCacheValue, if_true, ExtTreeSet.mem_insert, Std.compare_eq_iff_eq, not_or]
      at notMember
    rw [getElem?_setCacheValue, if_neg notMember.1]
    exact coherent.sorted other notMember.2

theorem set (key : K) (value : V) : Coherent (layer.set key value) :=
  coherent.setCacheValue key (some value)

theorem delete (key : K) : Coherent (layer.delete key) := coherent.setCacheValue key none

omit [LawfulEqOrd K] in
theorem withMarks (frozen : Bool) (readParent : Option Nat) :
    Coherent { layer with frozen, readParent } :=
  { coherent with }

omit [Inhabited V] in
omit coherent in
theorem mem_unsortedItems (layer : Layer K V) (start stop : Option K) (key : K) (value : Option V) :
    (key, value) ∈ layer.unsortedItems start stop ↔ key ∈ layer.unsortedCache ∧
      inDomain start stop key = true ∧ layer.cache[key]?.map CValue.value = some value := by
  unfold Layer.unsortedItems
  simp only [mem_filterMap, mem_filter, ExtTreeSet.mem_toList, Option.map_eq_some_iff,
    Prod.mk.injEq]
  constructor
  · rintro ⟨other, ⟨member, inside⟩, cacheValue, found, rfl, rfl⟩
    exact ⟨member, inside, cacheValue, found, rfl⟩
  · rintro ⟨member, inside, cacheValue, found, rfl⟩
    exact ⟨key, ⟨member, inside⟩, cacheValue, found, rfl, rfl⟩

/-- The keys that are moved out of the unsorted cache are the unsorted ones of the range. -/
theorem mem_unsortedCache_clear (key : K) :
    key ∈ (layer.clearUnsortedCacheSubset (layer.unsortedItems start stop)).unsortedCache ↔
      key ∈ layer.unsortedCache ∧ inDomain start stop key = false := by
  have moved := foldl_writes (fun (keys : ExtTreeSet K) item => keys.erase item.1)
    (fun keys key => key ∈ keys) Prod.fst (fun _ => False) (layer.unsortedItems start stop)
    (fun item _ keys key => by
      by_cases same : item.1 = key
      · exact .inl ⟨by simp [same], same⟩
      · exact .inr ⟨by simp [same], same⟩) layer.unsortedCache key
  rcases moved with ⟨⟨item, member, rfl⟩, gone⟩ | ⟨absent, kept⟩
  · have inside := ((mem_unsortedItems layer start stop item.1 item.2).mp member).2.1
    exact ⟨fun still => (gone.mp still).elim, fun outside => by simp [inside] at outside⟩
  · refine Iff.trans (iff_of_eq kept) ⟨fun member => ⟨member, ?_⟩, And.left⟩
    by_contra inside
    obtain ⟨cacheValue, found⟩ := Option.isSome_iff_exists.mp (coherent.unsorted key member)
    exact absent (key, cacheValue.value) ((mem_unsortedItems layer start stop key _).mpr
      ⟨member, by simpa using inside, by rw [found]; rfl⟩) rfl

/-- Sorting a range puts the writes of the range in the sorted cache. -/
theorem getElem?_sortedCache_clear (key : K) :
    (layer.clearUnsortedCacheSubset (layer.unsortedItems start stop)).sortedCache[key]? =
      if inDomain start stop key = true ∧ key ∈ layer.unsortedCache then
        layer.cache[key]?.map fun cacheValue => cacheValue.value.getD default
      else layer.sortedCache[key]? := by
  have moved := foldl_writes
    (fun (map : ExtTreeMap K V) item => map.insert item.1 (item.2.getD default))
    (fun map key => map[key]?) Prod.fst
    (fun key => layer.cache[key]?.map fun cacheValue => cacheValue.value.getD default)
    (layer.unsortedItems start stop)
    (fun item member map key => by
      have value := ((mem_unsortedItems layer start stop item.1 item.2).mp member).2.2
      obtain ⟨cacheValue, found, isValue⟩ := Option.map_eq_some_iff.mp value
      by_cases same : item.1 = key
      · subst same
        exact .inl ⟨by simp [found, isValue], rfl⟩
      · exact .inr ⟨by simp [ExtTreeMap.getElem?_insert, same], same⟩) layer.sortedCache key
  rcases moved with ⟨⟨item, member, rfl⟩, wrote⟩ | ⟨absent, kept⟩
  · obtain ⟨unsorted, inside, -⟩ := (mem_unsortedItems layer start stop item.1 item.2).mp member
    rw [if_pos ⟨inside, unsorted⟩]
    exact wrote
  · rw [if_neg]
    · exact kept
    · rintro ⟨inside, unsorted⟩
      obtain ⟨cacheValue, found⟩ := Option.isSome_iff_exists.mp (coherent.unsorted key unsorted)
      exact absent (key, cacheValue.value) ((mem_unsortedItems layer start stop key _).mpr
        ⟨unsorted, inside, by rw [found]; rfl⟩) rfl

theorem clearUnsortedCacheSubset :
    Coherent (layer.clearUnsortedCacheSubset (layer.unsortedItems start stop)) where
  clean := coherent.clean
  allDirty := coherent.allDirty
  deleted := coherent.deleted
  unsorted key member :=
    coherent.unsorted key ((coherent.mem_unsortedCache_clear start stop key).mp member).1
  sorted key notMember := by
    rw [coherent.getElem?_sortedCache_clear]
    split
    · rfl
    · next stays =>
      refine coherent.sorted key fun unsorted => notMember ?_
      rw [coherent.mem_unsortedCache_clear]
      refine ⟨unsorted, ?_⟩
      by_contra inside
      exact stays ⟨by simpa using inside, unsorted⟩

theorem dirtyItems : Coherent (layer.dirtyItems start stop) := by
  unfold Layer.dirtyItems
  split
  · exact coherent
  · exact coherent.clearUnsortedCacheSubset start stop

/-- After `dirtyItems` nothing of the range is unsorted. -/
theorem sorted_dirtyItems (key : K) (inside : inDomain start stop key = true) :
    (layer.dirtyItems start stop).sortedCache[key]? =
      layer.cache[key]?.map fun cacheValue => cacheValue.value.getD default := by
  unfold Layer.dirtyItems
  split
  · next empty => exact absurd inside (by simpa using not_inDomain_of_gt empty key)
  · rw [coherent.getElem?_sortedCache_clear]
    split
    · rfl
    · next stays => exact coherent.sorted key fun unsorted => stays ⟨inside, unsorted⟩

/-- The iterator of the layer gives its writes in the range. -/
theorem mem_memItems (ascending : Bool) (key : K) (value : Option V) :
    (key, value) ∈ (layer.dirtyItems start stop).memItems start stop ascending ↔
      inDomain start stop key = true ∧ layer.cache[key]?.map CValue.value = some value := by
  have sorted := coherent.sorted_dirtyItems start stop key
  have sameDeleted : (layer.dirtyItems start stop).deleted = layer.deleted := by
    unfold Layer.dirtyItems
    split <;> rfl
  unfold Layer.memItems
  rw [mem_map, sameDeleted]
  constructor
  · rintro ⟨⟨other, stored⟩, member, equal⟩
    obtain ⟨rfl, rfl⟩ := Prod.mk.inj equal
    obtain ⟨inside, found⟩ := (mem_rangeItems _ _ _ _ _ _).mp member
    refine ⟨inside, ?_⟩
    rw [sorted inside] at found
    obtain ⟨cacheValue, isCached, -⟩ := Option.map_eq_some_iff.mp found
    split
    · next isDeleted => exact (coherent.deleted other).mp isDeleted
    · next notDeleted =>
      rw [coherent.deleted, isCached] at notDeleted
      cases isValue : cacheValue.value with
      | none => exact absurd (by simp [isValue]) notDeleted
      | some value => simp_all
  · rintro ⟨inside, written⟩
    obtain ⟨cacheValue, isCached, rfl⟩ := Option.map_eq_some_iff.mp written
    refine ⟨(key, cacheValue.value.getD default), ?_, ?_⟩
    · rw [mem_rangeItems, sorted inside, isCached]
      exact ⟨inside, rfl⟩
    · split
      · next isDeleted =>
        have noValue := (coherent.deleted key).mp isDeleted
        rw [written] at noValue
        rw [Option.some.inj noValue]
      · next notDeleted =>
        rw [coherent.deleted, written] at notDeleted
        cases isValue : cacheValue.value with
        | none => exact absurd (by rw [isValue]) notDeleted
        | some value => rfl

omit [LawfulEqOrd K] [Inhabited V] in
omit coherent in
theorem memItems_sorted (layer : Layer K V) (start stop : Option K) (ascending : Bool) :
    SortedBy (iterCompare ascending) (layer.memItems start stop ascending) :=
  pairwise_map.mpr (rangeItems_sorted layer.sortedCache start stop ascending)

/-! ### Passing writes on -/

theorem mem_dirtyKeys (key : K) : key ∈ layer.dirtyKeys ↔ layer.cache[key]?.isSome = true := by
  unfold Layer.dirtyKeys
  simp only [mem_map, mem_filter]
  constructor
  · rintro ⟨⟨other, cacheValue⟩, ⟨member, -⟩, rfl⟩
    rw [mem_toList_iff_getElem?_eq_some] at member
    simp [member]
  · intro cached
    obtain ⟨cacheValue, found⟩ := Option.isSome_iff_exists.mp cached
    exact ⟨(key, cacheValue), ⟨mem_toList_iff_getElem?_eq_some.mpr found,
      coherent.allDirty key cacheValue found⟩, rfl⟩

/-- `Write` leaves in the parent what was written to the layer, and the rest as it was. -/
theorem observe_writeTo {P O : Type} (set : P → K → V → P)
    (delete : P → K → P) (observe : P → K → O) (wrote : Option V → O)
    (afterSet : ∀ parent key value other, observe (set parent key value) other = wrote (some value) ∧
      key = other ∨ observe (set parent key value) other = observe parent other ∧ key ≠ other)
    (afterDelete : ∀ parent key other, observe (delete parent key) other = wrote none ∧
      key = other ∨ observe (delete parent key) other = observe parent other ∧ key ≠ other)
    (parent : P) (key : K) :
    observe (layer.writeTo set delete parent) key =
      (layer.cache[key]?.map fun cacheValue => wrote cacheValue.value).getD (observe parent key) := by
  have passed := foldl_writes (layer.writeKey set delete) observe id
    (fun key => (layer.cache[key]?.map fun cacheValue => wrote cacheValue.value).getD (wrote none))
    layer.dirtyKeys (fun written member parent other => by
      obtain ⟨cacheValue, found⟩ := Option.isSome_iff_exists.mp
        ((coherent.mem_dirtyKeys written).mp member)
      unfold Layer.writeKey
      split
      · next isDeleted =>
        have noValue := (coherent.deleted written).mp isDeleted
        rcases afterDelete parent written other with ⟨observed, rfl⟩ | kept
        · simp_all
        · exact .inr kept
      · next notDeleted =>
        rw [coherent.deleted, found] at notDeleted
        cases isValue : cacheValue.value with
        | none => exact absurd (by rw [Option.map_some, isValue]) notDeleted
        | some value =>
          simp only [found, Option.bind_some, isValue]
          rcases afterSet parent written value other with ⟨observed, rfl⟩ | kept
          · rw [observed, found]
            simp [isValue]
          · exact .inr kept) parent key
  unfold Layer.writeTo
  rcases passed with ⟨⟨written, member, rfl⟩, observed⟩ | ⟨absent, observed⟩
  · obtain ⟨cacheValue, found⟩ := Option.isSome_iff_exists.mp ((coherent.mem_dirtyKeys _).mp member)
    rw [observed]
    simp [found]
  · have notCached : layer.cache[key]? = none := by
      by_contra cached
      exact absent key ((coherent.mem_dirtyKeys key).mpr (Option.isSome_iff_ne_none.mpr cached)) rfl
    rw [observed, notCached]
    rfl

end

end Coherent

end SeiChain.CacheKV
