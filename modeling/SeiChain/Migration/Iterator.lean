/-
This file models the iterator that walks the trees of the old database in the
order of stores and keys and hands out the next keys to migrate. It keeps a tree
index and the boundary; a call goes through the trees from the index on, in the
first of them from the successor of the boundary's key. The result is stated
without the loop: a batch consists of the first keys that are not migrated, and
every key up to the new boundary is migrated or in the batch.
-/

import Mathlib.Data.List.Sort
import SeiChain.Migration.Database

namespace SeiChain.Migration

open Std List MigrationBoundary

/-- The store that is reserved for the bookkeeping of migrations. -/
def migrationStore : StoreName := asBytes "migration"

structure ValueToMigrate where
  moduleName : StoreName
  key : Key
  value : Value
  deriving DecidableEq, Repr

/-- The trees that a migration walks: sorted, without the reserved one, and with names whose
length fits into the 32 bits that a stored boundary has for it. -/
structure TreeNames where
  names : List StoreName
  sorted : names.Pairwise fun first second => compare first second = .lt
  unreserved : migrationStore ∉ names
  short : ∀ name ∈ names, name.length < 2 ^ 32

/-- The names of the trees to walk: those of the database that are listed, or all of them if
none is listed, without the reserved one, in sorted order. -/
def treesToMigrate (trees storesToMigrate : List StoreName) : List StoreName :=
  (trees.filter fun name =>
    name ≠ migrationStore && (storesToMigrate.isEmpty || name ∈ storesToMigrate)).insertionSort
    fun first second => (compare first second).isLE

variable {name : StoreName}

theorem mem_treesToMigrate {trees storesToMigrate : List StoreName} :
    name ∈ treesToMigrate trees storesToMigrate ↔
      name ∈ trees ∧ name ≠ migrationStore ∧ (storesToMigrate = [] ∨ name ∈ storesToMigrate) := by
  simp [treesToMigrate]

/-- The names of the trees of a database, which are distinct. -/
def TreeNames.ofTrees (trees storesToMigrate : List StoreName) (distinct : trees.Nodup)
    (short : ∀ name ∈ trees, name.length < 2 ^ 32) : TreeNames where
  names := treesToMigrate trees storesToMigrate
  sorted := by
    have total : Std.Total fun first second : StoreName => (compare first second).isLE = true := by
      refine ⟨fun first second => ?_⟩
      have swapped : compare second first = (compare first second).swap := OrientedCmp.eq_swap
      rw [swapped]
      cases compare first second <;> simp
    have trans : IsTrans StoreName fun first second => (compare first second).isLE = true :=
      ⟨fun _ _ _ => TransCmp.isLE_trans⟩
    have inOrder : (treesToMigrate trees storesToMigrate).Pairwise
        fun first second => (compare first second).isLE = true :=
      pairwise_insertionSort _ _
    have noDuplicates : (treesToMigrate trees storesToMigrate).Nodup :=
      (perm_insertionSort _ _).nodup_iff.mpr (distinct.filter _)
    refine (inOrder.and noDuplicates).imp fun {first second} both => ?_
    cases order : compare first second with
    | lt => rfl
    | eq => exact absurd (LawfulEqCmp.compare_eq_iff_eq.mp order) both.2
    | gt => simp [order] at both
  unreserved := by simp [mem_treesToMigrate]
  short name isName := short name (mem_treesToMigrate.mp isName).1

structure MigrationIterator where
  treeNames : TreeNames
  treeIdx : Nat
  boundary : MigrationBoundary

inductive IteratorError where
  | batchSize (size : Int)
  deriving DecidableEq, Repr

/-- The index of the first tree that may hold keys that are not migrated. The names are sorted,
so the binary search of the source finds the first name that is not below the boundary's. -/
def computeStartTreeIndex (treeNames : List StoreName) : MigrationBoundary → Nat
  | .notStarted => 0
  | .inProgress moduleName _ => treeNames.findIdx fun name => (compare moduleName name).isLE
  | .complete => treeNames.length

/-- The key that the walk of a tree starts with; `none` is the first key of the tree. -/
def startKey (boundary : MigrationBoundary) (firstKey : Bool) (name : StoreName) : Option Key :=
  match boundary with
  | .inProgress moduleName key => if firstKey ∧ moduleName = name then some (key ++ [0]) else none
  | _ => none

/-- The entries of a tree from `start` on. -/
def treeIterator (tree : Tree) (start : Option Key) : List (Key × Value) :=
  match start with
  | none => tree.toList
  | some start => tree.toList.filter fun entry => (compare start entry.1).isLE

/-- The loop of `NextBatch` over the trees that are left. A tree that is not exhausted has filled
the batch, so the loop ends there. -/
def fillBatch (db : Database) (boundary : MigrationBoundary) (size : Nat) :
    List StoreName → Nat → Bool → List ValueToMigrate → List ValueToMigrate × Nat
  | [], treeIdx, _, batch => (batch, treeIdx)
  | name :: rest, treeIdx, firstKey, batch =>
    if batch.length < size then
      let entries := treeIterator (db name) (startKey boundary firstKey name)
      let taken := entries.take (size - batch.length)
      let batch' := batch ++ taken.map fun entry => ⟨name, entry.1, entry.2⟩
      if entries.length ≤ size - batch.length then
        fillBatch db boundary size rest (treeIdx + 1) false batch'
      else (batch', treeIdx)
    else (batch, treeIdx)

/-- `NewMemiavlMigrationIterator` for the trees of a database. -/
def newMemiavlMigrationIterator (treeNames : TreeNames) : MigrationIterator where
  treeNames := treeNames
  treeIdx := 0
  boundary := .notStarted

variable (iterator : MigrationIterator) (db : Database)

namespace MigrationIterator

def setBoundary (boundary : MigrationBoundary) : MigrationIterator :=
  { iterator with
    boundary := boundary
    treeIdx := computeStartTreeIndex iterator.treeNames.names boundary }

/-- The trees from the current one on. -/
abbrev treesLeft : List StoreName := iterator.treeNames.names.drop iterator.treeIdx

/-- `NextBatch`, with the iterator after the call. -/
def nextBatch (size : Int) : Except IteratorError (List ValueToMigrate × MigrationIterator) :=
  if size ≤ 0 then .error (.batchSize size)
  else if iterator.boundary = .complete then .ok ([], iterator)
  else
    let (batch, treeIdx) := fillBatch db iterator.boundary size.toNat
      iterator.treesLeft iterator.treeIdx true []
    match batch.getLast? with
    | none => .ok ([], { iterator with treeIdx := treeIdx, boundary := .complete })
    | some last =>
      if iterator.treeNames.names.length ≤ treeIdx then
        .ok (batch, { iterator with treeIdx := treeIdx, boundary := .complete })
      else .ok (batch, { iterator with
        treeIdx := treeIdx
        boundary := .inProgress last.moduleName last.key })

end MigrationIterator

/-! ### The keys that are left -/

/-- The entries of a tree, as values to migrate. -/
def treeValues (name : StoreName) : List ValueToMigrate :=
  (db name).toList.map fun entry => ⟨name, entry.1, entry.2⟩

/-- The entries of a tree that are not migrated yet. -/
def leftIn (boundary : MigrationBoundary) (name : StoreName) : List ValueToMigrate :=
  (treeValues db name).filter fun value => !boundary.isMigrated value.moduleName value.key

def ValueToMigrate.address (value : ValueToMigrate) : StoreName × Key :=
  (value.moduleName, value.key)

variable {db : Database} {value : ValueToMigrate}

theorem mem_treeValues :
    value ∈ treeValues db name ↔
      value.moduleName = name ∧ db.read name value.key = some value.value := by
  simp only [treeValues, mem_map, Prod.exists, ExtTreeMap.mem_toList_iff_getElem?_eq_some]
  constructor
  · rintro ⟨key, found, isFound, rfl⟩
    exact ⟨rfl, isFound⟩
  · rintro ⟨rfl, isFound⟩
    exact ⟨value.key, value.value, isFound, rfl⟩

/-- The walk of a tree hands out what is left in it, if it starts at the boundary or the whole
tree is after the boundary. -/
theorem treeIterator_eq_leftIn {boundary : MigrationBoundary} {firstKey : Bool}
    (unfinished : boundary ≠ .complete)
    (ahead : ∀ moduleName key, boundary = .inProgress moduleName key →
      compare moduleName name = .lt ∨ moduleName = name ∧ firstKey = true) :
    (treeIterator (db name) (startKey boundary firstKey name)).map
      (fun entry => (⟨name, entry.1, entry.2⟩ : ValueToMigrate)) = leftIn db boundary name := by
  cases boundary with
  | complete => exact absurd rfl unfinished
  | notStarted => simp [startKey, treeIterator, leftIn, treeValues, isMigrated]
  | inProgress moduleName key =>
    rcases ahead moduleName key rfl with before | ⟨rfl, rfl⟩
    · have different : moduleName ≠ name := by
        rintro rfl
        simp at before
      have after : (compare name moduleName).isLE = false := by
        rw [← Bool.not_eq_true, Ordering.isLE_iff_ne_gt, OrientedCmp.gt_iff_lt]
        simp [before]
      simp [startKey, treeIterator, leftIn, treeValues, filter_map, Function.comp_def,
        isMigrated, different, after]
    · simp only [startKey, and_self, if_true, treeIterator, leftIn, treeValues, filter_map]
      congr 1
      refine filter_congr fun entry _ => ?_
      simp only [Function.comp_apply, isMigrated, if_true]
      rw [Bool.eq_iff_iff, compare_append_zero, ← OrientedCmp.gt_iff_lt]
      cases compare entry.1 key <;> simp

/-- What the loop over the trees does: it takes what is left in them until the batch is full. -/
structure Filled (left : StoreName → List ValueToMigrate) (size : Nat) (names : List StoreName)
    (treeIdx : Nat) (batch : List ValueToMigrate) (result : List ValueToMigrate × Nat) :
    Prop where
  taken : result.1 = batch ++ (names.flatMap left).take (size - batch.length)
  /-- The number of trees that are exhausted. -/
  exhausted : ∃ count ≤ names.length, result.2 = treeIdx + count ∧
    (∀ name ∈ names.take count, ∀ value ∈ left name, value ∈ result.1) ∧
    (∀ value ∈ result.1, value ∈ batch ∨ ∃ name ∈ names.take (count + 1), value ∈ left name)

variable {size : Nat}

theorem fillBatch_filled {boundary : MigrationBoundary}
    {left : StoreName → List ValueToMigrate} (names : List StoreName) (treeIdx : Nat)
    (firstKey : Bool) (batch : List ValueToMigrate)
    (head : ∀ name ∈ names.head?, (treeIterator (db name) (startKey boundary firstKey name)).map
      (fun entry => (⟨name, entry.1, entry.2⟩ : ValueToMigrate)) = left name)
    (tail : ∀ name ∈ names.tail, (treeIterator (db name) (startKey boundary false name)).map
      (fun entry => (⟨name, entry.1, entry.2⟩ : ValueToMigrate)) = left name) :
    Filled left size names treeIdx batch (fillBatch db boundary size names treeIdx firstKey batch) := by
  induction names generalizing treeIdx firstKey batch with
  | nil => exact ⟨by simp [fillBatch], 0, le_rfl, rfl, nofun, fun value member => .inl member⟩
  | cons name rest ih =>
    have here := head name rfl
    have length : (treeIterator (db name) (startKey boundary firstKey name)).length =
        (left name).length := by
      rw [← here, length_map]
    unfold fillBatch
    split
    · simp only [map_take, here, length]
      split
      · rename_i exhausted
        rw [take_of_length_le exhausted]
        have rest' := ih (treeIdx + 1) false (batch ++ left name)
          (fun other isHead => tail other (mem_of_mem_head? isHead))
          (fun other isTail => tail other (mem_of_mem_tail isTail))
        obtain ⟨isBatch, count, bound, isIdx, covered, from'⟩ := rest'
        refine ⟨?_, count + 1, by simpa using bound, by lia, ?_, ?_⟩
        · rw [isBatch, flatMap_cons, take_append, take_of_length_le exhausted,
            append_assoc, length_append, Nat.sub_add_eq]
        · intro other member value isLeft
          rw [take_succ_cons, mem_cons] at member
          rcases member with rfl | later
          · rw [isBatch]
            exact mem_append_left _ (mem_append_right _ isLeft)
          · exact covered other later value isLeft
        · intro value member
          rcases from' value member with early | ⟨other, later, isLeft⟩
          · rcases mem_append.mp early with old | new
            · exact .inl old
            · exact .inr ⟨name, by simp, new⟩
          · exact .inr ⟨other, .tail _ later, isLeft⟩
      · refine ⟨?_, 0, Nat.zero_le _, rfl, nofun, ?_⟩
        · rw [flatMap_cons, take_append_of_le_length (by lia)]
        · intro value member
          rcases mem_append.mp member with old | new
          · exact .inl old
          · exact .inr ⟨name, by simp, mem_of_mem_take new⟩
    · refine ⟨?_, 0, Nat.zero_le _, rfl, nofun, fun value member => .inl member⟩
      rw [Nat.sub_eq_zero_of_le (by lia)]
      simp

/-! ### The order of the walk -/

theorem treeValues_sorted (db : Database) (name : StoreName) :
    (treeValues db name).Pairwise fun first second =>
      compareAddress first.address second.address = .lt := by
  rw [treeValues, pairwise_map]
  refine ExtTreeMap.ordered_keys_toList.imp fun {first second} before => ?_
  simpa [compareAddress, compareLex, compareOn, ValueToMigrate.address] using before

/-- The keys that are left come in the order across stores. -/
theorem left_sorted (db : Database) (boundary : MigrationBoundary) {names : List StoreName}
    (sorted : names.Pairwise fun first second => compare first second = .lt) :
    (names.flatMap (leftIn db boundary)).Pairwise fun first second =>
      compareAddress first.address second.address = .lt := by
  rw [pairwise_flatMap]
  refine ⟨fun name _ => (treeValues_sorted db name).filter _, sorted.imp fun before => ?_⟩
  intro first isFirst second isSecond
  have firstIn := (mem_treeValues.mp (mem_of_mem_filter isFirst)).1
  have secondIn := (mem_treeValues.mp (mem_of_mem_filter isSecond)).1
  simp [compareAddress, compareLex, compareOn, ValueToMigrate.address, firstIn, secondIn, before]

instance : TransCmp compareAddress := inferInstanceAs (TransCmp (compareLex _ _))

section

variable {values : List ValueToMigrate} {last : ValueToMigrate}
  (sorted : values.Pairwise fun first second => compareAddress first.address second.address = .lt)

include sorted

/-- In a sorted list, what is not after the last of the first elements is one of them. -/
theorem mem_take_of_isLE (member : value ∈ values) (isLast : last ∈ values.take size)
    (before : (compareAddress value.address last.address).isLE = true) :
    value ∈ values.take size := by
  rw [← take_append_drop size values] at member sorted
  rcases mem_append.mp member with early | late
  · exact early
  · have after := (pairwise_append.mp sorted).2.2 last isLast value late
    rw [Ordering.isLE_iff_ne_gt, OrientedCmp.gt_iff_lt] at before
    exact absurd after before

theorem isLE_getLast (isLast : values.getLast? = some last) (member : value ∈ values) :
    (compareAddress value.address last.address).isLE = true := by
  obtain ⟨before, rfl⟩ := getLast?_eq_some_iff.mp isLast
  rcases mem_append.mp member with early | late
  · simp [(pairwise_append.mp sorted).2.2 value early last (by simp)]
  · rw [mem_singleton.mp late]
    exact ReflCmp.isLE_rfl

end

/-! ### What a batch consists of -/

/-- The trees before the index are empty, and those from the index on are not before the
boundary. -/
structure MigrationIterator.Positioned (db : Database) : Prop where
  passed : ∀ name ∈ iterator.treeNames.names.take iterator.treeIdx, ∀ key, db.read name key = none
  ahead : ∀ name ∈ iterator.treeNames.names.drop iterator.treeIdx,
    ∀ moduleName key, iterator.boundary = .inProgress moduleName key →
      (compare moduleName name).isLE = true

/-- What a call of `NextBatch` gives. -/
structure BatchSpec (db : Database) (batch : List ValueToMigrate) (next : MigrationIterator) :
    Prop where
  sameTrees : next.treeNames = iterator.treeNames
  live : ∀ value ∈ batch, value.moduleName ∈ iterator.treeNames.names ∧
    db.read value.moduleName value.key = some value.value
  migrated : ∀ value ∈ batch, next.boundary.isMigrated value.moduleName value.key = true
  /-- A key that the new boundary has passed is in the batch, if it was in the database. -/
  caught : ∀ name ∈ iterator.treeNames.names, ∀ value ∈ treeValues db name,
    next.boundary.isMigrated name value.key = true → value ∈ batch
  passed : ∀ name ∈ iterator.treeNames.names.take next.treeIdx, ∀ value ∈ treeValues db name,
    value ∈ batch
  ahead : ∀ name ∈ iterator.treeNames.names.drop next.treeIdx,
    ∀ moduleName key, next.boundary = .inProgress moduleName key →
      (compare moduleName name).isLE = true
  /-- The boundary moves to a key of one of the trees, or the migration is complete. -/
  moves : next.boundary = .complete ∨
    ∃ moduleName ∈ iterator.treeNames.names, ∃ key, next.boundary = .inProgress moduleName key

section NextBatch

variable {iterator : MigrationIterator}

theorem MigrationIterator.treesLeft_sorted :
    iterator.treesLeft.Pairwise fun first second => compare first second = .lt :=
  iterator.treeNames.sorted.sublist (drop_sublist iterator.treeIdx _)

/-- The walk through the trees from the index on. -/
theorem MigrationIterator.Positioned.filled (positioned : iterator.Positioned db)
    (unfinished : iterator.boundary ≠ .complete) (size : Nat) :
    Filled (leftIn db iterator.boundary) size iterator.treesLeft iterator.treeIdx []
      (fillBatch db iterator.boundary size iterator.treesLeft iterator.treeIdx true []) := by
  have sorted := iterator.treesLeft_sorted
  refine fillBatch_filled _ _ _ _ ?_ ?_
  · intro name isHead
    refine treeIterator_eq_leftIn unfinished fun moduleName key isBoundary => ?_
    have before := positioned.ahead name (mem_of_mem_head? isHead) moduleName key isBoundary
    cases order : compare moduleName name with
    | lt => exact .inl rfl
    | eq => exact .inr ⟨LawfulEqCmp.compare_eq_iff_eq.mp order, rfl⟩
    | gt => simp [order] at before
  · -- A tree after the first one is after the boundary, since the names are sorted.
    intro name isTail
    refine treeIterator_eq_leftIn unfinished fun moduleName key isBoundary => .inl ?_
    cases isNames : iterator.treesLeft with
    | nil => simp [isNames] at isTail
    | cons first =>
      rw [isNames] at sorted isTail
      have firstAhead := positioned.ahead first (by simp [isNames]) moduleName key isBoundary
      exact TransCmp.lt_of_isLE_of_lt firstAhead ((pairwise_cons.mp sorted).1 name isTail)

section

variable (gone : ∀ name ∈ iterator.treeNames.names, ∀ key,
  iterator.boundary.isMigrated name key = true → db.read name key = none)

include gone

/-- A value of one of the trees is still to come. -/
theorem MigrationIterator.Positioned.mem_left (positioned : iterator.Positioned db)
    (isName : name ∈ iterator.treeNames.names)
    (isValue : value ∈ treeValues db name) :
    name ∈ iterator.treesLeft ∧
      value ∈ leftIn db iterator.boundary name := by
  obtain ⟨rfl, isLive⟩ := mem_treeValues.mp isValue
  constructor
  · rw [← take_append_drop iterator.treeIdx iterator.treeNames.names] at isName
    rcases mem_append.mp isName with early | late
    · rw [positioned.passed _ early] at isLive
      cases isLive
    · exact late
  · refine mem_filter.mpr ⟨isValue, ?_⟩
    rw [Bool.not_eq_true', ← Bool.not_eq_true]
    intro isMigrated
    rw [gone _ isName _ isMigrated] at isLive
    cases isLive

/-- What is known after the walk, before the boundary is moved. -/
structure Walked (iterator : MigrationIterator) (db : Database) (size : Nat)
    (batch : List ValueToMigrate) (treeIdx : Nat) : Prop where
  taken : batch = (iterator.treesLeft.flatMap (leftIn db iterator.boundary)).take size
  passed : ∀ name ∈ iterator.treeNames.names.take treeIdx, ∀ value ∈ treeValues db name,
    value ∈ batch
  upTo : ∀ value ∈ batch, ∀ name ∈ iterator.treeNames.names.drop treeIdx,
    (compare value.moduleName name).isLE = true

theorem MigrationIterator.Positioned.walked (positioned : iterator.Positioned db)
    (unfinished : iterator.boundary ≠ .complete) (size : Nat) :
    Walked iterator db size
      (fillBatch db iterator.boundary size iterator.treesLeft iterator.treeIdx true []).1
      (fillBatch db iterator.boundary size iterator.treesLeft iterator.treeIdx true []).2 := by
  obtain ⟨taken, count, _, isIdx, exhausted, fromTrees⟩ := positioned.filled unfinished size
  have sorted := iterator.treesLeft_sorted
  refine ⟨taken, ?_, ?_⟩
  · intro name isName value isValue
    obtain ⟨_, isLeft⟩ := positioned.mem_left gone (mem_of_mem_take isName) isValue
    rw [isIdx, take_add, mem_append] at isName
    rcases isName with early | late
    · have isLive := (mem_treeValues.mp isValue).2
      rw [positioned.passed name early] at isLive
      cases isLive
    · exact exhausted name late value isLeft
  · intro value isValue name isName
    rw [isIdx, ← drop_drop] at isName
    obtain ⟨tree, isTree, isLeft⟩ := (fromTrees value isValue).resolve_left not_mem_nil
    rw [(mem_treeValues.mp (mem_of_mem_filter isLeft)).1]
    rw [← take_append_drop count iterator.treesLeft] at sorted
    obtain ⟨_, lateSorted, across⟩ := pairwise_append.mp sorted
    rw [take_add, mem_append] at isTree
    rcases isTree with early | here
    · simp [across tree early name isName]
    · -- The tree is the first of those that are left, and the name is one of them.
      cases isRest : iterator.treesLeft.drop count with
      | nil => simp [isRest] at isName
      | cons first =>
        rw [isRest] at here isName lateSorted
        have isFirst : tree = first := by simpa using here
        subst isFirst
        rcases mem_cons.mp isName with rfl | later
        · simp
        · simp [(pairwise_cons.mp lateSorted).1 name later]

omit gone in
theorem Walked.live {batch : List ValueToMigrate} {treeIdx : Nat}
    (walked : Walked iterator db size batch treeIdx) : ∀ value ∈ batch,
    value.moduleName ∈ iterator.treeNames.names ∧
      db.read value.moduleName value.key = some value.value := by
  intro value isValue
  rw [walked.taken] at isValue
  obtain ⟨name, isName, isLeft⟩ := mem_flatMap.mp (mem_of_mem_take isValue)
  obtain ⟨rfl, isLive⟩ := mem_treeValues.mp (mem_of_mem_filter isLeft)
  exact ⟨mem_of_mem_drop isName, isLive⟩

/-- A batch holds every key that the new boundary passes, and nothing else. -/
theorem MigrationIterator.Positioned.nextBatch (positioned : iterator.Positioned db)
    (unfinished : iterator.boundary ≠ .complete) {size : Int} (positive : 0 < size) :
    ∃ batch next, iterator.nextBatch db size = .ok (batch, next) ∧
      BatchSpec iterator db batch next := by
  have walked := positioned.walked gone unfinished size.toNat
  unfold MigrationIterator.nextBatch
  rw [if_neg (Int.not_le.mpr positive), if_neg unfinished]
  generalize fillBatch db iterator.boundary size.toNat
    iterator.treesLeft iterator.treeIdx true [] = result at walked
  obtain ⟨batch, treeIdx⟩ := result
  dsimp only at walked ⊢
  -- A value of a tree is in the queue that the batch is the beginning of.
  have queued : ∀ name ∈ iterator.treeNames.names, ∀ value ∈ treeValues db name, value ∈
      iterator.treesLeft.flatMap (leftIn db iterator.boundary) := by
    intro name isName value isValue
    exact mem_flatMap.mpr ⟨name, positioned.mem_left gone isName isValue⟩
  have sorted := left_sorted db iterator.boundary
    (iterator.treeNames.sorted.sublist (drop_sublist iterator.treeIdx _))
  split
  · rename_i noLast
    rw [getLast?_eq_none_iff] at noLast
    refine ⟨[], _, rfl, rfl, nofun, nofun, ?_, noLast ▸ walked.passed, nofun, .inl rfl⟩
    intro name isName value isValue _
    have taken := walked.taken
    rw [noLast, eq_comm, take_eq_nil_iff] at taken
    rcases taken with zero | noQueue
    · lia
    · simpa [noQueue] using queued name isName value isValue
  · rename_i last isLast
    have lastMember : last ∈ batch := mem_of_getLast? isLast
    split
    · rename_i done
      refine ⟨batch, _, rfl, rfl, walked.live, fun _ _ => rfl, ?_, walked.passed, nofun, .inl rfl⟩
      intro name isName value isValue _
      exact walked.passed name (by rwa [take_of_length_le done]) value isValue
    · refine ⟨batch, _, rfl, rfl, walked.live, ?_, ?_, walked.passed, ?_,
        .inr ⟨_, (walked.live last lastMember).1, _, rfl⟩⟩
      · intro value isValue
        rw [isMigrated_inProgress]
        refine isLE_getLast ?_ isLast isValue
        rw [walked.taken]
        exact sorted.sublist (take_sublist _ _)
      · intro name isName value isValue isMigrated
        rw [isMigrated_inProgress] at isMigrated
        obtain ⟨rfl, _⟩ := mem_treeValues.mp isValue
        rw [walked.taken] at lastMember ⊢
        exact mem_take_of_isLE sorted (queued _ isName value isValue) lastMember isMigrated
      · rintro name isName _ _ ⟨⟩
        exact walked.upTo last lastMember name isName

end

/-- The names before the start index are before the boundary's, the others are not. -/
theorem startIndex_separates (moduleName : StoreName) {names : List StoreName}
    (sorted : names.Pairwise fun first second => compare first second = .lt) :
    (∀ name ∈ names.take (names.findIdx fun name => (compare moduleName name).isLE),
      compare name moduleName = .lt) ∧
    (∀ name ∈ names.drop (names.findIdx fun name => (compare moduleName name).isLE),
      (compare moduleName name).isLE = true) := by
  induction names with
  | nil => simp
  | cons first rest ih =>
    obtain ⟨firstBefore, restSorted⟩ := pairwise_cons.mp sorted
    rw [findIdx_cons]
    cases reached : (compare moduleName first).isLE with
    | true =>
      refine ⟨by simp, fun name isName => ?_⟩
      rcases mem_cons.mp isName with rfl | later
      · exact reached
      · exact TransCmp.isLE_trans reached (by simp [firstBefore name later])
    | false =>
      obtain ⟨before, after⟩ := ih restSorted
      refine ⟨fun name isName => ?_, after⟩
      rw [cond_false, take_succ_cons, mem_cons] at isName
      rcases isName with rfl | later
      · rw [← OrientedCmp.gt_iff_lt]
        cases order : compare moduleName name <;> simp_all
      · exact before name later

/-- A new iterator for a boundary that the database is in line with. -/
theorem MigrationIterator.setBoundary_positioned (boundary : MigrationBoundary)
    (gone : ∀ name ∈ iterator.treeNames.names, ∀ key,
      boundary.isMigrated name key = true → db.read name key = none) :
    (iterator.setBoundary boundary).Positioned db := by
  constructor
  · intro name isName key
    refine gone name (mem_of_mem_take isName) key ?_
    cases boundary with
    | notStarted => simp [setBoundary, computeStartTreeIndex] at isName
    | complete => rfl
    | inProgress moduleName =>
      have before := (startIndex_separates moduleName iterator.treeNames.sorted).1 name isName
      have different : moduleName ≠ name := by
        rintro rfl
        simp at before
      simp [isMigrated, different, before]
  · intro name isName moduleName key isBoundary
    cases isBoundary
    exact (startIndex_separates moduleName iterator.treeNames.sorted).2 name isName

end NextBatch

end SeiChain.Migration
