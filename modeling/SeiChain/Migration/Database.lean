/-
This file models the databases that a migration moves data between. A database
has a tree for every store, and a tree is a map that is iterated in the order of
its keys. Writes come in change sets; a caller collects them in maps by store
and key before it passes them on in sorted order. Collecting keeps the last
write to a key, so the effect on a database is that of the writes in the order
in which they were collected. The boundary of a migration separates the keys that
are migrated from those that are not. It is stored in the new database after every
block that advances it, so that a restart picks up where the last block stopped; what
is read back is the boundary that was written, as long as the length of the store's
name fits into 32 bits.
-/

import SeiChain.Library.Codes
import SeiChain.Library.WriteLog

namespace SeiChain.Migration

open Library Std List Function Std.ExtTreeMap

abbrev StoreName := Bytes
abbrev Key := Bytes
abbrev Value := Bytes

/-- The bytes of an ASCII text. -/
def asBytes (text : String) : Bytes := text.toList.map fun char => UInt8.ofNat char.toNat

/-- The values under the keys of all stores. -/
abbrev Contents := StoreName × Key → Option Value

/-! ### Databases -/

structure KVPair where
  key : Key
  value : Value
  delete : Bool
  deriving DecidableEq, Repr

structure NamedChangeSet where
  name : StoreName
  pairs : List KVPair
  deriving DecidableEq, Repr

/-- What a pair leaves under its key. -/
def KVPair.outcome (pair : KVPair) : Option Value := if pair.delete then none else some pair.value

abbrev Tree := ExtTreeMap Key Value

abbrev Database := StoreName → Tree

def applyPair (tree : Tree) (pair : KVPair) : Tree :=
  if pair.delete then tree.erase pair.key else tree.insert pair.key pair.value

variable (db : Database) (changeSets : List NamedChangeSet)

namespace Database

/-- The database without any data. -/
def empty : Database := fun _ => ∅

def read (store : StoreName) (key : Key) : Option Value := (db store)[key]?

def applyChangeSet (changeSet : NamedChangeSet) : Database :=
  update db changeSet.name (changeSet.pairs.foldl applyPair (db changeSet.name))

def applyChangeSets : Database := changeSets.foldl applyChangeSet db

/-- The database as one map. -/
def contents (address : StoreName × Key) : Option Value := db.read address.1 address.2

end Database

/-! ### Change sets as writes -/

/-- The write of a pair to a store. -/
def pairWrite (store : StoreName) (pair : KVPair) : KeyWrite (StoreName × Key) Value where
  key := (store, pair.key)
  value := pair.outcome

def writesOf : List (KeyWrite (StoreName × Key) Value) :=
  changeSets.flatMap fun changeSet => changeSet.pairs.map (pairWrite changeSet.name)

theorem applyPair_get (tree : Tree) (pair : KVPair) (key : Key) :
    (applyPair tree pair)[key]? = if pair.key = key then pair.outcome else tree[key]? := by
  unfold applyPair KVPair.outcome
  split
  · simp [ExtTreeMap.getElem?_erase]
  · simp [ExtTreeMap.getElem?_insert]

theorem Database.contents_applyChangeSet (changeSet : NamedChangeSet) :
    (db.applyChangeSet changeSet).contents =
      overlay db.contents (changeSet.pairs.map (pairWrite changeSet.name)) := by
  obtain ⟨name, pairs⟩ := changeSet
  have step : ∀ tree : Tree, (fun address : StoreName × Key =>
      (update db name (pairs.foldl applyPair tree) address.1)[address.2]?) =
      overlay (fun address => (update db name tree address.1)[address.2]?)
        (pairs.map (pairWrite name)) := by
    induction pairs with
    | nil => exact fun tree => rfl
    | cons pair rest ih =>
      intro tree
      rw [foldl_cons, ih, map_cons, overlay_cons]
      congr 1
      funext ⟨store, key⟩
      by_cases sameStore : store = name
      · subst sameStore
        by_cases sameKey : key = pair.key
        · subst sameKey
          simp [pairWrite, applyPair_get]
        · simp [pairWrite, applyPair_get, sameKey, Ne.symm sameKey]
      · simp [pairWrite, sameStore]
  have atStore := step (db name)
  rw [update_eq_self] at atStore
  exact atStore

theorem Database.contents_applyChangeSets :
    (db.applyChangeSets changeSets).contents = overlay db.contents (writesOf changeSets) := by
  induction changeSets generalizing db with
  | nil => rfl
  | cons changeSet rest ih =>
    show ((db.applyChangeSet changeSet).applyChangeSets rest).contents = _
    rw [ih, contents_applyChangeSet, ← overlay_append]
    rfl

/-! ### Collecting pairs -/

/-- Pairs by store and key, each under its own key. -/
structure PairsByStore where
  byStore : ExtTreeMap StoreName (ExtTreeMap Key KVPair)
  keyed : ∀ (store : StoreName) (byKey : ExtTreeMap Key KVPair), byStore[store]? = some byKey →
    ∀ (key : Key) (pair : KVPair), byKey[key]? = some pair → pair.key = key

namespace PairsByStore

def empty : PairsByStore where
  byStore := ∅
  keyed := by simp

def find (pairs : PairsByStore) (address : StoreName × Key) : Option KVPair :=
  pairs.byStore[address.1]?.bind fun byKey => byKey[address.2]?

/-- `putPair`: a later pair for a store and key replaces an earlier one. -/
def putPair (dest : PairsByStore) (store : StoreName) (pair : KVPair) : PairsByStore where
  byStore := dest.byStore.insert store ((dest.byStore[store]?.getD ∅).insert pair.key pair)
  keyed := by
    intro other byKey isStore key found isFound
    rw [ExtTreeMap.getElem?_insert] at isStore
    split at isStore
    · cases isStore
      rw [ExtTreeMap.getElem?_insert] at isFound
      split at isFound
      · rename_i sameKey
        cases isFound
        exact LawfulEqCmp.compare_eq_iff_eq.mp sameKey
      · cases isOld : dest.byStore[store]? with
        | none => simp [isOld] at isFound
        | some old => exact dest.keyed store old isOld key found (by simpa [isOld] using isFound)
    · exact dest.keyed other byKey isStore key found isFound

/-- `flattenPairsByStore`: a change set for each store, stores and pairs in sorted order. -/
def flatten (pairs : PairsByStore) : List NamedChangeSet :=
  pairs.byStore.toList.map fun entry =>
    { name := entry.1, pairs := entry.2.toList.map Prod.snd }

@[simp]
theorem find_empty (address : StoreName × Key) : empty.find address = none := by
  simp [find, empty]

theorem find_putPair (dest : PairsByStore) (store : StoreName) (pair : KVPair)
    (address : StoreName × Key) : (dest.putPair store pair).find address =
      if (store, pair.key) = address then some pair else dest.find address := by
  obtain ⟨other, -⟩ := address
  by_cases sameStore : store = other
  · subst sameStore
    cases isOld : dest.byStore[store]? with
    | none | some => simp [find, putPair, isOld, ExtTreeMap.getElem?_insert]
  · simp [find, putPair, ExtTreeMap.getElem?_insert, sameStore]

/-- The pairs that are flattened are those that are found. -/
theorem mem_writesOf_flatten {pairs : PairsByStore} {write : KeyWrite (StoreName × Key) Value} :
    write ∈ writesOf pairs.flatten ↔
      ∃ pair, pairs.find write.key = some pair ∧ write.value = pair.outcome := by
  constructor
  · intro member
    simp only [writesOf, flatten, mem_flatMap, mem_map, exists_exists_and_eq_and] at member
    obtain ⟨⟨store, byKey⟩, isStore, ⟨key, pair⟩, isPair, rfl⟩ := member
    rw [mem_toList_iff_getElem?_eq_some] at isStore isPair
    refine ⟨pair, ?_, rfl⟩
    rw [pairWrite, find, isStore, pairs.keyed store byKey isStore key pair isPair]
    exact isPair
  · obtain ⟨⟨store, key⟩, -⟩ := write
    rintro ⟨pair, found, isValue⟩
    obtain ⟨byKey, isStore, isPair⟩ := Option.bind_eq_some_iff.mp found
    simp only [writesOf, flatten, mem_flatMap, mem_map, exists_exists_and_eq_and]
    refine ⟨(store, byKey), mem_toList_iff_getElem?_eq_some.mpr isStore,
      (key, pair), mem_toList_iff_getElem?_eq_some.mpr isPair, ?_⟩
    rw [pairWrite, pairs.keyed store byKey isStore key pair isPair]
    exact congrArg (KeyWrite.mk (store, key)) isValue.symm

theorem lastWrite_flatten (pairs : PairsByStore) (address : StoreName × Key) :
    lastWrite (writesOf pairs.flatten) address = (pairs.find address).map KVPair.outcome := by
  cases found : pairs.find address with
  | none =>
    refine lastWrite_eq_none_iff.mpr fun write member same => ?_
    obtain ⟨pair, isPair, _⟩ := mem_writesOf_flatten.mp member
    rw [same, found] at isPair
    cases isPair
  | some pair =>
    have member : ⟨address, pair.outcome⟩ ∈ writesOf pairs.flatten :=
      mem_writesOf_flatten.mpr ⟨pair, found, rfl⟩
    refine lastWrite_eq_some member ?_
    intro other member same
    obtain ⟨otherPair, isOther, isValue⟩ := mem_writesOf_flatten.mp member
    rw [same, found] at isOther
    cases isOther
    exact isValue

/-- Collect pairs one after the other. -/
def collect (dest : PairsByStore) (puts : List (StoreName × KVPair)) : PairsByStore :=
  puts.foldl (fun dest put => dest.putPair put.1 put.2) dest

theorem collect_collect (dest : PairsByStore) (first second : List (StoreName × KVPair)) :
    (dest.collect first).collect second = dest.collect (first ++ second) :=
  (foldl_append ..).symm

theorem find_collect (dest : PairsByStore) (puts : List (StoreName × KVPair))
    (address : StoreName × Key) : ((dest.collect puts).find address).map KVPair.outcome =
      (lastWrite (puts.map fun put => pairWrite put.1 put.2) address).or
        ((dest.find address).map KVPair.outcome) := by
  induction puts generalizing dest with
  | nil => simp [collect]
  | cons put rest ih =>
    show (((dest.putPair put.1 put.2).collect rest).find address).map KVPair.outcome = _
    rw [ih, find_putPair, map_cons, lastWrite]
    by_cases same : (put.1, put.2.key) = address
    all_goals simp [pairWrite, same]

end PairsByStore

/-- What collecting pairs and flattening them does to a database. -/
theorem Database.contents_apply_collect (puts : List (StoreName × KVPair)) :
    (db.applyChangeSets (PairsByStore.empty.collect puts).flatten).contents =
      overlay db.contents (puts.map fun put => pairWrite put.1 put.2) := by
  rw [contents_applyChangeSets]
  refine overlay_congr fun address => ?_
  rw [PairsByStore.lastWrite_flatten, PairsByStore.find_collect]
  simp

/-! ### The boundary -/

/-- Where a migration stands; `inProgress` names the highest migrated key. -/
inductive MigrationBoundary where
  | notStarted
  | inProgress (moduleName : StoreName) (key : Key)
  | complete
  deriving DecidableEq, Repr

/-- The order of keys across stores. -/
def compareAddress : StoreName × Key → StoreName × Key → Ordering :=
  compareLex (compareOn Prod.fst) (compareOn Prod.snd)

inductive BoundaryError where
  | empty
  | trailingData (status : UInt8) (extra : Nat)
  | headerTooShort (got : Nat)
  | nameTooShort (nameLen got : Nat)
  | invalidStatus (status : UInt8)
  deriving DecidableEq, Repr

/-- The status byte and the length of the store's name. -/
def headerSize : Nat := 5

namespace MigrationBoundary

/-- Whether a key is at the boundary or to the left of it. -/
def isMigrated : MigrationBoundary → StoreName → Key → Bool
  | .notStarted, _, _ => false
  | .inProgress highest highestKey, moduleName, key =>
    if highest = moduleName then (compare key highestKey).isLE
    else (compare moduleName highest).isLE
  | .complete, _, _ => true

def serialize : MigrationBoundary → Bytes
  | .notStarted => [0]
  | .inProgress moduleName key => 1 :: bigEndian 4 moduleName.length ++ moduleName ++ key
  | .complete => [2]

def deserialize : Bytes → Except BoundaryError MigrationBoundary
  | [] => .error .empty
  | status :: rest =>
    if status = 0 ∨ status = 2 then
      if rest.length ≠ 0 then .error (.trailingData status rest.length)
      else if status = 0 then .ok .notStarted else .ok .complete
    else if status = 1 then
      if rest.length + 1 < headerSize then .error (.headerTooShort (rest.length + 1))
      else
        let nameLen := ofBigEndian (rest.take 4)
        if rest.length + 1 < headerSize + nameLen then
          .error (.nameTooShort nameLen (rest.length + 1))
        else .ok (.inProgress ((rest.drop 4).take nameLen) ((rest.drop 4).drop nameLen))
    else .error (.invalidStatus status)

/-- The boundary that is stored is the one that is read back. -/
theorem deserialize_serialize (boundary : MigrationBoundary)
    (short : ∀ moduleName key, boundary = .inProgress moduleName key → moduleName.length < 2 ^ 32) :
    deserialize boundary.serialize = .ok boundary := by
  cases boundary with
  | notStarted => rfl
  | complete => rfl
  | inProgress moduleName key =>
    have fits : moduleName.length < 256 ^ 4 := short moduleName key rfl
    have name : (bigEndian 4 moduleName.length ++ moduleName ++ key).take 4 =
        bigEndian 4 moduleName.length := by
      exact take_left' (length_bigEndian 4 _)
    have rest : (bigEndian 4 moduleName.length ++ moduleName ++ key).drop 4 =
        moduleName ++ key := by
      exact drop_left' (length_bigEndian 4 _)
    have long : ¬ (bigEndian 4 moduleName.length ++ moduleName ++ key).length + 1 < headerSize := by
      simp [headerSize]
    have whole : ¬ (bigEndian 4 moduleName.length ++ moduleName ++ key).length + 1 <
        headerSize + moduleName.length := by
      simp [headerSize]
      lia
    have isStatus : ¬ ((1 : UInt8) = 0 ∨ (1 : UInt8) = 2) := by decide
    simp only [serialize, List.cons_append, deserialize, if_neg isStatus, if_true, if_neg long, name,
      rest, ofBigEndian_bigEndian 4 _ fits, if_neg whole, take_left, drop_left]

/-- The keys that are migrated are those up to the boundary in the order across stores. -/
theorem isMigrated_inProgress (highest moduleName : StoreName) (highestKey key : Key) :
    (inProgress highest highestKey).isMigrated moduleName key =
      (compareAddress (moduleName, key) (highest, highestKey)).isLE := by
  rw [isMigrated, compareAddress, compareLex, compareOn, compareOn]
  by_cases same : highest = moduleName
  · subst same
    simp
  · have different : compare moduleName highest ≠ .eq :=
      fun equal => same (LawfulEqCmp.compare_eq_iff_eq.mp equal).symm
    rw [if_neg same]
    revert different
    cases compare moduleName highest <;> simp

end MigrationBoundary

/-- A key comes after another one if it is not before its successor, which is the other one
with a zero byte after it. -/
theorem compare_append_zero (key other : Key) :
    (compare (key ++ [0]) other).isLE = true ↔ compare key other = .lt := by
  induction key generalizing other with
  | nil =>
    cases other with
    | nil => decide
    | cons byte rest =>
      have least : (compare 0 byte).then (compare [] rest) ≠ .gt := by
        have zero : compare 0 byte ≠ .gt := by
          rw [ne_eq, OrientedCmp.gt_iff_lt, compare_eq_lt]
          exact UInt8.not_lt_zero
        cases isZero : compare 0 byte with
        | lt => simp
        | eq => cases rest <;> simp
        | gt => exact absurd isZero zero
      simp only [List.nil_append, List.compare_cons_cons, Ordering.isLE_iff_ne_gt, least,
        not_false_eq_true, List.compare_nil_cons]
  | cons byte rest ih =>
    cases other with
    | nil => simp
    | cons otherByte otherRest =>
      rw [List.cons_append, List.compare_cons_cons, List.compare_cons_cons]
      cases compare byte otherByte with
      | lt => simp
      | eq => simpa using ih otherRest
      | gt => simp

end SeiChain.Migration
