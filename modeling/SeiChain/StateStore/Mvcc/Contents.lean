/-
This file shows what a database holds after a history of change sets: next to the
metadata exactly one row for each key and version that was written, with what was
written there last, in the order of the comparer.
-/

import SeiChain.StateStore.Mvcc.Comparer

namespace SeiChain.StateStore.Mvcc

open Library List Function

/-- A key of a store. -/
abbrev Address := StoreKey × Bytes

/-- The writes of a list of change sets, in order. -/
def writesOf (changesets : List NamedChangeSet) : List (KeyWrite Address Bytes) :=
  changesets.flatMap fun changeset =>
    changeset.pairs.map fun pair => ⟨(changeset.name, pair.key), pair.value⟩

/-- The change that a change set makes; version 0 stands for version 1. -/
def VersionedChangesets.change (entry : VersionedChangesets) : VersionedChange Address Bytes where
  version := if entry.version = 0 then 1 else entry.version
  writes := writesOf entry.changesets

/-- What a row says: the user key it is about, the version, and what was written. -/
structure Entry where
  key : Bytes
  version : Nat
  value : Option Bytes

/-- The row of an entry. -/
def Entry.row (descending : Bool) (entry : Entry) : Bytes × Bytes :=
  (mvccEncode entry.key entry.version descending,
    match entry.value with
    | some value => mvccEncode value 0 descending
    | none => mvccEncode tombstoneVal entry.version descending)

/-- The entry of an address, a version and what was written there. -/
def entryOf (written : (Address × Nat) × Option Bytes) : Entry where
  key := prependStoreKey written.1.1.1 written.1.1.2
  version := written.1.2
  value := written.2

variable {descending useDefaultComparer : Bool} {storage : List (Bytes × Bytes)}
  {rows : Rows Address Bytes} {written other : (Address × Nat) × Option Bytes}

/-- The storage holds the rows, and besides only metadata. -/
structure Holds (descending useDefaultComparer : Bool) (storage : List (Bytes × Bytes))
    (rows : Rows Address Bytes) : Prop where
  ordered : Ordered (KeyOfDatabase descending) (place useDefaultComparer) storage
  fits : ∀ {address version value}, rows (address, version) = some value →
    0 < version ∧ version ≤ maxInt64
  mem_of_row : ∀ written : (Address × Nat) × Option Bytes, rows written.1 = some written.2 →
    (entryOf written).row descending ∈ storage
  row_of_mem : ∀ row ∈ storage, row.1 ∈ metadataKeys ∨
    ∃ written : (Address × Nat) × Option Bytes, rows written.1 = some written.2 ∧
      row = (entryOf written).row descending

/-! ### Keys -/

variable {key otherKey : Bytes}

theorem append_slash_inj {name otherName : Bytes} (noSlash : 0x2f ∉ name)
    (otherNoSlash : 0x2f ∉ otherName) (same : name ++ 0x2f :: key = otherName ++ 0x2f :: otherKey) :
    name = otherName ∧ key = otherKey := by
  induction name generalizing otherName with
  | nil =>
    cases otherName with
    | nil => exact ⟨rfl, (List.cons.inj same).2⟩
    | cons byte otherName =>
      exact absurd ((List.cons.inj same).1 ▸ .head _) otherNoSlash
  | cons byte name ih =>
    cases otherName with
    | nil => exact absurd ((List.cons.inj same).1 ▸ .head _) noSlash
    | cons otherByte otherName =>
      obtain ⟨sameByte, sameRest⟩ := List.cons.inj same
      obtain ⟨sameName, sameKey⟩ := ih
        (fun isSlash => noSlash (mem_cons_of_mem byte isSlash))
        (fun isSlash => otherNoSlash (mem_cons_of_mem otherByte isSlash)) sameRest
      exact ⟨by rw [sameByte, sameName], sameKey⟩

theorem prependStoreKey_inj {storeKey otherStore : StoreKey}
    (same : prependStoreKey storeKey key = prependStoreKey otherStore otherKey) :
    storeKey = otherStore ∧ key = otherKey := by
  simp only [prependStoreKey, storePrefix, append_assoc, singleton_append] at same
  obtain ⟨sameName, sameKey⟩ := append_slash_inj storeKey.noSlash otherStore.noSlash
    (append_cancel_left same)
  cases storeKey
  cases sameName
  exact ⟨rfl, sameKey⟩

theorem mvccEncode_inj {version otherVersion : Nat}
    (fits : version ≤ maxInt64) (otherFits : otherVersion ≤ maxInt64)
    (positive : 0 < version) (otherPositive : 0 < otherVersion)
    (same : mvccEncode key version descending = mvccEncode otherKey otherVersion descending) :
    key = otherKey ∧ version = otherVersion := by
  have parts := congrArg splitMVCCKey same
  rw [splitMVCCKey_mvccEncode, splitMVCCKey_mvccEncode, versionBytes, versionBytes,
    if_pos positive, if_pos otherPositive] at parts
  obtain ⟨sameKey, sameBytes⟩ := Prod.mk.inj (Option.some.inj parts)
  refine ⟨sameKey, ?_⟩
  have decoded := congrArg (decodeVersion descending) sameBytes
  rw [decode_encodeVersion fits, decode_encodeVersion otherFits] at decoded
  exact Except.ok.inj decoded

theorem keyOfDatabase_row (fits : written.1.2 ≤ maxInt64) :
    KeyOfDatabase descending ((entryOf written).row descending).1 :=
  .inl ⟨_, _, prefixStore_le_prependStoreKey _ _, fits, rfl⟩

/-! ### Writing -/

section

variable (holds : Holds descending useDefaultComparer storage rows)

include holds

/-- Writing one row. -/
theorem Holds.put (positive : 0 < written.1.2) (fits : written.1.2 ≤ maxInt64) :
    Holds descending useDefaultComparer
      (putRow (comparer useDefaultComparer) ((entryOf written).row descending) storage)
      (update rows written.1 (some written.2)) := by
  have lawful := orderedBy_comparer descending useDefaultComparer
  have inDomain : KeyOfDatabase descending ((entryOf written).row descending).1 :=
    keyOfDatabase_row fits
  constructor
  case ordered => exact holds.ordered.putRow lawful inDomain
  case fits =>
    intro address version value found
    by_cases same : (address, version) = written.1
    · rw [← same] at positive fits
      exact ⟨positive, fits⟩
    · rw [update_of_ne same] at found
      exact holds.fits found
  case mem_of_row =>
    intro other found
    rw [holds.ordered.mem_putRow lawful inDomain]
    by_cases same : other.1 = written.1
    · rw [same, update_self] at found
      exact .inl (by rw [show other = written from Prod.ext same (Option.some.inj found).symm])
    · rw [update_of_ne same] at found
      obtain ⟨otherPositive, otherFits⟩ := holds.fits found
      refine .inr ⟨fun sameKey => same ?_, holds.mem_of_row other found⟩
      obtain ⟨samePrepended, sameVersion⟩ :=
        mvccEncode_inj otherFits fits otherPositive positive sameKey
      obtain ⟨sameStore, sameUserKey⟩ := prependStoreKey_inj samePrepended
      exact Prod.ext (Prod.ext sameStore sameUserKey) sameVersion
  case row_of_mem =>
    intro row member
    rcases (holds.ordered.mem_putRow lawful inDomain).mp member with rfl | ⟨different, member⟩
    · exact .inr ⟨written, update_self _ _ _, rfl⟩
    · refine (holds.row_of_mem row member).imp_right ?_
      rintro ⟨other, found, rfl⟩
      refine ⟨other, ?_, rfl⟩
      rw [update_of_ne, found]
      intro same
      exact different (by rw [Entry.row, Entry.row, entryOf, entryOf, same])

theorem Holds.putMetadata {row : Bytes × Bytes} (metadata : row.1 ∈ metadataKeys) :
    Holds descending useDefaultComparer (putRow (comparer useDefaultComparer) row storage) rows := by
  have lawful := orderedBy_comparer descending useDefaultComparer
  constructor
  case ordered => exact holds.ordered.putRow lawful (.inr metadata)
  case fits => exact holds.fits
  case mem_of_row =>
    intro written found
    refine (holds.ordered.mem_putRow lawful (.inr metadata)).mpr (.inr ⟨?_, holds.mem_of_row written found⟩)
    exact (lt_mvccEncode_of_metadata metadata (prefixStore_le_prependStoreKey _ _)).ne'
  case row_of_mem =>
    intro other member
    rcases (holds.ordered.mem_putRow lawful (.inr metadata)).mp member with rfl | ⟨-, member⟩
    · exact .inl metadata
    · exact holds.row_of_mem other member

/-- Writing rows one after the other. -/
theorem Holds.foldl {batch : List ((Address × Nat) × Option Bytes)}
    (fits : ∀ written ∈ batch, 0 < written.1.2 ∧ written.1.2 ≤ maxInt64) :
    Holds descending useDefaultComparer
      ((batch.map fun written => (entryOf written).row descending).foldl
        (fun storage op => putRow (comparer useDefaultComparer) op storage) storage)
      (overlay rows (copies batch)) := by
  induction batch generalizing storage rows with
  | nil => exact holds
  | cons written batch ih =>
    rw [copies, map_cons, map_cons, overlay_cons]
    obtain ⟨positive, small⟩ := fits written mem_cons_self
    exact ih (holds.put positive small) fun other member =>
      fits other (mem_cons_of_mem written member)

end

/-- The rows that a change writes, as entries. -/
def batchEntries (version : Nat) (changesets : List NamedChangeSet) :
    List ((Address × Nat) × Option Bytes) :=
  (writesOf changesets).map fun write => ((write.key, version), write.value)

theorem batchOps_eq {version : Nat} {changesets : List NamedChangeSet} :
    batchOps descending version changesets =
      (batchEntries version changesets).map fun written => (entryOf written).row descending := by
  rw [batchEntries, writesOf, map_flatMap, map_flatMap]
  refine flatMap_congr fun changeset _ => ?_
  rw [map_map, map_map]
  refine map_congr_left fun pair _ => ?_
  obtain ⟨-, value⟩ := pair
  cases value <;> rfl

variable {entry : VersionedChangesets}

theorem rowWrites_eq :
    entry.change.rowWrites = copies (batchEntries entry.change.version entry.changesets) := by
  rw [copies, batchEntries, map_map]
  rfl

/-- Sorting the rows of a batch does not change what they write. -/
theorem Holds.writeBatchOps (holds : Holds descending useDefaultComparer storage rows)
    (fits : entry.version ≤ maxInt64) :
    Holds descending useDefaultComparer
      (writeBatchOps (comparer useDefaultComparer) storage
        (batchOps descending entry.change.version entry.changesets))
      (rows.put entry.change) := by
  have bounds : 0 < entry.change.version ∧ entry.change.version ≤ maxInt64 := by
    rw [VersionedChangesets.change]
    dsimp only
    split
    · exact ⟨one_pos, by decide⟩
    · exact ⟨pos_of_ne_zero ‹_›, fits⟩
  let batch := batchEntries entry.change.version entry.changesets
  have batchFits : ∀ written ∈ batch, written.1.2 = entry.change.version := by
    intro written member
    obtain ⟨-, -, rfl⟩ := mem_map.mp member
    rfl
  let before (first second : (Address × Nat) × Option Bytes) : Bool :=
    mark descending (entryOf first).key (entryOf first).version ≤
      mark descending (entryOf second).key (entryOf second).version
  have sorted : sortBatchOps (batch.map fun written => (entryOf written).row descending) =
      (batch.mergeSort before).map fun written => (entryOf written).row descending := by
    refine (map_mergeSort fun first isFirst second isSecond => ?_).symm
    have compared : mvccKeyCompare ((entryOf second).row descending).1
        ((entryOf first).row descending).1 =
          cmp (mark descending (entryOf second).key (entryOf second).version)
            (mark descending (entryOf first).key (entryOf first).version) :=
      mvccKeyCompare_mvccEncode ((batchFits second isSecond).trans_le bounds.2)
        ((batchFits first isFirst).trans_le bounds.2)
    rw [compared]
    exact decide_eq_decide.mpr ((cmp_eq_lt_iff _ _).not.trans not_lt).symm
  have written : overlay rows (copies (batch.mergeSort before)) = rows.put entry.change := by
    rw [Rows.put, rowWrites_eq]
    refine overlay_congr fun key => lastWrite_copies_mergeSort ?_ ?_ ?_
    · simp only [before, decide_eq_true_eq]
      exact fun _ _ _ => le_trans
    · simp only [before, Bool.or_eq_true, decide_eq_true_eq]
      exact fun _ _ => le_total _ _
    · intro first second same
      simp only [before, entryOf, same, le_refl, decide_true]
  rw [Mvcc.writeBatchOps, batchOps_eq, sorted, ← written]
  refine holds.foldl fun written member => ?_
  rw [batchFits written ((mergeSort_perm batch before).mem_iff.mp member)]
  exact bounds

/-! ### Histories -/

/-- What a database holds. -/
def Database.Holds (db : Database) (rows : Rows Address Bytes) : Prop :=
  Mvcc.Holds db.descending db.useDefaultComparer db.storage rows

variable {db : Database} {history : List VersionedChangesets}

theorem Database.Holds.applyChangesetSync (holds : db.Holds rows)
    (fits : entry.version ≤ maxInt64) :
    (db.applyChangesetSync entry.version entry.changesets).Holds (rows.put entry.change) :=
  (holds.writeBatchOps fits).putMetadata (by simp [metadataKeys])

theorem Database.Holds.setEarliestVersion (holds : db.Holds rows) (version : Nat)
    (ignoreVersion : Bool) : (db.setEarliestVersion version ignoreVersion).Holds rows := by
  unfold Database.setEarliestVersion
  split
  · exact holds.putMetadata (by simp [metadataKeys])
  · exact holds

theorem Database.Holds.applyAll (holds : db.Holds rows)
    (fits : ∀ entry ∈ history, entry.version ≤ maxInt64) :
    (db.applyAll history).Holds ((history.map VersionedChangesets.change).foldl Rows.put rows) := by
  induction history generalizing db rows with
  | nil => exact holds
  | cons entry history ih =>
    exact ih (holds.applyChangesetSync (fits entry mem_cons_self))
      fun other member => fits other (mem_cons_of_mem entry member)

end SeiChain.StateStore.Mvcc
