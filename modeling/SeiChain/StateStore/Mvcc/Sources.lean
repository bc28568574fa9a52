/-
This file says which rows a Pebble iterator sees between two versioned keys: those
of the entries that stand between them, in the order of keys and versions, as long
as the comparer agrees with that order on the rows and the bounds. It also says what
the rows of a store's keys show when they are read at a version.
-/

import Mathlib.Data.List.Dedup
import SeiChain.StateStore.Mvcc.Seeks

namespace SeiChain.StateStore.Mvcc

open Library List

/-- An entry that the rows have. -/
def IsStored (rows : Rows Address Bytes) (entry : Entry) : Prop :=
  ∃ written : (Address × Nat) × Option Bytes, rows written.1 = some written.2 ∧
    entry = entryOf written

/-- The comparer of the database puts an entry and a versioned key in the order of keys and
versions. -/
def Tells (db : Database) (entry : Entry) (target : Bytes) (version : Nat) : Prop :=
  db.compare (entry.row db.descending).1 (mvccEncode target version db.descending) =
    cmp (entry.mark db.descending) (mark db.descending target version)

/-- The entry stands between the bounds. -/
def Between (descending : Bool) (lower : Bytes × Nat) (upper : Option (Bytes × Nat))
    (entry : Entry) : Prop :=
  mark descending lower.1 lower.2 ≤ entry.mark descending ∧
    ∀ bound ∈ upper, entry.mark descending < mark descending bound.1 bound.2

/-- The comparer goes with the order of keys and versions on the rows and the bounds. -/
structure Orderly (db : Database) (rows : Rows Address Bytes) (lower : Bytes × Nat)
    (upper : Option (Bytes × Nat)) : Prop where
  atLower : ∀ entry, IsStored rows entry → Tells db entry lower.1 lower.2
  atUpper : ∀ entry, IsStored rows entry → ∀ bound ∈ upper, Tells db entry bound.1 bound.2
  between : ∀ first second, IsStored rows first → IsStored rows second →
    Between db.descending lower upper first → Between db.descending lower upper second →
      ∀ version ≤ maxInt64, Tells db first second.key version

variable {db : Database} {rows : Rows Address Bytes} {entry : Entry} {entries : List Entry}
  {storeKey : StoreKey} {version : Nat} {lower : Bytes × Nat} {upper : Option (Bytes × Nat)}

theorem exists_map_eq {Item Image : Type} {toImage : Item → Image} {good : Item → Prop}
    {images : List Image} (inImage : ∀ image ∈ images, ∃ item, good item ∧ image = toImage item) :
    ∃ items : List Item, images = items.map toImage ∧ ∀ item ∈ items, good item := by
  induction images with
  | nil => exact ⟨[], rfl, forall_mem_nil _⟩
  | cons image images ih =>
    obtain ⟨item, isGood, rfl⟩ := inImage image mem_cons_self
    obtain ⟨items, rfl, areGood⟩ := ih fun other member => inImage other (.tail _ member)
    exact ⟨item :: items, rfl, forall_mem_cons.mpr ⟨isGood, areGood⟩⟩

section

variable (holds : db.Holds rows)

include holds

section

variable (stored : IsStored rows entry)

include stored

theorem IsStored.fits : 0 < entry.version ∧ entry.version ≤ maxInt64 := by
  obtain ⟨written, found, rfl⟩ := stored
  exact holds.fits found

theorem IsStored.mem : entry.row db.descending ∈ db.storage := by
  obtain ⟨written, found, rfl⟩ := stored
  exact holds.mem_of_row written found

theorem IsStored.keyOfDatabase : KeyOfDatabase db.descending (entry.row db.descending).1 := by
  obtain ⟨written, found, rfl⟩ := stored
  exact keyOfDatabase_row (holds.fits found).2

/-- Rows are told apart by their keys. -/
theorem Entry.row_injective {descending : Bool} {other : Entry} (otherStored : IsStored rows other)
    (same : entry.row descending = other.row descending) : entry = other := by
  obtain ⟨positive, fits⟩ := stored.fits holds
  obtain ⟨otherPositive, otherFits⟩ := otherStored.fits holds
  obtain ⟨sameKey, sameVersion⟩ := mvccEncode_inj fits otherFits positive otherPositive
    (congrArg Prod.fst same)
  obtain ⟨⟨⟨⟨store, key⟩, version⟩, value⟩, found, rfl⟩ := stored
  obtain ⟨⟨⟨⟨otherStore, otherKey⟩, otherVersion⟩, otherValue⟩, otherFound, rfl⟩ := otherStored
  obtain ⟨rfl, rfl⟩ := prependStoreKey_inj sameKey
  obtain rfl : version = otherVersion := sameVersion
  rw [found] at otherFound
  cases otherFound
  rfl

end

/-- The metadata is below all bounds. -/
theorem Database.Holds.isStored_of_not_lt {lowerKey : Bytes}
    (fromStore : prefixStore ≤ lowerKey) {row : Bytes × Bytes} (member : row ∈ db.storage)
    (notBelow : db.compare row.1 (mvccEncode lowerKey version db.descending) ≠ .lt) :
    ∃ entry, IsStored rows entry ∧ row = entry.row db.descending := by
  rcases holds.row_of_mem row member with metadata | ⟨written, found, rfl⟩
  · exact absurd (comparer_metadata db.useDefaultComparer metadata fromStore) notBelow
  · exact ⟨_, ⟨written, found, rfl⟩, rfl⟩

/-- The rows that a Pebble iterator sees. -/
theorem Database.Holds.listing (fromStore : prefixStore ≤ lower.1)
    (orderly : Orderly db rows lower upper) :
    ∃ entries, Listing (db.newIter (mvccEncode lower.1 lower.2 db.descending)
        (upper.map fun bound => mvccEncode bound.1 bound.2 db.descending)) db.descending entries ∧
      ∀ entry, entry ∈ entries ↔ IsStored rows entry ∧ Between db.descending lower upper entry := by
  have lawful := orderedBy_comparer db.descending db.useDefaultComparer
  let lowerBound := mvccEncode lower.1 lower.2 db.descending
  let upperBound := upper.map fun bound => mvccEncode bound.1 bound.2 db.descending
  -- whether a row of the data is between the bounds
  have within : ∀ entry, IsStored rows entry →
      ((db.compare (entry.row db.descending).1 lowerBound ≠ .lt ∧
        ∀ bound ∈ upperBound, db.compare (entry.row db.descending).1 bound = .lt) ↔
          Between db.descending lower upper entry) := by
    intro entry stored
    refine and_congr ?_ ?_
    · rw [orderly.atLower entry stored, Ne, cmp_eq_lt_iff, not_lt]
    · simp only [upperBound, Option.mem_map, forall_exists_index, and_imp, forall_apply_eq_imp_iff₂]
      refine forall₂_congr fun bound isBound => ?_
      rw [orderly.atUpper entry stored bound isBound, cmp_eq_lt_iff]
  let source := db.newIter lowerBound upperBound
  have source_rows : ∀ row, row ∈ source.rows ↔ row ∈ db.storage ∧
      db.compare row.1 lowerBound ≠ .lt ∧ ∀ bound ∈ upperBound, db.compare row.1 bound = .lt := by
    intro row
    exact mem_filter.trans (and_congr_right fun _ => decide_eq_true_iff)
  have inImage : ∀ row ∈ source.rows, ∃ entry,
      (IsStored rows entry ∧ Between db.descending lower upper entry) ∧
        row = entry.row db.descending := by
    intro row member
    obtain ⟨inStorage, notBelow, below⟩ := (source_rows row).mp member
    obtain ⟨entry, stored, rfl⟩ := holds.isStored_of_not_lt fromStore inStorage notBelow
    exact ⟨entry, ⟨stored, (within entry stored).mp ⟨notBelow, below⟩⟩, rfl⟩
  obtain ⟨entries, rows_eq, areStored⟩ := exists_map_eq inImage
  refine ⟨entries, ⟨rows_eq, ?_, fun entry member => (areStored entry member).1.fits holds⟩,
    fun entry => ⟨areStored entry, ?_⟩⟩
  · have sorted : source.rows.Pairwise fun first second =>
        place db.useDefaultComparer first.1 < place db.useDefaultComparer second.1 :=
      holds.ordered.sorted.sublist filter_sublist
    rw [rows_eq, pairwise_map] at sorted
    refine sorted.imp_of_mem fun {first second} isFirst isSecond less => ?_
    obtain ⟨firstStored, firstBetween⟩ := areStored first isFirst
    obtain ⟨secondStored, secondBetween⟩ := areStored second isSecond
    have compared := orderly.between first second firstStored secondStored firstBetween
      secondBetween second.version (secondStored.fits holds).2
    rw [← cmp_eq_lt_iff]
    refine compared.symm.trans ?_
    refine (lawful.compare_eq (firstStored.keyOfDatabase holds)
      (secondStored.keyOfDatabase holds)).trans ?_
    exact less.cmp_eq_lt
  · rintro ⟨stored, between⟩
    have inSource : entry.row db.descending ∈ source.rows :=
      (source_rows _).mpr ⟨stored.mem holds, (within entry stored).mpr between⟩
    rw [rows_eq, mem_map] at inSource
    obtain ⟨other, member, same⟩ := inSource
    rwa [← Entry.row_injective holds (areStored other member).1 stored same]

end

/-! ### The keys of a store -/

/-- The least string above all keys of a store. -/
def storeUpper (storeKey : StoreKey) : Bytes := prefixStore ++ storeKey.name ++ [0x30]

theorem prefixEnd_storePrefix : prefixEnd (storePrefix storeKey) = some (storeUpper storeKey) := by
  simp [prefixEnd, storePrefix, storeUpper]

theorem storePrefix_isPrefix_iff {key : Bytes} :
    storePrefix storeKey <+: key ↔ storePrefix storeKey ≤ key ∧ key < storeUpper storeKey :=
  isPrefix_iff_between (by decide)

/-- A key that begins like those of a store is one of them. -/
theorem storeKey_of_isPrefix {otherStore : StoreKey} {key : Bytes}
    (inStore : storePrefix storeKey <+: prependStoreKey otherStore key) : otherStore = storeKey := by
  obtain ⟨rest, same⟩ := inStore
  exact (prependStoreKey_inj same).1.symm

/-- The keys of entries that are not below the store. -/
theorem Listing.keyList {source : Cursor Bytes Bytes} {descending : Bool}
    (listing : Listing source descending entries)
    (notBelow : ∀ entry ∈ entries, storePrefix storeKey ≤ entry.key) :
    ∃ keys behind, KeyList entries (storePrefix storeKey) keys behind := by
  let all := (entries.map Entry.key).dedup
  let inStore (key : Bytes) : Bool := storePrefix storeKey <+: key
  have mem_iff : ∀ key, key ∈ all ↔ ∃ entry ∈ entries, entry.key = key := fun key => by
    simp [all]
  have sorted : all.Pairwise (· < ·) := by
    have weakly := listing.keys_sorted.sublist (dedup_sublist _)
    refine (weakly.and (nodup_dedup _)).imp ?_
    rintro first second ⟨atMost, different⟩
    exact lt_of_le_of_ne atMost different
  have split : all.takeWhile inStore ++ all.dropWhile inStore = all := takeWhile_append_dropWhile
  refine ⟨all.takeWhile inStore, all.dropWhile inStore, ?_, ?_, ?_, ?_⟩
  · rwa [split]
  · rwa [split]
  · intro key member
    have chosen : inStore key = true := mem_takeWhile_imp member
    exact of_decide_eq_true chosen
  · -- the first key that is not of the store is above the store, and so are those behind it
    have stops := head?_dropWhile_not inStore all
    cases rest_eq : all.dropWhile inStore with
    | nil => exact forall_mem_nil _
    | cons first =>
      rw [rest_eq] at stops split
      have firstOutside : ¬ storePrefix storeKey <+: first := of_decide_eq_false stops
      have firstAbove : storeUpper storeKey ≤ first := by
        obtain ⟨entry, member, rfl⟩ := (mem_iff first).mp (by rw [← split]; simp)
        exact not_lt.mp fun below =>
          firstOutside (storePrefix_isPrefix_iff.mpr ⟨notBelow entry member, below⟩)
      refine forall_mem_cons.mpr ⟨firstOutside, fun key member inside => ?_⟩
      rw [← split, pairwise_append, pairwise_cons] at sorted
      have above := firstAbove.trans (sorted.2.1.1 key member).le
      exact absurd (storePrefix_isPrefix_iff.mp inside).2 (not_lt.mpr above)

/-- What a key of the store shows at a version. -/
def shownAt (rows : Rows Address Bytes) (storeKey : StoreKey) (version : Nat) (key : Bytes) :
    Option Bytes :=
  rows.read (storeKey, key.drop (storePrefix storeKey).length) version

theorem shownAt_prependStoreKey {key : Bytes} :
    shownAt rows storeKey version (prependStoreKey storeKey key) =
      rows.read (storeKey, key) version := by
  rw [shownAt, prependStoreKey, drop_left]

/-- Entries with all visible rows of some keys show what is read there. -/
theorem reads_shownAt {keys : List Bytes} (stored : ∀ entry ∈ entries, IsStored rows entry)
    (closed : ∀ key ∈ keys, ∀ other, IsStored rows other → other.key = key →
      other.version ≤ version → other ∈ entries)
    (inStore : ∀ key ∈ keys, storePrefix storeKey <+: key) :
    Reads entries version keys (shownAt rows storeKey version) where
  newest entry newest visited := by
    obtain ⟨member, oldEnough, isNewest⟩ := newest
    obtain ⟨⟨⟨⟨store, key⟩, written⟩, value⟩, found, rfl⟩ := stored entry member
    obtain rfl := storeKey_of_isPrefix (inStore _ visited)
    refine shownAt_prependStoreKey.trans (Rows.read_of_newest oldEnough found ?_)
    intro later isLater notNewer
    by_contra isWritten
    obtain ⟨laterValue, laterFound⟩ := Option.ne_none_iff_exists'.mp isWritten
    have laterStored : IsStored rows (entryOf (((store, key), later), laterValue)) :=
      ⟨_, laterFound, rfl⟩
    have notLater := isNewest _ (closed _ visited _ laterStored rfl notNewer) rfl notNewer
    exact absurd isLater (not_lt.mpr notLater)
  unborn key visited unborn := by
    obtain ⟨rest, rfl⟩ := inStore key visited
    refine shownAt_prependStoreKey.trans (Rows.read_eq_none fun old oldEnough => ?_)
    by_contra isWritten
    obtain ⟨oldValue, oldFound⟩ := Option.ne_none_iff_exists'.mp isWritten
    have oldStored : IsStored rows (entryOf (((storeKey, rest), old), oldValue)) :=
      ⟨_, oldFound, rfl⟩
    have tooNew := unborn _ (closed _ visited _ oldStored rfl oldEnough) rfl
    exact absurd oldEnough (not_le.mpr tooNew)

end SeiChain.StateStore.Mvcc
