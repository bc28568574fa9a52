/-
This file shows that the two comparers order what they are given. Plain byte order
is a linear order. The comparer for versioned keys falls back to byte order for
keys that do not end like one, and is no order of all byte strings; on the keys
that a database stores and seeks it is one, and it goes with its `Split` in the
way that Pebble needs.
-/

import SeiChain.StateStore.Mvcc.Database

namespace SeiChain.StateStore.Mvcc

open Library List

variable {key other : Bytes} {version otherVersion : Nat} {descending : Bool}

/-- The keys of the rows that are not data. -/
def metadataKeys : List Bytes := [latestVersionKey, earliestVersionKey, descendingMVCCMarkerKey]

/-- The keys that a database stores or seeks: versioned keys from the first store on, and the
metadata. -/
def KeyOfDatabase (descending : Bool) (bytes : Bytes) : Prop :=
  (∃ key version, prefixStore ≤ key ∧ version ≤ maxInt64 ∧
    bytes = mvccEncode key version descending) ∨ bytes ∈ metadataKeys

/-- Where a key stands for the comparer: first its user key counts, then its version bytes. -/
def versionedPlace (bytes : Bytes) : Bytes ×ₗ Bytes :=
  match splitMVCCKey bytes with
  | none => toLex (bytes, [])
  | some (key, versionBytes) => toLex (key, versionBytes)

/-- Where a key stands for one of the two comparers. -/
def place (useDefaultComparer : Bool) (bytes : Bytes) : Bytes ×ₗ Bytes :=
  if useDefaultComparer then toLex (bytes, []) else versionedPlace bytes

theorem metadata_spec :
    ∀ bytes ∈ metadataKeys, splitMVCCKey bytes = none ∧ bytes < prefixStore := by
  decide

theorem prefixStore_le_prependStoreKey (storeKey : StoreKey) (key : Bytes) :
    prefixStore ≤ prependStoreKey storeKey key := by
  exact le_append _ _

variable {bytes : Bytes}

theorem lt_mvccEncode_of_metadata (metadata : bytes ∈ metadataKeys)
    (fromStore : prefixStore ≤ key) : bytes < mvccEncode key version descending :=
  ((metadata_spec bytes metadata).2.trans_le fromStore).trans_le (le_append _ _)

/-! ### The comparer for versioned keys -/

/-- A key that does not end like a versioned one is compared byte by byte. -/
theorem mvccKeyCompare_of_split_none {a b : Bytes}
    (unsplit : splitMVCCKey a = none ∨ splitMVCCKey b = none) : mvccKeyCompare a b = cmp a b := by
  have short : ∀ {bytes : Bytes} {last : UInt8}, splitMVCCKey bytes = none →
      bytes.getLast? = some last → bytes.length - 1 < last.toNat := by
    intro bytes last noSplit isLast
    rw [splitMVCCKey, isLast] at noSplit
    by_contra long
    simp [long] at noSplit
  unfold mvccKeyCompare
  cases aLast : a.getLast? with
  | none => rfl
  | some =>
    cases bLast : b.getLast? with
    | none => rfl
    | some =>
      exact if_pos (unsplit.imp (fun noSplit => short noSplit aLast)
        (fun noSplit => short noSplit bLast))

theorem versionedPlace_mvccEncode :
    versionedPlace (mvccEncode key version descending) =
      toLex (key, versionBytes descending version) := by
  rw [versionedPlace, splitMVCCKey_mvccEncode]

theorem versionedPlace_metadata (metadata : bytes ∈ metadataKeys) :
    versionedPlace bytes = toLex (bytes, []) := by
  rw [versionedPlace, (metadata_spec bytes metadata).1]

theorem versionedPlace_metadata_lt (metadata : bytes ∈ metadataKeys)
    (fromStore : prefixStore ≤ key) :
    versionedPlace bytes < versionedPlace (mvccEncode key version descending) := by
  rw [versionedPlace_metadata metadata, versionedPlace_mvccEncode]
  exact Prod.Lex.toLex_lt_toLex.mpr (.inl ((metadata_spec bytes metadata).2.trans_le fromStore))

theorem cmp_timestamp_eq : cmp (timestamp descending version) (timestamp descending otherVersion) =
    cmp (versionBytes descending version) (versionBytes descending otherVersion) := by
  have nonempty (number : Nat) : [] < encodeVersion descending number := by
    have long : (encodeVersion descending number).length = 7 + 1 := length_encodeVersion
    obtain ⟨byte, rest, eq⟩ := exists_cons_of_length_eq_add_one long
    rw [eq]
    exact nil_lt_cons byte rest
  rcases version with _ | version <;> rcases otherVersion with _ | otherVersion
  · rfl
  · exact (nil_lt_cons _ _).cmp_eq_lt.trans (nonempty _).cmp_eq_lt.symm
  · exact (nil_lt_cons _ _).cmp_eq_gt.trans (nonempty _).cmp_eq_gt.symm
  · exact cmp_append_left [0]

/-- The parts of a versioned key determine it. -/
theorem mvccEncode_congr (same : versionBytes descending version =
    versionBytes descending otherVersion) :
    mvccEncode key version descending = mvccEncode key otherVersion descending := by
  have stamps : timestamp descending version = timestamp descending otherVersion := by
    rw [← cmp_eq_eq_iff, cmp_timestamp_eq, same, cmp_self_eq_eq]
  rw [mvccEncode_eq, mvccEncode_eq, stamps]

theorem orderedBy_mvccKeyCompare :
    OrderedBy mvccKeyCompare (KeyOfDatabase descending) versionedPlace where
  compare_eq := by
    rintro first second (⟨key, version, fromStore, -, rfl⟩ | metadata)
      (⟨other, otherVersion, otherFromStore, -, rfl⟩ | otherMetadata)
    · rw [mvccEncode_eq, mvccEncode_eq,
        mvccKeyCompare_stamped length_timestamp_lt length_timestamp_lt, ← mvccEncode_eq,
        ← mvccEncode_eq, versionedPlace_mvccEncode, versionedPlace_mvccEncode, cmp_toLex,
        cmp_timestamp_eq]
    · rw [mvccKeyCompare_of_split_none (.inr (metadata_spec second otherMetadata).1),
        (lt_mvccEncode_of_metadata otherMetadata fromStore).cmp_eq_gt,
        (versionedPlace_metadata_lt otherMetadata fromStore).cmp_eq_gt]
    · rw [mvccKeyCompare_of_split_none (.inl (metadata_spec first metadata).1),
        (lt_mvccEncode_of_metadata metadata otherFromStore).cmp_eq_lt,
        (versionedPlace_metadata_lt metadata otherFromStore).cmp_eq_lt]
    · rw [mvccKeyCompare_of_split_none (.inl (metadata_spec first metadata).1),
        versionedPlace_metadata metadata, versionedPlace_metadata otherMetadata, cmp_toLex]
      cases cmp first second <;> rfl
  injective := by
    rintro first second (⟨key, version, fromStore, -, rfl⟩ | metadata)
      (⟨other, otherVersion, otherFromStore, -, rfl⟩ | otherMetadata) same
    · rw [versionedPlace_mvccEncode, versionedPlace_mvccEncode] at same
      obtain ⟨rfl, sameBytes⟩ := Prod.mk.inj (toLex.injective same)
      exact mvccEncode_congr sameBytes
    · exact absurd same (versionedPlace_metadata_lt otherMetadata fromStore).ne'
    · exact absurd same (versionedPlace_metadata_lt metadata otherFromStore).ne
    · rw [versionedPlace_metadata metadata, versionedPlace_metadata otherMetadata] at same
      exact (Prod.mk.inj (toLex.injective same)).1

/-- Either comparer orders the keys of a database. -/
theorem orderedBy_comparer (descending useDefaultComparer : Bool) :
    OrderedBy (comparer useDefaultComparer) (KeyOfDatabase descending)
      (place useDefaultComparer) := by
  cases useDefaultComparer with
  | false => exact orderedBy_mvccKeyCompare
  | true =>
    refine ⟨fun {first second} _ _ => ?_, fun _ _ same => (Prod.mk.inj (toLex.injective same)).1⟩
    change cmp first second = cmp (toLex (first, [])) (toLex (second, []))
    rw [cmp_toLex]
    cases cmp first second <;> rfl

/-- The metadata comes before all versioned keys. -/
theorem comparer_metadata (useDefaultComparer : Bool)
    (metadata : bytes ∈ metadataKeys) (fromStore : prefixStore ≤ key) :
    comparer useDefaultComparer bytes (mvccEncode key version descending) = .lt := by
  have less : bytes < mvccEncode key version descending :=
    lt_mvccEncode_of_metadata metadata fromStore
  cases useDefaultComparer with
  | false =>
    refine (mvccKeyCompare_of_split_none (.inl (metadata_spec bytes metadata).1)).trans ?_
    exact less.cmp_eq_lt
  | true => exact less.cmp_eq_lt

/-! ### What Pebble needs of a comparer -/

/-- The part of a key that its versions share, and the rest of it. -/
def sharedPart (bytes : Bytes) : Bytes := bytes.take (splitLength bytes)

def versionPart (bytes : Bytes) : Bytes := bytes.drop (splitLength bytes)

/-- What Pebble asks of a comparer and its `Split` on the keys it is given: a total order in which
a shared part comes before the keys that have it, the shared parts are in the order of the keys,
and keys with one shared part are in the order of their rests. -/
structure PebbleComparer (compare : Bytes → Bytes → Ordering) (domain : Bytes → Prop) : Prop where
  eq_iff : ∀ {first second}, domain first → domain second →
    (compare first second = .eq ↔ first = second)
  swap : ∀ {first second}, domain first → domain second →
    (compare first second).swap = compare second first
  trans : ∀ {first second third}, domain first → domain second → domain third →
    compare first second = .lt → compare second third = .lt → compare first third = .lt
  sharedPart_sharedPart : ∀ {bytes}, domain bytes → sharedPart (sharedPart bytes) = sharedPart bytes
  sharedPart_first : ∀ {bytes}, domain bytes → compare (sharedPart bytes) bytes ≠ .gt
  sharedPart_mono : ∀ {first second}, domain first → domain second →
    compare first second ≠ .gt → compare (sharedPart first) (sharedPart second) ≠ .gt
  compare_of_sharedPart_eq : ∀ {first second}, domain first → domain second →
    sharedPart first = sharedPart second →
      compare first second = cmp (versionPart first) (versionPart second)

theorem splitLength_mvccEncode :
    splitLength (mvccEncode key version descending) = key.length + 1 := by
  rw [splitLength, splitMVCCKey_mvccEncode]

theorem sharedPart_mvccEncode :
    sharedPart (mvccEncode key version descending) = mvccEncode key 0 descending := by
  rw [sharedPart, splitLength_mvccEncode, mvccEncode, mvccEncode]
  simp [take_append, take_of_length_le, versionSuffix]

theorem versionPart_mvccEncode :
    versionPart (mvccEncode key version descending) = versionSuffix descending version := by
  rw [versionPart, splitLength_mvccEncode, mvccEncode]
  simp [drop_append]

theorem sharedPart_metadata (metadata : bytes ∈ metadataKeys) : sharedPart bytes = bytes := by
  rw [sharedPart, splitLength, (metadata_spec bytes metadata).1, take_length]

theorem KeyOfDatabase.sharedPart (inDatabase : KeyOfDatabase descending bytes) :
    KeyOfDatabase descending (sharedPart bytes) ∧
      Mvcc.sharedPart (Mvcc.sharedPart bytes) = Mvcc.sharedPart bytes ∧
        versionedPlace (Mvcc.sharedPart bytes) = toLex ((ofLex (versionedPlace bytes)).1, []) := by
  rcases inDatabase with ⟨key, -, fromStore, -, rfl⟩ | metadata
  · rw [sharedPart_mvccEncode, sharedPart_mvccEncode, versionedPlace_mvccEncode,
      versionedPlace_mvccEncode]
    exact ⟨.inl ⟨key, 0, fromStore, Nat.zero_le _, rfl⟩, rfl, rfl⟩
  · rw [sharedPart_metadata metadata, sharedPart_metadata metadata,
      versionedPlace_metadata metadata]
    exact ⟨.inr metadata, rfl, rfl⟩

theorem pebbleComparer_mvccKeyCompare :
    PebbleComparer mvccKeyCompare (KeyOfDatabase descending) where
  eq_iff firstIn secondIn := by
    rw [orderedBy_mvccKeyCompare.compare_eq firstIn secondIn, cmp_eq_eq_iff]
    exact ⟨orderedBy_mvccKeyCompare.injective firstIn secondIn, congrArg _⟩
  swap firstIn secondIn := by
    rw [orderedBy_mvccKeyCompare.compare_eq firstIn secondIn,
      orderedBy_mvccKeyCompare.compare_eq secondIn firstIn, cmp_swap]
  trans firstIn secondIn thirdIn := by
    rw [orderedBy_mvccKeyCompare.compare_eq firstIn secondIn,
      orderedBy_mvccKeyCompare.compare_eq secondIn thirdIn,
      orderedBy_mvccKeyCompare.compare_eq firstIn thirdIn, cmp_eq_lt_iff, cmp_eq_lt_iff,
      cmp_eq_lt_iff]
    exact lt_trans
  sharedPart_sharedPart inDatabase := inDatabase.sharedPart.2.1
  sharedPart_first {bytes} inDatabase := by
    obtain ⟨sharedIn, -, sharedPlace⟩ := inDatabase.sharedPart
    rw [orderedBy_mvccKeyCompare.compare_eq sharedIn inDatabase, Ne, cmp_eq_gt_iff, not_lt,
      sharedPlace]
    exact Prod.Lex.toLex_le_toLex.mpr (.inr ⟨rfl, nil_le _⟩)
  sharedPart_mono {first second} firstIn secondIn := by
    obtain ⟨firstSharedIn, -, firstPlace⟩ := firstIn.sharedPart
    obtain ⟨secondSharedIn, -, secondPlace⟩ := secondIn.sharedPart
    rw [orderedBy_mvccKeyCompare.compare_eq firstIn secondIn,
      orderedBy_mvccKeyCompare.compare_eq firstSharedIn secondSharedIn, Ne, cmp_eq_gt_iff, not_lt,
      Ne, cmp_eq_gt_iff, not_lt, firstPlace, secondPlace]
    intro inOrder
    refine Prod.Lex.toLex_le_toLex.mpr ?_
    rcases Prod.Lex.le_iff.mp inOrder with less | ⟨same, -⟩
    · exact .inl less
    · exact .inr ⟨same, le_rfl⟩
  compare_of_sharedPart_eq := by
    rintro first second (⟨key, version, fromStore, -, rfl⟩ | metadata)
      (⟨other, otherVersion, otherFromStore, -, rfl⟩ | otherMetadata) same
    · rw [sharedPart_mvccEncode, sharedPart_mvccEncode] at same
      have sameKey : key = other := append_cancel_right same
      rw [sameKey, mvccEncode_eq, mvccEncode_eq,
        mvccKeyCompare_stamped length_timestamp_lt length_timestamp_lt, ← mvccEncode_eq,
        ← mvccEncode_eq, versionPart_mvccEncode, versionPart_mvccEncode, cmp_versionSuffix,
        cmp_self_eq_eq]
      rfl
    · rw [sharedPart_mvccEncode, sharedPart_metadata otherMetadata] at same
      exact absurd same (lt_mvccEncode_of_metadata otherMetadata fromStore).ne'
    · rw [sharedPart_mvccEncode, sharedPart_metadata metadata] at same
      exact absurd same (lt_mvccEncode_of_metadata metadata otherFromStore).ne
    · rw [sharedPart_metadata metadata, sharedPart_metadata otherMetadata] at same
      rw [same, mvccKeyCompare_of_split_none (.inl (metadata_spec second otherMetadata).1),
        cmp_self_eq_eq, cmp_self_eq_eq]

end SeiChain.StateStore.Mvcc
