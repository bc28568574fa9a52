/-
This file puts the seeks together: what an iterator of a database yields between
two bounds, forward and backward, in each of the two encodings. The result is that
of reading the keys between the bounds one by one, in order.
-/

import SeiChain.StateStore.Mvcc.Sources

namespace SeiChain.StateStore.Mvcc

open Library List

/-- The key lies between the bounds. -/
def InDomain (startKey endKey : Option Bytes) (key : Bytes) : Prop :=
  startKey.getD [] ≤ key ∧ ∀ stop ∈ endKey, key < stop

/-- The list has the keys of the domain that show a value, each with its value, in ascending or
descending order. -/
structure Yields (shown : Bytes → Option Bytes) (reverse : Bool) (startKey endKey : Option Bytes)
    (pairs : List (Bytes × Bytes)) : Prop where
  sorted : pairs.Pairwise fun first second =>
    if reverse then second.1 < first.1 else first.1 < second.1
  mem_iff : ∀ key value, (key, value) ∈ pairs ↔
    InDomain startKey endKey key ∧ shown key = some value

/-- Bounds that the database does not refuse. -/
def ValidBounds (startKey endKey : Option Bytes) : Prop :=
  startKey ≠ some [] ∧ endKey ≠ some [] ∧ ∀ start ∈ startKey, ∀ stop ∈ endKey, start ≤ stop

/-- The least user key of a source. -/
def lowerKey (storeKey : StoreKey) (startKey : Option Bytes) : Bytes :=
  prependStoreKey storeKey (startKey.getD [])

/-- The least user key behind a source, if that is bounded. -/
def upperKey (descending reverse : Bool) (storeKey : StoreKey) (endKey : Option Bytes) :
    Option Bytes :=
  match endKey with
  | some stop => some (prependStoreKey storeKey stop)
  | none => if descending || reverse then some (storeUpper storeKey) else none

/-- The comparer goes with the order of keys and versions on what an iterator sees. -/
def OrderlyIterator (db : Database) (rows : Rows Address Bytes) (reverse : Bool)
    (storeKey : StoreKey) (startKey endKey : Option Bytes) : Prop :=
  Orderly db rows (lowerKey storeKey startKey, 0)
    ((upperKey db.descending reverse storeKey endKey).map fun bound => (bound, 0))

variable {db : Database} {rows : Rows Address Bytes} {reverse : Bool} {storeKey : StoreKey}
  {version : Nat} {startKey endKey : Option Bytes} {entries : List Entry}
  {keys behind : List Bytes} {entry : Entry} {key : Bytes}

theorem iteratorUpperBound_eq : db.iteratorUpperBound reverse storeKey endKey =
    ((upperKey db.descending reverse storeKey endKey).map fun bound => (bound, 0)).map
      fun bound => mvccEncode bound.1 bound.2 db.descending := by
  unfold Database.iteratorUpperBound upperKey iteratorUpperBoundForStoreDescending
  cases endKey with
  | some => rfl
  | none =>
    rw [prefixEnd_storePrefix]
    cases isDescending : db.descending <;> cases reverse <;> rfl

theorem between_iff {descending : Bool} {lower : Bytes} {upper : Option Bytes} :
    Between descending (lower, 0) (upper.map fun bound => (bound, 0)) entry ↔
      lower ≤ entry.key ∧ ∀ bound ∈ upper, entry.key < bound := by
  refine and_congr ?_ ?_
  · rw [Entry.mark_le_mark]
    exact (or_congr_right (and_iff_left (Nat.zero_le _))).trans le_iff_lt_or_eq.symm
  · simp only [Option.mem_map, forall_exists_index, and_imp, forall_apply_eq_imp_iff₂]
    refine forall₂_congr fun bound _ => ?_
    rw [Entry.mark_lt_mark]
    exact or_iff_left fun both => absurd both.2 (Nat.not_lt_zero _)

theorem lowerKey_ge : storePrefix storeKey ≤ lowerKey storeKey startKey := le_append _ _

/-- A key of the store is in the domain if its user key is between the bounds. -/
theorem inDomain_iff (descending reverse : Bool) (storeKey : StoreKey) :
    InDomain startKey endKey key ↔ lowerKey storeKey startKey ≤ prependStoreKey storeKey key ∧
      ∀ bound ∈ upperKey descending reverse storeKey endKey,
        prependStoreKey storeKey key < bound := by
  refine and_congr (append_le_append_left_iff _).symm ?_
  cases endKey with
  | some =>
    simp only [upperKey, Option.mem_some_iff, forall_eq', prependStoreKey,
      append_lt_append_left_iff]
  | none =>
    have inStore : storePrefix storeKey <+: prependStoreKey storeKey key := prefix_append _ _
    have below := (storePrefix_isPrefix_iff.mp inStore).2
    simp only [upperKey]
    split <;> simp [below]

/-! ### What an iterator sees -/

/-- The entries and keys that an iterator sees. -/
structure Sees (db : Database) (rows : Rows Address Bytes) (reverse : Bool) (storeKey : StoreKey)
    (version : Nat) (startKey endKey : Option Bytes) (entries : List Entry)
    (keys behind : List Bytes) : Prop where
  listing : Listing (db.newIterator reverse storeKey version startKey endKey).source db.descending
    entries
  mem_entries : ∀ entry, entry ∈ entries ↔ IsStored rows entry ∧
    lowerKey storeKey startKey ≤ entry.key ∧
      ∀ bound ∈ upperKey db.descending reverse storeKey endKey, entry.key < bound
  agrees : ∀ entry ∈ entries, ∀ target ≤ maxInt64,
    Agrees (db.newIterator reverse storeKey version startKey endKey).source db.descending entries
      entry.key target
  keyList : KeyList entries (storePrefix storeKey) keys behind
  reads : Reads entries version keys (shownAt rows storeKey version)

theorem exists_sees (holds : db.Holds rows)
    (orderly : OrderlyIterator db rows reverse storeKey startKey endKey) (version : Nat) :
    ∃ entries keys behind,
      Sees db rows reverse storeKey version startKey endKey entries keys behind := by
  have fromStore : prefixStore ≤ lowerKey storeKey startKey := prefixStore_le_prependStoreKey _ _
  obtain ⟨entries, listing, mem_between⟩ := holds.listing fromStore orderly
  have mem_entries := fun entry => (mem_between entry).trans (and_congr_right fun _ => between_iff)
  have source_eq : (db.newIterator reverse storeKey version startKey endKey).source =
      db.newIter (mvccEncode (lowerKey storeKey startKey) 0 db.descending)
        (((upperKey db.descending reverse storeKey endKey).map fun bound => (bound, 0)).map
          fun bound => mvccEncode bound.1 bound.2 db.descending) := by
    rw [← iteratorUpperBound_eq]
    rfl
  obtain ⟨keys, behind, keyList⟩ := listing.keyList fun entry member =>
    lowerKey_ge.trans ((mem_entries entry).mp member).2.1
  refine ⟨entries, keys, behind, ?_, mem_entries, fun entry member target fits other isOther => ?_,
    keyList, ?_⟩
  · rwa [source_eq]
  · obtain ⟨stored, between⟩ := (mem_between entry).mp member
    obtain ⟨otherStored, otherBetween⟩ := (mem_between other).mp isOther
    exact orderly.between other entry otherStored stored otherBetween between target fits
  · refine reads_shownAt (fun entry member => ((mem_entries entry).mp member).1) ?_
      keyList.fromStore
    intro key visited other stored sameKey _
    obtain ⟨entry, member, rfl⟩ := (keyList.mem_iff key).mp (mem_append_left behind visited)
    refine (mem_entries other).mpr ⟨stored, ?_⟩
    rw [sameKey]
    exact ((mem_entries entry).mp member).2

section Seen

variable (sees : Sees db rows reverse storeKey version startKey endKey entries keys behind)

include sees

/-- The keys of the store that an iterator sees. -/
theorem Sees.mem_keys : key ∈ keys ↔ storePrefix storeKey <+: key ∧
    ∃ entry ∈ entries, entry.key = key := by
  constructor
  · intro member
    exact ⟨sees.keyList.fromStore key member,
      (sees.keyList.mem_iff key).mp (mem_append_left behind member)⟩
  · rintro ⟨inStore, isKey⟩
    refine (mem_append.mp ((sees.keyList.mem_iff key).mpr isKey)).resolve_right fun foreign => ?_
    exact sees.keyList.foreign key foreign inStore

/-- Behind a bounded source there is nothing. -/
theorem Sees.behind_eq_nil (bounded : (upperKey db.descending reverse storeKey endKey).isSome) :
    behind = [] := by
  refine eq_nil_iff_forall_not_mem.mpr fun key member => ?_
  refine sees.keyList.foreign key member ?_
  obtain ⟨entry, isEntry, rfl⟩ := (sees.keyList.mem_iff key).mp (mem_append_right keys member)
  obtain ⟨-, notBelow, below⟩ := (sees.mem_entries entry).mp isEntry
  refine storePrefix_isPrefix_iff.mpr ⟨lowerKey_ge.trans notBelow, ?_⟩
  obtain ⟨bound, isBound⟩ := Option.isSome_iff_exists.mp bounded
  refine (below bound isBound).trans_le ?_
  unfold upperKey at isBound
  cases endKey with
  | some =>
    cases isBound
    exact (storePrefix_isPrefix_iff.mp (prefix_append _ _)).2.le
  | none =>
    simp only at isBound
    split at isBound
    · cases isBound
      exact le_rfl
    · cases isBound

theorem Sees.beforeEnd : ∀ key ∈ keys,
    ∀ stop ∈ endKey, key.drop (storePrefix storeKey).length < stop := by
  intro key member stop isEnd
  obtain ⟨⟨rest, rfl⟩, entry, isEntry, sameKey⟩ := sees.mem_keys.mp member
  obtain ⟨-, -, below⟩ := (sees.mem_entries entry).mp isEntry
  rw [drop_left]
  cases isEnd
  have := below (prependStoreKey storeKey stop) rfl
  rw [sameKey] at this
  exact (append_lt_append_left_iff _).mp this

/-- Reading the keys one by one gives what should be yielded. -/
theorem Sees.yields (base : Iterator) (samePrefix : base.storePrefix = storePrefix storeKey) :
    Yields (fun key => rows.read (storeKey, key) version) reverse startKey endKey
      (yielded base (shownAt rows storeKey version) (if reverse then keys.reverse else keys)) := by
  -- the keys without the prefix of the store
  have inImage : ∀ key ∈ keys, ∃ rest, InDomain startKey endKey rest ∧
      key = prependStoreKey storeKey rest := by
    intro key member
    obtain ⟨⟨rest, rfl⟩, entry, isEntry, sameKey⟩ := sees.mem_keys.mp member
    have between := ((sees.mem_entries entry).mp isEntry).2
    rw [sameKey] at between
    exact ⟨rest, (inDomain_iff db.descending reverse storeKey).mpr between, rfl⟩
  obtain ⟨rests, keys_eq, inDomain⟩ := exists_map_eq inImage
  have yielded_eq : yielded base (shownAt rows storeKey version)
      (if reverse then keys.reverse else keys) = (if reverse then rests.reverse else rests).filterMap
        fun key => (rows.read (storeKey, key) version).map fun value => (key, value) := by
    rw [keys_eq, ← map_reverse, ← apply_ite (List.map _), yielded, filterMap_map]
    refine filterMap_congr fun key _ => ?_
    simp [samePrefix, shownAt, prependStoreKey]
  rw [yielded_eq]
  constructor
  case sorted =>
    have sorted := (pairwise_append.mp sees.keyList.sorted).1
    rw [keys_eq, pairwise_map] at sorted
    have visiting : (if reverse then rests.reverse else rests).Pairwise fun first second =>
        if reverse then second < first else first < second := by
      have less := sorted.imp (append_lt_append_left_iff _).mp
      cases reverse with
      | false => exact less
      | true => exact pairwise_reverse.mpr less
    refine pairwise_filterMap.mpr (visiting.imp fun less _ isFirst _ isSecond => ?_)
    obtain ⟨_, _, rfl⟩ := Option.map_eq_some_iff.mp isFirst
    obtain ⟨_, _, rfl⟩ := Option.map_eq_some_iff.mp isSecond
    exact less
  case mem_iff =>
    intro key value
    have visited : key ∈ (if reverse then rests.reverse else rests) ↔ key ∈ rests := by
      split <;> simp
    rw [mem_filterMap]
    constructor
    · rintro ⟨_, member, isPair⟩
      obtain ⟨_, isRead, ⟨⟩⟩ := Option.map_eq_some_iff.mp isPair
      exact ⟨inDomain key (visited.mp member), isRead⟩
    · rintro ⟨isInside, isRead⟩
      obtain ⟨old, -, written⟩ := Rows.exists_of_read isRead
      have member : prependStoreKey storeKey key ∈ keys := sees.mem_keys.mpr ⟨prefix_append _ _,
        entryOf (((storeKey, key), old), some value), (sees.mem_entries _).mpr
          ⟨⟨_, written, rfl⟩, (inDomain_iff db.descending reverse storeKey).mp isInside⟩, rfl⟩
      rw [keys_eq] at member
      obtain ⟨_, isRest, same⟩ := mem_map.mp member
      obtain rfl := append_cancel_left same
      exact ⟨_, visited.mpr isRest, by rw [isRead]; rfl⟩

/-- The row that a new iterator begins with is one of the first key it visits. -/
theorem Sees.begins (noneBehind : (keys = [] ∨ reverse = true) → behind = []) :
    (if reverse then keys.reverse else keys) = [] ∧
        (db.newIterator reverse storeKey version startKey endKey).firstPosition = [] ∨
      ∃ (entry : Entry) (rest : List (Bytes × Bytes)) (after : List Bytes), 0 < entry.version ∧
        (if reverse then keys.reverse else keys) = entry.key :: after ∧
          (db.newIterator reverse storeKey version startKey endKey).firstPosition =
            entry.row db.descending :: rest := by
  cases reverse with
  | false =>
    have position_eq : (db.newIterator false storeKey version startKey endKey).firstPosition =
        entries.map (Entry.row db.descending) := sees.listing.rows_eq
    have first := sees.listing.head_key sees.keyList.sorted sees.keyList.mem_iff
    rw [position_eq]
    cases keys with
    | nil =>
      rw [noneBehind (.inl rfl)] at first
      have empty : entries = [] := by simpa using first
      exact .inl ⟨rfl, by rw [empty]; rfl⟩
    | cons key keys =>
      cases entries with
      | nil => cases first
      | cons entry entries =>
        have sameKey : entry.key = key := Option.some.inj first
        exact .inr ⟨entry, entries.map (Entry.row db.descending), keys,
          (sees.listing.fits entry mem_cons_self).1, by rw [sameKey]; rfl, rfl⟩
  | true =>
    have position_eq : (db.newIterator true storeKey version startKey endKey).firstPosition =
        entries.getLast?.toList.map (Entry.row db.descending) :=
      Cursor.position_last sees.listing.rows_eq
    have last := sees.listing.getLast_key sees.keyList.sorted sees.keyList.mem_iff
    rw [noneBehind (.inr rfl)] at last
    rw [position_eq]
    rcases eq_nil_or_concat' entries with rfl | ⟨front, entry, rfl⟩
    · have empty : keys = [] := by simpa using last.symm
      exact .inl ⟨by simp [empty], rfl⟩
    · rcases eq_nil_or_concat' keys with rfl | ⟨keyFront, key, rfl⟩
      · simp at last
      · have sameKey : entry.key = key := by simpa using last
        exact .inr ⟨entry, [], keyFront.reverse, (sees.listing.fits entry (by simp)).1,
          by simp [sameKey], by simp⟩

/-- Using up an iterator that walks over the keys it sees. -/
theorem Sees.iterate {ready : List (Bytes × Bytes) → Bytes → Prop}
    (valid : ValidBounds startKey endKey) (notPruned : db.earliestVersion ≤ version)
    (walk : Walk (db.newIterator reverse storeKey version startKey endKey)
      (if reverse then keys.reverse else keys) (shownAt rows storeKey version) ready)
    (noneBehind : (keys = [] ∨ reverse = true) → behind = []) :
    ∃ pairs, db.iterate reverse storeKey version startKey endKey = .ok pairs ∧
      Yields (fun key => rows.read (storeKey, key) version) reverse startKey endKey pairs := by
  have few : (if reverse then keys.reverse else keys).length ≤
      (db.newIterator reverse storeKey version startKey endKey).source.rows.length := by
    have fewKeys : keys.length ≤
        (db.newIterator reverse storeKey version startKey endKey).source.rows.length :=
      KeyList.length_le sees.listing sees.keyList
    cases reverse <;> simpa using fewKeys
  obtain ⟨itr, start_eq, positioned⟩ := walk.start few notPruned (sees.begins noneBehind)
  have iterator_eq : db.iterator reverse storeKey version startKey endKey = .ok itr := by
    obtain ⟨startGiven, endGiven, inOrder⟩ := valid
    have notReversed : ¬ ∃ start ∈ startKey, ∃ stop ∈ endKey, stop < start := by
      rintro ⟨start, isStart, stop, isStop, less⟩
      exact absurd (inOrder start isStart stop isStop) (not_le.mpr less)
    rw [Database.iterator, if_neg (not_or.mpr ⟨startGiven, endGiven⟩), if_neg notReversed, start_eq]
  have fuel_eq : itr.fuel = (db.newIterator reverse storeKey version startKey endKey).fuel := by
    rcases positioned with ⟨position, rfl, -⟩ | ⟨position, -, key, -, rfl, -⟩ <;> rfl
  refine ⟨_, ?_, sees.yields (db.newIterator reverse storeKey version startKey endKey) rfl⟩
  rw [Database.iterate, iterator_eq]
  refine walk.drain few (nil_append _).symm positioned ?_
  rw [fuel_eq]
  exact Nat.lt_succ_of_le few

end Seen

/-! ### The iterators -/

theorem tells_of_versions (usesVersions : db.useDefaultComparer = false)
    (fits : entry.version ≤ maxInt64) {target : Bytes} (targetFits : version ≤ maxInt64) :
    Tells db entry target version := by
  rw [Tells, Database.compare, usesVersions]
  exact mvccKeyCompare_mvccEncode fits targetFits

theorem orderly_of_versions (holds : db.Holds rows) (usesVersions : db.useDefaultComparer = false)
    {lower : Bytes × Nat} {upper : Option (Bytes × Nat)} (lowerFits : lower.2 ≤ maxInt64)
    (upperFits : ∀ bound ∈ upper, bound.2 ≤ maxInt64) : Orderly db rows lower upper where
  atLower _ stored := tells_of_versions usesVersions (stored.fits holds).2 lowerFits
  atUpper _ stored bound isBound :=
    tells_of_versions usesVersions (stored.fits holds).2 (upperFits bound isBound)
  between _ _ stored _ _ _ _ fits := tells_of_versions usesVersions (stored.fits holds).2 fits

theorem orderlyIterator_of_versions (holds : db.Holds rows)
    (usesVersions : db.useDefaultComparer = false) :
    OrderlyIterator db rows reverse storeKey startKey endKey :=
  orderly_of_versions holds usesVersions (Nat.zero_le _) fun bound isBound => by
    obtain ⟨-, -, rfl⟩ := Option.mem_map.mp isBound
    exact Nat.zero_le _

section Seen

variable (sees : Sees db rows reverse storeKey version startKey endKey entries keys behind)

include sees

/-- Seeking the keys that a descending iterator sees. -/
theorem Sees.sought_descending (isDescending : db.descending = true) (fits : version ≤ maxInt64) :
    ∀ key ∈ keys, (db.newIterator reverse storeKey version startKey endKey).Finds entries key := by
  intro key member
  obtain ⟨-, entry, isEntry, rfl⟩ := sees.mem_keys.mp member
  have listing := sees.listing
  have agrees := sees.agrees entry isEntry version fits
  rw [isDescending] at listing agrees
  exact Mvcc.sought_descending isDescending listing agrees

theorem Sees.sought_ascending (isAscending : db.descending = false) (fits : version ≤ maxInt64)
    (below : ∀ entry ∈ entries, entry.version < maxInt64) :
    ∀ key ∈ keys, (db.newIterator reverse storeKey version startKey endKey).Finds entries key := by
  intro key member
  obtain ⟨-, entry, isEntry, rfl⟩ := sees.mem_keys.mp member
  have upperFits : upperVersion version ≤ maxInt64 := by
    unfold upperVersion
    split <;> omega
  have listing := sees.listing
  have agrees := sees.agrees entry isEntry (upperVersion version) upperFits
  rw [isAscending] at listing agrees
  exact Mvcc.sought_ascending isAscending listing below agrees

/-- Going backward, in either encoding. -/
theorem Sees.walk_backward (backward : reverse = true)
    (sought : ∀ key ∈ keys,
      (db.newIterator reverse storeKey version startKey endKey).Finds entries key) :
    Walk (db.newIterator reverse storeKey version startKey endKey) keys.reverse
      (shownAt rows storeKey version) fun _ _ => True := by
  refine Mvcc.walk_backward sees.listing sees.keyList sees.beforeEnd backward sees.reads sought ?_
  intro key member position valid
  obtain ⟨-, entry, isEntry, rfl⟩ := sees.mem_keys.mp member
  refine prevLogicalKey_leads sees.listing (sees.agrees entry isEntry _ ?_)
  split
  · exact le_rfl
  · exact Nat.zero_le _

end Seen

/-- Bounds that are not valid are refused. -/
theorem iterate_refused (refused : ¬ ValidBounds startKey endKey) :
    ∃ failure, db.iterate reverse storeKey version startKey endKey = .error failure := by
  rw [Database.iterate, Database.iterator]
  by_cases empty : startKey = some [] ∨ endKey = some []
  · exact ⟨.keyEmpty, by rw [if_pos empty]; rfl⟩
  · have reversed : ∃ start ∈ startKey, ∃ stop ∈ endKey, stop < start := by
      by_contra inOrder
      rw [not_or] at empty
      refine refused ⟨empty.1, empty.2, fun start isStart stop isStop => ?_⟩
      exact not_lt.mp fun less => inOrder ⟨start, isStart, stop, isStop, less⟩
    exact ⟨.startAfterEnd, by rw [if_neg empty, if_pos reversed]; rfl⟩

end SeiChain.StateStore.Mvcc
