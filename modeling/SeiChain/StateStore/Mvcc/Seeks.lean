/-
This file shows what the seeks of the iterators do on rows that stand in the order
of their user keys and versions. Seeking a key finds the newest row that is not
newer than the iterator's version, newest first and oldest first alike. The seeks
that advance lead to the neighbouring key, with one exception: the scan that is
used under plain byte order starts from where the last seek left the source, and
leads to the next key only if that was a row of the key it leaves.
-/

import Mathlib.Data.List.Perm.Subperm
import SeiChain.StateStore.Mvcc.Walk

namespace SeiChain.StateStore.Mvcc

open Library List Entry Iterator

variable (source : Cursor Bytes Bytes) (descending : Bool)

/-- Where an entry stands. -/
def Entry.mark (entry : Entry) : Bytes ×ₗ Nat := Mvcc.mark descending entry.key entry.version

variable (entries : List Entry)

/-- The comparer of a source does with a target what the order of keys and versions does. -/
def Agrees (target : Bytes) (version : Nat) : Prop :=
  ∀ entry ∈ entries,
    source.compare (entry.row descending).1 (mvccEncode target version descending) =
      cmp (entry.mark descending) (mark descending target version)

/-- The rows of a source are those of the entries, in the order of keys and versions. -/
structure Listing : Prop where
  rows_eq : source.rows = entries.map (row descending)
  sorted : entries.Pairwise fun first second => first.mark descending < second.mark descending
  fits : ∀ entry ∈ entries, 0 < entry.version ∧ entry.version ≤ maxInt64

variable (version : Nat)

/-- The entry is the newest of its key that is not newer than `version`. -/
def Newest (entry : Entry) : Prop :=
  entry ∈ entries ∧ entry.version ≤ version ∧
    ∀ other ∈ entries, other.key = entry.key → other.version ≤ version →
      other.version ≤ entry.version

/-- No entry of the key is old enough. -/
def Unborn (key : Bytes) : Prop := ∀ entry ∈ entries, entry.key = key → version < entry.version

/-- What the keys show at a version. -/
structure Reads (keys : List Bytes) (shown : Bytes → Option Bytes) : Prop where
  newest : ∀ entry, Newest entries version entry → entry.key ∈ keys → shown entry.key = entry.value
  unborn : ∀ key ∈ keys, Unborn entries version key → shown key = none

variable {source : Cursor Bytes Bytes} {descending : Bool} {entries under beyond : List Entry}
  {entry other : Entry} {target key : Bytes} {version : Nat}

/-! ### The order of entries -/

theorem Entry.mark_lt_mark : entry.mark descending < Mvcc.mark descending target version ↔
    entry.key < target ∨ entry.key = target ∧
      rank descending entry.version < rank descending version :=
  Prod.Lex.toLex_lt_toLex

theorem Entry.mark_le_mark : Mvcc.mark descending target version ≤ entry.mark descending ↔
    target < entry.key ∨ target = entry.key ∧
      rank descending version ≤ rank descending entry.version :=
  Prod.Lex.toLex_le_toLex

theorem key_le_of_mark_le {otherVersion : Nat}
    (le : mark descending key version ≤ mark descending target otherVersion) : key ≤ target := by
  rcases Prod.Lex.toLex_le_toLex.mp le with less | ⟨same, -⟩
  · exact less.le
  · exact same.le

theorem mark_lt_descending {newer older : Nat} (positive : 0 < older) (newerPositive : 0 < newer)
    (fits : newer ≤ maxInt64) : mark true key newer < mark true key older ↔ older < newer := by
  simp only [maxInt64] at fits
  simp only [mark, Prod.Lex.toLex_lt_toLex, lt_irrefl, true_and, false_or, rank, positive.ne',
    newerPositive.ne', if_true, if_false]
  omega

theorem mark_lt_ascending {older newer : Nat} :
    mark false key older < mark false key newer ↔ older < newer := by
  simp only [mark, Prod.Lex.toLex_lt_toLex, lt_irrefl, true_and, false_or, rank,
    Bool.false_eq_true, if_false]
  split_ifs <;> omega

section

variable (agrees : Agrees source descending entries target version)

include agrees

theorem Agrees.compares :
    ∀ entry ∈ entries,
      source.compare (entry.row descending).1 (mvccEncode target version descending) = .lt ↔
        entry.mark descending < mark descending target version := by
  intro entry member
  rw [agrees entry member, cmp_eq_lt_iff]

theorem Listing.seekGE (listing : Listing source descending entries) :
    ∃ under beyond, entries = under ++ beyond ∧
      (source.seekGE (mvccEncode target version descending)).position =
          beyond.map (row descending) ∧
        (∀ entry ∈ under, entry.mark descending < mark descending target version) ∧
          ∀ entry ∈ beyond, mark descending target version ≤ entry.mark descending :=
  Cursor.seekGE_cut listing.rows_eq listing.sorted agrees.compares

theorem Listing.seekLT (listing : Listing source descending entries) :
    ((source.seekLT (mvccEncode target version descending)).position = [] ∧
        ∀ entry ∈ entries, mark descending target version ≤ entry.mark descending) ∨
      ∃ under entry beyond, entries = under ++ entry :: beyond ∧
        (source.seekLT (mvccEncode target version descending)).position =
            (entry :: beyond).map (row descending) ∧
          (∀ other ∈ under ++ [entry], other.mark descending < mark descending target version) ∧
            ∀ other ∈ beyond, mark descending target version ≤ other.mark descending :=
  Cursor.seekLT_cut listing.rows_eq listing.sorted agrees.compares

end

/-! ### Seeking the visible row of a key -/

theorem visible_row {itr : Iterator} (positive : 0 < entry.version)
    (fits : entry.version ≤ maxInt64) :
    itr.visible key (some (entry.row itr.descending)) =
      decide (entry.key = key ∧ entry.version ≤ itr.version) := by
  rw [visible]
  simp only [splitMVCCKey_row positive, decode_encodeVersion fits]
  by_cases sameKey : entry.key = key <;> simp [sameKey]

/-- What seeking a key finds. -/
inductive Sought (entries : List Entry) (descending : Bool) (version : Nat) (key : Bytes) :
    List (Bytes × Bytes) → Bool → Prop
  | found {under beyond : List Entry} {entry : Entry} (split : entries = under ++ entry :: beyond)
      (sameKey : entry.key = key) (newest : Newest entries version entry) :
      Sought entries descending version key ((entry :: beyond).map (row descending)) true
  | missing {position : List (Bytes × Bytes)} (unborn : Unborn entries version key) :
      Sought entries descending version key position false

/-- The rows in front of the source after it sought a key. -/
def Iterator.soughtRows (base : Iterator) (key : Bytes) : List (Bytes × Bytes) :=
  if base.descending then (base.source.seekGE (mvccEncodeDescending key base.version)).position
  else (base.source.seekLT (base.visibleVersionUpperBound key)).position

/-- What seeking a key finds among the entries. -/
def Iterator.Finds (base : Iterator) (entries : List Entry) (key : Bytes) : Prop :=
  Sought entries base.descending base.version key (base.soughtRows key)
    (base.visible key (base.soughtRows key).head?)

variable {base : Iterator}

theorem seekVisibleVersionForKey_placedAt (position : List (Bytes × Bytes))
    (valid : Bool) : (base.placedAt position valid).seekVisibleVersionForKey key =
      base.placedAt (base.soughtRows key) (base.visible key (base.soughtRows key).head?) := by
  obtain ⟨-, -, -, -, -, -, -, descending⟩ := base
  cases descending <;> rfl

/-- The entry is what the key shows, if any entry of the key is old enough. -/
def Leading (entries : List Entry) (version : Nat) (key : Bytes) (entry : Entry) : Prop :=
  ∀ other ∈ entries, other.key = key → other.version ≤ version →
    (entry.key = key ∧ entry.version ≤ version) ∧ other.version ≤ entry.version

section

variable (leading : Leading entries version key entry)

include leading

theorem Leading.newest (member : entry ∈ entries)
    (isVisible : entry.key = key ∧ entry.version ≤ version) : Newest entries version entry :=
  ⟨member, isVisible.2, fun other isOther sameKey oldEnough =>
    (leading other isOther (sameKey.trans isVisible.1) oldEnough).2⟩

theorem Leading.unborn (notVisible : ¬ (entry.key = key ∧ entry.version ≤ version)) :
    Unborn entries version key := by
  intro other isOther sameKey
  by_contra oldEnough
  exact notVisible (leading other isOther sameKey (not_lt.mp oldEnough)).1

end

section

variable (split : entries = under ++ entry :: beyond)

include split

theorem Leading.finds (leading : Leading entries base.version key entry)
    (listing : Listing base.source descending entries) (direction : base.descending = descending)
    (rows_eq : base.soughtRows key = (entry :: beyond).map (row descending)) :
    base.Finds entries key := by
  subst direction
  have member : entry ∈ entries := by simp [split]
  obtain ⟨positive, fits⟩ := listing.fits entry member
  have visible_eq : base.visible key ((entry :: beyond).map (row base.descending)).head? =
      decide (entry.key = key ∧ entry.version ≤ base.version) := visible_row positive fits
  rw [Iterator.Finds, rows_eq, visible_eq]
  by_cases isVisible : entry.key = key ∧ entry.version ≤ base.version
  · rw [decide_eq_true isVisible]
    exact .found split isVisible.1 (leading.newest member isVisible)
  · rw [decide_eq_false isVisible]
    exact .missing (leading.unborn isVisible)

/-- Newest first, the entry behind a cut at the version leads. -/
theorem Listing.leading_descending (listing : Listing source true entries)
    (isBelow : ∀ other ∈ under, other.mark true < mark true key version)
    (isAbove : mark true key version ≤ entry.mark true) : Leading entries version key entry := by
  rintro other isOther rfl oldEnough
  obtain ⟨otherPositive, otherFits⟩ := listing.fits other isOther
  obtain ⟨positive, fits⟩ := listing.fits entry (by simp [split])
  have versionPositive := lt_of_lt_of_le otherPositive oldEnough
  have sorted := listing.sorted
  rw [split, pairwise_append, pairwise_cons] at sorted
  rw [split, mem_append, mem_cons] at isOther
  rcases isOther with passed | rfl | later
  · have newer := (mark_lt_descending versionPositive otherPositive otherFits).mp
      (isBelow other passed)
    exact absurd oldEnough (not_le.mpr newer)
  · exact ⟨⟨rfl, oldEnough⟩, le_rfl⟩
  · have less := sorted.2.1.1 other later
    -- the entry is between the cut and an entry of the key, so it is one of the key
    have sameKey : entry.key = other.key :=
      le_antisymm (key_le_of_mark_le less.le) (key_le_of_mark_le isAbove)
    rw [Entry.mark, sameKey] at less isAbove
    have notNewer := mt (mark_lt_descending versionPositive positive fits).mpr (not_lt.mpr isAbove)
    exact ⟨⟨sameKey, not_lt.mp notNewer⟩,
      ((mark_lt_descending otherPositive positive fits).mp less).le⟩

/-- The version in front of which an iterator over ascending versions looks. -/
def upperVersion (version : Nat) : Nat := if version < maxInt64 then version + 1 else version

omit split in
theorem lt_upperVersion (below : entry.version < maxInt64) :
    entry.version < upperVersion version ↔ entry.version ≤ version := by
  unfold upperVersion
  split <;> omega

/-- Oldest first, the entry before a cut behind the version leads. -/
theorem Listing.leading_ascending (listing : Listing source false entries)
    (below : ∀ entry ∈ entries, entry.version < maxInt64)
    (isBelow : entry.mark false < mark false key (upperVersion version))
    (isAbove : ∀ other ∈ beyond, mark false key (upperVersion version) ≤ other.mark false) :
    Leading entries version key entry := by
  rintro other isOther rfl oldEnough
  have isUnder := (lt_upperVersion (below other isOther)).mpr oldEnough
  have entryBelow := below entry (by simp [split])
  have sorted := listing.sorted
  rw [split, pairwise_append] at sorted
  rw [split, mem_append, mem_cons] at isOther
  rcases isOther with before | rfl | behind
  · have less := sorted.2.2 other before entry mem_cons_self
    -- the entry is between an entry of the key and the cut, so it is one of the key
    have sameKey : entry.key = other.key :=
      le_antisymm (key_le_of_mark_le isBelow.le) (key_le_of_mark_le less.le)
    simp only [Entry.mark, sameKey, mark_lt_ascending] at less isBelow
    exact ⟨⟨sameKey, (lt_upperVersion entryBelow).mp isBelow⟩, less.le⟩
  · exact ⟨⟨rfl, oldEnough⟩, le_rfl⟩
  · exact absurd (mark_lt_ascending.mpr isUnder) (not_lt.mpr (isAbove other behind))

end

theorem sought_descending (isDescending : base.descending = true)
    (listing : Listing base.source true entries)
    (agrees : Agrees base.source true entries key base.version) : base.Finds entries key := by
  obtain ⟨under, beyond, split, position_eq, isBelow, isAbove⟩ := listing.seekGE agrees
  have rows_eq : base.soughtRows key = beyond.map (row true) := by
    rw [soughtRows, if_pos isDescending, position_eq]
  cases beyond with
  | nil =>
    rw [Iterator.Finds, rows_eq]
    refine .missing fun entry member sameKey => ?_
    subst sameKey
    obtain ⟨positive, fits⟩ := listing.fits entry member
    rw [split, append_nil] at member
    by_contra oldEnough
    exact oldEnough ((mark_lt_descending (by omega) positive fits).mp (isBelow entry member))
  | cons entry beyond =>
    have leading := listing.leading_descending split isBelow (isAbove entry mem_cons_self)
    exact leading.finds split listing isDescending rows_eq

theorem sought_ascending (isAscending : base.descending = false)
    (listing : Listing base.source false entries)
    (below : ∀ entry ∈ entries, entry.version < maxInt64)
    (agrees : Agrees base.source false entries key (upperVersion base.version)) :
    base.Finds entries key := by
  have rows_eq : base.soughtRows key =
      (base.source.seekLT (mvccEncode key (upperVersion base.version) false)).position := by
    rw [soughtRows, if_neg (by simp [isAscending])]
    rfl
  have cut := listing.seekLT agrees
  rw [← rows_eq] at cut
  rcases cut with ⟨empty, isAbove⟩ | ⟨under, entry, beyond, split, position_eq, isBelow, isAbove⟩
  · rw [Iterator.Finds, empty]
    refine .missing fun entry member sameKey => ?_
    subst sameKey
    by_contra oldEnough
    have isUnder := (lt_upperVersion (below entry member)).mpr (not_lt.mp oldEnough)
    exact absurd (mark_lt_ascending.mpr isUnder) (not_lt.mpr (isAbove entry member))
  · have leading := listing.leading_ascending split below (isBelow entry (by simp)) isAbove
    exact leading.finds split listing isAscending position_eq

/-! ### The keys of the rows -/

/-- The keys of the entries in order: first those of the store, then those behind it. -/
structure KeyList (entries : List Entry) (storePrefix : Bytes) (keys behind : List Bytes) :
    Prop where
  sorted : (keys ++ behind).Pairwise (· < ·)
  mem_iff : ∀ key, key ∈ keys ++ behind ↔ ∃ entry ∈ entries, entry.key = key
  fromStore : ∀ key ∈ keys, storePrefix <+: key
  foreign : ∀ key ∈ behind, ¬ storePrefix <+: key

theorem Listing.keys_sorted (listing : Listing source descending entries) :
    (entries.map Entry.key).Pairwise (· ≤ ·) :=
  pairwise_map.mpr (listing.sorted.imp fun less => key_le_of_mark_le less.le)

theorem Listing.keys_le (listing : Listing source descending entries)
    (split : entries = under ++ entry :: beyond) : ∀ other ∈ beyond, entry.key ≤ other.key := by
  intro other isOther
  have sorted := listing.keys_sorted
  rw [split, map_append, map_cons, pairwise_append, pairwise_cons] at sorted
  exact sorted.2.1.1 other.key (mem_map_of_mem isOther)

variable {all before after : List Bytes}

section

variable (listing : Listing source descending entries) (sorted : all.Pairwise (· < ·))
  (mem_iff : ∀ key, key ∈ all ↔ ∃ entry ∈ entries, entry.key = key)

include listing sorted mem_iff

/-- The keys of the entries on one side and those of the list on that side begin alike. -/
theorem Listing.head_filter (side : Bytes → Bool) :
    ((entries.map Entry.key).filter side).head? = (all.filter side).head? :=
  head?_eq_of_mem_iff le_antisymm (listing.keys_sorted.filter side)
    ((sorted.imp le_of_lt).filter side) fun key => by
      rw [mem_filter, mem_filter, mem_iff, mem_map]

theorem Listing.getLast_filter (side : Bytes → Bool) :
    ((entries.map Entry.key).filter side).getLast? = (all.filter side).getLast? :=
  getLast?_eq_of_mem_iff le_antisymm (listing.keys_sorted.filter side)
    ((sorted.imp le_of_lt).filter side) fun key => by
      rw [mem_filter, mem_filter, mem_iff, mem_map]

/-- The first row is one of the first key. -/
theorem Listing.head_key : entries.head?.map Entry.key = all.head? := by
  simpa using listing.head_filter sorted mem_iff fun _ => true

/-- The last row is one of the last key. -/
theorem Listing.getLast_key : entries.getLast?.map Entry.key = all.getLast? := by
  simpa using listing.getLast_filter sorted mem_iff fun _ => true

variable (keys_split : all = before ++ key :: after) (split : entries = under ++ beyond)

include keys_split split

/-- Behind the rows of a key the next key of the list begins. -/
theorem Listing.head_beyond (isUnder : ∀ entry ∈ under, entry.key ≤ key)
    (isOver : ∀ entry ∈ beyond, key < entry.key) :
    beyond.head?.map Entry.key = after.head? := by
  have begins := listing.head_filter sorted mem_iff (key < ·)
  rw [keys_split, pairwise_append, pairwise_cons] at sorted
  rw [split, keys_split, map_append, filter_append, filter_append,
    filter_cons_of_neg (by simp), filter_eq_nil_iff.mpr (by simpa using isUnder),
    filter_eq_self.mpr (by simpa using isOver),
    filter_eq_nil_iff.mpr fun other isBefore => by
      simpa using (sorted.2.2 other isBefore key mem_cons_self).le,
    filter_eq_self.mpr (by simpa using sorted.2.1.1)] at begins
  simpa using begins

/-- Before the rows of a key the previous key of the list ends. -/
theorem Listing.getLast_under (isUnder : ∀ entry ∈ under, entry.key < key)
    (isOver : ∀ entry ∈ beyond, key ≤ entry.key) :
    under.getLast?.map Entry.key = before.getLast? := by
  have ends := listing.getLast_filter sorted mem_iff (· < key)
  rw [keys_split, pairwise_append, pairwise_cons] at sorted
  rw [split, keys_split, map_append, filter_append, filter_append,
    filter_cons_of_neg (by simp), filter_eq_self.mpr (by simpa using isUnder),
    filter_eq_nil_iff.mpr (by simpa using isOver),
    filter_eq_self.mpr fun other isBefore => by
      simpa using sorted.2.2 other isBefore key mem_cons_self,
    filter_eq_nil_iff.mpr fun other isAfter => by
      simpa using (sorted.2.1.1 other isAfter).le] at ends
  simpa using ends

end

/-! ### Advancing -/

/-- A key that was found, if it is one of the store. -/
def ofStore (storePrefix : Bytes) (found : Option Bytes) : Option Bytes :=
  found.bind fun key => if storePrefix <+: key then some key else none

variable {position : List (Bytes × Bytes)} {valid : Bool}

theorem logicalKey_eq (positive : ∀ entry ∈ beyond, 0 < entry.version)
    (position_eq : source.position = beyond.map (row descending)) :
    base.logicalKey source = ofStore base.storePrefix (beyond.head?.map Entry.key) := by
  rw [logicalKey, Library.Cursor.current, position_eq]
  cases beyond with
  | nil => rfl
  | cons entry beyond =>
    simp only [map_cons, head?_cons, Option.map_some,
      splitMVCCKey_row (positive entry mem_cons_self), ofStore]
    by_cases inStore : base.storePrefix <+: entry.key <;> simp [inStore]

theorem scanLogicalKey_eq (descending : Bool) {storePrefix : Bytes} (inStore : storePrefix <+: key)
    (positive : ∀ entry ∈ beyond, 0 < entry.version) :
    scanLogicalKey storePrefix key (beyond.map (row descending)) =
      ((beyond.dropWhile fun entry => entry.key = key).map (row descending),
        ofStore storePrefix ((beyond.dropWhile fun entry => entry.key = key).head?.map Entry.key)) := by
  induction beyond with
  | nil => rfl
  | cons entry beyond ih =>
    have skipped := ih fun other member => positive other (mem_cons_of_mem entry member)
    rw [map_cons, scanLogicalKey]
    simp only [splitMVCCKey_row (positive entry mem_cons_self)]
    by_cases sameKey : entry.key = key
    · rw [if_neg (by simp [sameKey, inStore]), if_neg (by simp [sameKey]), skipped,
        dropWhile_cons_of_pos (by simp [sameKey])]
    · by_cases fromStore : storePrefix <+: entry.key <;> simp [fromStore, sameKey, ofStore]

/-- What advancing forward gives: the key behind a cut after the rows of `key`. -/
def LeadsForward (base : Iterator) (entries : List Entry) (key : Bytes)
    (advanced : Iterator × Option Bytes)
    (valid : Bool) : Prop :=
  ∃ under beyond moved, entries = under ++ beyond ∧ (∀ entry ∈ under, entry.key ≤ key) ∧
    (∀ entry ∈ beyond, key < entry.key) ∧
      advanced = (base.placedAt moved valid, ofStore base.storePrefix (beyond.head?.map Entry.key))

/-- What advancing backward gives: the key before a cut in front of the rows of `key`. -/
def LeadsBackward (base : Iterator) (entries : List Entry) (key : Bytes)
    (advanced : Iterator × Option Bytes)
    (valid : Bool) : Prop :=
  ∃ under beyond moved, entries = under ++ beyond ∧ (∀ entry ∈ under, entry.key < key) ∧
    (∀ entry ∈ beyond, key ≤ entry.key) ∧
      advanced = (base.placedAt moved valid, ofStore base.storePrefix (under.getLast?.map Entry.key))

theorem nextLogicalKey_successor (isDescending : base.descending = true)
    (usesVersions : base.useDefaultComparer = false) (listing : Listing base.source true entries)
    (agrees : Agrees base.source true entries (key ++ [0]) 0) :
    LeadsForward base entries key ((base.placedAt position valid).nextLogicalKey key) valid := by
  obtain ⟨under, beyond, split, position_eq, isBelow, isAbove⟩ := listing.seekGE agrees
  refine ⟨under, beyond, beyond.map (row true), split, fun entry passed => ?_,
    fun entry isOver => ?_, ?_⟩
  · rcases mark_lt_mark.mp (isBelow entry passed) with less | ⟨-, less⟩
    · exact not_lt.mp fun above => absurd less (not_lt.mpr (append_zero_le above))
    · exact absurd less (Nat.not_lt_zero _)
  · rcases mark_le_mark.mp (isAbove entry isOver) with less | ⟨same, -⟩
    · exact (lt_append_cons key 0).trans less
    · exact same ▸ lt_append_cons key 0
  · have seek_eq : (base.placedAt position valid).source.seekGE
        (immediateSuccessor (mvccEncodeDescending key 0)) =
          { base.source with position := beyond.map (row true) } := by
      rw [← position_eq]
      rfl
    unfold nextLogicalKey
    rw [if_pos (show (base.placedAt position valid).descending = true from isDescending),
      if_neg (by simp [placedAt, usesVersions])]
    rw [seek_eq]
    refine Prod.ext rfl (logicalKey_eq (fun entry isOver => ?_) rfl)
    exact (listing.fits entry (by simp [split, isOver])).1

/-- The scan leads to the next key if it starts on a row of the key it leaves. -/
theorem nextLogicalKey_scan (isDescending : base.descending = true)
    (usesBytes : base.useDefaultComparer = true) (listing : Listing base.source true entries)
    (inStore : base.storePrefix <+: key) (split : entries = under ++ entry :: beyond)
    (sameKey : entry.key = key)
    (position_eq : position = (entry :: beyond).map (row true)) :
    LeadsForward base entries key ((base.placedAt position valid).nextLogicalKey key) valid := by
  let isSame (other : Entry) : Bool := other.key = key
  have over_split : beyond = beyond.takeWhile isSame ++ beyond.dropWhile isSame :=
    takeWhile_append_dropWhile.symm
  have positive : ∀ entry ∈ beyond, 0 < entry.version := fun other isOver =>
    (listing.fits other (by simp [split, isOver])).1
  refine ⟨under ++ entry :: beyond.takeWhile isSame, beyond.dropWhile isSame,
    (beyond.dropWhile isSame).map (row true), ?_, fun other passed => ?_, ?_, ?_⟩
  · rw [append_assoc, cons_append, ← over_split, split]
  · rcases mem_append.mp passed with ahead | among
    · obtain ⟨front, rest, rfl⟩ := append_of_mem ahead
      exact (@Listing.keys_le _ _ _ front (rest ++ entry :: beyond) other listing (by simp [split])
        entry (by simp)).trans_eq sameKey
    · rcases mem_cons.mp among with rfl | among
      · exact sameKey.le
      · have same : isSame other = true := mem_takeWhile_imp among
        exact (of_decide_eq_true same).le
  · -- the first key that is not `key` is above it, and those behind are not below that one
    have stops := head?_dropWhile_not isSame beyond
    cases rest_eq : beyond.dropWhile isSame with
    | nil => exact forall_mem_nil _
    | cons first rest =>
      rw [rest_eq] at over_split stops
      have above : key < first.key := by
        refine lt_of_le_of_ne ?_ (Ne.symm (of_decide_eq_false stops))
        rw [← sameKey]
        exact listing.keys_le split first (by rw [over_split]; simp)
      refine forall_mem_cons.mpr ⟨above, fun other isOther => above.trans_le ?_⟩
      refine @Listing.keys_le _ _ _ (under ++ entry :: beyond.takeWhile isSame) rest first listing ?_
        other isOther
      rw [append_assoc, cons_append, ← over_split, split]
  · have scan := scanLogicalKey_eq true inStore positive
    unfold nextLogicalKey
    rw [if_pos (show (base.placedAt position valid).descending = true from isDescending),
      if_pos (show (base.placedAt position valid).useDefaultComparer = true from usesBytes),
      nextLogicalKeyByScan, scanFrom]
    simp only [placedAt, Library.Cursor.next, position_eq, map_cons, tail_cons, scan]
    rfl

theorem nextLogicalKey_ascending (isAscending : base.descending = false)
    (listing : Listing base.source false entries)
    (below : ∀ entry ∈ entries, entry.version < maxInt64) (inStore : base.storePrefix <+: key)
    (agrees : Agrees base.source false entries key maxInt64) :
    LeadsForward base entries key ((base.placedAt position valid).nextLogicalKey key) valid := by
  obtain ⟨under, beyond, split, position_eq, isBelow, isAbove⟩ := listing.seekGE agrees
  have behind : ∀ entry ∈ beyond, key < entry.key := by
    intro entry isOver
    refine lt_of_le_of_ne (key_le_of_mark_le (isAbove entry isOver)) ?_
    rintro rfl
    have isUnder := below entry (by simp [split, isOver])
    exact absurd (mark_lt_ascending.mpr isUnder) (not_lt.mpr (isAbove entry isOver))
  refine ⟨under, beyond, beyond.map (row false), split, fun entry passed => ?_, behind, ?_⟩
  · exact key_le_of_mark_le (isBelow entry passed).le
  · have positive : ∀ entry ∈ beyond, 0 < entry.version := fun other isOver =>
      (listing.fits other (by simp [split, isOver])).1
    have nothingSkipped : beyond.dropWhile (fun entry => entry.key = key) = beyond := by
      cases beyond with
      | nil => rfl
      | cons entry beyond =>
        exact dropWhile_cons_of_neg (by simpa using (behind entry mem_cons_self).ne')
    have scan := scanLogicalKey_eq false inStore positive
    rw [nothingSkipped] at scan
    unfold nextLogicalKey
    rw [if_neg (by simp [placedAt, isAscending]), scanFrom]
    have seek_eq : (base.placedAt position valid).source.seekGE (mvccEncodeAscending key maxInt64) =
        { base.source with position := beyond.map (row false) } := by
      rw [← position_eq]
      rfl
    rw [seek_eq]
    simp only [placedAt, scan]

theorem prevLogicalKey_leads (listing : Listing base.source base.descending entries)
    (agrees : Agrees base.source base.descending entries key
      (if base.descending then maxInt64 else 0)) :
    LeadsBackward base entries key ((base.placedAt position valid).prevLogicalKey key) valid := by
  have target : ∀ entry ∈ entries, entry.mark base.descending <
      mark base.descending key (if base.descending then maxInt64 else 0) ↔ entry.key < key := by
    intro entry member
    refine ⟨fun less => lt_of_le_of_ne (key_le_of_mark_le less.le) ?_,
      fun less => mark_lt_mark.mpr (.inl less)⟩
    rintro rfl
    obtain ⟨positive, fits⟩ := listing.fits entry member
    cases isDescending : base.descending with
    | false =>
      rw [isDescending] at less
      exact Nat.not_lt_zero _ (mark_lt_ascending.mp less)
    | true =>
      rw [isDescending] at less
      exact Nat.not_lt.mpr fits ((mark_lt_descending (by decide) positive fits).mp less)
  have seek_eq : (base.placedAt position valid).prevLogicalKey key =
      (base.placedAt (base.source.seekLT (mvccEncode key
        (if base.descending then maxInt64 else 0) base.descending)).position valid,
          base.logicalKey { base.source with
            position := (base.source.seekLT (mvccEncode key
              (if base.descending then maxInt64 else 0) base.descending)).position }) := by
    obtain ⟨-, -, -, -, -, -, -, descending⟩ := base
    cases descending <;> rfl
  rw [seek_eq]
  rcases listing.seekLT agrees with ⟨empty, isAbove⟩ |
    ⟨under, entry, beyond, split, position_eq, isBelow, isAbove⟩
  · refine ⟨[], entries, [], rfl, forall_mem_nil _, fun entry member => ?_, ?_⟩
    · exact not_lt.mp fun less =>
        absurd ((target entry member).mpr less) (not_lt.mpr (isAbove entry member))
    · rw [empty]
      rfl
  · refine ⟨under ++ [entry], beyond, (entry :: beyond).map (row base.descending), by simp [split],
      fun other passed => ?_, fun other isOver => ?_, ?_⟩
    · exact (target other (by rw [split]; simp at passed ⊢; tauto)).mp (isBelow other passed)
    · exact not_lt.mp fun less => absurd ((target other (by simp [split, isOver])).mpr less)
        (not_lt.mpr (isAbove other isOver))
    · rw [position_eq]
      have found := @logicalKey_eq
        { base.source with position := (entry :: beyond).map (row base.descending) }
        base.descending (entry :: beyond) base
        (fun other member => (listing.fits other (by rw [split]; simp at member ⊢; tauto)).1) rfl
      simpa using found

/-! ### Walks -/

section Walks

variable {shown : Bytes → Option Bytes} {keys behind : List Bytes}
  {ready : List (Bytes × Bytes) → Bytes → Prop}

section

variable (listing : Listing base.source base.descending entries)

include listing

/-- Seeking shows what the keys show. -/
theorem Sought.shows {sought : List (Bytes × Bytes)} {found : Bool}
    (reads : Reads entries base.version keys shown) (visited : key ∈ keys)
    (isSought : Sought entries base.descending base.version key sought found) :
    found = false ∧ shown key = none ∨ found = true ∧ Shows base shown sought key := by
  cases isSought with
  | missing unborn => exact .inl ⟨rfl, reads.unborn key visited unborn⟩
  | @found under beyond entry split sameKey newest =>
    obtain ⟨positive, fits⟩ := listing.fits entry newest.1
    refine .inr ⟨rfl, entry, beyond.map (row base.descending), rfl, sameKey, positive, fits,
      newest.2.1, ?_⟩
    rw [← sameKey]
    exact (reads.newest entry newest (sameKey ▸ visited)).symm

section

variable (keyList : KeyList entries base.storePrefix keys behind)

include keyList

omit listing in
theorem KeyList.ofStore_head (split : keys = before ++ key :: after) :
    ofStore base.storePrefix (after ++ behind).head? = after.head? := by
  cases after with
  | cons next after =>
    have inStore := keyList.fromStore next (by simp [split])
    simp [ofStore, inStore]
  | nil =>
    cases behind with
    | nil => rfl
    | cons foreign behind =>
      have notInStore := keyList.foreign foreign mem_cons_self
      simp [ofStore, notInStore]

section

variable (beforeEnd : ∀ key ∈ keys, ∀ endKey ∈ base.endKey, key.drop base.storePrefix.length < endKey)

include beforeEnd

/-- A forward walk over the keys of the store. -/
theorem walk_forward (forward : base.reverse = false)
    (reads : Reads entries base.version keys shown) (sought : ∀ key ∈ keys, base.Finds entries key)
    (isReady : ∀ key ∈ keys, ready (base.soughtRows key) key)
    (leads : ∀ key ∈ keys, ∀ position valid, ready position key →
      LeadsForward base entries key ((base.placedAt position valid).nextLogicalKey key) valid) :
    Walk base keys shown ready where
  seek key member position valid :=
    ⟨_, _, seekVisibleVersionForKey_placedAt position valid, isReady key member,
      (sought key member).shows listing reads member⟩
  advance before key after split position valid isReady := by
    obtain ⟨under, beyond, moved, entries_split, isUnder, isOver, advanced⟩ :=
      leads key (by simp [split]) position valid isReady
    refine ⟨moved, ?_⟩
    rw [advance, if_neg (by simp [forward]), advanced,
      listing.head_beyond keyList.sorted keyList.mem_iff
        (by rw [split, append_assoc, cons_append]) entries_split isUnder isOver,
      keyList.ofStore_head split]
  fromStore := keyList.fromStore
  beforeEnd := beforeEnd

/-- A backward walk over the keys of the store. -/
theorem walk_backward (backward : base.reverse = true)
    (reads : Reads entries base.version keys shown) (sought : ∀ key ∈ keys, base.Finds entries key)
    (leads : ∀ key ∈ keys, ∀ position valid,
      LeadsBackward base entries key ((base.placedAt position valid).prevLogicalKey key) valid) :
    Walk base keys.reverse shown fun _ _ => True where
  seek key member position valid :=
    ⟨_, _, seekVisibleVersionForKey_placedAt position valid, trivial,
      (sought key (mem_reverse.mp member)).shows listing reads (mem_reverse.mp member)⟩
  advance before key after split position valid _ := by
    have keys_split : keys = after.reverse ++ key :: before.reverse := by
      rw [← reverse_reverse keys, split]
      simp
    obtain ⟨under, beyond, moved, entries_split, isUnder, isOver, advanced⟩ :=
      leads key (by simp [keys_split]) position valid
    refine ⟨moved, ?_⟩
    rw [advance, if_pos backward, advanced,
      listing.getLast_under keyList.sorted keyList.mem_iff
        (by rw [keys_split, append_assoc, cons_append]) entries_split isUnder isOver]
    cases after with
    | nil => rfl
    | cons previous after =>
      have inStore := keyList.fromStore previous (by simp [keys_split])
      simp [ofStore, inStore]
  fromStore key member := keyList.fromStore key (mem_reverse.mp member)
  beforeEnd key member := beforeEnd key (mem_reverse.mp member)

end

theorem KeyList.length_le : keys.length ≤ base.source.rows.length := by
  have nodup : keys.Nodup := ((pairwise_append.mp keyList.sorted).1.imp fun less => less.ne)
  have subset : keys ⊆ entries.map key := by
    intro key member
    obtain ⟨entry, isEntry, rfl⟩ := (keyList.mem_iff key).mp (mem_append_left behind member)
    exact mem_map_of_mem isEntry
  have shorter := (subperm_of_subset nodup subset).length_le
  rw [listing.rows_eq]
  simpa using shorter

end

end

end Walks

end SeiChain.StateStore.Mvcc
