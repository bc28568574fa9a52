/-
This file models the keys of the versioned database and the comparer that Pebble
can be given for them (`comparator.go`). A row's key is the user key, a zero
byte, and for a positive version its eight bytes and a length byte. The version
counts down in new databases and up in old ones, so that the rows of one user
key stand newest first or oldest first.

The comparer orders encoded keys by the user key and then by the version. Plain
byte order does the same for two user keys unless the one continues the other
with a zero byte.
-/

import SeiChain.Library.ByteOrder

namespace SeiChain.StateStore.Mvcc

open Library List UInt8

/-- The largest version. -/
def maxInt64 : Nat := 2 ^ 63 - 1

inductive DecodeError where
  | insufficientBytes (got : Nat)
  | overflowsInt64 (value : Nat)
  deriving DecidableEq, Repr

variable (descending : Bool) (key : Bytes) (version : Nat)

def encodeUint64Ascending : Bytes := bigEndian 8 version

def encodeUint64Descending : Bytes := bigEndian 8 (2 ^ 64 - 1 - version)

variable (bytes : Bytes)

def decodeUint64Ascending : Except DecodeError Nat :=
  if bytes.length < 8 then .error (.insufficientBytes bytes.length)
  else
    let number := ofBigEndian (bytes.take 8)
    if maxInt64 < number then .error (.overflowsInt64 number) else .ok number

def decodeUint64Descending : Except DecodeError Nat :=
  if bytes.length < 8 then .error (.insufficientBytes bytes.length)
  else
    let number := 2 ^ 64 - 1 - ofBigEndian (bytes.take 8)
    if maxInt64 < number then .error (.overflowsInt64 number) else .ok number

/-- The bytes of a version, in one of the two encodings. -/
def encodeVersion : Bytes :=
  if descending then encodeUint64Descending version else encodeUint64Ascending version

def decodeVersion : Except DecodeError Nat :=
  if descending then decodeUint64Descending bytes else decodeUint64Ascending bytes

/-- The end of an encoded key: the bytes of a positive version and how many bytes they take
together with the zero byte in front of them. -/
def versionSuffix : Bytes := if 0 < version then encodeVersion descending version ++ [9] else []

def mvccEncode (descending : Bool) : Bytes := key ++ 0 :: versionSuffix descending version

abbrev mvccEncodeDescending : Bytes := mvccEncode key version true

abbrev mvccEncodeAscending : Bytes := mvccEncode key version false

/-- The user key and the version bytes of an encoded key. -/
def splitMVCCKey (mvccKey : Bytes) : Option (Bytes × Bytes) :=
  match mvccKey.getLast? with
  | none => none
  | some last =>
    let n := mvccKey.length - 1
    let tsLen := last.toNat
    if n < tsLen then none
    else some (mvccKey.take (n - tsLen),
      if 0 < tsLen then (mvccKey.take n).drop (n - tsLen + 1) else [])

def mvccKeyCompare (a b : Bytes) : Ordering :=
  match a.getLast?, b.getLast? with
  | some aLast, some bLast =>
    let aEnd := a.length - 1
    let bEnd := b.length - 1
    if aEnd < aLast.toNat ∨ bEnd < bLast.toNat then cmp a b
    else
      let aSep := aEnd - aLast.toNat
      let bSep := bEnd - bLast.toNat
      match cmp (a.take aSep) (b.take bSep) with
      | .lt => .lt
      | .gt => .gt
      | .eq =>
        let aTS := (a.take aEnd).drop aSep
        let bTS := (b.take bEnd).drop bSep
        if aTS = [] then if bTS = [] then .eq else .lt
        else if bTS = [] then .gt
        else cmp aTS bTS
  | _, _ => cmp a b

/-- The comparer's `Split`: how long the part of a key is that its versions share. -/
def splitLength : Nat :=
  match splitMVCCKey key with
  | none => key.length
  | some (userKey, _) => userKey.length + 1

/-- The comparer's `ImmediateSuccessor`, of a key without a version. -/
def immediateSuccessor : Bytes := key ++ [0]

variable {key other : Bytes} {version otherVersion : Nat} {descending : Bool}

/-! ### Versions -/

@[simp]
theorem length_encodeVersion : (encodeVersion descending version).length = 8 := by
  cases descending <;> exact length_bigEndian 8 _

theorem decode_encodeVersion (fits : version ≤ maxInt64) :
    decodeVersion descending (encodeVersion descending version) = .ok version := by
  have long : ¬ (encodeVersion descending version).length < 8 := by simp
  have small : ¬ maxInt64 < version := not_lt.mpr fits
  simp only [maxInt64] at fits
  cases descending with
  | true =>
    have read : ofBigEndian ((encodeVersion true version).take 8) = 2 ^ 64 - 1 - version := by
      exact ofBigEndian_bigEndian 8 _ (by omega)
    have back : 2 ^ 64 - 1 - (2 ^ 64 - 1 - version) = version := by omega
    rw [decodeVersion, if_pos rfl, decodeUint64Descending, if_neg long]
    simp only [read, back, if_neg small]
  | false =>
    have read : ofBigEndian ((encodeVersion false version).take 8) = version := by
      exact ofBigEndian_bigEndian 8 _ (by omega)
    rw [decodeVersion, if_neg (by decide), decodeUint64Ascending, if_neg long]
    simp only [read, if_neg small]

/-- Where a version stands among the versions of its key; a key without a version comes first. -/
def rank (descending : Bool) (version : Nat) : Nat :=
  if version = 0 then 0 else if descending then 2 ^ 64 - version else version

theorem cmp_encodeVersion (fits : version ≤ maxInt64) (otherFits : otherVersion ≤ maxInt64)
    (positive : 0 < version) (otherPositive : 0 < otherVersion) :
    cmp (encodeVersion descending version) (encodeVersion descending otherVersion) =
      cmp (rank descending version) (rank descending otherVersion) := by
  simp only [maxInt64] at fits otherFits
  cases descending with
  | false =>
    have bytes : cmp (bigEndian 8 version) (bigEndian 8 otherVersion) = cmp version otherVersion :=
      cmp_bigEndian 8 (by omega) (by omega)
    rw [rank, rank, if_neg positive.ne', if_neg otherPositive.ne']
    exact bytes
  | true =>
    have bytes : cmp (bigEndian 8 (2 ^ 64 - 1 - version)) (bigEndian 8 (2 ^ 64 - 1 - otherVersion)) =
        cmp (2 ^ 64 - 1 - version) (2 ^ 64 - 1 - otherVersion) :=
      cmp_bigEndian 8 (by omega) (by omega)
    have shifted : cmp (2 ^ 64 - 1 - version) (2 ^ 64 - 1 - otherVersion) =
        cmp (2 ^ 64 - version) (2 ^ 64 - otherVersion) := by
      rcases lt_trichotomy version otherVersion with less | rfl | more
      · rw [cmp_eq_gt_iff _ _ |>.mpr (by omega), cmp_eq_gt_iff _ _ |>.mpr (by omega)]
      · rw [cmp_self_eq_eq, cmp_self_eq_eq]
      · rw [cmp_eq_lt_iff _ _ |>.mpr (by omega), cmp_eq_lt_iff _ _ |>.mpr (by omega)]
    rw [rank, rank, if_neg positive.ne', if_neg otherPositive.ne']
    exact bytes.trans shifted

/-! ### Taking encoded keys apart -/

/-- The zero byte and the version bytes of an encoded key, nothing without a version. -/
def timestamp (descending : Bool) (version : Nat) : Bytes :=
  if 0 < version then 0 :: encodeVersion descending version else []

theorem length_timestamp_lt : (timestamp descending version).length < 256 := by
  unfold timestamp
  split <;> simp

theorem mvccEncode_eq : mvccEncode key version descending =
    key ++ timestamp descending version ++ [ofNat (timestamp descending version).length] := by
  unfold mvccEncode versionSuffix timestamp
  split <;> simp

section Parts

variable {stamp otherStamp : Bytes}

theorem getLast_stamped : (key ++ stamp ++ [ofNat stamp.length]).getLast? =
    some (ofNat stamp.length) := getLast?_concat

section

variable (short : stamp.length < 256)

include short

theorem length_stamped :
    (key ++ stamp ++ [ofNat stamp.length]).length - 1 - (ofNat stamp.length).toNat =
      key.length := by
  rw [toNat_ofNat', Nat.mod_eq_of_lt short]
  simp

theorem stamped_long :
    ¬ (key ++ stamp ++ [ofNat stamp.length]).length - 1 < (ofNat stamp.length).toNat := by
  rw [toNat_ofNat', Nat.mod_eq_of_lt short]
  simp

omit short in
theorem take_stamped : (key ++ stamp ++ [ofNat stamp.length]).take
    ((key ++ stamp ++ [ofNat stamp.length]).length - 1) = key ++ stamp := by
  rw [length_append, length_singleton, Nat.add_sub_cancel, take_left]

theorem splitMVCCKey_stamped :
    splitMVCCKey (key ++ stamp ++ [ofNat stamp.length]) = some (key, stamp.tail) := by
  have toNat : (ofNat stamp.length).toNat = stamp.length := by
    rw [toNat_ofNat', Nat.mod_eq_of_lt short]
  rw [splitMVCCKey, getLast_stamped]
  simp only [stamped_long short, length_stamped short, take_stamped, if_false]
  rw [toNat, append_assoc, take_left]
  cases stamp with
  | nil => rfl
  | cons zero stamp =>
    simp

theorem mvccKeyCompare_stamped (otherShort : otherStamp.length < 256) :
    mvccKeyCompare (key ++ stamp ++ [ofNat stamp.length])
        (other ++ otherStamp ++ [ofNat otherStamp.length]) =
      (cmp key other).then (cmp stamp otherStamp) := by
  rw [mvccKeyCompare, getLast_stamped, getLast_stamped]
  dsimp only
  rw [if_neg (not_or.mpr ⟨stamped_long short, stamped_long otherShort⟩), length_stamped short,
    length_stamped otherShort, take_stamped, take_stamped, drop_left, drop_left, append_assoc,
    take_left, append_assoc, take_left]
  cases cmp key other with
  | lt => rfl
  | gt => rfl
  | eq =>
    -- an empty stamp is the least one in the byte order as well
    cases stamp with
    | nil =>
      cases otherStamp with
      | nil => rfl
      | cons byte otherStamp => exact ((nil_lt_cons byte otherStamp).cmp_eq_lt).symm
    | cons byte stamp =>
      cases otherStamp with
      | nil => exact ((nil_lt_cons byte stamp).cmp_eq_gt).symm
      | cons otherByte otherStamp => rfl

end

end Parts

/-- The version bytes that splitting an encoded key gives. -/
def versionBytes (descending : Bool) (version : Nat) : Bytes :=
  if 0 < version then encodeVersion descending version else []

@[simp]
theorem splitMVCCKey_mvccEncode :
    splitMVCCKey (mvccEncode key version descending) =
      some (key, versionBytes descending version) := by
  rw [mvccEncode_eq, splitMVCCKey_stamped length_timestamp_lt, timestamp, versionBytes]
  split <;> rfl

/-! ### The order of encoded keys -/

/-- Where an encoded key stands: first its user key counts, then its version. -/
def mark (descending : Bool) (key : Bytes) (version : Nat) : Bytes ×ₗ Nat :=
  toLex (key, rank descending version)

theorem cmp_timestamp (fits : version ≤ maxInt64) (otherFits : otherVersion ≤ maxInt64) :
    cmp (timestamp descending version) (timestamp descending otherVersion) =
      cmp (rank descending version) (rank descending otherVersion) := by
  have rank_pos : ∀ {some : Nat}, some ≤ maxInt64 → 0 < some → 0 < rank descending some := by
    intro some small positive
    unfold rank
    simp only [maxInt64] at small
    split_ifs <;> omega
  have rank_zero : rank descending 0 = 0 := rfl
  rcases Nat.eq_zero_or_pos version with rfl | positive
  · rcases Nat.eq_zero_or_pos otherVersion with rfl | otherPositive
    · rw [cmp_self_eq_eq, cmp_self_eq_eq]
    · rw [rank_zero, (rank_pos otherFits otherPositive).cmp_eq_lt, timestamp, timestamp, if_pos otherPositive]
      exact (nil_lt_cons _ _).cmp_eq_lt
  · rcases Nat.eq_zero_or_pos otherVersion with rfl | otherPositive
    · rw [rank_zero, (rank_pos fits positive).cmp_eq_gt, timestamp, if_pos positive]
      exact (nil_lt_cons _ _).cmp_eq_gt
    · rw [timestamp, timestamp, if_pos positive, if_pos otherPositive,
        ← cmp_encodeVersion fits otherFits positive otherPositive]
      exact cmp_append_left [0]

/-- The comparer orders encoded keys by user key and version, whatever the user keys are. -/
theorem mvccKeyCompare_mvccEncode (fits : version ≤ maxInt64)
    (otherFits : otherVersion ≤ maxInt64) :
    mvccKeyCompare (mvccEncode key version descending) (mvccEncode other otherVersion descending) =
      cmp (mark descending key version) (mark descending other otherVersion) := by
  rw [mvccEncode_eq, mvccEncode_eq,
    mvccKeyCompare_stamped length_timestamp_lt length_timestamp_lt,
    cmp_timestamp fits otherFits, mark, mark, cmp_toLex]

theorem cmp_versionSuffix :
    cmp (versionSuffix descending version) (versionSuffix descending otherVersion) =
      cmp (timestamp descending version) (timestamp descending otherVersion) := by
  have ended (bytes : Bytes) : [] < bytes ++ [9] := lt_of_le_of_lt (nil_le _) (lt_append_cons _ 9)
  rcases version with _ | version <;> rcases otherVersion with _ | otherVersion
  · rfl
  · exact (ended _).cmp_eq_lt.trans (nil_lt_cons _ _).cmp_eq_lt.symm
  · exact (ended _).cmp_eq_gt.trans (nil_lt_cons _ _).cmp_eq_gt.symm
  · exact (cmp_append_right (by simp)).trans (cmp_append_left [0]).symm

/-- Neither key is continued by the other with a zero byte where a version follows it. -/
def Apart (key : Bytes) (version : Nat) (other : Bytes) (otherVersion : Nat) : Prop :=
  (0 < version → ¬ (key ++ [0]) <+: other) ∧ (0 < otherVersion → ¬ (other ++ [0]) <+: key)

/-- Plain byte order does the same for keys that are apart. -/
theorem cmp_mvccEncode (fits : version ≤ maxInt64) (otherFits : otherVersion ≤ maxInt64)
    (apart : Apart key version other otherVersion) :
    cmp (mvccEncode key version descending) (mvccEncode other otherVersion descending) =
      cmp (mark descending key version) (mark descending other otherVersion) := by
  rw [mark, mark, cmp_toLex, ← cmp_timestamp fits otherFits]
  have noSuffix : ∀ {some : Nat}, ¬ 0 < some → versionSuffix descending some = [] :=
    fun zero => if_neg zero
  rcases eq_or_ne key other with rfl | different
  · rw [cmp_self_eq_eq, mvccEncode, mvccEncode, cmp_append_left, ← cmp_versionSuffix]
    exact cmp_append_left [0]
  · have decided : cmp key other ≠ .eq := fun same => different ((cmp_eq_eq_iff _ _).mp same)
    rw [mvccEncode, mvccEncode, cmp_terminated different]
    · cases order : cmp key other with
      | eq => exact absurd order decided
      | lt => rfl
      | gt => rfl
    · rcases Nat.eq_zero_or_pos version with rfl | positive
      · exact .inl (noSuffix (lt_irrefl 0))
      · exact .inr (apart.1 positive)
    · rcases Nat.eq_zero_or_pos otherVersion with rfl | positive
      · exact .inl (noSuffix (lt_irrefl 0))
      · exact .inr (apart.2 positive)

end SeiChain.StateStore.Mvcc
