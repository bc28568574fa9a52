/-
This file models the Pebble-backed hash vault. The database is a map of byte strings
that takes batches. Every batch is synced, so a write that succeeds is durable. A write
that returns an error has left nothing behind; a commit that fails inside Pebble ends
the process instead, and is one of the crashes of the execution loop. The rows are an
encoding of abstract records: a boundary and a hash for some of the heights from it on.
The row of a height is under the height in twenty decimal digits and holds the hash with
a checksum over both. These rows are in the order of the heights, so one range deletion
removes exactly the heights below a boundary.
-/

import SeiChain.Library.Decimal

namespace SeiChain.HashVault

open Library List

/-! ### Keys -/

/-- The digits of the largest number of 64 bits. -/
def heightDigits : Nat := 20

def hashKeyPrefix : Bytes := [104]

/-- The text `prune_boundary`. -/
def pruneBoundaryKey : Bytes := [112, 114, 117, 110, 101, 95, 98, 111, 117, 110, 100, 97, 114, 121]

def appendHeight (dst : Bytes) (height : Nat) : Bytes := dst ++ decimalDigits heightDigits height

def hashKey (height : Nat) : Bytes := appendHeight hashKeyPrefix height

theorem lt_pow_heightDigits {height : Nat} (fits : height < 2 ^ 64) :
    height < 10 ^ heightDigits := fits.trans (by decide)

theorem hashKey_inj {first second : Nat} (fits : first < 2 ^ 64) (alsoFits : second < 2 ^ 64)
    (same : hashKey first = hashKey second) : first = second :=
  decimalDigits_inj (lt_pow_heightDigits fits) (lt_pow_heightDigits alsoFits)
    (append_cancel_left same)

theorem hashKey_lt_iff {first second : Nat} (fits : first < 2 ^ 64) (alsoFits : second < 2 ^ 64) :
    hashKey first < hashKey second ↔ first < second := by
  rw [hashKey, hashKey, appendHeight, appendHeight, append_lt_append_left_iff,
    decimalDigits_lt_iff (lt_pow_heightDigits fits) (lt_pow_heightDigits alsoFits)]

theorem hashKey_zero_le {height : Nat} (fits : height < 2 ^ 64) : hashKey 0 ≤ hashKey height := by
  rw [← not_lt, hashKey_lt_iff fits (by decide)]
  exact Nat.not_lt_zero height

theorem hashKey_ne_pruneBoundaryKey (height : Nat) : hashKey height ≠ pruneBoundaryKey := by
  intro same
  exact absurd (List.cons.inj same).1 (by decide)

/-! ### Values -/

/-- SHA-256, of which the vault only uses that its sums have one length. -/
structure Checksum where
  sum : Bytes → Bytes
  length_sum : ∀ bytes, (sum bytes).length = 32

def checksumSize : Nat := 32

variable (sha256 : Checksum)

def hashChecksum (height : Nat) (hash : Bytes) : Bytes := sha256.sum (bigEndian 8 height ++ hash)

def encodeHashValue (height : Nat) (hash : Bytes) : Bytes := hash ++ hashChecksum sha256 height hash

/-- The hash in a row, or nothing if the row is corrupt. -/
def decodeHashValue (height : Nat) (raw : Bytes) : Option Bytes :=
  if raw.length < checksumSize then none
  else
    let hash := raw.take (raw.length - checksumSize)
    let trailer := raw.drop (raw.length - checksumSize)
    if trailer = hashChecksum sha256 height hash then some hash else none

theorem decodeHashValue_encodeHashValue (height : Nat) (hash : Bytes) :
    decodeHashValue sha256 height (encodeHashValue sha256 height hash) = some hash := by
  have length : (encodeHashValue sha256 height hash).length = hash.length + checksumSize := by
    rw [encodeHashValue, length_append, hashChecksum, sha256.length_sum, checksumSize]
  rw [decodeHashValue, length, if_neg (by omega), Nat.add_sub_cancel, encodeHashValue,
    take_left, drop_left, if_pos rfl]

def encodeBoundaryValue (boundary : Nat) : Bytes := decimal heightDigits boundary

/-- The boundary in its row, or nothing if the row is corrupt. -/
def decodeBoundaryValue (raw : Bytes) : Option Nat :=
  if raw.length = 0 ∨ raw.length > heightDigits then none
  else
    match parseDecimal raw with
    | some boundary => if boundary < 2 ^ 64 then some boundary else none
    | none => none

theorem decodeBoundaryValue_encodeBoundaryValue {boundary : Nat} (fits : boundary < 2 ^ 64) :
    decodeBoundaryValue (encodeBoundaryValue boundary) = some boundary := by
  have length : 0 < (decimal heightDigits boundary).length ∧
      (decimal heightDigits boundary).length ≤ heightDigits := length_decimal (by decide) boundary
  rw [decodeBoundaryValue, encodeBoundaryValue, if_neg (by omega),
    parseDecimal_decimal (lt_pow_heightDigits fits)]
  exact if_pos fits

/-! ### The database -/

abbrev Database := Bytes → Option Bytes

/-- The operations of a batch; the end of a deleted range is exclusive. -/
inductive Operation where
  | set (key value : Bytes)
  | deleteRange (start stop : Bytes)

variable (db : Database)

def Operation.apply : Operation → Database
  | set key value => fun other => if other = key then some value else db other
  | deleteRange start stop => fun key => if start ≤ key ∧ key < stop then none else db key

/-- What the vault writes: the hash of a height, or a new boundary with the deletion of what is
below it. -/
inductive Write where
  | record (height : Nat) (hash : Bytes)
  | prune (boundary : Nat)
  deriving DecidableEq

def Write.batch : Write → List Operation
  | record height hash => [.set (hashKey height) (encodeHashValue sha256 height hash)]
  | prune boundary =>
    [.set pruneBoundaryKey (encodeBoundaryValue boundary),
      .deleteRange (hashKey 0) (hashKey boundary)]

def Write.apply (sha256 : Checksum) (db : Database) (write : Write) : Database :=
  (write.batch sha256).foldl Operation.apply db

/-! ### The vault -/

inductive VaultError where
  | cancelled
  | belowPruneBoundary
  | invalidHashLength
  | hashMismatch
  | readFailed
  | writeFailed
  | corruption
  deriving DecidableEq, Repr

/-- The memory of an open vault. The cache has the latest entries first. -/
structure Vault where
  pruneBoundary : Nat
  cache : List (Nat × Bytes)

/-- What the environment does to a call. -/
structure Conditions where
  cancelled : Bool
  readOk : Bool
  writeOk : Bool
  deriving DecidableEq, Repr

def blockHashSize : Nat := 32

/-- `Get` of the cache, which makes the entry the latest one. -/
def cacheGet (cache : List (Nat × Bytes)) (height : Nat) : Option (Bytes × List (Nat × Bytes)) :=
  (cache.find? fun entry => entry.1 = height).map fun entry =>
    (entry.2, entry :: cache.filter fun other => other.1 ≠ height)

/-- `Add` of the cache, which drops the oldest entry when there are too many. -/
def cacheAdd (size : Nat) (cache : List (Nat × Bytes)) (height : Nat) (hash : Bytes) :
    List (Nat × Bytes) :=
  ((height, hash) :: cache.filter fun other => other.1 ≠ height).take size

/-- The boundary that a database has, if its row is not corrupt. -/
def storedBoundary : Option Nat :=
  match db pruneBoundaryKey with
  | none => some 0
  | some raw => decodeBoundaryValue raw

def loadPruneBoundary (readOk : Bool) : Except VaultError Nat :=
  if readOk then
    match storedBoundary db with
    | some boundary => .ok boundary
    | none => .error .corruption
  else .error .readFailed

/-- `CommitToHash`, with what it leaves in memory and on disk. -/
def commitToHash (cacheSize : Nat) (conditions : Conditions) (vault : Vault) (height : Nat)
    (hash : Bytes) : Except VaultError Unit × Vault × Database :=
  if conditions.cancelled then (.error .cancelled, vault, db)
  else if height < vault.pruneBoundary then (.error .belowPruneBoundary, vault, db)
  else if hash.length ≠ blockHashSize then (.error .invalidHashLength, vault, db)
  else
    match cacheGet vault.cache height with
    | some (cached, cache) =>
      if cached ≠ hash then (.error .hashMismatch, { vault with cache }, db)
      else (.ok (), { vault with cache }, db)
    | none =>
      if ¬ conditions.readOk then (.error .readFailed, vault, db)
      else
        match db (hashKey height) with
        | none =>
          if conditions.writeOk then
            (.ok (), { vault with cache := cacheAdd cacheSize vault.cache height hash },
              (Write.record height hash).apply sha256 db)
          else (.error .writeFailed, vault, db)
        | some raw =>
          match decodeHashValue sha256 height raw with
          | none => (.error .corruption, vault, db)
          | some existing =>
            if existing ≠ hash then (.error .hashMismatch, vault, db)
            else
              (.ok (), { vault with cache := cacheAdd cacheSize vault.cache height existing }, db)

/-- `Prune`, with what it leaves in memory and on disk. -/
def prune (conditions : Conditions) (vault : Vault) (boundary : Nat) :
    Except VaultError Unit × Vault × Database :=
  if conditions.cancelled then (.error .cancelled, vault, db)
  else if boundary ≤ vault.pruneBoundary then (.ok (), vault, db)
  else if conditions.writeOk then
    (.ok (), { vault with pruneBoundary := boundary }, (Write.prune boundary).apply sha256 db)
  else (.error .writeFailed, vault, db)

/-! ### The records that the rows stand for -/

structure Records where
  boundary : Nat
  hashes : Nat → Option Bytes

def Records.empty : Records := { boundary := 0, hashes := fun _ => none }

def Write.applyRecords (records : Records) : Write → Records
  | record height hash =>
    { records with hashes := fun other => if other = height then some hash else records.hashes other }
  | prune boundary =>
    { boundary, hashes := fun height => if height < boundary then none else records.hashes height }

/-- The rows of a database are those of the records. -/
structure Refines (records : Records) : Prop where
  rows : ∀ height < 2 ^ 64,
    db (hashKey height) = (records.hashes height).map (encodeHashValue sha256 height)
  boundary : storedBoundary db = some records.boundary

variable {sha256 : Checksum} {db : Database} {records : Records}

theorem apply_record (height : Nat) (hash key : Bytes) :
    (Write.record height hash).apply sha256 db key =
      if key = hashKey height then some (encodeHashValue sha256 height hash) else db key := rfl

theorem apply_prune (boundary : Nat) (key : Bytes) :
    (Write.prune boundary).apply sha256 db key =
      if hashKey 0 ≤ key ∧ key < hashKey boundary then none
      else if key = pruneBoundaryKey then some (encodeBoundaryValue boundary) else db key := rfl

/-- The number that a write is about has 64 bits. -/
def Write.Fits : Write → Prop
  | record number _ | prune number => number < 2 ^ 64

theorem Refines.write {write : Write} (refines : Refines sha256 db records) (fits : write.Fits) :
    Refines sha256 (write.apply sha256 db) (write.applyRecords records) := by
  cases write with
  | record height hash =>
    refine ⟨fun other otherFits => ?_, refines.boundary⟩
    rw [apply_record]
    by_cases same : other = height
    · subst same
      simp [Write.applyRecords]
    · rw [if_neg fun keys => same (hashKey_inj otherFits fits keys), refines.rows other otherFits]
      simp [Write.applyRecords, same]
  | prune boundary =>
    refine ⟨fun height heightFits => ?_, ?_⟩
    · rw [apply_prune, if_neg (hashKey_ne_pruneBoundaryKey height), refines.rows height heightFits]
      by_cases below : height < boundary
      · rw [if_pos ⟨hashKey_zero_le heightFits, (hashKey_lt_iff heightFits fits).mpr below⟩]
        simp [Write.applyRecords, below]
      · rw [if_neg fun both => below ((hashKey_lt_iff heightFits fits).mp both.2)]
        simp [Write.applyRecords, below]
    · rw [storedBoundary]
      exact decodeBoundaryValue_encodeBoundaryValue fits

theorem Refines.empty : Refines sha256 (fun _ => none) .empty := ⟨fun _ _ => rfl, rfl⟩

variable (records) {boundary height : Nat}

theorem hashes_prune (above : boundary ≤ height) :
    ((Write.prune boundary).applyRecords records).hashes height = records.hashes height :=
  if_neg (not_lt.mpr above)

theorem hashes_record_self (height : Nat) (hash : Bytes) :
    ((Write.record height hash).applyRecords records).hashes height = some hash := if_pos rfl

theorem hashes_record_of_ne {other : Nat} (hash : Bytes) (ne : other ≠ height) :
    ((Write.record height hash).applyRecords records).hashes other = records.hashes other :=
  if_neg ne

variable {records}

/-! ### What the calls do -/

/-- The memory of the vault is that of the given records. Entries below the boundary may stay in
the cache; they are not looked up. -/
structure Agrees (vault : Vault) (records : Records) : Prop where
  boundary : vault.pruneBoundary = records.boundary
  cached : ∀ entry ∈ vault.cache, records.boundary ≤ entry.1 → records.hashes entry.1 = some entry.2

/-- Why `CommitToHash` returns an error. -/
def Refusal (conditions : Conditions) (records : Records) (height : Nat) (hash : Bytes) :
    VaultError → Prop
  | .cancelled => conditions.cancelled = true
  | .belowPruneBoundary => height < records.boundary
  | .invalidHashLength => hash.length ≠ blockHashSize
  | .hashMismatch => ∃ recorded, records.hashes height = some recorded ∧ recorded ≠ hash
  | .readFailed => conditions.readOk = false
  | .writeFailed => conditions.writeOk = false
  | .corruption => False

/-- What `CommitToHash` answers, given the records that it found and those that it leaves. -/
def Answered (conditions : Conditions) (records left : Records) (height : Nat) (hash : Bytes) :
    Except VaultError Unit → Prop
  | .ok () => left.boundary ≤ height ∧ left.hashes height = some hash
  | .error error => Refusal conditions records height hash error

/-- No write replaces a hash or moves the boundary back. -/
def Write.Allowed (records : Records) : Write → Prop
  | record height _ => records.hashes height = none
  | prune boundary => records.boundary < boundary

/-- What a call can leave that may make a write. -/
inductive Effect (sha256 : Checksum) (db : Database) (records : Records) (write : Write) :
    Vault × Database → Records → Prop
  | unchanged {after : Vault} (agrees : Agrees after records) :
      Effect sha256 db records write (after, db) records
  | written {after : Vault} (allowed : write.Allowed records)
      (agrees : Agrees after (write.applyRecords records)) :
      Effect sha256 db records write (after, write.apply sha256 db) (write.applyRecords records)

theorem Effect.refines {write : Write} {result : Vault × Database} {left : Records}
    (effect : Effect sha256 db records write result left) (refines : Refines sha256 db records)
    (fits : write.Fits) : Refines sha256 result.2 left ∧ Agrees result.1 left := by
  cases effect with
  | unchanged agrees => exact ⟨refines, agrees⟩
  | written _ agrees => exact ⟨refines.write fits, agrees⟩

variable {vault : Vault} {conditions : Conditions} {hash : Bytes}
  {cache after : List (Nat × Bytes)} {cached : Bytes}

theorem mem_of_cacheGet (got : cacheGet cache height = some (cached, after)) :
    (height, cached) ∈ cache ∧ ∀ entry ∈ after, entry ∈ cache := by
  rw [cacheGet, Option.map_eq_some_iff] at got
  obtain ⟨entry, found, same⟩ := got
  cases same
  have member := mem_of_find?_eq_some found
  have atHeight : entry.1 = height := by simpa using find?_some found
  refine ⟨atHeight ▸ member, fun other otherMember => ?_⟩
  rcases mem_cons.mp otherMember with rfl | kept
  · exact member
  · exact (mem_filter.mp kept).1

theorem mem_of_cacheAdd {size : Nat} {entry : Nat × Bytes}
    (member : entry ∈ cacheAdd size cache height hash) :
    entry = (height, hash) ∨ (entry ∈ cache ∧ entry.1 ≠ height) := by
  rcases mem_cons.mp (mem_of_mem_take member) with same | kept
  · exact .inl same
  · exact .inr (by simpa using mem_filter.mp kept)

section

variable (agrees : Agrees vault records)

include agrees

theorem Agrees.cacheGet (got : cacheGet vault.cache height = some (cached, after)) :
    Agrees { vault with cache := after } records :=
  ⟨agrees.boundary, fun entry member => agrees.cached entry ((mem_of_cacheGet got).2 entry member)⟩

theorem Agrees.cacheAdd (size : Nat) (recorded : records.hashes height = some hash) :
    Agrees { vault with cache := cacheAdd size vault.cache height hash } records := by
  refine ⟨agrees.boundary, fun entry member above => ?_⟩
  rcases mem_of_cacheAdd member with rfl | ⟨old, _⟩
  · exact recorded
  · exact agrees.cached entry old above

theorem Agrees.record (size : Nat) :
    Agrees { vault with cache := HashVault.cacheAdd size vault.cache height hash }
      ((Write.record height hash).applyRecords records) := by
  refine ⟨agrees.boundary, fun entry member above => ?_⟩
  rcases mem_of_cacheAdd member with rfl | ⟨old, other⟩
  · simp [Write.applyRecords]
  · simpa [Write.applyRecords, other] using agrees.cached entry old above

theorem commitToHash_spec (size : Nat) (refines : Refines sha256 db records)
    (fits : height < 2 ^ 64) :
    let result := commitToHash sha256 db size conditions vault height hash
    ∃ left, Effect sha256 db records (.record height hash) result.2 left ∧
      Answered conditions records left height hash result.1 := by
  intro result
  unfold result
  rw [commitToHash]
  by_cases cancelled : conditions.cancelled = true
  · rw [if_pos cancelled]
    exact ⟨_, .unchanged agrees, cancelled⟩
  by_cases below : height < vault.pruneBoundary
  · rw [if_neg cancelled, if_pos below]
    exact ⟨_, .unchanged agrees, (agrees.boundary ▸ below : height < records.boundary)⟩
  by_cases length : hash.length ≠ blockHashSize
  · rw [if_neg cancelled, if_neg below, if_pos length]
    exact ⟨_, .unchanged agrees, length⟩
  rw [if_neg cancelled, if_neg below, if_neg length]
  have above : records.boundary ≤ height := agrees.boundary ▸ not_lt.mp below
  cases got : cacheGet vault.cache height with
  | some entry =>
    obtain ⟨cached, after⟩ := entry
    have recorded := agrees.cached _ (mem_of_cacheGet got).1 above
    simp only
    split_ifs with differs
    · exact ⟨_, .unchanged (agrees.cacheGet got), cached, recorded, differs⟩
    · exact ⟨_, .unchanged (agrees.cacheGet got), above, not_not.mp differs ▸ recorded⟩
  | none =>
    by_cases unread : ¬ conditions.readOk = true
    · rw [if_pos unread]
      exact ⟨_, .unchanged agrees, (Bool.not_eq_true _ ▸ unread : conditions.readOk = false)⟩
    rw [if_neg unread, refines.rows height fits]
    cases recorded : records.hashes height with
    | none =>
      cases written : conditions.writeOk with
      | true => exact ⟨_, .written recorded (agrees.record size), above, hashes_record_self _ _ _⟩
      | false => exact ⟨_, .unchanged agrees, written⟩
    | some existing =>
      simp only [Option.map_some, decodeHashValue_encodeHashValue]
      split_ifs with differs
      · exact ⟨_, .unchanged agrees, existing, recorded, differs⟩
      · have same : existing = hash := not_not.mp differs
        exact ⟨_, .unchanged (agrees.cacheAdd size recorded), above, same ▸ recorded⟩

theorem Agrees.prune (higher : records.boundary < boundary) :
    Agrees { vault with pruneBoundary := boundary }
      ((Write.prune boundary).applyRecords records) := by
  refine ⟨rfl, fun entry member (above : boundary ≤ entry.1) => ?_⟩
  rw [hashes_prune _ above]
  exact agrees.cached entry member (higher.le.trans above)

theorem prune_spec (boundary : Nat) :
    ∃ left, Effect sha256 db records (.prune boundary)
      (prune sha256 db conditions vault boundary).2 left := by
  rw [prune]
  split_ifs with _ reached
  · exact ⟨_, .unchanged agrees⟩
  · exact ⟨_, .unchanged agrees⟩
  · have higher : records.boundary < boundary := agrees.boundary ▸ not_le.mp reached
    exact ⟨_, .written higher (agrees.prune higher)⟩
  · exact ⟨_, .unchanged agrees⟩

end

theorem agrees_of_loadPruneBoundary {readOk : Bool}
    (refines : Refines sha256 db records) (loaded : loadPruneBoundary db readOk = .ok boundary) :
    Agrees { pruneBoundary := boundary, cache := [] } records := by
  rw [loadPruneBoundary, refines.boundary] at loaded
  split_ifs at loaded
  cases loaded
  exact ⟨rfl, nofun⟩

end SeiChain.HashVault
