/-
This file models the contract of `BlockDB`, the durable store behind the data layer:
a log of certificates and blocks that only takes records in order, of which a crash
keeps a prefix. The log is a list with the newest record first, so that a crash drops
records from the front. The store carries the proof that every record was accepted.
Pruning only moves the number at which reading starts, so it is a parameter of the
iterator and not a change of the log.
-/

import SeiChain.Autobahn.FullCommitQC

namespace SeiChain.Autobahn.Data

open List Option

variable {Sig : Type}

inductive Record (Sig : Type) where
  | qc (qc : FullCommitQC Sig)
  | block (number : GlobalBlockNumber) (block : Block)

/-! ### Reading the log -/

/-- One past the range of the newest certificate. -/
def nextQCOf : List (Record Sig) → Option GlobalBlockNumber
  | [] => none
  | .qc qc :: _ => some qc.globalRange.next
  | .block _ _ :: rest => nextQCOf rest

/-- One past the number of the newest block. -/
def nextBlockOf : List (Record Sig) → Option GlobalBlockNumber
  | [] => none
  | .qc _ :: rest => nextBlockOf rest
  | .block number _ :: _ => some (number + 1)

/-- The number of the oldest block. -/
def firstBlockOf : List (Record Sig) → Option GlobalBlockNumber
  | [] => none
  | .qc _ :: rest => firstBlockOf rest
  | .block number _ :: rest => some ((firstBlockOf rest).getD number)

/-- The start of the range of the oldest certificate. -/
def firstQCOf : List (Record Sig) → Option GlobalBlockNumber
  | [] => none
  | .qc qc :: rest => some ((firstQCOf rest).getD qc.globalRange.first)
  | .block _ _ :: rest => firstQCOf rest

/-- The certificate that covers a number. -/
def qcFor (number : GlobalBlockNumber) : List (Record Sig) → Option (FullCommitQC Sig)
  | [] => none
  | .qc qc :: rest => if qc.globalRange.has number then some qc else qcFor number rest
  | .block _ _ :: rest => qcFor number rest

def blockFor (number : GlobalBlockNumber) : List (Record Sig) → Option Block
  | [] => none
  | .qc _ :: rest => blockFor number rest
  | .block other block :: rest => if other = number then some block else blockFor number rest

/-! ### Writing -/

inductive BlockDBError where
  | emptyQC
  | qcNonContiguous
  | blockOutOfOrder
  | blockNotCovered
  deriving DecidableEq, Repr

/-- The checks of `WriteQC` and `WriteBlock` after the given records. -/
def accept (records : List (Record Sig)) : Record Sig → Except BlockDBError Unit
  | .qc qc =>
    if qc.globalRange.next ≤ qc.globalRange.first then .error .emptyQC
    else if (nextQCOf records).any (· ≠ qc.globalRange.first) then .error .qcNonContiguous
    else .ok ()
  | .block number _ =>
    if (nextBlockOf records).any (· ≠ number) then .error .blockOutOfOrder
    else if (qcFor number records).isNone then .error .blockNotCovered
    else .ok ()

variable {records : List (Record Sig)} {qc : FullCommitQC Sig}

theorem accept_qc (checked : accept records (.qc qc) = .ok ()) :
    qc.globalRange.first < qc.globalRange.next ∧
      ∀ next, nextQCOf records = some next → qc.globalRange.first = next := by
  rw [accept] at checked
  split at checked
  · cases checked
  rename_i nonempty
  split at checked
  · cases checked
  rename_i contiguous
  refine ⟨not_le.mp nonempty, fun next isNext => ?_⟩
  rw [isNext] at contiguous
  exact (by simpa using contiguous : next = qc.globalRange.first).symm

variable {number : GlobalBlockNumber}

theorem accept_block {block : Block} (checked : accept records (.block number block) = .ok ()) :
    (∀ next, nextBlockOf records = some next → number = next) ∧
      ∃ qc, qcFor number records = some qc := by
  rw [accept] at checked
  split at checked
  · cases checked
  rename_i dense
  split at checked
  · cases checked
  rename_i covered
  refine ⟨fun next isNext => ?_, isSome_iff_exists.mp ?_⟩
  · rw [isNext] at dense
    exact (by simpa using dense : next = number).symm
  · simpa [isSome_iff_ne_none] using covered

/-- Every record was accepted after the ones before it. -/
def Accepted : List (Record Sig) → Prop
  | [] => True
  | record :: rest => accept rest record = .ok () ∧ Accepted rest

/-- The store; the newest `pending` records are not on disk yet. -/
structure BlockDB (Sig : Type) where
  records : List (Record Sig)
  accepted : Accepted records
  pending : Nat

structure DBStatus where
  nextBlock : GlobalBlockNumber
  nextQC : GlobalBlockNumber

theorem accepted_drop (accepted : Accepted records) (count : Nat) :
    Accepted (records.drop count) := by
  induction count generalizing records with
  | zero => exact accepted
  | succ count ih =>
    cases records with
    | nil => exact accepted
    | cons => exact ih accepted.2

namespace BlockDB

def empty : BlockDB Sig where
  records := []
  accepted := trivial
  pending := 0

variable (db : BlockDB Sig)

/-- `WriteQC` and `WriteBlock`. -/
def write (record : Record Sig) : Except BlockDBError (BlockDB Sig) :=
  match checked : accept db.records record with
  | .ok () => .ok {
      records := record :: db.records
      accepted := ⟨checked, db.accepted⟩
      pending := db.pending + 1 }
  | .error error => .error error

def flush : BlockDB Sig := { db with pending := 0 }

/-- What is left after a crash that loses `lost` records: at most those that were pending. -/
def crash (lost : Nat) : BlockDB Sig where
  records := db.records.drop (min lost db.pending)
  accepted := accepted_drop db.accepted _
  pending := 0

/-- The write tips; zero where nothing has been written. -/
def status : DBStatus where
  nextBlock := (nextBlockOf db.records).getD 0
  nextQC := (nextQCOf db.records).getD 0

/-- Pruning leaves the newest block readable. -/
def mayRetainFrom (watermark : GlobalBlockNumber) : Bool :=
  (nextBlockOf db.records).all (watermark < ·)

/-- The lowest number the store serves when everything below the watermark is pruned. -/
def lowest (watermark : GlobalBlockNumber) : GlobalBlockNumber :=
  match firstBlockOf db.records with
  | some block => max watermark block
  | none => max watermark ((firstQCOf db.records).getD watermark)

/-- The numbers that an iterator opened at `number` goes through. -/
def iterator (watermark number : GlobalBlockNumber) : List GlobalBlockNumber :=
  let start := max number (db.lowest watermark)
  List.range' start (db.status.nextQC - start)

theorem write_eq_ok {db after : BlockDB Sig} {record : Record Sig}
    (written : db.write record = .ok after) : after.records = record :: db.records := by
  unfold write at written
  split at written
  · cases written
    rfl
  · cases written

end BlockDB

/-! ### What an accepted log holds -/

theorem qcFor_eq_some (found : qcFor number records = some qc) :
    .qc qc ∈ records ∧ qc.globalRange.has number = true := by
  induction records with
  | nil => cases found
  | cons record rest ih =>
    cases record with
    | block other block =>
      obtain ⟨member, covered⟩ := ih found
      exact ⟨.tail _ member, covered⟩
    | qc other =>
      rw [qcFor] at found
      split at found
      case isTrue covered =>
        cases found
        exact ⟨.head _, covered⟩
      case isFalse =>
        obtain ⟨member, covered⟩ := ih found
        exact ⟨.tail _ member, covered⟩

/-- The certificates are behind the newest one. -/
theorem next_le_of_mem (accepted : Accepted records) (member : .qc qc ∈ records) :
    ∃ next, nextQCOf records = some next ∧ qc.globalRange.next ≤ next := by
  induction records with
  | nil => cases member
  | cons record rest ih =>
    cases record with
    | block other block =>
      rcases mem_cons.mp member with same | old
      · cases same
      · exact ih accepted.2 old
    | qc newest =>
      refine ⟨newest.globalRange.next, rfl, ?_⟩
      rcases mem_cons.mp member with same | old
      · cases same
        exact le_refl _
      · obtain ⟨next, isNext, le⟩ := ih accepted.2 old
        obtain ⟨nonempty, contiguous⟩ := accept_qc accepted.1
        have follows := contiguous next isNext
        lia

theorem firstBlockOf_isSome : (firstBlockOf records).isSome = (nextBlockOf records).isSome := by
  induction records with
  | nil => rfl
  | cons record rest ih =>
    cases record with
    | qc qc => exact ih
    | block number block => rfl

variable {next : GlobalBlockNumber}

section

variable (accepted : Accepted records)

include accepted

/-- The blocks of the log are dense between the oldest and the newest. -/
theorem blocks_dense {first : GlobalBlockNumber} (isFirst : firstBlockOf records = some first)
    (isNext : nextBlockOf records = some next) :
    first < next ∧ ∀ number, first ≤ number → number < next → (blockFor number records).isSome := by
  induction records generalizing next with
  | nil => cases isFirst
  | cons record rest ih =>
    cases record with
    | qc qc => exact ih accepted.2 isFirst isNext
    | block newest block =>
      cases isNext
      rw [firstBlockOf] at isFirst
      cases oldest : firstBlockOf rest with
      | none =>
        rw [oldest] at isFirst
        cases isFirst
        refine ⟨Nat.lt_succ_self _, fun number low high => ?_⟩
        have isNewest : newest = number := le_antisymm low (Nat.le_of_lt_succ high)
        rw [blockFor, if_pos isNewest]
        rfl
      | some =>
        rw [oldest] at isFirst
        cases isFirst
        have present : (nextBlockOf rest).isSome := by
          rw [← firstBlockOf_isSome, oldest]
          rfl
        obtain ⟨previous, isPrevious⟩ := isSome_iff_exists.mp present
        have follows := (accept_block accepted.1).1 previous isPrevious
        obtain ⟨below, dense⟩ := ih accepted.2 oldest isPrevious
        refine ⟨by lia, fun number low high => ?_⟩
        rw [blockFor]
        split
        case isTrue => rfl
        case isFalse => exact dense number low (by lia)

omit accepted in
theorem exists_newest_block (isNext : nextBlockOf records = some next) :
    ∃ number block, .block number block ∈ records ∧ next = number + 1 := by
  induction records with
  | nil => cases isNext
  | cons record rest ih =>
    cases record with
    | qc qc =>
      obtain ⟨number, block, member, same⟩ := ih isNext
      exact ⟨number, block, .tail _ member, same⟩
    | block number block =>
      cases isNext
      exact ⟨number, block, .head _, rfl⟩

theorem lt_of_blockFor (stored : (blockFor number records).isSome) :
    ∃ next, nextBlockOf records = some next ∧ number < next := by
  induction records with
  | nil => cases stored
  | cons record rest ih =>
    cases record with
    | qc qc => exact ih accepted.2 stored
    | block newest block =>
      refine ⟨newest + 1, rfl, ?_⟩
      rw [blockFor] at stored
      split at stored
      case isTrue same => lia
      case isFalse =>
        obtain ⟨next, isNext, below⟩ := ih accepted.2 stored
        have follows := (accept_block accepted.1).1 next isNext
        lia

/-- The newest block is covered by a certificate. -/
theorem nextBlock_le_nextQC (isNext : nextBlockOf records = some next) :
    ∃ nextQC, nextQCOf records = some nextQC ∧ next ≤ nextQC := by
  induction records with
  | nil => cases isNext
  | cons record rest ih =>
    cases record with
    | qc qc =>
      obtain ⟨nextQC, isNextQC, le⟩ := ih accepted.2 isNext
      obtain ⟨nonempty, contiguous⟩ := accept_qc accepted.1
      have follows := contiguous nextQC isNextQC
      exact ⟨qc.globalRange.next, rfl, by lia⟩
    | block number block =>
      cases isNext
      obtain ⟨qc, found⟩ := (accept_block accepted.1).2
      obtain ⟨member, has⟩ := qcFor_eq_some found
      obtain ⟨nextQC, isNextQC, le⟩ := next_le_of_mem accepted.2 member
      refine ⟨nextQC, isNextQC, ?_⟩
      rw [GlobalRange.has_iff] at has
      lia

end

end SeiChain.Autobahn.Data
