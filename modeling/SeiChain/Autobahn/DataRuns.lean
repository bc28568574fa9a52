/-
This file puts the data layer together: calls of `PushQC`, `PushBlock` and
`PushAppHash` that other goroutines have in flight, the persister with its batch, the
store, and restarts that lose what was not flushed. Between two critical sections of
one call any other step may happen. Every reachable state is consistent and no step
panics, as long as no two numbers have the same header hash and `PushAppHash` is not
called while another call of it waits. At the end are runs that show both conditions
to be needed.
-/

import SeiChain.Autobahn.DataRecovery
import SeiChain.Library.Transition

namespace SeiChain.Autobahn.Data

open Library List Option

variable {Digest Sig : Type}

/-! ### The calls in flight -/

/-- A `PushQC` between its two critical sections. -/
structure QCCall (Sig : Type) where
  qc : FullCommitQC Sig
  blocks : List Block
  needQC : Bool

variable (crypto : Crypto Digest Sig)

/-- The blocks of a call by the hash of their header; a later one replaces an earlier one. -/
def byHash (blocks : List Block) (hash : BlockHeaderHash) : Option Block :=
  blocks.reverse.find? fun block => crypto.headerHash block.header = hash

variable (registry : Registry) (inner : Inner Sig)

/-- The first critical section of `PushQC` and the checks after it; `none` while it waits or
when it reports an error. -/
def beginPushQC (qc : FullCommitQC Sig) (blocks : List Block) : Option (QCCall Sig) := do
  let epoch ← registry.epochByIndex qc.qc.proposal.epochIndex
  let needed := qc.globalRange.first ≤ inner.nextQC ∧
    qc.globalRange.first < add64 inner.nextAppProposal blocksCacheSize
  let needQC : Bool := inner.nextQC = qc.globalRange.first
  if needed ∧ (needQC → qc.verify crypto epoch = .ok ()) ∧
      ∀ block ∈ blocks, block.verify crypto epoch.committee = .ok ()
  then some { qc := qc, blocks := blocks, needQC := needQC }
  else none

/-- The blocks of a call, if it has any. -/
def insertCalled (call : QCCall Sig) : Except DataError (Inner Sig) :=
  if call.blocks.isEmpty then .ok inner
  else inner.insertBlocksByHash crypto call.qc.globalRange (byHash crypto call.blocks)

/-- The second critical section of `PushQC`. -/
def finishPushQC (call : QCCall Sig) : Except DataError (Inner Sig) :=
  match call.needQC with
  | true => do
    let filled ← insertCalled crypto (inner.extendQCs call.qc) call
    filled.evictBelowBound crypto
  | false => insertCalled crypto inner call

/-- The first critical section of `PushBlock` for a number at or above the contiguous prefix,
and the checks after it. -/
def beginPushBlock (number : GlobalBlockNumber) (block : Block) : Except DataError Unit := do
  let qc ← inner.qcAt number
  match registry.epochByIndex qc.qc.proposal.epochIndex with
  | none => .error (.unknownEpoch qc.qc.proposal.epochIndex)
  | some epoch => (block.verify crypto epoch.committee).mapError .blockVerify

/-- The second critical section of `PushBlock`. -/
def finishPushBlock (number : GlobalBlockNumber) (block : Block) :
    Except DataError (Inner Sig) := do
  let inserted ← inner.insertBlock crypto number block
  return inserted.updateNextBlock

/-! ### The persister -/

/-- Where `runPersist` is: its two cursors, and the batch it writes. It ends when a write
fails. -/
inductive Persister (Sig : Type) where
  | notStarted
  | idle (nextToPersistQC nextToPersistBlock : GlobalBlockNumber)
  | writing (nextToPersistQC : GlobalBlockNumber) (batch : List (Record Sig))
      (nextBlock : GlobalBlockNumber)
  | flushed (nextToPersistQC nextBlock : GlobalBlockNumber)
  | failed

/-- The certificates and blocks of a batch. -/
structure Batch (Sig : Type) where
  qcs : List (FullCommitQC Sig)
  blocks : List (GlobalBlockNumber × Block)

/-- Certificates go first. -/
def Batch.records (batch : Batch Sig) : List (Record Sig) :=
  batch.qcs.map .qc ++ batch.blocks.map fun entry => .block entry.1 entry.2

/-- One round of the loop that collects a batch. -/
def collectOne (nextToPersistQC : GlobalBlockNumber) (batch : Batch Sig)
    (number : GlobalBlockNumber) : Except DataError (Batch Sig) := do
  let qc ← inner.qcAt number
  let block ← inner.blockAt number
  return {
    qcs := if number = qc.globalRange.first ∧ nextToPersistQC ≤ qc.globalRange.first
      then batch.qcs ++ [qc] else batch.qcs
    blocks := batch.blocks ++ [(number, block)] }

def collectBatch (nextToPersistQC nextToPersistBlock : GlobalBlockNumber) :
    Except DataError (Batch Sig) :=
  (List.range' nextToPersistBlock (inner.nextBlock - nextToPersistBlock)).foldlM
    (collectOne inner nextToPersistQC) { qcs := [], blocks := [] }

/-- The cursor for certificates after a record has been written. -/
def advanceQC (nextToPersistQC : GlobalBlockNumber) : Record Sig → GlobalBlockNumber
  | .qc qc => max nextToPersistQC qc.globalRange.next
  | .block _ _ => nextToPersistQC

/-! ### The whole system -/

structure System (Sig : Type) where
  db : BlockDB Sig
  inner : Inner Sig
  qcCalls : List (QCCall Sig)
  blockCalls : List (GlobalBlockNumber × Block)
  /-- The calls of `PushAppHash` that wait for their block to be persisted. -/
  appCalls : List (GlobalBlockNumber × Bytes)
  persister : Persister Sig
  panicked : Bool

/-- A process that has just loaded its state. -/
def System.load (db : BlockDB Sig) (inner : Inner Sig) : System Sig where
  db := db
  inner := inner
  qcCalls := []
  blockCalls := []
  appCalls := []
  persister := .notStarted
  panicked := false

/-- The first start, on an empty store. -/
def System.start : System Sig := .load .empty (newInner registry.firstBlock)

/-- Take over the result of a critical section; an error that is not a panic is returned to the
caller and leaves the state as it was. -/
def System.settle (system : System Sig) : Except DataError (Inner Sig) → System Sig
  | .ok inner => { system with inner := inner }
  | .error error => { system with panicked := error.isPanic }

inductive Event (Sig : Type) where
  | pushQC (qc : FullCommitQC Sig) (blocks : List Block)
  | finishPushQC (call : Nat)
  | pushBlock (number : GlobalBlockNumber) (block : Block)
  | finishPushBlock (call : Nat)
  | pushAppHash (number : GlobalBlockNumber) (hash : Bytes)
  | resumeAppHash (call : Nat)
  | startPersist
  | collect
  | write
  | flush
  | advance
  | restart (lost : Nat) (watermark : GlobalBlockNumber)
      (lastExecutedBlock : Option GlobalBlockNumber)

/-- The steps of the persister. -/
def persistStep (system : System Sig) : Event Sig → Option (System Sig)
  | .startPersist =>
    match system.persister with
    | .notStarted =>
      let tips := system.db.status
      let orLoaded := fun tip => if tip = 0 then system.inner.nextBlockToPersist else tip
      some { system with persister := .idle (orLoaded tips.nextQC) (orLoaded tips.nextBlock) }
    | _ => none
  | .collect =>
    match system.persister with
    | .idle nextToPersistQC nextToPersistBlock =>
      if nextToPersistBlock < system.inner.nextBlock then
        match collectBatch system.inner nextToPersistQC nextToPersistBlock with
        | .error error => some { system with panicked := error.isPanic }
        | .ok batch => some { system with
            persister := .writing nextToPersistQC batch.records system.inner.nextBlock }
      else none
    | _ => none
  | .write =>
    match system.persister with
    | .writing nextToPersistQC (record :: rest) nextBlock =>
      match system.db.write record with
      | .error _ => some { system with persister := .failed }
      | .ok db => some { system with
          db := db
          persister := .writing (advanceQC nextToPersistQC record) rest nextBlock }
    | _ => none
  | .flush =>
    match system.persister with
    | .writing nextToPersistQC [] nextBlock => some { system with
        db := system.db.flush
        persister := .flushed nextToPersistQC nextBlock }
    | _ => none
  | .advance =>
    match system.persister with
    | .flushed nextToPersistQC nextBlock => some { system with
        inner := { system.inner with
          nextBlockToPersist := max system.inner.nextBlockToPersist nextBlock }
        persister := .idle nextToPersistQC nextBlock }
    | _ => none
  | _ => none

/-- One step of the system; `none` where the event is not enabled. -/
def dataStep [DecidableEq Sig] (crypto : Crypto Digest Sig) (registry : Registry)
    (system : System Sig) (event : Event Sig) : Option (System Sig) :=
  if system.panicked then none
  else match event with
    | .pushQC qc blocks =>
      (beginPushQC crypto registry system.inner qc blocks).map fun call =>
        { system with qcCalls := call :: system.qcCalls }
    | .finishPushQC index =>
      system.qcCalls[index]?.map fun call =>
        { system with qcCalls := system.qcCalls.eraseIdx index }.settle
          (finishPushQC crypto system.inner call)
    | .pushBlock number block =>
      if system.inner.nextQC ≤ number then none
      else if number < system.inner.nextBlock then some system
      else match beginPushBlock crypto registry system.inner number block with
        | .error error => some { system with panicked := error.isPanic }
        | .ok () => some { system with blockCalls := (number, block) :: system.blockCalls }
    | .finishPushBlock index =>
      system.blockCalls[index]?.map fun call =>
        { system with blockCalls := system.blockCalls.eraseIdx index }.settle
          (finishPushBlock crypto system.inner call.1 call.2)
    | .pushAppHash number hash =>
      if number < system.inner.nextAppProposal then none
      else if number < system.inner.nextBlockToPersist then
        some (system.settle (system.inner.executeThrough crypto number hash))
      else some { system with appCalls := (number, hash) :: system.appCalls }
    | .resumeAppHash index =>
      system.appCalls[index]?.bind fun call =>
        if call.1 < system.inner.nextBlockToPersist then
          some ({ system with appCalls := system.appCalls.eraseIdx index }.settle
            (system.inner.executeThrough crypto call.1 call.2))
        else none
    | .restart lost watermark lastExecutedBlock =>
      let db := system.db.crash lost
      if db.mayRetainFrom watermark then
        match newState crypto registry db watermark lastExecutedBlock with
        | .ok inner => some (.load db inner)
        | .error error => if error.isPanic then some { system with panicked := true } else none
      else none
    | other => persistStep system other

/-! ### The invariant of the system -/

variable {crypto : Crypto Digest Sig} {numberOf : Numbering}
  {registry : Registry} {system : System Sig}

/-- The persister reads from the cursor it has reached, and what it writes is in memory. -/
def PersisterSound (crypto : Crypto Digest Sig) (numberOf : Numbering)
    (registry : Registry) (db : BlockDB Sig) (inner : Inner Sig) : Persister Sig → Prop
  | .notStarted => ∀ next, nextBlockOf db.records = some next → inner.nextBlockToPersist = next
  | .idle _ nextToPersistBlock => nextToPersistBlock = inner.nextBlockToPersist
  | .writing _ batch nextBlock =>
    (∀ record ∈ batch, RecordSound crypto numberOf registry record) ∧
      inner.nextBlockToPersist ≤ nextBlock ∧ nextBlock ≤ inner.nextBlock
  | .flushed _ nextBlock => inner.nextBlockToPersist ≤ nextBlock ∧ nextBlock ≤ inner.nextBlock
  | .failed => True

namespace System

structure Sound (crypto : Crypto Digest Sig) (numberOf : Numbering)
    (registry : Registry) (system : System Sig) : Prop where
  running : system.panicked = false
  inner : system.inner.Invariant crypto numberOf
  genesis : registry.firstBlock ≤ system.inner.first
  qcCalls : ∀ call ∈ system.qcCalls, call.needQC = true →
    FullyNumbered crypto numberOf call.qc ∧ call.qc.globalRange.first ≤ system.inner.nextQC
  appCalls : system.appCalls.length ≤ 1
  appFresh : ∀ call ∈ system.appCalls, system.inner.nextAppProposal ≤ call.1
  records : ∀ record ∈ system.db.records, RecordSound crypto numberOf registry record
  persister : PersisterSound crypto numberOf registry system.db system.inner system.persister

/-- A freshly loaded process. -/
theorem load_sound {db : BlockDB Sig} {inner : Inner Sig}
    (ok : inner.Invariant crypto numberOf) (genesis : registry.firstBlock ≤ inner.first)
    (records : ∀ record ∈ db.records, RecordSound crypto numberOf registry record)
    (stored : ∀ next, nextBlockOf db.records = some next → inner.nextBlockToPersist = next) :
    (System.load db inner).Sound crypto numberOf registry where
  running := rfl
  inner := ok
  genesis := genesis
  qcCalls := nofun
  appCalls := Nat.zero_le _
  appFresh := nofun
  records := records
  persister := stored

theorem start_sound : (System.start registry : System Sig).Sound crypto numberOf registry :=
  load_sound (newInner_invariant _) (le_refl _) nofun nofun

namespace Sound

variable (sound : system.Sound crypto numberOf registry)

include sound

/-- Progress in memory keeps what the persister relies on. -/
theorem persister_of_progress {after : Inner Sig} (progress : Inner.Progress system.inner after) :
    PersisterSound crypto numberOf registry system.db after system.persister := by
  have old := sound.persister
  have samePersist := progress.persist_eq
  have blockLe := progress.block_le
  generalize system.persister = position at old ⊢
  cases position with
  | notStarted => exact fun next isNext => samePersist.trans (old next isNext)
  | idle => exact Eq.trans old samePersist.symm
  | writing => exact ⟨old.1, samePersist.le.trans old.2.1, old.2.2.trans blockLe⟩
  | flushed => exact ⟨samePersist.le.trans old.1, old.2.trans blockLe⟩
  | failed => trivial

/-- The rule for a critical section that changes the state in memory. -/
theorem withInner {after : Inner Sig}
    (ok : after.Invariant crypto numberOf) (progress : Inner.Progress system.inner after)
    (fresh : ∀ call ∈ system.appCalls, after.nextAppProposal ≤ call.1) :
    ({ system with inner := after } : System Sig).Sound crypto numberOf registry :=
  { sound with
    inner := ok
    genesis := sound.genesis.trans progress.first_le
    qcCalls := fun call member needed => by
      obtain ⟨numbered, low⟩ := sound.qcCalls call member needed
      exact ⟨numbered, low.trans progress.qc_le⟩
    appFresh := fresh
    persister := sound.persister_of_progress progress }

/-- A critical section that receives certificates or blocks. -/
theorem settle {result : Except DataError (Inner Sig)}
    (safe : Safe (fun after => after.Invariant crypto numberOf ∧
      Inner.Received system.inner after) result) :
    (system.settle result).Sound crypto numberOf registry := by
  cases result with
  | error error => exact { sound with running := safe }
  | ok after =>
    refine sound.withInner safe.1 safe.2.toProgress fun call member => ?_
    exact safe.2.app_eq.le.trans (sound.appFresh call member)

/-- A critical section that executes blocks, when no other call waits to do so. -/
theorem settleExecuted (alone : system.appCalls = []) {result : Except DataError (Inner Sig)}
    (safe : Safe (fun after => after.Invariant crypto numberOf ∧
      Inner.Progress system.inner after) result) :
    (system.settle result).Sound crypto numberOf registry := by
  cases result with
  | error error => exact { sound with running := safe }
  | ok after =>
    refine sound.withInner safe.1 safe.2 fun call member => ?_
    rw [alone] at member
    cases member

end Sound

end System

/-! ### The critical sections -/

section CriticalSections

variable {inner : Inner Sig}

theorem beginPushQC_eq_some {qc : FullCommitQC Sig} {blocks : List Block} {call : QCCall Sig}
    (begun : beginPushQC crypto registry inner qc blocks = some call) : call.qc = qc ∧
      qc.globalRange.first ≤ inner.nextQC ∧ (call.needQC = true →
        ∃ epoch, registry.epochByIndex qc.qc.proposal.epochIndex = some epoch ∧
          qc.verify crypto epoch = .ok ()) := by
  obtain ⟨epoch, isEpoch, checked⟩ := bind_eq_some_iff.mp begun
  obtain ⟨⟨needed, verified, -⟩, isCall⟩ := ite_none_right_eq_some.mp checked
  cases isCall
  exact ⟨rfl, needed.1, fun isNeeded => ⟨epoch, isEpoch, verified isNeeded⟩⟩

variable (ok : inner.Invariant crypto numberOf)

include ok

theorem insertCalled_succeeds (call : QCCall Sig) :
    Succeeds (fun after => after.Invariant crypto numberOf ∧ Inner.Received inner after)
      (insertCalled crypto inner call) := by
  unfold insertCalled
  split
  case isTrue => exact ⟨ok, .refl _⟩
  case isFalse =>
    refine ok.insertBlocksByHash call.qc.globalRange fun hash block found => ?_
    simpa using find?_some found

theorem finishPushQC_succeeds {call : QCCall Sig} (accepted : call.needQC = true →
      FullyNumbered crypto numberOf call.qc ∧ call.qc.globalRange.first ≤ inner.nextQC) :
    Succeeds (fun after => after.Invariant crypto numberOf ∧ Inner.Received inner after)
      (finishPushQC crypto inner call) := by
  unfold finishPushQC
  split
  case h_1 needed =>
    obtain ⟨numbered, low⟩ := accepted needed
    have extended := Inner.extendQCs_received inner call.qc
    refine Ends.bind (insertCalled_succeeds (ok.extendQCs numbered low) call) ?_
    rintro filled ⟨kept, received⟩
    refine kept.evictBelowBound.imp (fun _ impossible => impossible) ?_
    rintro after ⟨evicted, more⟩
    exact ⟨evicted, (extended.trans received).trans more⟩
  case h_2 => exact insertCalled_succeeds ok call

theorem finishPushBlock_safe (number : GlobalBlockNumber) (block : Block) :
    Safe (fun after => after.Invariant crypto numberOf ∧ Inner.Received inner after)
      (finishPushBlock crypto inner number block) := by
  have inserts : Safe (fun after => after.Invariant crypto numberOf ∧
      Inner.Received inner after) (inner.insertBlock crypto number block) := by
    refine (ok.insertBlock number block).imp ?_ fun after inserted => ?_
    · rintro _ ⟨_, _, _, _, _, rfl⟩
      rfl
    · exact ⟨inserted.1, inserted.2.received⟩
  refine Ends.bind inserts ?_
  rintro inserted ⟨kept, received⟩
  obtain ⟨updated, more⟩ := kept.updateNextBlock_received
  exact ⟨updated, received.trans more⟩

theorem beginPushBlock_safe
    {number : GlobalBlockNumber} (low : inner.nextBlock ≤ number) (high : number < inner.nextQC)
    (block : Block) :
    Safe (fun _ => True) (beginPushBlock crypto registry inner number block) := by
  have firstLe := (ok.first_le.trans ok.app_le).trans ok.persist_le
  obtain ⟨qc, -, found⟩ := ok.qcAt (firstLe.trans low) high
  rw [beginPushBlock, found, ok_bind]
  split
  case h_1 => exact rfl
  case h_2 epoch _ =>
    cases block.verify crypto epoch.committee with
    | error error => exact rfl
    | ok => trivial

/-- The persister finds every certificate and block it collects. -/
theorem collectBatch_succeeds
    (genesis : registry.firstBlock ≤ inner.first) {nextToPersistBlock : GlobalBlockNumber}
    (low : inner.first ≤ nextToPersistBlock) (nextToPersistQC : GlobalBlockNumber) :
    Succeeds (fun batch => ∀ record ∈ batch.records, RecordSound crypto numberOf registry record)
      (collectBatch inner nextToPersistQC nextToPersistBlock) := by
  have blockLe := ok.block_le
  refine Ends.foldlM _ ?_ (fun record member => by cases member)
  intro number member batch collected
  simp only [mem_range'_1] at member
  obtain ⟨qc, isQC, foundQC⟩ := ok.qcAt (by lia : inner.first ≤ number) (by lia)
  obtain ⟨block, -, foundBlock⟩ := ok.blockAt (by lia : inner.first ≤ number) (by lia)
  rw [collectOne, foundQC, foundBlock]
  intro record member
  simp only [Batch.records, map_append, map_cons, map_nil, mem_append, mem_singleton] at member
  rcases member with isQCRecord | old | rfl
  · split at isQCRecord
    case isTrue starts =>
      simp only [map_append, map_cons, map_nil, mem_append, mem_singleton] at isQCRecord
      rcases isQCRecord with old | rfl
      · exact collected record (mem_append_left _ old)
      · exact ⟨ok.qcs_numbered number qc isQC, by lia⟩
    case isFalse => exact collected record (mem_append_left _ isQCRecord)
  · exact collected record (mem_append_right _ old)
  · show registry.firstBlock ≤ number
    lia

end CriticalSections

/-! ### Steps and runs -/

/-- What the data layer relies on: the certificates it accepts are numbered by one numbering,
and no call of `PushAppHash` starts while another one waits. -/
def Admits (crypto : Crypto Digest Sig) (registry : Registry)
    (numberOf : Numbering) (system : System Sig) : Event Sig → Prop
  | .pushQC qc _ => ∀ epoch, registry.epochByIndex qc.qc.proposal.epochIndex = some epoch →
      qc.verify crypto epoch = .ok () → NumberedBy crypto numberOf qc
  | .pushAppHash _ _ => system.appCalls = []
  | _ => True

namespace System.Sound

variable {event : Event Sig} {after : System Sig} (sound : system.Sound crypto numberOf registry)

include sound

/-- The steps of the persister keep the invariant. -/
theorem persistStep
    (taken : persistStep system event = some after) : after.Sound crypto numberOf registry := by
  have position := sound.persister
  have persistLe := sound.inner.persist_le
  cases event with
  | startPersist =>
    simp only [Data.persistStep] at taken
    split at taken
    case h_1 isPosition =>
      rw [isPosition] at position
      cases taken
      refine { sound with persister := ?_ }
      show (if system.db.status.nextBlock = 0 then _ else _) = system.inner.nextBlockToPersist
      split
      case isTrue => rfl
      case isFalse written =>
        cases isNext : nextBlockOf system.db.records with
        | none => simp [BlockDB.status, isNext] at written
        | some next =>
          rw [position next isNext, BlockDB.status, isNext]
          rfl
    case h_2 => cases taken
  | collect =>
    simp only [Data.persistStep] at taken
    split at taken
    case h_1 nextToPersistQC nextToPersistBlock isPosition =>
      rw [isPosition] at position
      obtain ⟨-, collected⟩ := ite_none_right_eq_some.mp taken
      have low : system.inner.first ≤ nextToPersistBlock := by
        rw [show nextToPersistBlock = system.inner.nextBlockToPersist from position]
        exact sound.inner.first_le.trans sound.inner.app_le
      have batches := collectBatch_succeeds sound.inner sound.genesis low nextToPersistQC
      split at collected
      case h_1 error failed =>
        rw [failed] at batches
        exact batches.elim
      case h_2 batch isBatch =>
        rw [isBatch] at batches
        cases collected
        exact { sound with persister := ⟨batches, persistLe, le_refl _⟩ }
    case h_2 => cases taken
  | write =>
    simp only [Data.persistStep] at taken
    split at taken
    case h_1 nextToPersistQC record rest nextBlock isPosition =>
      rw [isPosition] at position
      obtain ⟨batch, bounds⟩ := position
      split at taken
      case h_1 => cases taken; exact { sound with persister := trivial }
      case h_2 db written =>
        cases taken
        have sameRecords := BlockDB.write_eq_ok written
        refine { sound with
          records := fun other member => ?_
          persister := ⟨fun other member => batch other (.tail _ member), bounds⟩ }
        rw [show db.records = record :: system.db.records from sameRecords] at member
        rcases mem_cons.mp member with rfl | old
        · exact batch other mem_cons_self
        · exact sound.records other old
    case h_2 => cases taken
  | flush =>
    simp only [Data.persistStep] at taken
    split at taken
    case h_1 nextToPersistQC nextBlock isPosition =>
      rw [isPosition] at position
      cases taken
      exact { sound with persister := position.2 }
    case h_2 => cases taken
  | advance =>
    simp only [Data.persistStep] at taken
    split at taken
    case h_1 nextToPersistQC nextBlock isPosition =>
      rw [isPosition] at position
      have reached : max system.inner.nextBlockToPersist nextBlock = nextBlock :=
        max_eq_right position.1
      cases taken
      refine { sound with
        inner := { sound.inner with
          app_le := sound.inner.app_le.trans (le_max_left _ _)
          persist_le := reached.le.trans position.2 }
        persister := reached.symm }
    case h_2 => cases taken
  | _ => cases taken

/-- A restart loads what a crash has left of the store. -/
theorem restart [DecidableEq Sig] (lost : Nat)
    {watermark : GlobalBlockNumber} (retains : (system.db.crash lost).mayRetainFrom watermark = true)
    (lastExecutedBlock : Option GlobalBlockNumber) :
    Safe (fun inner => (System.load (system.db.crash lost) inner).Sound crypto numberOf registry)
      (newState crypto registry (system.db.crash lost) watermark lastExecutedBlock) := by
  have records : ∀ record ∈ (system.db.crash lost).records,
      RecordSound crypto numberOf registry record :=
    fun record member => sound.records record (mem_of_mem_drop member)
  refine (newState_safe records retains lastExecutedBlock).imp (fun _ allowed => allowed) ?_
  rintro inner ⟨ok, genesis, stored⟩
  exact load_sound ok genesis records stored

/-- Every admitted step keeps the invariant. -/
theorem step [DecidableEq Sig] (admitted : Admits crypto registry numberOf system event)
    (taken : dataStep crypto registry system event = some after) :
    after.Sound crypto numberOf registry := by
  have running : ¬ system.panicked = true := by
    rw [sound.running]
    exact Bool.false_ne_true
  unfold dataStep at taken
  rw [if_neg running] at taken
  cases event with
  | pushQC =>
    obtain ⟨call, begun, rfl⟩ := map_eq_some_iff.mp taken
    obtain ⟨sameQC, low, verified⟩ := beginPushQC_eq_some begun
    refine { sound with qcCalls := fun other member needed => ?_ }
    rcases mem_cons.mp member with rfl | old
    · obtain ⟨epoch, isEpoch, checked⟩ := verified needed
      rw [sameQC]
      exact ⟨(admitted epoch isEpoch checked).fully checked, low⟩
    · exact sound.qcCalls other old needed
  | finishPushQC index =>
    obtain ⟨call, isCall, rfl⟩ := map_eq_some_iff.mp taken
    have erased : ({ system with qcCalls := system.qcCalls.eraseIdx index }).Sound crypto numberOf registry :=
      { sound with qcCalls := fun other member => sound.qcCalls other (mem_of_mem_eraseIdx member) }
    exact erased.settle (finishPushQC_succeeds sound.inner
      (sound.qcCalls call (mem_of_getElem? isCall))).safe
  | pushBlock number block =>
    dsimp only at taken
    split at taken
    case isTrue => cases taken
    case isFalse below =>
      split at taken
      case isTrue =>
        cases taken
        exact sound
      case isFalse above =>
        have safe : Safe (fun _ => True) (beginPushBlock crypto registry system.inner number block) :=
          beginPushBlock_safe sound.inner (not_lt.mp above) (not_le.mp below) block
        split at taken
        case h_1 error failed =>
          rw [failed] at safe
          cases taken
          exact { sound with running := safe }
        case h_2 =>
          cases taken
          exact { sound with }
  | finishPushBlock index =>
    obtain ⟨call, isCall, rfl⟩ := map_eq_some_iff.mp taken
    have erased : ({ system with blockCalls := system.blockCalls.eraseIdx index }).Sound crypto numberOf registry := { sound with }
    exact erased.settle (finishPushBlock_safe sound.inner call.1 call.2)
  | pushAppHash number hash =>
    have alone : system.appCalls = [] := admitted
    dsimp only at taken
    split at taken
    case isTrue => cases taken
    case isFalse fresh =>
      split at taken
      case isTrue persisted =>
        cases taken
        exact sound.settleExecuted alone
          (sound.inner.executeThrough hash (not_lt.mp fresh) persisted).safe
      case isFalse =>
        cases taken
        refine { sound with
          appCalls := by rw [alone]; exact le_refl 1
          appFresh := fun call member => ?_ }
        rw [alone, mem_singleton] at member
        rw [member]
        exact not_lt.mp fresh
  | resumeAppHash index =>
    obtain ⟨call, isCall, resumed⟩ := bind_eq_some_iff.mp taken
    obtain ⟨persisted, isAfter⟩ := ite_none_right_eq_some.mp resumed
    cases isAfter
    have alone : system.appCalls.eraseIdx index = [] := by
      have few := sound.appCalls
      have inside := (List.getElem?_eq_some_iff.mp isCall).1
      refine List.eq_nil_of_length_eq_zero ?_
      rw [List.length_eraseIdx_of_lt inside]
      lia
    have erased : ({ system with appCalls := system.appCalls.eraseIdx index }).Sound crypto numberOf registry :=
      { sound with
        appCalls := by rw [alone]; exact Nat.zero_le 1
        appFresh := fun other member => sound.appFresh other (mem_of_mem_eraseIdx member) }
    have fresh := sound.appFresh call (mem_of_getElem? isCall)
    exact erased.settleExecuted alone (sound.inner.executeThrough call.2 fresh persisted).safe
  | restart lost watermark lastExecutedBlock =>
    obtain ⟨retains, loaded⟩ := ite_none_right_eq_some.mp taken
    have safe := sound.restart lost retains lastExecutedBlock
    split at loaded
    case h_1 inner isInner =>
      rw [isInner] at safe
      cases loaded
      exact safe
    case h_2 error failed =>
      rw [failed] at safe
      rw [if_neg (by rw [show error.isPanic = false from safe]; exact Bool.false_ne_true)] at loaded
      cases loaded
  | startPersist | collect | write | flush => exact sound.persistStep taken
  | advance => exact sound.persistStep taken

end System.Sound

/-- In every state that is reached no step has panicked, the cursors say which entries the maps
have, and every read finds the entries it uses. -/
theorem data_state_consistent [DecidableEq Sig] (crypto : Crypto Digest Sig) (registry : Registry)
    (numberOf : BlockHeaderHash → GlobalBlockNumber) (system : System Sig)
    (reached : Reaches (dataStep crypto registry) (Admits crypto registry numberOf)
      (System.start registry) system) :
    system.panicked = false ∧ system.inner.Consistent crypto ∧ system.inner.ReadsSucceed := by
  have sound : system.Sound crypto numberOf registry :=
    reached.invariant System.start_sound fun _ _ _ sound admitted taken => sound.step admitted taken
  exact ⟨sound.running, sound.inner.toConsistent, sound.inner.readsSucceed⟩

/-! ### A chain of two certificates -/

def pairRegistry : Registry := newRegistry pairCommittee 0 0

/-- A block of lane `1` without transactions, whose parent is the one before. -/
def pairBlock (number : BlockNumber) : Block where
  header := { lane := 1, blockNumber := number, parentHash := number, payloadHash := 0 }
  payload := {
    toBuilder := { createdAt := 0, totalGasWanted := 0, totalGasEstimated := 0, txs := [] }
    fewTxs := by decide
    fewBytes := by decide }

/-- A block without transactions. -/
def emptyBlock (header : BlockHeader) : Block where
  header := header
  payload := {
    toBuilder := { createdAt := 0, totalGasWanted := 0, totalGasEstimated := 0, txs := [] }
    fewTxs := by decide
    fewBytes := by decide }

/-- A certificate of both replicas. -/
def pairQC (index : RoadIndex) (ranges : List LaneRange) (app : Option AppProposal)
    (globalFirst : GlobalBlockNumber) (headers : List BlockHeader) : FullCommitQC Bool where
  qc := {
    vote := ⟨newProposal { index := index, number := 0, epochIndex := 0 } 0 ranges app globalFirst⟩
    sigs := [{ key := 1, sig := true }, { key := 2, sig := true }] }
  headers := headers

/-- The first certificate finalizes blocks `0` and `1`. -/
def firstQC : FullCommitQC Bool :=
  pairQC 0 [{ lane := 1, first := 0, next := 2, lastHash := 2 }] none 0
    [(pairBlock 0).header, (pairBlock 1).header]

/-- The second one finalizes block `2` and a state hash for block `1`. -/
def secondQC : FullCommitQC Bool :=
  pairQC 1 [{ lane := 1, first := 2, next := 3, lastHash := 3 }]
    (some { globalNumber := 1, roadIndex := 0, appHash := [7], epochIndex := 0 }) 2
    [(pairBlock 2).header]

/-- The five cursors. -/
def Inner.cursors : List GlobalBlockNumber :=
  [inner.first, inner.nextAppProposal, inner.nextBlockToPersist, inner.nextBlock, inner.nextQC]

/-- Blocks are received out of order, persisted, executed and evicted, and the process restarts
at its last executed block. -/
def receiveAndRestart : List (Event Bool) :=
  [.pushQC firstQC [pairBlock 1], .finishPushQC 0, .pushBlock 0 (pairBlock 0), .finishPushBlock 0,
    .startPersist, .collect, .write, .write, .write, .flush, .pushAppHash 1 [7], .advance,
    .resumeAppHash 0, .pushQC secondQC [], .finishPushQC 0, .restart 0 0 (some 1)]

/-- A check of the conditions on a run over the two certificates. -/
def pairAdmits (system : System Bool) : Event Bool → Bool
  | .pushQC qc _ => qc = firstQC ∨ qc = secondQC
  | .pushAppHash _ _ => system.appCalls.isEmpty
  | _ => true

theorem numberedBy_pairQC {qc : FullCommitQC Bool} (isQC : qc = firstQC ∨ qc = secondQC) :
    NumberedBy openCrypto (· - 1) qc := by
  have small : ∀ number < 3, ∀ other ∈ [firstQC, secondQC], other.globalRange.has number = true →
      ∀ header ∈ other.headerAt number, openCrypto.headerHash header - 1 = number := by
    decide +kernel
  have bounded : qc.globalRange.next ≤ 3 := by
    rcases isQC with rfl | rfl <;> decide
  intro number header covered isHeader
  have below : number < 3 := by
    rw [GlobalRange.has_iff] at covered
    lia
  exact small number below qc (by simpa using isQC) covered header isHeader

theorem pairAdmits_sound (system : System Bool) (event : Event Bool)
    (checked : pairAdmits system event = true) :
    Admits openCrypto pairRegistry (· - 1) system event := by
  cases event with
  | pushQC => exact fun _ _ _ => numberedBy_pairQC (of_decide_eq_true checked)
  | pushAppHash => exact isEmpty_iff.mp checked
  | _ => trivial

theorem data_state_consistent_pair : ∃ system : System Bool,
    Reaches (dataStep openCrypto pairRegistry) (Admits openCrypto pairRegistry (· - 1))
      (System.start pairRegistry) system ∧ system.inner.cursors = [1, 1, 2, 2, 2] ∧
    system.panicked = false ∧ system.inner.Consistent openCrypto ∧ system.inner.ReadsSucceed := by
  obtain ⟨system, reached, cursors⟩ : ∃ system,
      Reaches (dataStep openCrypto pairRegistry) (Admits openCrypto pairRegistry (· - 1))
        (System.start pairRegistry) system ∧ system.inner.cursors = [1, 1, 2, 2, 2] :=
    exists_reaches_of_checked pairAdmits pairAdmits_sound receiveAndRestart (by decide +kernel)
  exact ⟨system, reached, cursors, data_state_consistent _ _ _ system reached⟩

/-! ### Runs that need the conditions -/

/-- Accepted certificates for one number are equal, and a certificate names a state hash of a
block before its own. -/
def Event.FollowsChain (qcOf : GlobalBlockNumber → FullCommitQC Sig) : Event Sig → Prop
  | .pushQC qc _ => (∀ number, qc.globalRange.has number = true → qcOf number = qc) ∧
      ∀ app ∈ qc.qc.proposal.app, app.globalNumber < qc.globalRange.first
  | _ => True

/-- A certificate whose two lanes end with the same header, which `Verify` accepts. -/
def twinQC : FullCommitQC Bool :=
  pairQC 0 [{ lane := 1, first := 0, next := 1, lastHash := 1 },
      { lane := 2, first := 0, next := 1, lastHash := 1 }] none 0
    [(pairBlock 0).header, (pairBlock 0).header]

/-- Two calls of `PushAppHash` wait, and the later block is the first to be marked. -/
def overlappingAppHashes : List (Event Bool) :=
  [.pushQC firstQC [pairBlock 0, pairBlock 1], .finishPushQC 0, .pushQC secondQC [],
    .finishPushQC 0, .pushAppHash 0 [6], .pushAppHash 1 [7], .startPersist, .collect, .write,
    .write, .write, .flush, .advance, .resumeAppHash 0, .resumeAppHash 0]

def pairQCOf (number : GlobalBlockNumber) : FullCommitQC Bool :=
  if number < 2 then firstQC else secondQC

theorem followsChain_pairQC {qc : FullCommitQC Bool} (isQC : qc = firstQC ∨ qc = secondQC)
    (blocks : List Block) : (Event.pushQC qc blocks).FollowsChain pairQCOf := by
  have ranges : firstQC.globalRange = ⟨0, 2⟩ ∧ secondQC.globalRange = ⟨2, 3⟩ := by decide
  rcases isQC with rfl | rfl
  · refine ⟨fun number covered => ?_, nofun⟩
    rw [ranges.1, GlobalRange.has_iff] at covered
    exact if_pos covered.2
  · refine ⟨fun number covered => ?_, fun app isApp => ?_⟩
    · rw [ranges.2, GlobalRange.has_iff] at covered
      exact if_neg (not_lt.mpr covered.1)
    · cases isApp
      decide

/-- A block that is stored under both numbers of the twin certificate is indexed under one. -/
theorem twin_header_breaks_index : ∃ system : System Bool,
    Reaches (dataStep openCrypto pairRegistry) (fun _ event => event.FollowsChain fun _ => twinQC)
      (System.start pairRegistry) system ∧
    system.inner.blocks 0 = some (pairBlock 0) ∧ system.inner.blockHashes 1 = some 1 := by
  refine exists_reaches_of_checked (fun _ event => match event with
    | .pushQC qc _ => qc = twinQC
    | _ => true) (fun _ event checked => ?_) [.pushQC twinQC [pairBlock 0], .finishPushQC 0]
    (by decide +kernel)
  cases event with
  | pushQC =>
    obtain rfl := of_decide_eq_true checked
    exact ⟨fun _ _ => rfl, nofun⟩
  | _ => trivial

/-- The call that is overtaken dereferences a certificate that has been evicted. -/
theorem overtaken_app_hash_panics : ∃ system : System Bool,
    Reaches (dataStep openCrypto pairRegistry) (fun _ event => event.FollowsChain pairQCOf)
      (System.start pairRegistry) system ∧ system.panicked = true := by
  refine exists_reaches_of_checked (fun _ event => match event with
    | .pushQC qc _ => qc = firstQC ∨ qc = secondQC
    | _ => true) (fun _ event checked => ?_) overlappingAppHashes (by decide +kernel)
  cases event with
  | pushQC => exact followsChain_pairQC (of_decide_eq_true checked) _
  | _ => trivial

/-- Without the two conditions a run can break the index of blocks by hash, and a run can
panic. -/
theorem data_state_breaks : (∃ qcOf, ∃ system : System Bool,
      Reaches (dataStep openCrypto pairRegistry) (fun _ event => event.FollowsChain qcOf)
        (System.start pairRegistry) system ∧
      ¬ ∀ hash number, system.inner.blockHashes hash = some number ↔
        ∃ block, system.inner.blocks number = some block ∧
          openCrypto.headerHash block.header = hash) ∧
    ∃ qcOf, ∃ system : System Bool,
      Reaches (dataStep openCrypto pairRegistry) (fun _ event => event.FollowsChain qcOf)
        (System.start pairRegistry) system ∧ system.panicked = true := by
  constructor
  · obtain ⟨system, reached, stored, indexed⟩ := twin_header_breaks_index
    refine ⟨_, system, reached, fun inverse => ?_⟩
    have first := (inverse 1 0).mpr ⟨pairBlock 0, stored, by decide⟩
    rw [indexed] at first
    cases first
  · exact ⟨_, overtaken_app_hash_panics⟩

end SeiChain.Autobahn.Data
