/-
This file models how the data layer comes back after a restart: `loadFromBlockDB`
replays the certificates and blocks that the store still has, from the tip of the
application on. The replay starts at the first position the store serves, possibly
inside the range of a certificate, and the blocks it finds are dense. The result
proved here is that the state it builds satisfies the invariant, and that its persisted
prefix ends where the blocks of the store end.
-/

import SeiChain.Autobahn.BlockDB
import SeiChain.Autobahn.DataInvariant

namespace SeiChain.Autobahn.Data

variable {Digest Sig : Type}

/-! ### Replaying the store -/

/-- At the first position the cursors move past what has been pruned. -/
def openAt (inner : Inner Sig) (number : GlobalBlockNumber) (qc : FullCommitQC Sig) :
    Except DataError (Inner Sig) :=
  if qc.globalRange.first < inner.nextQC then
    .error (.predatesGenesis inner.nextQC qc.globalRange.first)
  else if inner.nextQC < number then .ok (inner.skipTo number)
  else .ok inner

/-- The block of a position, if the store has it. -/
def loadBlock (crypto : Crypto Digest Sig) (registry : Registry) (inner : Inner Sig)
    (number : GlobalBlockNumber) (qc : FullCommitQC Sig) :
    Option Block → Except DataError (Inner Sig)
  | none => .ok inner
  | some block =>
    match registry.epochByIndex qc.qc.proposal.epochIndex with
    | none => .error (.unknownEpoch qc.qc.proposal.epochIndex)
    | some epoch =>
      match block.verify crypto epoch.committee with
      | .error error => .error (.blockVerify error)
      | .ok () => inner.insertBlock crypto number block

/-- Where the replay starts: at the tip of the application, or at the last stored block if the
application has committed one block more than the store has kept. -/
def recoveryStart (registry : Registry) (db : BlockDB Sig)
    (lastExecutedBlock : Option GlobalBlockNumber) : Except DataError GlobalBlockNumber :=
  match lastExecutedBlock with
  | none => .ok registry.firstBlock
  | some tip =>
    if max db.status.nextBlock registry.firstBlock < tip then
      .error (.behindAppTip db.status.nextBlock tip)
    else if db.status.nextBlock ≠ 0 ∧ tip = db.status.nextBlock then
      .ok (db.status.nextBlock - 1)
    else .ok tip

section

variable [DecidableEq Sig] (crypto : Crypto Digest Sig) (registry : Registry)

/-- The certificate of a position is inserted once for all the positions it covers; `last` is the
one of the position before. -/
def loadQC (inner : Inner Sig) (last : Option (FullCommitQC Sig)) (qc : FullCommitQC Sig) :
    Except DataError (Inner Sig) :=
  if last = some qc then .ok inner else inner.insertQC crypto registry qc

/-- What a position holds, when the cursors are in place. -/
def loadCovered (db : BlockDB Sig) (inner : Inner Sig) (last : Option (FullCommitQC Sig))
    (number : GlobalBlockNumber) (qc : FullCommitQC Sig) :
    Except DataError (Inner Sig × Option (FullCommitQC Sig)) := do
  let certified ← loadQC crypto registry inner last qc
  let loaded ← loadBlock crypto registry certified number qc (blockFor number db.records)
  return (loaded, some qc)

/-- One position of the iterator. The second component is the certificate of the position
before. -/
def loadPosition (db : BlockDB Sig) (state : Inner Sig × Option (FullCommitQC Sig))
    (number : GlobalBlockNumber) : Except DataError (Inner Sig × Option (FullCommitQC Sig)) :=
  match qcFor number db.records, state.2 with
  | none, _ => .error (.iterator number)
  | some qc, none => do
    let opened ← openAt state.1 number qc
    loadCovered crypto registry db opened none number qc
  | some qc, some last => loadCovered crypto registry db state.1 (some last) number qc

def loadFromBlockDB (db : BlockDB Sig) (watermark : GlobalBlockNumber)
    (lastExecutedBlock : Option GlobalBlockNumber) (inner : Inner Sig) :
    Except DataError (Inner Sig) := do
  let start ← recoveryStart registry db lastExecutedBlock
  let (loaded, _) ← (db.iterator watermark start).foldlM (loadPosition crypto registry db)
    (inner, none)
  let advanced := loaded.updateNextBlock
  return { advanced with nextBlockToPersist := advanced.nextBlock }

/-- `NewState` on a store that serves the numbers from the watermark on. -/
def newState (db : BlockDB Sig) (watermark : GlobalBlockNumber)
    (lastExecutedBlock : Option GlobalBlockNumber) : Except DataError (Inner Sig) :=
  loadFromBlockDB crypto registry db watermark lastExecutedBlock (newInner registry.firstBlock)

end

/-! ### The state while it is loaded -/

variable {crypto : Crypto Digest Sig} {numberOf : Numbering}
  {registry : Registry} {db : BlockDB Sig} {inner : Inner Sig}
  {start position number : GlobalBlockNumber}

/-- The replay from `start` has gone through the positions before `position`. -/
structure Loading (crypto : Crypto Digest Sig) (numberOf : Numbering)
    (db : BlockDB Sig) (start position : GlobalBlockNumber) (inner : Inner Sig) : Prop where
  invariant : inner.Invariant crypto numberOf
  first_eq : inner.first = start
  app_eq : inner.nextAppProposal = start
  persist_eq : inner.nextBlockToPersist = start
  block_eq : inner.nextBlock = start
  blocks_iff : ∀ number, (inner.blocks number).isSome ↔
    start ≤ number ∧ number < position ∧ (blockFor number db.records).isSome

/-- What the store holds was written by this node: certificates that the numbering knows, and
nothing from before genesis. -/
def RecordSound (crypto : Crypto Digest Sig) (numberOf : Numbering)
    (registry : Registry) : Record Sig → Prop
  | .qc qc => FullyNumbered crypto numberOf qc ∧ registry.firstBlock ≤ qc.globalRange.first
  | .block number _ => registry.firstBlock ≤ number

variable {qc : FullCommitQC Sig}

namespace Loading

theorem initial (start : GlobalBlockNumber) :
    Loading crypto numberOf db start start (newInner start : Inner Sig) where
  invariant := newInner_invariant start
  first_eq := rfl
  app_eq := rfl
  persist_eq := rfl
  block_eq := rfl
  blocks_iff number := by
    simp only [newInner, Option.isSome_none, Bool.false_eq_true, false_iff, not_and]
    lia

theorem insertQC (loading : Loading crypto numberOf db start position inner)
    (numbered : FullyNumbered crypto numberOf qc) :
    Safe (fun after => Loading crypto numberOf db start position after ∧
      qc.globalRange.next ≤ after.nextQC) (inner.insertQC crypto registry qc) := by
  unfold Inner.insertQC
  split
  case h_1 => exact rfl
  case h_2 epoch _ =>
    split
    case h_1 => exact rfl
    case h_2 =>
      split
      case isTrue behind => exact ⟨loading, behind⟩
      case isFalse ahead =>
        split
        case isTrue => exact rfl
        case isFalse noGap =>
          have kept := loading.invariant.extendQCs numbered (not_lt.mp noGap)
          obtain ⟨qcs, same, -⟩ := Inner.storeQCs_eq qc (qc.globalRange.next - inner.nextQC) inner
          rw [Inner.extendQCs, same] at kept ⊢
          refine ⟨{ loading with invariant := kept }, ?_⟩
          lia

theorem loadBlock (loading : Loading crypto numberOf db start position inner)
    (low : start ≤ position) (covered : position < inner.nextQC) (qc : FullCommitQC Sig) :
    Safe (fun after => Loading crypto numberOf db start (position + 1) after ∧
      after.nextQC = inner.nextQC)
      (loadBlock crypto registry inner position qc (blockFor position db.records)) := by
  cases found : blockFor position db.records with
  | none =>
    refine ⟨{ loading with blocks_iff := fun number => ?_ }, rfl⟩
    rw [loading.blocks_iff number]
    by_cases same : number = position
    · simp [same, found]
    · lia
  | some block =>
    rw [Data.loadBlock]
    split
    case h_1 => exact rfl
    case h_2 epoch _ =>
      split
      case h_1 => exact rfl
      case h_2 =>
        refine (loading.invariant.insertBlock position block).imp ?_ ?_
        · rintro _ ⟨_, _, _, _, _, rfl⟩
          rfl
        · rintro after ⟨kept, inserted⟩
          have frame := inserted.frame
          have present := inserted.present (loading.block_eq ▸ low) covered
          refine ⟨⟨kept, ?_, ?_, ?_, ?_, fun number => ?_⟩, ?_⟩
          · rw [frame]
            exact loading.first_eq
          · rw [frame]
            exact loading.app_eq
          · rw [frame]
            exact loading.persist_eq
          · rw [frame]
            exact loading.block_eq
          · by_cases same : number = position
            · rw [same, found]
              simp [present, low]
            · rw [inserted.elsewhere number same, loading.blocks_iff number]
              lia
          · rw [frame]

end Loading

/-! ### The positions one after the other -/

theorem openAt_newInner {firstBlock : GlobalBlockNumber}
    (genesis : firstBlock ≤ qc.globalRange.first) (low : qc.globalRange.first ≤ number) :
    openAt (newInner firstBlock) number qc = .ok (newInner number) := by
  have notBefore : ¬ qc.globalRange.first < (newInner firstBlock : Inner Sig).nextQC :=
    not_lt.mpr genesis
  rw [openAt, if_neg notBefore]
  split
  case isTrue => rfl
  case isFalse notAbove =>
    have same : firstBlock = number := le_antisymm (genesis.trans low) (not_lt.mp notAbove)
    rw [same]

section Positions

variable [DecidableEq Sig] {state : Inner Sig × Option (FullCommitQC Sig)}

/-- The replay has gone through the positions before `position`, and the certificate of the
last one is stored. -/
def LoadedTo (crypto : Crypto Digest Sig) (numberOf : Numbering)
    (db : BlockDB Sig) (start position : GlobalBlockNumber)
    (state : Inner Sig × Option (FullCommitQC Sig)) : Prop :=
  Loading crypto numberOf db start position state.1 ∧
    ∃ qc, state.2 = some qc ∧ qc.globalRange.next ≤ state.1.nextQC

/-- A position whose cursors are in place. -/
theorem loadCovered_safe {opened : Inner Sig} {last : Option (FullCommitQC Sig)}
    (loading : Loading crypto numberOf db start position opened)
    (low : start ≤ position) (covered : qc.globalRange.has position = true)
    (numbered : FullyNumbered crypto numberOf qc)
    (stored : last = some qc → qc.globalRange.next ≤ opened.nextQC) :
    Safe (LoadedTo crypto numberOf db start (position + 1))
      (loadCovered crypto registry db opened last position qc) := by
  rw [GlobalRange.has_iff] at covered
  have certify : Safe (fun after => Loading crypto numberOf db start position after ∧
      qc.globalRange.next ≤ after.nextQC) (loadQC crypto registry opened last qc) := by
    unfold loadQC
    split
    case isTrue same => exact ⟨loading, stored same⟩
    case isFalse => exact loading.insertQC numbered
  refine Ends.bind certify ?_
  rintro certified ⟨kept, reached⟩
  refine Ends.bind (kept.loadBlock low (covered.2.trans_le reached) qc) ?_
  rintro loaded ⟨done, sameNext⟩
  exact ⟨done, qc, rfl, sameNext ▸ reached⟩

variable (sound : ∀ record ∈ db.records, RecordSound crypto numberOf registry record)

include sound

theorem loadPosition_first :
    Safe (fun state => LoadedTo crypto numberOf db start (start + 1) state ∧
      registry.firstBlock ≤ start)
      (loadPosition crypto registry db (newInner registry.firstBlock, none) start) := by
  unfold loadPosition
  split
  case h_1 => exact rfl
  case h_2 qc found _ =>
    obtain ⟨member, covered⟩ := qcFor_eq_some found
    obtain ⟨numbered, genesis⟩ := sound _ member
    have low : qc.globalRange.first ≤ start := by
      rw [GlobalRange.has_iff] at covered
      exact covered.1
    rw [openAt_newInner genesis low]
    have loaded : Safe (LoadedTo crypto numberOf db start (start + 1))
        (loadCovered crypto registry db (newInner start) none start qc) :=
      loadCovered_safe (Loading.initial start) (le_refl _) covered numbered (by rintro ⟨⟩)
    exact loaded.imp (fun _ allowed => allowed) fun _ done => ⟨done, genesis.trans low⟩
  case h_3 impossible => cases impossible

theorem loadPosition_next
    (loaded : LoadedTo crypto numberOf db start position state) (low : start ≤ position) :
    Safe (LoadedTo crypto numberOf db start (position + 1))
      (loadPosition crypto registry db state position) := by
  obtain ⟨loading, last, isLast, reached⟩ := loaded
  unfold loadPosition
  split
  case h_1 => exact rfl
  case h_2 absent =>
    rw [isLast] at absent
    cases absent
  case h_3 qc other found isOther =>
    cases isLast.symm.trans isOther
    obtain ⟨member, covered⟩ := qcFor_eq_some found
    refine loadCovered_safe loading low covered (sound _ member).1 fun same => ?_
    cases same
    exact reached

theorem loadPositions
    (loaded : LoadedTo crypto numberOf db start position state) (low : start ≤ position)
    (count : Nat) :
    Safe (LoadedTo crypto numberOf db start (position + count))
      ((List.range' position count).foldlM (loadPosition crypto registry db) state) := by
  induction count generalizing position state with
  | zero => exact loaded
  | succ count ih =>
    refine Ends.bind (loadPosition_next sound loaded low) fun next loadedNext => ?_
    rw [add_comm count 1, ← add_assoc]
    exact ih loadedNext (Nat.le_succ_of_le low)

/-- All positions of an iterator: nothing to load, or a replay from its first position. -/
theorem loadIterator (count : Nat) :
    Safe (fun state =>
        (count = 0 ∧ state.1 = newInner registry.firstBlock) ∨
        (registry.firstBlock ≤ start ∧ Loading crypto numberOf db start (start + count) state.1))
      ((List.range' start count).foldlM (loadPosition crypto registry db)
        (newInner registry.firstBlock, none)) := by
  cases count with
  | zero => exact .inl ⟨rfl, rfl⟩
  | succ count =>
    refine Ends.bind (loadPosition_first sound) ?_
    rintro first ⟨loaded, genesis⟩
    refine (loadPositions sound loaded (Nat.le_succ start) count).imp (fun _ allowed => allowed) ?_
    rintro state ⟨loading, -⟩
    rw [add_assoc, add_comm 1] at loading
    exact .inr ⟨genesis, loading⟩

end Positions

/-! ### Where the replay starts and ends -/

theorem recoveryStart_lt {next begin : GlobalBlockNumber}
    {lastExecutedBlock : Option GlobalBlockNumber}
    (sound : ∀ record ∈ db.records, RecordSound crypto numberOf registry record)
    (isNext : nextBlockOf db.records = some next)
    (begins : recoveryStart registry db lastExecutedBlock = .ok begin) : begin < next := by
  obtain ⟨newest, block, member, rfl⟩ := exists_newest_block isNext
  have genesis : registry.firstBlock ≤ newest := sound _ member
  have tip : db.status.nextBlock = newest + 1 := by rw [BlockDB.status, isNext]; rfl
  unfold recoveryStart at begins
  rw [tip] at begins
  split at begins
  case h_1 =>
    cases begins
    exact Nat.lt_succ_of_le genesis
  case h_2 executed =>
    split at begins
    case isTrue => cases begins
    case isFalse notAhead =>
      split at begins
      case isTrue =>
        cases begins
        exact Nat.lt_succ_self newest
      case isFalse different =>
        lia

theorem lowest_lt {next first watermark : GlobalBlockNumber}
    (retains : db.mayRetainFrom watermark = true) (isFirst : firstBlockOf db.records = some first)
    (isNext : nextBlockOf db.records = some next) :
    first ≤ db.lowest watermark ∧ db.lowest watermark < next := by
  have below := (blocks_dense db.accepted isFirst isNext).1
  have kept : watermark < next := by simpa [BlockDB.mayRetainFrom, isNext] using retains
  rw [BlockDB.lowest]
  lia

/-- When all positions have been loaded, the contiguous prefix ends where the blocks of the
store end. -/
theorem Loading.finish (loading : Loading crypto numberOf db start position inner) :
    ∃ next, start ≤ next ∧ inner.updateNextBlock = { inner with nextBlock := next } ∧
      ({ inner with nextBlock := next, nextBlockToPersist := next } : Inner Sig).Invariant crypto
        numberOf ∧
      ∀ first stored, firstBlockOf db.records = some first →
        nextBlockOf db.records = some stored → first ≤ start → start ≤ stored →
        stored ≤ position → next = stored := by
  obtain ⟨next, le, missing, same, kept⟩ := loading.invariant.updateNextBlock
  have startLe : start ≤ next := loading.block_eq ▸ le
  have persisted : ({ inner with nextBlock := next, nextBlockToPersist := next }).Invariant crypto numberOf :=
    { kept with
      app_le := loading.app_eq.le.trans startLe
      persist_le := le_refl next }
  refine ⟨next, startLe, same, persisted, fun first stored isFirst isStored low startStored high => ?_⟩
  apply le_antisymm
  · -- a block at the end of the store would be in the store
    by_contra beyond
    have present : (inner.blocks stored).isSome :=
      kept.blocks_dense stored (loading.first_eq.le.trans startStored) (not_le.mp beyond)
    have inStore := ((loading.blocks_iff stored).mp present).2.2
    obtain ⟨other, isOther, below⟩ := lt_of_blockFor db.accepted inStore
    cases isStored.symm.trans isOther
    exact lt_irrefl _ below
  · by_contra short
    have below : next < stored := not_le.mp short
    have inStore := (blocks_dense db.accepted isFirst isStored).2 next (low.trans startLe) below
    have present := (loading.blocks_iff next).mpr ⟨startLe, below.trans_le high, inStore⟩
    rw [missing] at present
    cases present

/-- `NewState` does not panic. The state it builds satisfies the invariant, and what it takes as
persisted is what the store holds. -/
theorem newState_safe [DecidableEq Sig] {watermark : GlobalBlockNumber}
    (sound : ∀ record ∈ db.records, RecordSound crypto numberOf registry record)
    (retains : db.mayRetainFrom watermark = true) (lastExecutedBlock : Option GlobalBlockNumber) :
    Safe (fun after => after.Invariant crypto numberOf ∧ registry.firstBlock ≤ after.first ∧
        ∀ next, nextBlockOf db.records = some next → after.nextBlockToPersist = next)
      (newState crypto registry db watermark lastExecutedBlock) := by
  unfold newState loadFromBlockDB
  cases begins : recoveryStart registry db lastExecutedBlock with
  | error error =>
    unfold recoveryStart at begins
    split at begins
    · cases begins
    split at begins
    · cases begins
      rfl
    · split at begins <;> cases begins
  | ok begin =>
    rw [ok_bind]
    refine Ends.bind (loadIterator sound _) ?_
    -- a store with a block has a position to load, at which the replay starts
    have nonempty : ∀ next, nextBlockOf db.records = some next → ∃ first,
        firstBlockOf db.records = some first ∧ first ≤ max begin (db.lowest watermark) ∧
        max begin (db.lowest watermark) < next ∧ next ≤ db.status.nextQC := by
      intro next isNext
      obtain ⟨first, isFirst⟩ := Option.isSome_iff_exists.mp
        (firstBlockOf_isSome.trans (Option.isSome_of_eq_some isNext))
      obtain ⟨nextQC, isNextQC, le⟩ := nextBlock_le_nextQC db.accepted isNext
      have status : db.status.nextQC = nextQC := by rw [BlockDB.status, isNextQC]; rfl
      obtain ⟨low, high⟩ := lowest_lt retains isFirst isNext
      have begun := recoveryStart_lt sound isNext begins
      exact ⟨first, isFirst, by lia, by lia, by lia⟩
    rintro ⟨loaded, last⟩ (⟨none, rfl⟩ | ⟨genesis, loading⟩)
    · have fresh : Loading crypto numberOf db registry.firstBlock registry.firstBlock
          (newInner registry.firstBlock) := .initial registry.firstBlock
      obtain ⟨next, startLe, same, kept, -⟩ := fresh.finish
      simp only [same]
      refine ⟨kept, le_refl registry.firstBlock, fun stored isStored => ?_⟩
      obtain ⟨first, -, -, below, covered⟩ := nonempty stored isStored
      lia
    · obtain ⟨next, startLe, same, kept, ends⟩ := loading.finish
      simp only [same]
      refine ⟨kept, genesis.trans loading.first_eq.ge, fun stored isStored => ?_⟩
      obtain ⟨first, isFirst, low, below, covered⟩ := nonempty stored isStored
      exact ends first stored isFirst isStored low below.le (by lia)

end SeiChain.Autobahn.Data
