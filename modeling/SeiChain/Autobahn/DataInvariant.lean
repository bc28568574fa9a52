/-
This file states what the cursors of the data layer say about its maps, and proves
that every critical section keeps it and runs into no missing entry. The index of
blocks by hash is the inverse of the map of blocks only as long as no hash occurs
under two numbers. The certificates do not promise that, so the invariant carries it
as a numbering: a function that gives back the number of a header from its hash.
-/

import SeiChain.Autobahn.DataState
import SeiChain.Library.Maps

namespace SeiChain.Autobahn.Data

open Library List Function Option

variable {Digest Sig : Type}

/-- `post` of the result, or one of the allowed errors. -/
def Ends {Value : Type} (allowed : DataError → Prop) (post : Value → Prop) :
    Except DataError Value → Prop
  | .ok value => post value
  | .error error => allowed error

/-- No panic, and `post` of the result if there is no error. -/
abbrev Safe {Value : Type} (post : Value → Prop) : Except DataError Value → Prop :=
  Ends (fun error => error.isPanic = false) post

/-- No error, and `post` of the result. -/
abbrev Succeeds {Value : Type} (post : Value → Prop) : Except DataError Value → Prop :=
  Ends (fun _ => False) post

theorem ok_bind {First Second : Type} (value : First) (next : First → Except DataError Second) :
    (Except.ok value >>= next) = next value := rfl

variable {Value : Type} {result : Except DataError Value}

namespace Ends

variable {allowed : DataError → Prop}

theorem bind {First Second : Type} {first : Except DataError First}
    {next : First → Except DataError Second} {middle : First → Prop} {post : Second → Prop}
    (ends : Ends allowed middle first)
    (continues : ∀ value, middle value → Ends allowed post (next value)) :
    Ends allowed post (first >>= next) := by
  cases first with
  | error error => exact ends
  | ok value => exact continues value ends

theorem imp {pre post : Value → Prop} {wider : DataError → Prop} (ends : Ends allowed pre result)
    (errors : ∀ error, allowed error → wider error)
    (weaker : ∀ value, pre value → post value) : Ends wider post result := by
  cases result with
  | error error => exact errors error ends
  | ok value => exact weaker value ends

/-- The rule for loops; `holds` is the loop invariant. -/
theorem foldlM {Element : Type} {round : Value → Element → Except DataError Value}
    (holds : Value → Prop) {elements : List Element}
    (rounds : ∀ element ∈ elements, ∀ value, holds value →
      Ends allowed holds (round value element)) {start : Value} (initially : holds start) :
    Ends allowed holds (elements.foldlM round start) := by
  induction elements generalizing start with
  | nil => exact initially
  | cons element rest ih =>
    refine bind (rounds element mem_cons_self start initially) fun value kept => ?_
    exact ih (fun other member => rounds other (mem_cons_of_mem _ member)) kept

end Ends

theorem Succeeds.safe {post : Value → Prop} (succeeds : Succeeds post result) : Safe post result :=
  succeeds.imp (fun _ impossible => impossible.elim) fun _ holds => holds

/-! ### The invariant -/

abbrev Numbering := BlockHeaderHash → GlobalBlockNumber

variable (crypto : Crypto Digest Sig) (numberOf : Numbering)

/-- The headers of a certificate hash to values that the numbering maps to their numbers. -/
def NumberedBy (qc : FullCommitQC Sig) : Prop :=
  ∀ number header, qc.globalRange.has number = true → qc.headerAt number = some header →
    numberOf (crypto.headerHash header) = number

/-- The same, and there is a header for every number of the range. -/
def FullyNumbered (qc : FullCommitQC Sig) : Prop :=
  ∀ number, qc.globalRange.has number = true →
    ∃ hash, headerHashAt crypto qc number = .ok hash ∧ numberOf hash = number

namespace Inner

/-- What the cursors say about the maps. -/
structure Consistent (inner : Inner Sig) : Prop where
  first_le : inner.first ≤ inner.nextAppProposal
  app_le : inner.nextAppProposal ≤ inner.nextBlockToPersist
  persist_le : inner.nextBlockToPersist ≤ inner.nextBlock
  block_le : inner.nextBlock ≤ inner.nextQC
  qcs_iff : ∀ number, (inner.qcs number).isSome ↔ inner.first ≤ number ∧ number < inner.nextQC
  qcs_has : ∀ number qc, inner.qcs number = some qc → qc.globalRange.has number = true
  blocks_dense : ∀ number, inner.first ≤ number → number < inner.nextBlock →
    (inner.blocks number).isSome
  blocks_within : ∀ number, (inner.blocks number).isSome →
    inner.first ≤ number ∧ number < inner.nextQC
  blocks_header : ∀ number block qc, inner.blocks number = some block →
    inner.qcs number = some qc →
    headerHashAt crypto qc number = .ok (crypto.headerHash block.header)
  appProposals_iff : ∀ number,
    (inner.appProposals number).isSome ↔ inner.first ≤ number ∧ number < inner.nextAppProposal
  blockHashes_iff : ∀ hash number, inner.blockHashes hash = some number ↔
    ∃ block, inner.blocks number = some block ∧ crypto.headerHash block.header = hash

/-- Consistency together with what keeps it: every stored certificate has a header for each
number of its range, and the numbering gives that number back. -/
structure Invariant (inner : Inner Sig) : Prop extends Consistent crypto inner where
  qcs_numbered : ∀ number qc, inner.qcs number = some qc → FullyNumbered crypto numberOf qc

end Inner

variable {crypto : Crypto Digest Sig} {numberOf : Numbering}
  {inner : Inner Sig} {number : GlobalBlockNumber} {qc : FullCommitQC Sig}

theorem NumberedBy.fully {epoch : Epoch}
    (numbered : NumberedBy crypto numberOf qc) (verified : qc.verify crypto epoch = .ok ()) :
    FullyNumbered crypto numberOf qc := by
  intro number covered
  obtain ⟨header, isHeader⟩ := FullCommitQC.exists_headerAt verified covered
  refine ⟨crypto.headerHash header, ?_, numbered number header covered isHeader⟩
  rw [headerHashAt, isHeader]

theorem newInner_invariant (firstBlock : GlobalBlockNumber) :
    (newInner firstBlock : Inner Sig).Invariant crypto numberOf where
  first_le := le_refl _
  app_le := le_refl _
  persist_le := le_refl _
  block_le := le_refl _
  qcs_iff number := by simp [newInner]
  qcs_has number qc stored := nomatch stored
  blocks_dense number low high := absurd low (not_le.mpr high)
  blocks_within number stored := nomatch stored
  blocks_header number block qc stored := nomatch stored
  appProposals_iff number := by simp [newInner]
  blockHashes_iff hash number := by simp [newInner]
  qcs_numbered number qc stored := nomatch stored

namespace Inner

/-! ### Lookups -/

variable {block : Block}

namespace Invariant

variable (ok : inner.Invariant crypto numberOf)

include ok

section

variable (low : inner.first ≤ number)

include low

theorem exists_qc (high : number < inner.nextQC) : ∃ qc, inner.qcs number = some qc:=
  isSome_iff_exists.mp ((ok.qcs_iff number).mpr ⟨low, high⟩)

theorem exists_block (high : number < inner.nextBlock) : ∃ block, inner.blocks number = some block:=
  isSome_iff_exists.mp (ok.blocks_dense number low high)

theorem qcAt (high : number < inner.nextQC) :
    ∃ qc, inner.qcs number = some qc ∧ inner.qcAt number = .ok qc := by
  obtain ⟨qc, stored⟩ := ok.exists_qc low high
  exact ⟨qc, stored, by rw [Inner.qcAt, stored]⟩

theorem blockAt (high : number < inner.nextBlock) :
    ∃ block, inner.blocks number = some block ∧ inner.blockAt number = .ok block := by
  obtain ⟨block, stored⟩ := ok.exists_block low high
  exact ⟨block, stored, by rw [Inner.blockAt, stored]⟩

end

theorem qcs_header (stored : inner.qcs number = some qc) :
    ∃ hash, headerHashAt crypto qc number = .ok hash ∧ numberOf hash = number :=
  ok.qcs_numbered number qc stored number (ok.qcs_has number qc stored)

/-- A stored block hashes to a value that the numbering maps to its number. -/
theorem numberOf_block (stored : inner.blocks number = some block) :
    numberOf (crypto.headerHash block.header) = number := by
  obtain ⟨low, high⟩ := ok.blocks_within number (by rw [stored]; rfl)
  obtain ⟨qc, isQC⟩ := ok.exists_qc low high
  obtain ⟨hash, isHash, named⟩ := ok.qcs_header isQC
  rw [ok.blocks_header number block qc stored isQC] at isHash
  cases isHash
  exact named

end Invariant

/-! ### Storing certificates -/

section

variable (ok : inner.Invariant crypto numberOf)

include ok

theorem Invariant.first_le_nextQC : inner.first ≤ inner.nextQC :=
  ((ok.first_le.trans ok.app_le).trans ok.persist_le).trans ok.block_le

/-- An entry of an updated map is the new one or an old one. -/
theorem Invariant.storeQC (covered : qc.globalRange.has inner.nextQC = true)
    (numbered : FullyNumbered crypto numberOf qc) :
    (inner.storeQC qc).Invariant crypto numberOf where
  first_le := ok.first_le
  app_le := ok.app_le
  persist_le := ok.persist_le
  block_le := Nat.le_succ_of_le ok.block_le
  qcs_iff number := by
    have low := ok.first_le_nextQC
    have old := ok.qcs_iff number
    by_cases same : number = inner.nextQC
    · simp [Inner.storeQC, same, low]
    · simp only [Inner.storeQC, update_of_ne same, old]
      lia
  qcs_has number other stored := by
    rcases update_eq_some stored with ⟨rfl, ⟨⟩⟩ | ⟨_, old⟩
    · exact covered
    · exact ok.qcs_has number other old
  blocks_dense := ok.blocks_dense
  blocks_within number stored := by
    obtain ⟨low, high⟩ := ok.blocks_within number stored
    exact ⟨low, Nat.lt_succ_of_lt high⟩
  blocks_header number block other stored isQC := by
    rcases update_eq_some isQC with ⟨rfl, ⟨⟩⟩ | ⟨_, old⟩
    · have high := (ok.blocks_within _ (isSome_of_eq_some stored)).2
      exact absurd high (lt_irrefl _)
    · exact ok.blocks_header number block other stored old
  appProposals_iff := ok.appProposals_iff
  blockHashes_iff := ok.blockHashes_iff
  qcs_numbered number other stored := by
    rcases update_eq_some stored with ⟨rfl, ⟨⟩⟩ | ⟨_, old⟩
    · exact numbered
    · exact ok.qcs_numbered number other old

omit ok in
/-- The rounds of the loop change the certificates and the cursor after them. -/
theorem storeQCs_eq (qc : FullCommitQC Sig) (rounds : Nat) (inner : Inner Sig) :
    ∃ qcs, storeQCs qc rounds inner = { inner with qcs := qcs, nextQC := inner.nextQC + rounds } ∧
      ∀ number, qcs number = if inner.nextQC ≤ number ∧ number < inner.nextQC + rounds then some qc
        else inner.qcs number := by
  induction rounds generalizing inner with
  | zero => exact ⟨inner.qcs, rfl, fun number => (if_neg (by lia)).symm⟩
  | succ rounds ih =>
    obtain ⟨qcs, same, stored⟩ := ih (inner.storeQC qc)
    refine ⟨qcs, ?_, fun number => ?_⟩
    · rw [storeQCs, same]
      simp only [Inner.storeQC, add_assoc, add_comm 1]
    · rw [stored]
      simp only [Inner.storeQC, update_apply]
      split_ifs <;> first | rfl | lia

variable {rounds : Nat}

theorem Invariant.storeQCs
    (numbered : FullyNumbered crypto numberOf qc) (low : qc.globalRange.first ≤ inner.nextQC)
    (within : inner.nextQC + rounds ≤ qc.globalRange.next) :
    (Inner.storeQCs qc rounds inner).Invariant crypto numberOf := by
  induction rounds generalizing inner with
  | zero => exact ok
  | succ rounds ih =>
    have covered : qc.globalRange.has inner.nextQC = true := by
      rw [GlobalRange.has_iff]
      lia
    refine ih (ok.storeQC covered numbered) (Nat.le_succ_of_le low) ?_
    simp only [Inner.storeQC]
    lia

theorem Invariant.extendQCs
    (numbered : FullyNumbered crypto numberOf qc) (low : qc.globalRange.first ≤ inner.nextQC) :
    (inner.extendQCs qc).Invariant crypto numberOf := by
  by_cases behind : qc.globalRange.next ≤ inner.nextQC
  · rw [Inner.extendQCs, Nat.sub_eq_zero_of_le behind]
    exact ok
  · exact ok.storeQCs numbered low (by lia)

/-! ### Storing blocks -/

theorem Invariant.storeBlock (absent : inner.blocks number = none)
    (stored : inner.qcs number = some qc)
    (matched : headerHashAt crypto qc number = .ok (crypto.headerHash block.header)) :
    (inner.storeBlock crypto number block).Invariant crypto numberOf where
  first_le := ok.first_le
  app_le := ok.app_le
  persist_le := ok.persist_le
  block_le := ok.block_le
  qcs_iff := ok.qcs_iff
  qcs_has := ok.qcs_has
  blocks_dense other low high := by
    have old := ok.blocks_dense other low high
    by_cases same : other = number
    · simp [Inner.storeBlock, same]
    · simpa only [Inner.storeBlock, update_of_ne same] using old
  blocks_within other isStored := by
    obtain ⟨found, isFound⟩ := isSome_iff_exists.mp isStored
    rcases update_eq_some isFound with ⟨rfl, ⟨⟩⟩ | ⟨_, old⟩
    · exact (ok.qcs_iff other).mp (isSome_of_eq_some stored)
    · exact ok.blocks_within other (isSome_of_eq_some old)
  blocks_header other found otherQC isFound isQC := by
    rcases update_eq_some isFound with ⟨rfl, ⟨⟩⟩ | ⟨_, old⟩
    · cases (stored.symm.trans isQC)
      exact matched
    · exact ok.blocks_header other found otherQC old isQC
  appProposals_iff := ok.appProposals_iff
  blockHashes_iff hash other := by
    obtain ⟨wanted, isWanted, named⟩ := ok.qcs_header stored
    cases matched.symm.trans isWanted
    constructor
    · intro indexed
      rcases update_eq_some indexed with ⟨rfl, ⟨⟩⟩ | ⟨_, old⟩
      · exact ⟨block, update_self .., rfl⟩
      · obtain ⟨found, isFound, hashed⟩ := (ok.blockHashes_iff hash other).mp old
        have different : other ≠ number := by
          rintro rfl
          rw [absent] at isFound
          cases isFound
        exact ⟨found, (update_of_ne different _ _).trans isFound, hashed⟩
    · rintro ⟨found, isFound, rfl⟩
      rcases update_eq_some isFound with ⟨rfl, ⟨⟩⟩ | ⟨different, old⟩
      · exact update_self ..
      · -- the numbering keeps the hash of another block apart from the new one
        have apart : crypto.headerHash found.header ≠ crypto.headerHash block.header := by
          intro same
          rw [← named, ← same, ok.numberOf_block old] at different
          exact different rfl
        exact (update_of_ne apart _ _).trans ((ok.blockHashes_iff _ _).mpr ⟨found, old, rfl⟩)
  qcs_numbered := ok.qcs_numbered

/-- What inserting a block at a number can change: the block there and the index. -/
structure Inserted (number : GlobalBlockNumber) (before after : Inner Sig) : Prop where
  frame : after =
    { before with blocks := after.blocks, blockHashes := after.blockHashes }
  elsewhere : ∀ other, other ≠ number → after.blocks other = before.blocks other
  present : before.nextBlock ≤ number → number < before.nextQC → (after.blocks number).isSome

/-- The one error of `insertBlock`: the block is not the one that the certificate finalizes. -/
def Mismatched (crypto : Crypto Digest Sig) (inner : Inner Sig) (number : GlobalBlockNumber)
    (block : Block) (error : DataError) : Prop :=
  ∃ qc want, inner.qcs number = some qc ∧ headerHashAt crypto qc number = .ok want ∧
    want ≠ crypto.headerHash block.header ∧
    error = .headerHashMismatch number want (crypto.headerHash block.header)

theorem Invariant.insertBlock (number : GlobalBlockNumber) (block : Block) :
    Ends (Mismatched crypto inner number block)
      (fun after => after.Invariant crypto numberOf ∧ Inserted number inner after)
      (inner.insertBlock crypto number block) := by
  unfold Inner.insertBlock
  split
  case isTrue outside =>
    exact ⟨ok, rfl, fun _ _ => rfl, fun low high => by lia⟩
  case isFalse inside =>
    split
    case isTrue stored => exact ⟨ok, rfl, fun _ _ => rfl, fun _ _ => stored⟩
    case isFalse missing =>
      have low : inner.first ≤ number := by
        have first := (ok.first_le.trans ok.app_le).trans ok.persist_le
        lia
      obtain ⟨qc, isQC, found⟩ := ok.qcAt low (by lia)
      obtain ⟨want, isWant, -⟩ := ok.qcs_header isQC
      rw [found, ok_bind, isWant, ok_bind]
      dsimp only
      split
      case isTrue different => exact ⟨qc, want, isQC, isWant, different, rfl⟩
      case isFalse same =>
        have matched : headerHashAt crypto qc number = .ok (crypto.headerHash block.header) := by
          rw [isWant, not_not.mp same]
        refine ⟨ok.storeBlock (not_isSome_iff_eq_none.mp missing) isQC matched,
          rfl, fun other different => update_of_ne different _ _, fun _ _ => ?_⟩
        simp [Inner.storeBlock]

end

/-- How the cursors move while the process runs and nothing is persisted. -/
structure Progress (before after : Inner Sig) : Prop where
  first_le : before.first ≤ after.first
  persist_eq : after.nextBlockToPersist = before.nextBlockToPersist
  block_le : before.nextBlock ≤ after.nextBlock
  qc_le : before.nextQC ≤ after.nextQC

/-- How they move while certificates and blocks are received: nothing is executed. -/
structure Received (before after : Inner Sig) : Prop extends Progress before after where
  app_eq : after.nextAppProposal = before.nextAppProposal

theorem Received.refl (inner : Inner Sig) : Received inner inner :=
  ⟨⟨le_refl _, rfl, le_refl _, le_refl _⟩, rfl⟩

theorem Received.trans {before middle after : Inner Sig} (first : Received before middle)
    (second : Received middle after) : Received before after where
  first_le := first.first_le.trans second.first_le
  persist_eq := second.persist_eq.trans first.persist_eq
  block_le := first.block_le.trans second.block_le
  qc_le := first.qc_le.trans second.qc_le
  app_eq := second.app_eq.trans first.app_eq

theorem Inserted.received {before after : Inner Sig} (inserted : Inserted number before after) :
    Received before after := by
  rw [inserted.frame]
  exact ⟨⟨le_refl _, rfl, le_refl _, le_refl _⟩, rfl⟩

theorem extendQCs_received (inner : Inner Sig) (qc : FullCommitQC Sig) :
    Received inner (inner.extendQCs qc) := by
  obtain ⟨qcs, same, -⟩ := storeQCs_eq qc (qc.globalRange.next - inner.nextQC) inner
  rw [Inner.extendQCs, same]
  exact ⟨⟨le_refl _, rfl, le_refl _, Nat.le_add_right _ _⟩, rfl⟩

/-! ### The contiguous prefix -/

section

variable (ok : inner.Invariant crypto numberOf)

include ok

/-- The prefix of blocks grows by a block that is stored next to it. -/
theorem Invariant.advanceBlock (stored : (inner.blocks inner.nextBlock).isSome) :
    ({ inner with nextBlock := inner.nextBlock + 1 } : Inner Sig).Invariant crypto numberOf :=
  { ok with
    persist_le := Nat.le_succ_of_le ok.persist_le
    block_le := (ok.blocks_within _ stored).2
    blocks_dense := fun number low high => by
      rcases lt_or_eq_of_le (Nat.le_of_lt_succ high) with below | rfl
      · exact ok.blocks_dense number low below
      · exact stored }

/-- What moving the end of the prefix does: nothing but that, and it stops at a missing block
if there are rounds enough. -/
theorem Invariant.advanceBlocks (enough : inner.nextQC ≤ inner.nextBlock + rounds) :
    ∃ next, inner.nextBlock ≤ next ∧ inner.blocks next = none ∧
      Inner.advanceBlocks rounds inner = { inner with nextBlock := next } ∧
      ({ inner with nextBlock := next } : Inner Sig).Invariant crypto numberOf := by
  induction rounds generalizing inner with
  | zero =>
    refine ⟨inner.nextBlock, le_refl _, ?_, rfl, ok⟩
    refine not_isSome_iff_eq_none.mp fun stored => ?_
    exact absurd (ok.blocks_within _ stored).2 (not_lt.mpr enough)
  | succ rounds ih =>
    rw [Inner.advanceBlocks]
    split
    case h_1 missing => exact ⟨inner.nextBlock, le_refl _, missing, rfl, ok⟩
    case h_2 block stored =>
      obtain ⟨next, le, missing, same, kept⟩ := ih
        (ok.advanceBlock (isSome_of_eq_some stored)) (by lia)
      exact ⟨next, Nat.le_of_succ_le le, missing, same, kept⟩

theorem Invariant.updateNextBlock :
    ∃ next, inner.nextBlock ≤ next ∧ inner.blocks next = none ∧
      inner.updateNextBlock = { inner with nextBlock := next } ∧
      ({ inner with nextBlock := next } : Inner Sig).Invariant crypto numberOf :=
  ok.advanceBlocks (by lia)

theorem Invariant.updateNextBlock_received :
    inner.updateNextBlock.Invariant crypto numberOf ∧ Received inner inner.updateNextBlock := by
  obtain ⟨next, le, -, same, kept⟩ := ok.updateNextBlock
  rw [same]
  exact ⟨kept, ⟨le_refl _, rfl, le, le_refl _⟩, rfl⟩

/-- Blocks that are looked up by the hash of their header are inserted without an error. -/
theorem Invariant.insertBlocksByHash (range : GlobalRange) {byHash : BlockHeaderHash → Option Block}
    (keyed : ∀ hash block, byHash hash = some block → crypto.headerHash block.header = hash) :
    Succeeds (fun after => after.Invariant crypto numberOf ∧ Received inner after)
      (inner.insertBlocksByHash crypto range byHash) := by
  -- the rounds read certificates between the two cursors, which no round moves
  refine Ends.bind (Ends.foldlM (fun after => after.Invariant crypto numberOf ∧
    Received inner after ∧ after.first = inner.first ∧ after.nextQC = inner.nextQC) ?_
    ⟨ok, .refl _, rfl, rfl⟩) ?_
  · rintro number member after ⟨kept, received, sameFirst, sameNext⟩
    simp only [mem_range'_1] at member
    have low : after.first ≤ number := by
      have first := (ok.first_le.trans ok.app_le).trans ok.persist_le
      lia
    obtain ⟨qc, isQC, found⟩ := kept.qcAt low (by lia)
    obtain ⟨hash, isHash, -⟩ := kept.qcs_header isQC
    rw [insertByHash, found, ok_bind, isHash, ok_bind]
    split
    case h_1 => exact ⟨kept, received, sameFirst, sameNext⟩
    case h_2 block isBlock =>
      have same : crypto.headerHash block.header = hash := keyed hash block isBlock
      refine (kept.insertBlock number block).imp ?_ fun result inserted => ?_
      · rintro _ ⟨otherQC, want, isOther, isWant, different, -⟩
        cases isQC.symm.trans isOther
        cases isHash.symm.trans isWant
        exact different same.symm
      refine ⟨inserted.1, received.trans inserted.2.received, ?_, ?_⟩
      · rw [inserted.2.frame, ← sameFirst]
      · rw [inserted.2.frame, ← sameNext]
  · rintro filled ⟨kept, received, -⟩
    obtain ⟨updated, more⟩ := kept.updateNextBlock_received
    exact ⟨updated, received.trans more⟩

end

/-! ### Eviction -/

/-- Forgetting the lowest number moves the low end of the maps by one. -/
theorem Invariant.forget
    (ok : ({ inner with first := number } : Inner Sig).Invariant crypto numberOf)
    (executed : number < inner.nextAppProposal) :
    ({ inner.forget crypto number with first := number + 1 } : Inner Sig).Invariant crypto
      numberOf := by
  have appLe : inner.nextAppProposal ≤ inner.nextBlock := ok.app_le.trans ok.persist_le
  obtain ⟨block, stored⟩ := ok.exists_block (le_refl number) (executed.trans_le appLe)
  have stored : inner.blocks number = some block := stored
  rw [Inner.forget, stored]
  exact {
    first_le := executed
    app_le := ok.app_le
    persist_le := ok.persist_le
    block_le := ok.block_le
    qcs_iff := fun other => by
      have old := ok.qcs_iff other
      simp only [isSome_update_none, old]
      lia
    qcs_has := fun other qc isQC =>
      ok.qcs_has other qc (update_none_eq_some isQC).2
    blocks_dense := fun other low high => by
      refine isSome_update_none.mpr ⟨ne_of_gt low, ?_⟩
      exact ok.blocks_dense other (Nat.le_of_succ_le low) high
    blocks_within := fun other isStored => by
      obtain ⟨different, old⟩ := isSome_update_none.mp isStored
      obtain ⟨low, high⟩ := ok.blocks_within other old
      exact ⟨Nat.lt_of_le_of_ne low (Ne.symm different), high⟩
    blocks_header := fun other found qc isFound isQC =>
      ok.blocks_header other found qc (update_none_eq_some isFound).2
        (update_none_eq_some isQC).2
    appProposals_iff := fun other => by
      have old := ok.appProposals_iff other
      simp only [isSome_update_none, old]
      lia
    blockHashes_iff := fun hash other => by
      have index := ok.blockHashes_iff
      constructor
      · intro indexed
        obtain ⟨different, old⟩ := update_none_eq_some indexed
        obtain ⟨found, isFound, hashed⟩ := (index hash other).mp old
        refine ⟨found, (update_of_ne ?_ _ _).trans isFound, hashed⟩
        rintro rfl
        cases stored.symm.trans isFound
        exact different hashed.symm
      · rintro ⟨found, isFound, hashed⟩
        obtain ⟨different, old⟩ := update_none_eq_some isFound
        have indexed := (index hash other).mpr ⟨found, old, hashed⟩
        refine (update_of_ne ?_ _ _).trans indexed
        rintro rfl
        have both := (index _ number).mpr ⟨block, stored, rfl⟩
        exact different (Option.some.inj (indexed.symm.trans both))
    qcs_numbered := fun other qc isQC =>
      ok.qcs_numbered other qc (update_none_eq_some isQC).2 }

theorem forgetFrom_eq (crypto : Crypto Digest Sig) (rounds : Nat) (start : GlobalBlockNumber)
    (inner : Inner Sig) : ∃ qcs blocks appProposals blockHashes,
      forgetFrom crypto rounds start inner = { inner with qcs, blocks, appProposals, blockHashes } ∧
      ∀ number, qcs number =
        if start ≤ number ∧ number < start + rounds then none else inner.qcs number := by
  induction rounds generalizing start inner with
  | zero => exact ⟨_, _, _, _, rfl, fun number => (if_neg (by lia)).symm⟩
  | succ rounds ih =>
    obtain ⟨qcs, blocks, appProposals, blockHashes, same, forgotten⟩ :=
      ih (start + 1) (inner.forget crypto start)
    refine ⟨qcs, blocks, appProposals, blockHashes, ?_, fun number => ?_⟩
    · rw [forgetFrom, same, forget]
      cases inner.blocks start <;> rfl
    · have updated : (inner.forget crypto start).qcs = update inner.qcs start none := by
        rw [forget]
        cases inner.blocks start <;> rfl
      rw [forgotten, updated, update_apply]
      split_ifs <;> first | rfl | lia

theorem Invariant.forgetFrom
    (ok : ({ inner with first := number } : Inner Sig).Invariant crypto numberOf)
    (executed : number + rounds ≤ inner.nextAppProposal) :
    ({ Inner.forgetFrom crypto rounds number inner with first := number + rounds } :
      Inner Sig).Invariant crypto numberOf := by
  induction rounds generalizing number inner with
  | zero => exact ok
  | succ rounds ih =>
    have kept := ok.forget (by lia)
    have cursor : (inner.forget crypto number).nextAppProposal = inner.nextAppProposal := by
      rw [Inner.forget]
      cases inner.blocks number <;> rfl
    have rest := ih kept (by lia)
    rw [Nat.add_right_comm] at rest
    exact rest

theorem Invariant.certifiedAppFloor (ok : inner.Invariant crypto numberOf) :
    ∃ floor, inner.certifiedAppFloor = .ok floor := by
  unfold Inner.certifiedAppFloor
  split
  case isTrue => exact ⟨_, rfl⟩
  case isFalse nonempty =>
    have low := ok.first_le_nextQC
    obtain ⟨tip, -, found⟩ := ok.qcAt (by lia : inner.first ≤ inner.nextQC - 1) (by lia)
    rw [found]
    exact ⟨_, rfl⟩

theorem Invariant.evictBelowBound (ok : inner.Invariant crypto numberOf) :
    Succeeds (fun after => after.Invariant crypto numberOf ∧ Received inner after)
      (inner.evictBelowBound crypto) := by
  obtain ⟨floor, isFloor⟩ := ok.certifiedAppFloor
  rw [Inner.evictBelowBound, isFloor, ok_bind]
  dsimp only
  split
  case isTrue => exact ⟨ok, .refl _⟩
  case isFalse above =>
    have rounds : inner.first + (min inner.nextAppProposal floor - inner.first) =
        min inner.nextAppProposal floor := by lia
    obtain ⟨_, _, _, _, same, -⟩ := forgetFrom_eq crypto
      (min inner.nextAppProposal floor - inner.first) inner.first inner
    have kept : ({ Inner.forgetFrom crypto (min inner.nextAppProposal floor - inner.first)
        inner.first inner with
        first := inner.first + (min inner.nextAppProposal floor - inner.first) }).Invariant crypto numberOf := Invariant.forgetFrom ok (by lia)
    rw [rounds] at kept
    refine ⟨kept, ?_⟩
    rw [same]
    exact ⟨⟨by lia, rfl, le_refl _, le_refl _⟩, rfl⟩

/-! ### Execution -/

section

variable (ok : inner.Invariant crypto numberOf)

include ok

/-- One more block is executed. -/
theorem Invariant.markOne
    (persisted : inner.nextAppProposal < inner.nextBlockToPersist) (proposal : AppProposal) :
    ({ inner with
      appProposals := update inner.appProposals inner.nextAppProposal (some proposal)
      nextAppProposal := inner.nextAppProposal + 1 } : Inner Sig).Invariant crypto numberOf :=
  { ok with
    first_le := Nat.le_succ_of_le ok.first_le
    app_le := persisted
    appProposals_iff := fun number => by
      have old := ok.appProposals_iff number
      have low := ok.first_le
      by_cases same : number = inner.nextAppProposal
      · simp [same, low]
      · simp only [update_of_ne same, old]
        lia }

theorem Invariant.markExecuted (proposal : AppProposal)
    (persisted : inner.nextAppProposal + rounds ≤ inner.nextBlockToPersist) :
    Succeeds (fun after => after.Invariant crypto numberOf ∧ after.first = inner.first ∧
      after.nextBlockToPersist = inner.nextBlockToPersist ∧ after.nextBlock = inner.nextBlock ∧
      after.nextQC = inner.nextQC) (Inner.markExecuted proposal rounds inner) := by
  induction rounds generalizing inner with
  | zero => exact ⟨ok, rfl, rfl, rfl, rfl⟩
  | succ rounds ih =>
    have persistLe := ok.persist_le
    obtain ⟨block, -, found⟩ := ok.blockAt ok.first_le (by lia)
    rw [Inner.markExecuted, found]
    exact ih (ok.markOne (by lia) proposal) (by lia)

/-- Execution through a persisted number that has not been executed. -/
theorem Invariant.executeThrough (hash : Bytes)
    (fresh : inner.nextAppProposal ≤ number) (persisted : number < inner.nextBlockToPersist) :
    Succeeds (fun after => after.Invariant crypto numberOf ∧ Progress inner after)
      (inner.executeThrough crypto number hash) := by
  have firstLe := ok.first_le
  have persistLe := ok.persist_le
  have blockLe := ok.block_le
  obtain ⟨qc, -, found⟩ := ok.qcAt (by lia : inner.first ≤ number) (by lia)
  rw [Inner.executeThrough, found, ok_bind]
  refine Ends.bind (ok.markExecuted _ (by lia)) ?_
  rintro marked ⟨kept, sameFirst, samePersist, sameBlock, sameQC⟩
  refine kept.evictBelowBound.imp (fun _ impossible => impossible) ?_
  rintro after ⟨evicted, received⟩
  exact ⟨evicted, sameFirst ▸ received.first_le, received.persist_eq.trans samePersist,
    sameBlock ▸ received.block_le, sameQC ▸ received.qc_le⟩

end

/-! ### Reading -/

/-- Every read of the state finds the entries it uses. -/
structure ReadsSucceed (inner : Inner Sig) : Prop where
  qc : ∀ number, Succeeds (fun _ => True) (inner.qc number)
  block : ∀ number, Succeeds (fun _ => True) (inner.block number)
  globalBlock : ∀ number, Succeeds (fun _ => True) (inner.globalBlock number)
  globalBlockByHash : ∀ hash, Succeeds (fun _ => True) (inner.globalBlockByHash hash)
  nextToExecute : ∀ lane, Succeeds (fun _ => True) (inner.nextToExecute lane)

/-- A stored block can be put together with its certificate. -/
theorem Invariant.assembleAt (ok : inner.Invariant crypto numberOf)
    (stored : inner.blocks number = some block) :
    ∃ global, inner.assembleAt number = .ok global := by
  obtain ⟨low, high⟩ := ok.blocks_within number (isSome_of_eq_some stored)
  obtain ⟨qc, isQC, found⟩ := ok.qcAt low high
  have covered : qc.qc.proposal.globalRange.has number = true := ok.qcs_has number qc isQC
  rw [Inner.assembleAt, Inner.blockAt, stored]
  rw [ok_bind, found, ok_bind, assembleGlobalBlock, Proposal.blockTimestamp, if_pos covered]
  exact ⟨_, rfl⟩

theorem readRetained_succeeds {next : GlobalBlockNumber}
    (retained : inner.first ≤ number → number < next → ∃ value, result = .ok value) :
    Succeeds (fun _ => True) (inner.readRetained next number result) := by
  unfold readRetained
  split
  case isTrue => trivial
  case isFalse below =>
    split
    case isTrue => trivial
    case isFalse evicted =>
      obtain ⟨value, found⟩ := retained (not_lt.mp evicted) (not_le.mp below)
      rw [found]
      trivial

theorem Invariant.readsSucceed (ok : inner.Invariant crypto numberOf) : inner.ReadsSucceed where
  qc number := readRetained_succeeds fun low high => by
    obtain ⟨qc, -, found⟩ := ok.qcAt low high
    exact ⟨qc, found⟩
  block number := readRetained_succeeds fun low high => by
    obtain ⟨block, -, found⟩ := ok.blockAt low high
    exact ⟨block, found⟩
  globalBlock number := readRetained_succeeds fun low high => by
    obtain ⟨block, stored, -⟩ := ok.blockAt low high
    exact ok.assembleAt stored
  globalBlockByHash hash := by
    unfold Inner.globalBlockByHash
    split
    case h_1 => trivial
    case h_2 number indexed =>
      obtain ⟨block, stored, -⟩ := (ok.blockHashes_iff hash number).mp indexed
      obtain ⟨global, assembled⟩ := ok.assembleAt stored
      rw [assembled]
      trivial
  nextToExecute lane := by
    have firstLe := ok.first_le
    have nextLe : inner.nextAppProposal ≤ inner.nextQC :=
      (ok.app_le.trans ok.persist_le).trans ok.block_le
    unfold Inner.nextToExecute
    split
    case isTrue => trivial
    case isFalse nonempty =>
      split
      case isTrue caughtUp =>
        obtain ⟨tip, -, found⟩ := ok.qcAt
          (by lia : inner.first ≤ inner.nextAppProposal - 1) (by lia)
        rw [found]
        trivial
      case isFalse behind =>
        obtain ⟨qc, isQC, found⟩ := ok.qcAt firstLe (by lia)
        obtain ⟨hash, isHash, -⟩ := ok.qcs_header isQC
        rw [found, ok_bind]
        split
        case h_1 missing =>
          rw [headerHashAt, missing] at isHash
          cases isHash
        case h_2 => split <;> [trivial; (split <;> trivial)]

end Inner

end SeiChain.Autobahn.Data
