/-
This file shows that the journal undoes what it should. The memory of the state
database is read as the memory of a world, where a map entry of zero and no
entry are the same. On that reading each journal entry has a plain meaning, and
appending an entry with a change is undone by reverting it. Below a snapshot the
entries lead back to the world at the time of the snapshot, together with the
layers of the stores that lie below the snapshot. The memo of code is filled
without a journal entry. It stays right because the code of an address only
changes together with an entry for that address.
-/

import SeiChain.Evm.World

namespace SeiChain.Evm

open Std Library Bank CacheKV List Function Option Std.ExtTreeMap JournalEntry
  StorageOverride SdkInt Except

/-! ### The memory of the state database as that of a world -/

def TemporaryState.contents (state : TemporaryState) : Memory where
  logs := state.logs
  transientState := state.getTransientState
  accountStatus acc := state.transientAccounts[acc]?
  refund := state.getRefund
  accessList := state.transientAccessLists
  storageOverride addr := state.storageOverrides[addr]?.map StorageOverride.contents
  surplus := state.surplus

/-- What reverting an entry does to the memory of a world. -/
def JournalEntry.undo (memory : Memory) : JournalEntry → Except Panic Memory
  | accountStatusChange account prev =>
    .ok { memory with accountStatus := update memory.accountStatus account prev }
  | addLogChange =>
    if memory.logs.isEmpty then .error .indexOutOfRange
    else .ok { memory with logs := memory.logs.dropLast }
  | refundChange prev => .ok { memory with refund := prev }
  | accessListAddAccountChange address =>
    .ok { memory with accessList := memory.accessList.removeAddress address }
  | accessListAddSlotChange address slot =>
    .ok { memory with accessList := memory.accessList.removeSlot address slot }
  | transientStorageChange account key prevalue =>
    .ok { memory with
      transientState := update memory.transientState account
        (update (memory.transientState account) key prevalue) }
  | storageOverrideChange account key prev =>
    .ok { memory with
      storageOverride := update memory.storageOverride account
        ((memory.storageOverride account).map fun override =>
          (override.1, update override.2 key prev)) }
  | storageOverrideRemove account prev =>
    .ok { memory with
      storageOverride := update memory.storageOverride account (some prev.contents) }
  | storageOverrideInstall account prev =>
    .ok { memory with
      storageOverride := update memory.storageOverride account (prev.map contents) }
  | surplusChange delta => do
    let surplus ← boundedInt (memory.surplus - delta)
    .ok { memory with surplus := surplus }
  | codeCacheChange .. => .ok memory
  | watermark _ => .ok memory

section Maps

variable {K V : Type} [Ord K] [TransOrd K] [LawfulEqOrd K] [DecidableEq K] (map : ExtTreeMap K V)

theorem getElem?_restore (key : K) (prev : Option V) :
    (fun other => (restore map key prev)[other]?) = update (fun other => map[other]?) key prev := by
  cases prev with
  | some value => exact getElem?_insert_eq_update map key value
  | none => exact getElem?_erase_eq_update map key

end Maps

variable (state : TemporaryState)

theorem getTransientState_withTransient (addr : Address) (key val : Hash) :
    ({ state with
      transientStates := withTransient state.transientStates addr key val } :
        TemporaryState).getTransientState =
      update state.getTransientState addr (update (state.getTransientState addr) key val) := by
  funext other slot
  unfold TemporaryState.getTransientState withTransient
  by_cases same : addr = other
  · subst same
    rw [update_self, getElem?_insert_self, bind_some]
    by_cases sameSlot : key = slot
    · subst sameSlot
      simp
    · rw [update_of_ne (Ne.symm sameSlot), ExtTreeMap.getElem?_insert,
        if_neg (by simpa using sameSlot)]
      cases state.transientStates[addr]? <;> simp
  · rw [update_of_ne (Ne.symm same), ExtTreeMap.getElem?_insert, if_neg (by simpa using same)]

theorem getTransientState_withoutTransient (addr : Address) (key : Hash) :
    ({ state with
      transientStates := withoutTransient state.transientStates addr key } :
        TemporaryState).getTransientState =
      update state.getTransientState addr (update (state.getTransientState addr) key 0) := by
  funext other slot
  unfold TemporaryState.getTransientState withoutTransient
  cases stored : state.transientStates[addr]? with
  | none =>
    by_cases same : addr = other
    · subst same
      rw [update_self]
      by_cases sameSlot : key = slot
      · simp [stored]
      · simp [stored]
    · rw [update_of_ne (Ne.symm same)]
  | some slots =>
    dsimp only
    by_cases same : addr = other
    · subst same
      have found : ((if (slots.erase key).isEmpty then state.transientStates.erase addr
          else state.transientStates.insert addr (slots.erase key))[addr]?.bind
            fun slots => slots[slot]?) = (slots.erase key)[slot]? := by
        split
        · next empty =>
          rw [ExtTreeMap.isEmpty_iff] at empty
          simp [empty]
        · simp
      rw [found, update_self, getElem?_erase]
      by_cases sameSlot : key = slot
      · subst sameSlot
        simp
      · rw [update_of_ne (Ne.symm sameSlot), if_neg (by simpa using sameSlot)]
        rfl
    · rw [update_of_ne (Ne.symm same)]
      split
      · rw [getElem?_erase, if_neg (by simpa using same)]
      · rw [ExtTreeMap.getElem?_insert, if_neg (by simpa using same)]

theorem getRefund_insert (refund : UInt64) :
    ({ state with
      transientModuleStates :=
        state.transientModuleStates.insert gasRefundKey (bigEndian 8 refund.toNat) } :
        TemporaryState).getRefund = refund := by
  unfold TemporaryState.getRefund
  rw [getElem?_insert_self]
  dsimp only
  rw [ofBigEndian_bigEndian 8 _ refund.toNat_lt, UInt64.ofNat_toNat]

theorem contents_override (override : StorageOverride) (key val : Hash) :
    contents { override with current := override.current.insert key val } =
      (override.contents.1, update override.contents.2 key val) := by
  unfold contents
  refine Prod.ext rfl (funext fun slot => ?_)
  dsimp only
  by_cases same : key = slot
  · subst same
    simp
  · rw [update_of_ne (Ne.symm same), ExtTreeMap.getElem?_insert, if_neg (by simpa using same)]

/-- Overrides seen through their contents. -/
theorem contents_restore (overrides : ExtTreeMap Address StorageOverride) (account : Address)
    (prev : Option StorageOverride) :
    (fun addr => (restore overrides account prev)[addr]?.map contents) =
      update (fun addr => overrides[addr]?.map contents) account (prev.map contents) := by
  funext addr
  rw [congrFun (getElem?_restore overrides account prev) addr]
  by_cases same : addr = account
  · subst same
    simp
  · rw [update_of_ne same, update_of_ne same]

theorem contents_empty : ({} : TemporaryState).contents = {} := by
  unfold TemporaryState.contents TemporaryState.getTransientState TemporaryState.getRefund
  simp only [getElem?_empty, bind_none, getD_none, map_none]

/-- Reverting an entry does what it should to the contents. -/
theorem contents_revertTemporary (entry : JournalEntry) (state : TemporaryState) :
    (entry.revertTemporary state).map TemporaryState.contents = entry.undo state.contents := by
  cases entry with
  | accountStatusChange account prev =>
    exact congrArg (fun status => ok { state.contents with accountStatus := status })
      (getElem?_restore state.transientAccounts account prev)
  | addLogChange =>
    rw [revertTemporary, undo]
    by_cases empty : state.logs.isEmpty = true
    · rw [if_pos empty, if_pos (show state.contents.logs.isEmpty = true from empty)]
      rfl
    · rw [if_neg empty, if_neg (show ¬state.contents.logs.isEmpty = true from empty)]
      rfl
  | refundChange prev =>
    exact congrArg (fun refund => ok { state.contents with refund := refund })
      (getRefund_insert state prev)
  | accessListAddAccountChange address => rfl
  | accessListAddSlotChange address => rfl
  | transientStorageChange account key prevalue =>
    rw [revertTemporary]
    by_cases zero : prevalue = 0
    · rw [zero]
      exact congrArg (fun transient => ok { state.contents with transientState := transient })
        (getTransientState_withoutTransient state account key)
    · rw [if_neg zero]
      exact congrArg (fun transient => ok { state.contents with transientState := transient })
        (getTransientState_withTransient state account key prevalue)
  | storageOverrideChange account key prev =>
    rw [revertTemporary]
    cases stored : state.storageOverrides[account]? with
    | none =>
      refine congrArg (fun overrides => ok { state.contents with storageOverride := overrides }) ?_
      change _ = update (fun addr => state.storageOverrides[addr]?.map _) account
        ((state.storageOverrides[account]?.map _).map _)
      exact (update_eq_self_iff.mpr (by simp [stored])).symm
    | some override =>
      have written := contents_restore state.storageOverrides account
        (some { override with current := override.current.insert key prev })
      rw [map_some, contents_override] at written
      refine congrArg (fun overrides => ok { state.contents with storageOverride := overrides })
        (written.trans ?_)
      change _ = update (fun addr => state.storageOverrides[addr]?.map _) account
        ((state.storageOverrides[account]?.map _).map _)
      rw [stored]
      rfl
  | storageOverrideRemove account prev =>
    exact congrArg (fun overrides => ok { state.contents with storageOverride := overrides })
      (contents_restore state.storageOverrides account (some prev))
  | storageOverrideInstall account prev =>
    exact congrArg (fun overrides => ok { state.contents with storageOverride := overrides })
      (contents_restore state.storageOverrides account prev)
  | surplusChange delta =>
    change ((boundedInt (state.surplus - delta)).bind _).map _ =
      (boundedInt (state.surplus - delta)).bind _
    cases boundedInt (state.surplus - delta) <;> rfl
  | codeCacheChange account prev => rfl
  | watermark => rfl

/-! ### The access list -/

namespace AccessList

variable {list : AccessList} {addr : Address} {slot : Hash} {idx : Nat} {slots : ExtTreeSet Hash}

/-- The index of an address leads to its slots, and there is at least one. -/
def WellFormed (list : AccessList) : Prop :=
  ∀ (addr : Address) (idx : Nat), list.addresses[addr]? = some (some idx) →
    ∃ slots : ExtTreeSet Hash, list.slots[idx]? = some slots ∧ slots.isEmpty = false

theorem restore_eq {map : ExtTreeMap Address (Option Nat)} {prev : Option (Option Nat)}
    (stored : map[addr]? = prev) (value : Option Nat) :
    restore (map.insert addr value) addr prev = map := by
  refine ext_getElem? fun other => ?_
  rw [congrFun (getElem?_restore _ addr prev) other]
  by_cases same : other = addr
  · subst same
    rw [update_self, stored]
  · rw [update_of_ne same, ExtTreeMap.getElem?_insert, if_neg (by simpa using Ne.symm same)]

theorem removeAddress_addAddress (absent : list.addresses[addr]? = none) :
    (list.addAddress addr).removeAddress addr = list :=
  congrArg (fun addresses => { list with addresses := addresses }) (restore_eq absent none)

theorem removeSlot_addSlots (noSlots : list.addresses[addr]? = some none) :
    (list.addSlots addr slot).removeSlot addr slot = list := by
  have single : (({slot} : ExtTreeSet Hash).erase slot).isEmpty = true := by
    rw [ExtTreeSet.isEmpty_iff]
    exact ExtTreeSet.ext_mem fun other => by simp
  unfold removeSlot addSlots
  rw [getElem?_insert_self]
  dsimp only
  rw [List.getElem?_concat_length]
  dsimp only
  have addresses : (list.addresses.insert addr (some list.slots.length)).insert addr none =
      list.addresses := restore_eq noSlots (some list.slots.length)
  rw [if_pos single, eraseIdx_append_of_length_le (Nat.le_refl _), Nat.sub_self,
    eraseIdx_cons_zero, append_nil, addresses]

section

variable (wellFormed : list.WellFormed)

include wellFormed

theorem removeSlot_addSlot
    (index : list.addresses[addr]? = some (some idx)) (found : list.slots[idx]? = some slots)
    (fresh : slots.contains slot = false) :
    (list.addSlot idx slots slot).removeSlot addr slot = list := by
  have inBounds := (List.getElem?_eq_some_iff.mp found).1
  have erased : (slots.insert slot).erase slot = slots := by
    refine ExtTreeSet.ext_mem fun other => ?_
    by_cases same : slot = other
    · subst same
      simp [← ExtTreeSet.contains_iff_mem, fresh]
    · simp [same]
  obtain ⟨_, stored, notEmpty⟩ := wellFormed addr idx index
  cases stored.symm.trans found
  unfold removeSlot addSlot
  rw [index]
  dsimp only
  rw [List.getElem?_set_self inBounds]
  dsimp only
  rw [erased, notEmpty, if_neg Bool.false_ne_true, set_set]
  obtain ⟨_, rfl⟩ := List.getElem?_eq_some_iff.mp found
  rw [set_getElem_self]

theorem WellFormed.addAddress (addr : Address) : (list.addAddress addr).WellFormed := by
  intro other idx index
  refine wellFormed other idx ?_
  unfold AccessList.addAddress at index
  rw [ExtTreeMap.getElem?_insert] at index
  split at index
  · cases index
  exact index

theorem WellFormed.addSlots (addr : Address) (slot : Hash) :
    (list.addSlots addr slot).WellFormed := by
  intro other idx index
  unfold AccessList.addSlots at index ⊢
  rw [ExtTreeMap.getElem?_insert] at index
  split at index
  · cases index
    exact ⟨{slot}, List.getElem?_concat_length, by simp⟩
  · obtain ⟨slots, found, notEmpty⟩ := wellFormed other idx index
    exact ⟨slots, by rw [List.getElem?_append_left (List.getElem?_eq_some_iff.mp found).1, found],
      notEmpty⟩

theorem WellFormed.addSlot (idx : Nat) (slots : ExtTreeSet Hash)
    (slot : Hash) : (list.addSlot idx slots slot).WellFormed := by
  intro other otherIdx index
  unfold AccessList.addSlot at index ⊢
  obtain ⟨stored, found, notEmpty⟩ := wellFormed other otherIdx index
  by_cases same : idx = otherIdx
  · subst same
    exact ⟨slots.insert slot, List.getElem?_set_self (List.getElem?_eq_some_iff.mp found).1, by simp⟩
  · exact ⟨stored, by rw [List.getElem?_set_ne same, found], notEmpty⟩

end

end AccessList

/-! ### Undoing entries -/

theorem boundedInt_eq_ok {i surplus : Int} (bounded : boundedInt i = .ok surplus) :
    surplus = i ∧ bitLen i ≤ maxBitLen := by
  unfold boundedInt at bounded
  split at bounded
  · cases bounded
  · next small =>
    cases bounded
    exact ⟨rfl, Nat.not_lt.mp small⟩

variable {memory : Memory}

theorem undo_surplusChange (bounded : bitLen memory.surplus ≤ maxBitLen) (delta : Int) :
    (surplusChange delta).undo { memory with surplus := memory.surplus + delta } = .ok memory := by
  rw [undo, Int.add_sub_cancel, boundedInt, if_neg (Nat.not_lt.mpr bounded)]
  rfl

theorem undo_transientStorageChange (memory : Memory) (addr : Address) (key val : Hash) :
    (transientStorageChange addr key (memory.transientState addr key)).undo
        { memory with
          transientState := update memory.transientState addr
            (update (memory.transientState addr) key val) } =
      .ok memory := by
  simp only [undo, update_self, update_idem, update_eq_self]

variable {addr : Address}

theorem undo_storageOverrideChange {override : (Hash → Hash) × (Hash → Hash)}
    (stored : memory.storageOverride addr = some override) (key val : Hash) :
    (storageOverrideChange addr key (override.2 key)).undo
        { memory with
          storageOverride := update memory.storageOverride addr
            (some (override.1, update override.2 key val)) } =
      .ok memory := by
  simp only [undo, update_self, update_idem, map_some, update_eq_self, Prod.mk.eta, ← stored]

variable {entry : JournalEntry}

theorem undo_storageOverride {prev : Option StorageOverride}
    (stored : memory.storageOverride addr = prev.map contents)
    (isEntry : entry = .storageOverrideInstall addr prev ∨
      ∃ override, prev = some override ∧ entry = .storageOverrideRemove addr override)
    (override : Option ((Hash → Hash) × (Hash → Hash))) :
    entry.undo { memory with
        storageOverride := update memory.storageOverride addr override } =
      .ok memory := by
  rcases isEntry with rfl | ⟨removed, rfl, rfl⟩
  · simp only [undo, update_idem, ← stored, update_eq_self]
  · rw [map_some] at stored
    simp only [undo, update_idem, ← stored, update_eq_self]

/-- The address whose memo entry a journal entry restores. -/
def JournalEntry.codeAccount : JournalEntry → Option Address
  | codeCacheChange account _ => some account
  | _ => none

/-- The code that is remembered for an address. -/
def memo (codeCache : CodeCache) (addr : Address) : Option Bytes :=
  codeCache.bind fun remembered => remembered[addr]?

/-- Undo entries, the first one first. -/
def undoAll : List JournalEntry → Memory → CodeCache →
    Except Panic (Memory × CodeCache)
  | [], memory, codeCache => .ok (memory, codeCache)
  | entry :: rest, memory, codeCache => do
    let undone ← entry.undo memory
    undoAll rest undone (entry.revertCodeCache codeCache)

theorem memo_restore (remembered : ExtTreeMap Address Bytes) (account addr : Address)
    (prev : Option Bytes) :
    memo (some (restore remembered account prev)) addr =
      if addr = account then prev else memo (some remembered) addr := by
  change (restore remembered account prev)[addr]? = if addr = account then prev else remembered[addr]?
  rw [congrFun (getElem?_restore remembered account prev) addr, update_apply]

theorem memo_revert_of_ne (other : entry.codeAccount ≠ some addr) (codeCache : CodeCache) :
    memo (entry.revertCodeCache codeCache) addr = memo codeCache addr := by
  cases entry with
  | codeCacheChange account prev =>
    cases codeCache with
    | none => rfl
    | some remembered =>
      exact (memo_restore remembered account addr prev).trans
        (if_neg fun same => other (congrArg some same.symm))
  | _ => rfl

variable {codeCache : CodeCache}

/-- An entry for an address restores what it says, whatever was remembered. -/
theorem memo_revert_of_eq (account : entry.codeAccount = some addr)
    {other : CodeCache} (enabled : other.isSome = codeCache.isSome) :
    memo (entry.revertCodeCache other) addr = memo (entry.revertCodeCache codeCache) addr := by
  cases entry with
  | codeCacheChange account prev =>
    cases account
    cases codeCache <;> cases other
    case none.none => rfl
    case none.some => cases enabled
    case some.none => cases enabled
    case some.some remembered otherRemembered =>
      exact ((memo_restore otherRemembered addr addr prev).trans (if_pos rfl)).trans
        ((memo_restore remembered addr addr prev).trans (if_pos rfl)).symm
  | _ => cases account

theorem isSome_revertCodeCache (entry : JournalEntry) (codeCache : CodeCache) :
    (entry.revertCodeCache codeCache).isSome = codeCache.isSome := by
  cases entry with
  | codeCacheChange => exact isSome_map
  | _ => rfl

variable {entries : List JournalEntry}

theorem isSome_undoAll {memory memory' : Memory} {undone : CodeCache}
    (ran : undoAll entries memory codeCache = .ok (memory', undone)) :
    undone.isSome = codeCache.isSome := by
  induction entries generalizing memory codeCache with
  | nil =>
    cases ran
    rfl
  | cons entry rest ih =>
    obtain ⟨next, -, ran⟩ := exceptBind_eq_ok.mp ran
    exact (ih ran).trans (isSome_revertCodeCache entry codeCache)

/-- Memo entries that were filled in without a journal entry stay, where no entry restores them. -/
theorem undoAll_filled {memory memory' : Memory}
    {filled undone : CodeCache} {fill : Address → Option Bytes}
    (loose : Address → Prop) (ran : undoAll entries memory codeCache = .ok (memory', undone))
    (enabled : filled.isSome = codeCache.isSome)
    (differs : ∀ addr, memo filled addr = memo codeCache addr ∨
      loose addr ∧ memo filled addr = fill addr) :
    ∃ undone', undoAll entries memory filled = .ok (memory', undone') ∧
      undone'.isSome = undone.isSome ∧ ∀ addr, memo undone' addr = memo undone addr ∨
        loose addr ∧ (∀ entry ∈ entries, entry.codeAccount ≠ some addr) ∧
          memo undone' addr = fill addr := by
  induction entries generalizing memory codeCache filled loose with
  | nil =>
    cases ran
    refine ⟨filled, rfl, enabled, fun addr => (differs addr).imp_right ?_⟩
    exact fun ⟨isLoose, isFill⟩ => ⟨isLoose, fun entry member => (by cases member), isFill⟩
  | cons entry rest ih =>
    rw [undoAll] at ran ⊢
    obtain ⟨next, undo, ran⟩ := exceptBind_eq_ok.mp ran
    rw [undo]
    have differsNext : ∀ addr, memo (entry.revertCodeCache filled) addr =
          memo (entry.revertCodeCache codeCache) addr ∨
        (loose addr ∧ entry.codeAccount ≠ some addr) ∧
          memo (entry.revertCodeCache filled) addr = fill addr := by
      intro addr
      by_cases account : entry.codeAccount = some addr
      · exact .inl (memo_revert_of_eq account enabled)
      · rw [memo_revert_of_ne account, memo_revert_of_ne account]
        exact (differs addr).imp_right fun ⟨isLoose, isFill⟩ => ⟨⟨isLoose, account⟩, isFill⟩
    obtain ⟨undone', ranFilled, sameEnabled, kept⟩ := ih _ ran
      ((isSome_revertCodeCache entry filled).trans
        (enabled.trans (isSome_revertCodeCache entry codeCache).symm)) differsNext
    refine ⟨undone', ranFilled, sameEnabled, fun addr => (kept addr).imp_right ?_⟩
    rintro ⟨⟨isLoose, notHere⟩, notLater, isFill⟩
    exact ⟨isLoose, forall_mem_cons.mpr ⟨notHere, notLater⟩, isFill⟩

/-! ### The way back to the snapshots -/

/-- What a revert works on. -/
structure Undoable where
  memory : Memory
  codeCache : CodeCache
  evm : Stack Bytes Bytes
  bank : Stack BankKey Int
  journal : List JournalEntry
  err : Option BankError

def DBImpl.undoable (db : DBImpl) : Undoable :=
  ⟨db.tempState.contents, db.codeCache, db.evm, db.bank, db.journal, db.err⟩

variable {saved : List World} {state : Undoable} {now : World}

namespace Undoable

/-- The state shows the world, and the code that is remembered is the code of the world. -/
structure Shows (state : Undoable) (world : World) : Prop where
  evmValid : state.evm.Valid
  evm : state.evm.view = world.evm
  committed : state.evm.committed = world.committed
  bankValid : state.bank.Valid
  bank : state.bank.view = world.bank
  memory : state.memory = world.memory
  coherent : ∀ addr code, memo state.codeCache addr = some code → code = codeOf world.evm addr
  accessList : world.memory.accessList.WellFormed
  surplus : bitLen world.memory.surplus ≤ maxBitLen
  /-- An error is kept for good. -/
  err : state.err = none → world.refused = false

/-- Below the newest snapshot, after undoing the entries above its watermark. -/
def below (state : Undoable) (version : Nat) (memory : Memory)
    (codeCache : CodeCache) (journal : List JournalEntry) : Undoable :=
  ⟨memory, codeCache, state.evm.revertToSnapshot version, state.bank.revertToSnapshot version,
    journal, state.err⟩

theorem below_below (state : Undoable) {version older : Nat} (isOlder : older ≤ version)
    (evmLayers : version ≤ state.evm.layers.length)
    (bankLayers : version ≤ state.bank.layers.length) (memory memory' : Memory)
    (codeCache codeCache' : CodeCache) (journal journal' : List JournalEntry) :
    (state.below version memory codeCache journal).below older memory' codeCache' journal' =
      state.below older memory' codeCache' journal' := by
  unfold below
  rw [revertToSnapshot_revertToSnapshot state.evm isOlder evmLayers,
    revertToSnapshot_revertToSnapshot state.bank isOlder bankLayers]

/-- The journal leads back from `now` to the saved worlds, the newest first. If code is remembered,
the entries above a watermark include one for every address whose code changed since. -/
inductive Recovers : Undoable → World → List World → Prop
  | first {state : Undoable} {now : World} (evmLayers : state.evm.layers.length = 0)
      (bankLayers : state.bank.layers.length = 0) : Recovers state now []
  | next {state : Undoable} {now world : World} {saved : List World}
      (entries : List JournalEntry) {rest : List JournalEntry} {memory : Memory}
      {codeCache : CodeCache}
      (evmLayers : state.evm.layers.length = saved.length + 1)
      (bankLayers : state.bank.layers.length = saved.length + 1)
      (journal : state.journal = entries ++ .watermark saved.length :: rest)
      (plain : ∀ entry ∈ entries, ∀ version, entry.isWatermark version = false)
      (codes : state.codeCache.isSome = true → ∀ addr,
        (∀ entry ∈ entries, entry.codeAccount ≠ some addr) →
          codeOf now.evm addr = codeOf world.evm addr)
      (undone : undoAll entries state.memory state.codeCache = .ok (memory, codeCache))
      (shows : (state.below saved.length memory codeCache rest).Shows world)
      (older : Recovers (state.below saved.length memory codeCache rest) world saved) :
      Recovers state now (world :: saved)

theorem Recovers.layers (recovers : Recovers state now saved) :
    state.evm.layers.length = saved.length ∧ state.bank.layers.length = saved.length := by
  cases recovers with
  | first evmLayers bankLayers => exact ⟨evmLayers, bankLayers⟩
  | next _ evmLayers bankLayers => exact ⟨evmLayers, bankLayers⟩

/-- The second state differs from the first one only in the top layers of its stores, in code of
`now` that it remembers, and in an error that it has kept. -/
structure Similar (now : EvmStore) (before after : Undoable) : Prop where
  memory : after.memory = before.memory
  enabled : after.codeCache.isSome = before.codeCache.isSome
  filled : ∀ addr, memo after.codeCache addr = memo before.codeCache addr ∨
    memo after.codeCache addr = some (codeOf now addr)
  evmValid : after.evm.Valid
  evm : SameBelow before.evm after.evm
  bankValid : after.bank.Valid
  bank : SameBelow before.bank after.bank
  journal : after.journal = before.journal
  err : after.err = none → before.err = none

variable {before after : Undoable}

theorem Shows.similar {world : World} (shows : before.Shows world)
    (similar : Similar world.evm before after) (evmView : after.evm.view = before.evm.view)
    (bankView : after.bank.view = before.bank.view) : after.Shows world where
  evmValid := similar.evmValid
  evm := evmView.trans shows.evm
  committed := similar.evm.committed.trans shows.committed
  bankValid := similar.bankValid
  bank := bankView.trans shows.bank
  memory := similar.memory.trans shows.memory
  coherent addr code remembered := by
    rcases similar.filled addr with same | isFill
    · exact shows.coherent addr code (same ▸ remembered)
    · exact Option.some.inj (remembered.symm.trans isFill)
  accessList := shows.accessList
  surplus := shows.surplus
  err noError := shows.err (similar.err noError)

theorem Recovers.similar {now now' : World}
    (recovers : Recovers before now saved) (similar : Similar now.evm before after)
    (sameCode : after.codeCache.isSome = true → ∀ addr,
      codeOf now'.evm addr = codeOf now.evm addr) :
    Recovers after now' saved := by
  induction recovers generalizing after now' with
  | first evmLayers bankLayers =>
    exact .first (similar.evm.length.trans evmLayers) (similar.bank.length.trans bankLayers)
  | @next before now world saved entries rest memory codeCache evmLayers bankLayers journal plain
      codes undone shows older ih =>
    obtain ⟨codeCache', undone', sameEnabled, filled⟩ :=
      undoAll_filled (fun _ => True) undone similar.enabled fun addr =>
        (similar.filled addr).imp_right fun isFill => ⟨trivial, isFill⟩
    rw [← similar.memory] at undone'
    obtain ⟨evmBelow, evmView⟩ := similar.evm.revertToSnapshot saved.length (by omega)
    obtain ⟨bankBelow, bankView⟩ := similar.bank.revertToSnapshot saved.length (by omega)
    have filledBelow : ∀ addr, memo codeCache' addr = memo codeCache addr ∨
        memo codeCache' addr = some (codeOf world.evm addr) := by
      intro addr
      rcases filled addr with same | ⟨-, noEntry, isFill⟩
      · exact .inl same
      · have remembers : codeCache'.isSome = true := by
          cases codeCache' with
          | none => cases isFill
          | some => rfl
        rw [sameEnabled, isSome_undoAll undone] at remembers
        exact .inr (by rw [isFill, codes remembers addr noEntry])
    have similarBelow : Similar world.evm (before.below saved.length memory codeCache rest)
        (after.below saved.length memory codeCache' rest) :=
      ⟨rfl, sameEnabled, filledBelow, valid_revertToSnapshot similar.evmValid _, evmBelow,
        valid_revertToSnapshot similar.bankValid _, bankBelow, rfl, similar.err⟩
    refine .next entries (similar.evm.length.trans evmLayers) (similar.bank.length.trans bankLayers)
      (similar.journal.trans journal) plain
      (fun enabled addr noEntry => (sameCode enabled addr).trans
        (codes (similar.enabled ▸ enabled) addr noEntry)) undone' ?_
      (ih similarBelow fun _ _ => rfl)
    exact shows.similar similarBelow evmView bankView

/-- A change that comes with the entry that undoes it. -/
theorem Recovers.push {now now' : World} (recovers : Recovers before now saved)
    (entry : JournalEntry)
    (journal : after.journal = entry :: before.journal)
    (plain : ∀ version, entry.isWatermark version = false)
    (undo : entry.undo after.memory = .ok memory) (similar : Similar now.evm before
      { after with
        memory := memory
        codeCache := entry.revertCodeCache after.codeCache
        journal := before.journal })
    (sameCode : ∀ addr, entry.codeAccount ≠ some addr →
      codeOf now'.evm addr = codeOf now.evm addr) :
    Recovers after now' saved := by
  cases recovers.similar similar fun _ _ => rfl with
  | first evmLayers bankLayers => exact .first evmLayers bankLayers
  | @next _ _ _ _ entries rest _ _ evmLayers bankLayers isJournal plainRest codes undone shows
      older =>
    refine .next (entry :: entries) evmLayers bankLayers
      (by rw [journal, show before.journal = _ from isJournal]; rfl)
      (forall_mem_cons.mpr ⟨plain, plainRest⟩) (fun enabled addr noEntry => ?_) ?_ shows older
    · obtain ⟨notHere, notLater⟩ := forall_mem_cons.mp noEntry
      have stillEnabled := (isSome_revertCodeCache entry after.codeCache).trans enabled
      exact (sameCode addr notHere).trans (codes stillEnabled addr notLater)
    · rw [undoAll, undo]
      exact undone

/-- A snapshot keeps the world as it is. -/
theorem Recovers.mark {later : World} (recovers : Recovers state now saved)
    (shows : state.Shows now) (sameEvm : later.evm = now.evm) :
    Recovers { state with
      evm := state.evm.snapshot
      bank := state.bank.snapshot
      journal := .watermark saved.length :: state.journal } later (now :: saved) := by
  obtain ⟨evmLayers, bankLayers⟩ := recovers.layers
  obtain ⟨evmBelow, evmView⟩ := revertToSnapshot_snapshot state.evm
  obtain ⟨bankBelow, bankView⟩ := revertToSnapshot_snapshot state.bank
  rw [evmLayers] at evmBelow evmView
  rw [bankLayers] at bankBelow bankView
  have similar : Similar now.evm state ⟨state.memory, state.codeCache,
      state.evm.snapshot.revertToSnapshot saved.length,
      state.bank.snapshot.revertToSnapshot saved.length, state.journal, state.err⟩ :=
    ⟨rfl, rfl, fun _ => .inl rfl, valid_revertToSnapshot (valid_snapshot shows.evmValid) _, evmBelow,
      valid_revertToSnapshot (valid_snapshot shows.bankValid) _, bankBelow, rfl, id⟩
  exact .next [] ((length_snapshot state.evm).trans (by rw [evmLayers]))
    ((length_snapshot state.bank).trans (by rw [bankLayers])) rfl
    (fun entry member => by cases member) (fun _ _ _ => by rw [sameEvm]) rfl
    (shows.similar similar evmView bankView) (recovers.similar similar fun _ _ => rfl)

end Undoable

/-- Reverting entries without the watermark that is looked for. -/
theorem revertJournal_append {version : Nat} (tail : List JournalEntry) (db : DBImpl)
    (passed : ∀ entry ∈ entries, entry.isWatermark version = false)
    (undone : undoAll entries db.tempState.contents db.codeCache = .ok (memory, codeCache)) :
    ∃ tempState, tempState.contents = memory ∧
      DBImpl.revertJournal version (entries ++ tail) db =
        DBImpl.revertJournal version tail
          { db with tempState := tempState, codeCache := codeCache } := by
  induction entries generalizing db with
  | nil =>
    cases undone
    exact ⟨db.tempState, rfl, rfl⟩
  | cons entry rest ih =>
    obtain ⟨notHere, notLater⟩ := forall_mem_cons.mp passed
    rw [undoAll, ← contents_revertTemporary] at undone
    rcases reverted : entry.revertTemporary db.tempState with _ | next <;> rw [reverted] at undone
    · cases undone
    · obtain ⟨tempState, isMemory, ran⟩ := ih
        { db with tempState := next, codeCache := entry.revertCodeCache db.codeCache } notLater
        undone
      refine ⟨tempState, isMemory, ?_⟩
      rw [← ran, cons_append, DBImpl.revertJournal, revert, reverted]
      change (if entry.isWatermark version = true then _ else _) = _
      rw [if_neg (by rw [notHere]; exact Bool.false_ne_true)]

/-- Reverting the journal to a snapshot leads to the world that the snapshot saved. -/
theorem Undoable.Recovers.revertJournal
    (recovers : state.Recovers now saved) {rev : Nat} (isRevision : rev < saved.length)
    (db : DBImpl) (memory : db.tempState.contents = state.memory)
    (codeCache : db.codeCache = state.codeCache) :
    ∃ tempState codeCache rest world older,
      DBImpl.revertJournal rev state.journal db =
        .ok ({ db with tempState := tempState, codeCache := codeCache }, some rest) ∧
      saved.drop (saved.length - rev - 1) = world :: older ∧
      (state.below rev tempState.contents codeCache rest).Shows world ∧
      (state.below rev tempState.contents codeCache rest).Recovers world older := by
  induction recovers generalizing db with
  | first => cases isRevision
  | @next state now world saved entries rest undoneMemory undoneCache evmLayers bankLayers journal
      plain codes undone shows older ih =>
    rw [← memory, ← codeCache] at undone
    obtain ⟨tempState, isMemory, reverted⟩ := revertJournal_append (.watermark saved.length :: rest)
      db (fun entry member => plain entry member rev) undone
    rw [journal, reverted]
    by_cases newest : saved.length = rev
    · subst newest
      refine ⟨tempState, undoneCache, rest, world, saved, ?_, by simp, ?_, ?_⟩
      · change (if decide (saved.length = saved.length) = true then _ else _) = _
        rw [if_pos (by simp)]
        rfl
      · rwa [isMemory]
      · rwa [isMemory]
    · have isOlder : rev < saved.length := by
        rw [length_cons] at isRevision
        omega
      obtain ⟨tempState', codeCache', rest', world', older', reverted', dropped, shows', recovers'⟩ :=
        ih isOlder { db with tempState := tempState, codeCache := undoneCache } isMemory rfl
      refine ⟨tempState', codeCache', rest', world', older', ?_, ?_, ?_, ?_⟩
      · change (if decide (saved.length = rev) = true then _ else _) = _
        rw [if_neg (by simpa using newest)]
        exact reverted'
      · rw [← dropped, length_cons, show saved.length + 1 - rev - 1 =
          saved.length - rev - 1 + 1 by omega, drop_succ_cons]
      · rwa [below_below state isOlder.le (by omega) (by omega)] at shows'
      · rwa [below_below state isOlder.le (by omega) (by omega)] at recovers'

end SeiChain.Evm
