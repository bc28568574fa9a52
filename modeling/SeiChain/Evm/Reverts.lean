/-
This file proves that reverts of the state database are exact. The state
database with its journal, its layers and its memo represents a world of
worlds, and every operation on it does to the world what the operation means.
A revert puts back the world of the snapshot, so afterwards the state database
represents the same world as before the snapshot, and nothing that it will
ever show or answer depends on what was reverted.
-/

import SeiChain.Evm.Undo

namespace SeiChain.Evm

open Std Library Bank CacheKV Undoable List Function Model History StorageOverride

/-- The state database shows the world, and its journal leads back to the saved ones. -/
structure Represents (saved : List World) (db : DBImpl) (world : World) : Prop where
  shows : db.undoable.Shows world
  recovers : db.undoable.Recovers world saved

/-- The outcomes of the state database and of the world are the same, with the same worlds saved. -/
abbrev SameEnd (saved : List World) {A : Type} := @SameOutcome DBImpl World Panic A (Represents saved)

/-- The operation on the state database does what the operation on the world does. -/
abbrev Models (saved : List World) {A : Type} := @Simulates DBImpl World Panic A (Represents saved)

variable {saved : List World} {A : Type}

namespace Represents

variable {db db' : DBImpl} {world now : World} (represents : Represents saved db world)

include represents

/-- A change of the tops of the stores and of what is remembered, without a journal entry. -/
theorem similar (similar : Similar world.evm db.undoable db'.undoable)
    (sameCode : db'.codeCache.isSome = true → ∀ addr, codeOf now.evm addr = codeOf world.evm addr)
    (shows : db'.undoable.Shows now) : Represents saved db' now :=
  ⟨shows, represents.recovers.similar similar sameCode⟩

/-- What a program of the EVM does, from the store of the world. -/
theorem evmRun (program : EvmProgram A) :
    ∃ outcome evm, stackStore.run program db.evm = (outcome, evm) ∧
      (mapStore Bytes Bytes).run program world.evm = (outcome, evm.view) ∧ evm.Valid ∧
      SameBelow db.evm evm := by
  obtain ⟨outcome, evm, ran, shown, valid, below⟩ := run_stack represents.shows.evmValid program
  rw [show db.undoable.evm.view = world.evm from represents.shows.evm] at shown
  exact ⟨outcome, evm, ran, shown, valid, below⟩

/-- A program that changes no code. -/
theorem evmCall (program : EvmProgram A) (keeps : KeepsCode (fun _ => False) program) :
    SameEnd saved (Evm.evmCall program db) (Model.evmCall program world) := by
  obtain ⟨outcome, evm, ran, modelRan, valid, below⟩ := represents.evmRun program
  have sameCode := keeps world.evm
  unfold Evm.evmCall Model.evmCall
  rw [modelRan] at sameCode ⊢
  rw [ran]
  cases outcome with
  | error cause => exact .error cause
  | ok =>
    refine .ok (represents.similar ⟨rfl, rfl, fun _ => .inl rfl, valid, below,
      represents.shows.bankValid, .refl _, rfl, id⟩ (fun _ addr => sameCode addr not_false) ?_)
    exact { represents.shows with
      evmValid := valid
      evm := rfl
      committed := below.committed.trans represents.shows.committed
      coherent := fun addr code remembered =>
        (represents.shows.coherent addr code remembered).trans (sameCode addr not_false).symm }

/-- What a bank program does, from the store of the world. -/
theorem bankRun (program : BankProgram A) :
    ∃ outcome bank, stackStore.run program db.bank = (outcome, bank) ∧
      (mapStore BankKey Int).run program world.bank = (outcome, bank.view) ∧
      ∀ err refused, (err = none → db.err = none ∧ refused = world.refused) →
        Represents saved { db with bank := bank, err := err }
          { world with bank := bank.view, refused := refused } := by
  obtain ⟨outcome, bank, ran, shown, valid, below⟩ := run_stack represents.shows.bankValid program
  rw [show db.undoable.bank.view = world.bank from represents.shows.bank] at shown
  refine ⟨outcome, bank, ran, shown, fun err refused kept => represents.similar ⟨rfl, rfl,
    fun _ => .inl rfl, represents.shows.evmValid, .refl _, valid, below, rfl,
    fun noError => (kept noError).1⟩ (fun _ _ => rfl) ?_⟩
  exact { represents.shows with
    bankValid := valid
    bank := rfl
    err := fun noError =>
      (kept noError).2.trans (represents.shows.err (kept noError).1) }

theorem bankRead (program : BankProgram A) :
    SameEnd saved (Evm.bankRead program db) (Model.bankRead program world) := by
  obtain ⟨outcome, bank, ran, modelRan, kept⟩ := represents.bankRun program
  unfold Evm.bankRead Model.bankRead
  rw [ran, modelRan]
  cases outcome with
  | error => exact .error _
  | ok => exact .ok (kept db.err world.refused fun noError => ⟨noError, rfl⟩)

theorem bankCall (program : BankProgram Unit) :
    SameEnd saved (Evm.bankCall program db) (Model.bankCall program world) := by
  obtain ⟨outcome, bank, ran, modelRan, kept⟩ := represents.bankRun program
  unfold Evm.bankCall Model.bankCall
  rw [ran, modelRan]
  cases outcome with
  | ok => exact .ok (kept db.err world.refused fun noError => ⟨noError, rfl⟩)
  | error cause =>
    cases cause with
    | panic cause => exact .error _
    | _ => exact .ok (kept _ true nofun)

theorem accessList : db.tempState.contents.accessList.WellFormed := by
  rw [show db.tempState.contents = world.memory from represents.shows.memory]
  exact represents.shows.accessList

theorem surplus : SdkInt.bitLen db.tempState.contents.surplus ≤ SdkInt.maxBitLen := by
  rw [show db.tempState.contents = world.memory from represents.shows.memory]
  exact represents.shows.surplus

/-- A change of the memory that comes with the entry that undoes it. -/
theorem journaled {entry : JournalEntry} {change : TemporaryState → TemporaryState}
    {meaning : Memory → Memory}
    (plain : ∀ version, entry.isWatermark version = false) (noCode : entry.codeAccount = none)
    (contents : (change db.tempState).contents = meaning db.tempState.contents)
    (undo : entry.undo (meaning db.tempState.contents) = .ok db.tempState.contents)
    (accessList : (meaning db.tempState.contents).accessList.WellFormed)
    (surplus : SdkInt.bitLen (meaning db.tempState.contents).surplus ≤ SdkInt.maxBitLen) :
    SameEnd saved (Evm.journaled entry change db) (remember meaning world) := by
  have memory : db.tempState.contents = world.memory := represents.shows.memory
  have unchanged : ∀ codeCache, entry.revertCodeCache codeCache = codeCache := by
    intro codeCache
    cases entry with
    | codeCacheChange => cases noCode
    | _ => rfl
  have shows : (DBImpl.undoable { db with
      tempState := change db.tempState, journal := entry :: db.journal }).Shows
      { world with memory := meaning world.memory } :=
    { represents.shows with
      memory := contents.trans (congrArg meaning memory)
      accessList := by rwa [memory] at accessList
      surplus := by rwa [memory] at surplus }
  refine .ok ⟨shows, ?_⟩
  refine represents.recovers.push entry rfl plain
    ((congrArg (entry.undo ·) contents).trans undo) ⟨rfl, ?_, ?_, represents.shows.evmValid, .refl _,
      represents.shows.bankValid, .refl _, rfl, id⟩ fun _ _ => rfl
  · exact congrArg Option.isSome (unchanged db.codeCache)
  · exact fun addr => .inl (congrArg (memo · addr) (unchanged db.codeCache))

/-- A program that changes the code of one address, and then the memo of that address. -/
theorem codeCall (program : EvmProgram Unit) (addr : Address)
    (code : Option Bytes) (keeps : KeepsCode (· = addr) program)
    (isCode : ∀ bytes, code = some bytes → ∀ store,
      codeOf ((mapStore Bytes Bytes).run program store).2 addr = bytes) :
    SameEnd saved
      ((do
        Evm.evmCall program
        journalCodeCacheMutation addr
        modify fun db =>
          { db with codeCache := db.codeCache.map fun memo => restore memo addr code } : DBM Unit) db)
      (Model.evmCall program world) := by
  obtain ⟨outcome, evm, ran, modelRan, valid, below⟩ := represents.evmRun program
  have sameCode := keeps world.evm
  have newCode := fun bytes isBytes => isCode bytes isBytes world.evm
  unfold Model.evmCall
  change SameEnd saved ((Evm.evmCall program db).bind _) _
  unfold Evm.evmCall
  rw [modelRan] at sameCode newCode ⊢
  rw [ran]
  cases outcome with
  | error cause => exact .error cause
  | ok =>
    have committed := below.committed.trans represents.shows.committed
    obtain ⟨evmBefore, bank, tempState, journal, codeCache, err⟩ := db
    cases codeCache with
    | none =>
      refine .ok (represents.similar ⟨rfl, rfl, fun _ => .inl rfl, valid, below,
        represents.shows.bankValid, .refl _, rfl, id⟩ (fun enabled => by cases enabled) ?_)
      exact { represents.shows with
        evmValid := valid
        evm := rfl
        committed := committed
        coherent := fun addr code remembered => by cases remembered }
    | some remembered =>
      refine .ok ⟨{ represents.shows with
        evmValid := valid
        evm := rfl
        committed := committed
        coherent := fun other bytes isMemo => ?_ }, ?_⟩
      · change memo (some (restore remembered addr code)) other = some bytes at isMemo
        rw [memo_restore] at isMemo
        by_cases same : other = addr
        · rw [if_pos same] at isMemo
          rw [same]
          exact (newCode bytes isMemo).symm
        · rw [if_neg same] at isMemo
          exact (represents.shows.coherent other bytes isMemo).trans (sameCode other same).symm
      · refine represents.recovers.push (.codeCacheChange addr remembered[addr]?) rfl
          (fun _ => rfl) rfl ⟨rfl, rfl, fun other => .inl ?_, valid, below,
            represents.shows.bankValid, .refl _, rfl, id⟩ fun other notHere => sameCode other ?_
        · change memo (some (restore (restore remembered addr code) addr remembered[addr]?)) other =
            memo (some remembered) other
          rw [memo_restore, memo_restore]
          by_cases same : other = addr
          · rw [if_pos same, same]
            rfl
          · rw [if_neg same, if_neg same]
        · exact fun same => notHere (congrArg some same.symm)

/-- Filling the memo with the code of the store. -/
theorem fill (addr : Address) :
    Represents saved { db with
      codeCache := db.codeCache.map fun memo =>
        memo.insert addr (codeOf world.evm addr) } world := by
  have filled : ∀ other, memo (db.codeCache.map fun memo =>
        memo.insert addr (codeOf world.evm addr)) other = memo db.codeCache other ∨
      memo (db.codeCache.map fun memo => memo.insert addr (codeOf world.evm addr)) other =
        some (codeOf world.evm other) := by
    intro other
    cases db.codeCache with
    | none => exact .inl rfl
    | some remembered =>
      change memo (some (restore remembered addr (some (codeOf world.evm addr)))) other =
          memo (some remembered) other ∨
        memo (some (restore remembered addr (some (codeOf world.evm addr)))) other = _
      rw [memo_restore]
      by_cases same : other = addr
      · rw [if_pos same, same]
        exact .inr rfl
      · exact .inl (if_neg same)
  have similar : Similar world.evm db.undoable (DBImpl.undoable { db with
      codeCache := db.codeCache.map fun memo => memo.insert addr (codeOf world.evm addr) }) :=
    ⟨rfl, Option.isSome_map, filled, represents.shows.evmValid, .refl _, represents.shows.bankValid,
      .refl _, rfl, id⟩
  exact ⟨represents.shows.similar similar rfl rfl, represents.recovers.similar similar fun _ _ => rfl⟩

theorem refund_eq : world.memory.refund = db.tempState.getRefund :=
  congrArg Memory.refund represents.shows.memory.symm

theorem storageOverride_eq (addr : Address) :
    world.memory.storageOverride addr = db.tempState.storageOverrides[addr]?.map contents :=
  congrFun (congrArg Memory.storageOverride represents.shows.memory.symm) addr

theorem accessList_eq : world.memory.accessList = db.tempState.transientAccessLists :=
  congrArg Memory.accessList represents.shows.memory.symm

theorem accountStatus_eq (acc : Address) :
    world.memory.accountStatus acc = db.tempState.transientAccounts[acc]? :=
  congrFun (congrArg Memory.accountStatus represents.shows.memory.symm) acc

end Represents

/-! ### Operations -/

theorem simulates_evmCall (program : EvmProgram A) (keeps : KeepsCode (fun _ => False) program) :
    Models saved (evmCall program) (Model.evmCall program) :=
  fun _ _ represents => represents.evmCall program keeps

theorem simulates_bankCall (program : BankProgram Unit) :
    Models saved (bankCall program) (Model.bankCall program) :=
  fun _ _ represents => represents.bankCall program

variable (env : Env) (acc addr evmAddr : Address)

theorem simulates_getCodeOf : Models saved (getCodeOf addr) (Model.evmCall (getCode addr)) := by
  refine .lookLeft fun db world represents => ?_
  have answer : Model.evmCall (getCode addr) world = .ok (codeOf world.evm addr, world) := by
    unfold Model.evmCall
    rw [run_getCode]
  cases remembered : db.codeCache.bind fun memo => memo[addr]? with
  | some code =>
    rw [answer, ← represents.shows.coherent addr code remembered]
    exact .ok represents
  | none =>
    have ended := represents.evmCall (getCode addr) (keepsCode_getCode addr)
    rw [answer] at ended
    change SameEnd saved (evmCall (getCode addr) db >>= _) _
    generalize evmCall (getCode addr) db = outcome at ended
    rw [answer]
    cases ended with
    | ok after => exact .ok (after.fill addr)

theorem simulates_setCodeOf (code : Bytes) :
    Models saved (setCodeOf env addr code) (Model.setCodeOf env addr code) := by
  refine .bind (simulates_getCodeOf addr) fun oldCode => .bind ?_ fun _ => .pure oldCode
  refine fun db world represents =>
    represents.codeCall _ addr (some code) (keepsCode_setCode env.keccak addr code) ?_
  rintro _ ⟨⟩ store
  exact codeOf_setCode env.keccak addr code store

theorem simulates_markAccount (status : AccountStatus) :
    Models saved (markAccount acc status) (Model.markAccount acc status) := by
  refine .lookLeft fun db world represents => ?_
  refine represents.journaled (fun _ => rfl) rfl ?_ ?_ represents.accessList represents.surplus
  · exact congrArg (fun statuses => { db.tempState.contents with accountStatus := statuses })
      (getElem?_insert_eq_update db.tempState.transientAccounts acc status)
  · exact congrArg
      (fun statuses => Except.ok { db.tempState.contents with accountStatus := statuses })
      ((update_idem ..).trans (update_eq_self ..))

theorem simulates_setTransientState (key val : Hash) :
    Models saved (setTransientState addr key val) (Model.setTransientState addr key val) := by
  refine .lookLeft fun db world represents => ?_
  refine represents.journaled (fun _ => rfl) rfl ?_ ?_ represents.accessList represents.surplus
  · exact congrArg (fun transient => { db.tempState.contents with transientState := transient })
      (getTransientState_withTransient db.tempState addr key val)
  · exact undo_transientStorageChange db.tempState.contents addr key val

variable {db : DBImpl} {world : World}

theorem simulates_setRefund (represents : Represents saved db world) (refund : UInt64) :
    SameEnd saved (setRefund db.tempState.getRefund refund db) (Model.setRefund refund world) := by
  refine represents.journaled (fun _ => rfl) rfl ?_ rfl represents.accessList represents.surplus
  exact congrArg (fun refund => { db.tempState.contents with refund := refund })
    (getRefund_insert db.tempState refund)

theorem simulates_addRefund (gas : UInt64) :
    Models saved (addRefund gas) (Model.addRefund gas) := by
  refine .look fun db world represents => ?_
  rw [represents.refund_eq]
  exact simulates_setRefund represents _

theorem simulates_subRefund (gas : UInt64) :
    Models saved (subRefund gas) (Model.subRefund gas) := by
  refine .look fun db world represents => ?_
  rw [represents.refund_eq]
  split
  · exact .error _
  · exact simulates_setRefund represents _

theorem simulates_addLog (log : Log) : Models saved (addLog log) (Model.addLog log) := by
  refine fun db world represents =>
    represents.journaled (fun _ => rfl) rfl rfl ?_ represents.accessList represents.surplus
  rw [JournalEntry.undo, if_neg (by simp), dropLast_concat]

/-! #### Storage -/

theorem contents_insertOverride (state : TemporaryState) (addr : Address)
    (override : StorageOverride) :
    ({ state with storageOverrides := state.storageOverrides.insert addr override } :
      TemporaryState).contents =
      { state.contents with
        storageOverride := update state.contents.storageOverride addr (some override.contents) } :=
  congrArg (fun overrides => { state.contents with storageOverride := overrides })
    (contents_restore state.storageOverrides addr (some override))

theorem simulates_setStorage (states : ExtTreeMap Hash Hash) :
    Models saved (setStorage addr states)
      (setStorageOverride addr (some (contents ⟨states, states⟩))) := by
  refine .lookLeft fun db world represents => ?_
  refine represents.journaled (fun _ => rfl) rfl ?_ ?_ represents.accessList represents.surplus
  · exact contents_insertOverride db.tempState addr ⟨states, states⟩
  · exact undo_storageOverride rfl (.inl rfl) _

theorem simulates_removeStorageOverride :
    Models saved (removeStorageOverride acc) (setStorageOverride acc none) := by
  refine .lookLeft fun db world represents => ?_
  cases stored : db.tempState.storageOverrides[acc]? with
  | none =>
    have unchanged : update world.memory.storageOverride acc none =
        world.memory.storageOverride :=
      update_eq_self_iff.mpr (by rw [represents.storageOverride_eq, stored]; rfl)
    have kept : setStorageOverride acc none world = .ok ((), world) := by
      change Except.ok ((), { world with
        memory := { world.memory with
          storageOverride := update world.memory.storageOverride acc none } }) = _
      rw [unchanged]
    rw [kept]
    exact .ok represents
  | some override =>
    refine represents.journaled (fun _ => rfl) rfl ?_ ?_ represents.accessList represents.surplus
    · exact congrArg (fun overrides => { db.tempState.contents with storageOverride := overrides })
        (contents_restore db.tempState.storageOverrides acc none)
    · exact undo_storageOverride (congrArg (Option.map contents) stored)
        (.inr ⟨override, rfl, rfl⟩) _

theorem simulates_getStateOf (hash : Hash) :
    Models saved (getStateOf addr hash) (Model.getStateOf addr hash) := by
  refine .look fun db world represents => ?_
  rw [represents.storageOverride_eq]
  cases db.tempState.storageOverrides[addr]? with
  | some => exact .ok represents
  | none => exact represents.evmCall _ (keepsCode_getState addr hash)

theorem simulates_setStateOf (key val : Hash) :
    Models saved (setStateOf addr key val) (Model.setStateOf addr key val) := by
  refine .look fun db world represents => ?_
  rw [represents.storageOverride_eq]
  cases stored : db.tempState.storageOverrides[addr]? with
  | some override =>
    have contents : db.tempState.contents.storageOverride addr = some override.contents :=
      congrArg (Option.map contents) stored
    have written : SameEnd saved
        (journaled (.storageOverrideChange addr key (override.contents.2 key)) (fun state =>
          { state with
            storageOverrides := state.storageOverrides.insert addr
              { override with current := override.current.insert key val } }) db)
        (setStorageOverride addr
          (some (override.contents.1, update override.contents.2 key val)) world) := by
      refine represents.journaled (fun _ => rfl) rfl ?_ (undo_storageOverrideChange contents key val)
        represents.accessList represents.surplus
      rw [contents_insertOverride, contents_override]
    exact written.bind fun _ => .pure _
  | none =>
    exact (Simulates.bind (simulates_getStateOf addr key) fun old =>
      .bind (simulates_evmCall _ (keepsCode_setState addr key val)) fun _ => .pure old)
        db world represents

theorem simulates_clearAccountState :
    Models saved (clearAccountState acc) (Model.clearAccountState acc) := by
  refine .bind (simulates_removeStorageOverride acc) fun _ =>
    .bind (simulates_evmCall _ (keepsCode_deleteCodeHash acc)) fun existed =>
      .ite (fun _ => ?_) fun _ => .pure ()
  refine .bind (simulates_evmCall _ (keepsCode_purgeState acc)) fun _ => ?_
  intro db world represents
  exact represents.codeCall _ acc none (keepsCode_deleteCodeAndNonce acc)
    fun bytes absent => by cases absent

theorem simulates_createAccount :
    Models saved (createAccount env acc) (Model.createAccount env acc) :=
  .bind (.ite (fun _ => .pure ()) fun _ => simulates_clearAccountState acc) fun _ =>
    simulates_markAccount acc .created

/-! #### The access list -/

theorem simulates_access {entry : JournalEntry}
    {change : AccessList → AccessList} (represents : Represents saved db world)
    (plain : ∀ version, entry.isWatermark version = false) (noCode : entry.codeAccount = none)
    (undo : entry.undo { db.tempState.contents with
      accessList := change db.tempState.transientAccessLists } = .ok db.tempState.contents)
    (wellFormed : (change db.tempState.transientAccessLists).WellFormed) :
    SameEnd saved (journaledAccess entry change db) (changeAccess change world) :=
  represents.journaled plain noCode rfl undo wellFormed represents.surplus

theorem simulates_addAddressToAccessList :
    Models saved (addAddressToAccessList addr) (Model.addAddressToAccessList addr) := by
  refine .look fun db world represents => ?_
  rw [represents.accessList_eq]
  cases stored : db.tempState.transientAccessLists.addresses[addr]? with
  | some => exact .ok represents
  | none =>
    refine simulates_access represents (fun _ => rfl) rfl ?_ (represents.accessList.addAddress addr)
    exact congrArg (fun list => Except.ok { db.tempState.contents with accessList := list })
      (AccessList.removeAddress_addAddress stored)

theorem simulates_addFirstSlot (represents : Represents saved db world)
    {addr : Address} (noSlots : db.tempState.transientAccessLists.addresses[addr]? = some none)
    (slot : Hash) :
    SameEnd saved (addFirstSlot addr slot db)
      (changeAccess (fun list => list.addSlots addr slot) world) := by
  refine simulates_access represents (fun _ => rfl) rfl ?_ (represents.accessList.addSlots addr slot)
  exact congrArg (fun list => Except.ok { db.tempState.contents with accessList := list })
    (AccessList.removeSlot_addSlots noSlots)

theorem simulates_addSlotToAccessList (slot : Hash) :
    Models saved (addSlotToAccessList addr slot) (Model.addSlotToAccessList addr slot) := by
  refine .look fun db world represents => ?_
  rw [represents.accessList_eq]
  rcases index : db.tempState.transientAccessLists.addresses[addr]? with _ | _ | idx
  case none =>
    have added := simulates_addAddressToAccessList addr db world represents
    have ran : addAddressToAccessList addr db = journaledAccess (.accessListAddAccountChange addr)
        (fun list => list.addAddress addr) db := by
      rw [addAddressToAccessList, get_bind, index]
    change SameEnd saved
      (addAddressToAccessList addr db >>= fun ended => addFirstSlot addr slot ended.2)
      (Model.addAddressToAccessList addr world >>= fun ended =>
        Model.changeAccess (fun list => list.addSlots addr slot) ended.2)
    rw [ran] at added ⊢
    generalize Model.addAddressToAccessList addr world = modelOutcome at added
    cases added with
    | ok after => exact simulates_addFirstSlot after ExtTreeMap.getElem?_insert_self slot
  case some.none => exact simulates_addFirstSlot represents index slot
  case some.some =>
    dsimp only
    cases found : db.tempState.transientAccessLists.slots[idx]? with
    | none => exact .error _
    | some slots =>
      dsimp only
      by_cases present : slots.contains slot = true
      · rw [if_pos present, if_pos present]
        exact .ok represents
      · rw [if_neg present, if_neg present]
        refine simulates_access represents (fun _ => rfl) rfl ?_
          (represents.accessList.addSlot idx slots slot)
        exact congrArg (fun list => Except.ok { db.tempState.contents with accessList := list })
          (AccessList.removeSlot_addSlot represents.accessList index found
            (Bool.eq_false_iff.mpr present))

/-! #### Balances -/

theorem simulates_seiAddressOf :
    Models saved (seiAddressOf env evmAddr) (Model.seiAddressOf env evmAddr) :=
  .ite (fun _ => .pure _) fun _ =>
    simulates_evmCall _ (keepsCode_getSeiAddressOrDefault evmAddr)

theorem simulates_lift (outcome : Except Panic A) :
    Models saved (liftM outcome : DBM A) (liftM outcome : Model A) := by
  intro db world represents
  cases outcome with
  | error cause => exact .error cause
  | ok => exact .ok represents

theorem simulates_getBalanceOf :
    Models saved (getBalanceOf env evmAddr) (Model.getBalanceOf env evmAddr) :=
  .bind (simulates_seiAddressOf env evmAddr) fun seiAddr =>
    .bind (fun _ _ represents => represents.bankRead (getSpendableBalance env.lockedCoins seiAddr))
      fun balance => simulates_lift (uint256OfBig balance)

theorem simulates_addSurplus (delta : Int) :
    Models saved (addSurplus delta) (Model.addSurplus delta) := by
  refine .look fun db world represents => ?_
  rw [show world.memory.surplus = db.tempState.surplus from
    congrArg Memory.surplus represents.shows.memory.symm]
  cases bounded : boundedInt (db.tempState.surplus + delta) with
  | error cause => exact .error cause
  | ok surplus =>
    obtain ⟨rfl, small⟩ := boundedInt_eq_ok bounded
    change SameEnd saved
      (journaled (.surplusChange delta) (fun state =>
        { state with surplus := db.tempState.surplus + delta }) db)
      (remember (fun memory =>
        { memory with surplus := db.tempState.surplus + delta }) world)
    exact represents.journaled (fun _ => rfl) rfl rfl
      (undo_surplusChange represents.surplus delta) represents.accessList small

theorem simulates_subBalance (amt : BitVec 256) :
    Models saved (subBalance env evmAddr amt) (Model.subBalance env evmAddr amt) :=
  .ite (fun _ => .pure ()) fun _ =>
    .bind (simulates_seiAddressOf env evmAddr) fun _ =>
      .bind (simulates_bankCall _) fun _ =>
        .ite (fun _ => .bind (simulates_bankCall _) fun _ =>
          .ite (fun _ => simulates_addSurplus _) fun _ => .pure ()) fun _ => .pure ()

theorem simulates_addBalance (amt : BitVec 256) :
    Models saved (addBalance env evmAddr amt) (Model.addBalance env evmAddr amt) :=
  .ite (fun _ => .pure ()) fun _ =>
    .bind (simulates_seiAddressOf env evmAddr) fun addr =>
      .bind (simulates_evmCall _ (keepsCode_canAddressReceive addr)) fun _ =>
        .bind (simulates_bankCall _) fun _ =>
          .ite (fun _ => .bind (simulates_bankCall _) fun _ =>
            .ite (fun _ => simulates_addSurplus _) fun _ => .pure ()) fun _ => .pure ()

theorem simulates_disassociate : Models saved (disassociate acc) (Model.disassociate acc) := by
  refine .bind (simulates_evmCall _ (.read _)) fun associated => ?_
  cases associated with
  | some seiAddr => exact simulates_evmCall _ (keepsCode_deleteAddressMapping seiAddr acc)
  | none => exact .pure ()

theorem simulates_selfDestruct : Models saved (selfDestruct env acc) (Model.selfDestruct env acc) :=
  .bind (simulates_disassociate acc) fun _ =>
    .bind (simulates_getBalanceOf env acc) fun balance =>
      .bind (simulates_subBalance env acc balance) fun _ =>
        .bind (simulates_markAccount acc .deleted) fun _ => .pure balance

theorem simulates_selfDestruct6780 :
    Models saved (selfDestruct6780 env acc) (Model.selfDestruct6780 env acc) := by
  refine .look fun db world represents => ?_
  rw [represents.accountStatus_eq]
  unfold TemporaryState.created
  by_cases created : db.tempState.transientAccounts[acc]? = some .created
  · rw [if_pos (by simpa using created), if_pos created]
    exact Simulates.bind (simulates_selfDestruct env acc) (fun balance => .pure (balance, true))
      db world represents
  · rw [if_neg (by simpa using created), if_neg created]
    exact .ok represents

/-- The operations that do not concern snapshots. -/
theorem simulates_perform (op : Op) (noSnapshot : op ≠ .snapshot)
    (noRevert : ∀ rev, op ≠ .revertToSnapshot rev) :
    Models saved (perform env op) (Model.perform env op) := by
  cases op with
  | setState addr key val => exact .map _ (simulates_setStateOf addr key val)
  | setTransientState addr key val => exact .map _ (simulates_setTransientState addr key val)
  | setCode addr code => exact .map _ (simulates_setCodeOf env addr code)
  | setNonce addr nonce => exact .map _ (simulates_evmCall _ (keepsCode_setNonce addr nonce))
  | addBalance addr amt => exact .map _ (simulates_addBalance env addr amt)
  | subBalance addr amt => exact .map _ (simulates_subBalance env addr amt)
  | addRefund gas => exact .map _ (simulates_addRefund gas)
  | subRefund gas => exact .map _ (simulates_subRefund gas)
  | addLog log => exact .map _ (simulates_addLog log)
  | addAddressToAccessList addr => exact .map _ (simulates_addAddressToAccessList addr)
  | addSlotToAccessList addr slot => exact .map _ (simulates_addSlotToAccessList addr slot)
  | createAccount acc => exact .map _ (simulates_createAccount env acc)
  | createContract acc => exact .map _ (simulates_markAccount acc .created)
  | selfDestruct acc => exact .map _ (simulates_selfDestruct env acc)
  | selfDestruct6780 acc => exact .map _ (simulates_selfDestruct6780 env acc)
  | setStorage addr states => exact .map _ (simulates_setStorage addr states)
  | getCode addr => exact .map _ (simulates_getCodeOf addr)
  | snapshot => exact absurd rfl noSnapshot
  | revertToSnapshot rev => exact absurd rfl (noRevert rev)

/-! ### Snapshots and reverts -/

/-- The state database represents a history. -/
def Tracks (db : DBImpl) (history : History) : Prop := Represents history.saved db history.now

variable {history : History}

theorem Tracks.snapshot (tracks : Tracks db history) :
    db.snapshot.1 = history.saved.length ∧ Tracks db.snapshot.2 history.snapshot := by
  obtain ⟨shows, recovers⟩ := tracks
  have version : db.snapshotted = history.saved.length := recovers.layers.1
  refine ⟨version, ?_, ?_⟩
  · exact { shows with
      evmValid := valid_snapshot shows.evmValid
      evm := (view_snapshot db.evm).trans shows.evm
      committed := by
        rw [History.snapshot, ← shows.committed, ← shows.evm]
        exact committed_snapshot db.evm
      bankValid := valid_snapshot shows.bankValid
      bank := (view_snapshot db.bank).trans shows.bank }
  · have marked : Undoable.Recovers _ history.snapshot.now _ := recovers.mark shows rfl
    rw [← version] at marked
    exact marked

/-- Another snapshot below keeps the stores from changing. -/
theorem Tracks.now_snapshot (tracks : Tracks db history) (below : history.saved ≠ []) :
    history.snapshot.now = history.now := by
  have layered : db.evm.layers.length ≠ 0 := by
    rw [show db.evm.layers.length = history.saved.length from tracks.recovers.layers.1]
    exact fun empty => below (length_eq_zero_iff.mp empty)
  have committed : db.evm.committed = history.now.committed := tracks.shows.committed
  rw [Stack.committed, if_neg layered] at committed
  rw [History.snapshot, ← committed, Option.getD_some, committed]

/-- A revert to a snapshot leads to the world that it saved. -/
theorem Tracks.revertToSnapshot (tracks : Tracks db history) (rev : Nat) :
    SameOutcome Tracks
      (do
        let reverted ← db.revertToSnapshot rev
        .ok (Answer.nothing, reverted))
      (do
        let reverted ← history.revertToSnapshot rev
        .ok (.nothing, reverted)) := by
  have version : db.snapshotted = history.saved.length := tracks.recovers.layers.1
  unfold DBImpl.revertToSnapshot History.revertToSnapshot
  rw [version]
  by_cases isRevision : rev < history.saved.length
  · obtain ⟨tempState, codeCache, rest, world, older, reverted, dropped, shows, recovers⟩ :=
      tracks.recovers.revertJournal isRevision
        { db with evm := db.evm.revertToSnapshot rev, bank := db.bank.revertToSnapshot rev } rfl rfl
    rw [show db.undoable.journal = db.journal from rfl] at reverted
    rw [dropped]
    simp only [reverted, if_pos isRevision]
    exact .ok ⟨shows, recovers⟩
  · rw [if_neg isRevision]
    cases history.saved.drop (history.saved.length - rev - 1) with
    | nil => exact .error _
    | cons world older =>
      dsimp only
      rw [if_neg isRevision]
      exact .error _

/-- The operation of a caller that reverts only to snapshots it took. Revision 0 belongs to the
snapshot of the constructor. -/
def Op.Taken : Op → Prop
  | .revertToSnapshot rev => 0 < rev
  | _ => True

theorem above_of_taken {op : Op} (taken : op.Taken) : op.Above 0 := by
  cases op with
  | revertToSnapshot => exact taken
  | _ => trivial

/-- Every operation does to the history what it means. -/
theorem tracks_perform (op : Op) :
    Simulates Tracks (perform env op) (History.perform env op) := by
  intro db history tracks
  by_cases isSnapshot : op = .snapshot
  · subst isSnapshot
    obtain ⟨version, snapshotted⟩ := tracks.snapshot
    change SameOutcome Tracks (.ok (Answer.revision db.snapshot.1, db.snapshot.2)) _
    rw [version]
    exact .ok snapshotted
  by_cases isRevert : ∃ rev, op = .revertToSnapshot rev
  · obtain ⟨rev, rfl⟩ := isRevert
    exact tracks.revertToSnapshot rev
  · have noRevert : ∀ rev, op ≠ .revertToSnapshot rev := fun rev same => isRevert ⟨rev, same⟩
    have ended := simulates_perform env op isSnapshot noRevert db history.now tracks
    rw [perform_of_ne env isSnapshot noRevert]
    generalize perform env op db = outcome at ended
    generalize Model.perform env op history.now = modelOutcome at ended
    cases ended with
    | ok represents => exact .ok represents
    | error cause => exact .error cause

theorem tracks_performAll (ops : List Op) :
    Simulates Tracks (performAll env ops) (History.performAll env ops) := by
  induction ops with
  | nil => exact .pure []
  | cons op rest ih =>
    exact .bind (tracks_perform env op) fun answer =>
      .bind ih fun answers => .pure (answer :: answers)

/-! ### What is observed -/

theorem answerOf_eq {S W : Type} {related : S → W → Prop} {getter : StateT S (Except Panic) A}
    {modelGetter : StateT W (Except Panic) A} {state : S} {model : W}
    (ended : SameOutcome related (getter state) (modelGetter model)) :
    answerOf getter state = answerOf modelGetter model := by
  unfold answerOf
  generalize getter state = outcome at ended
  generalize modelGetter model = modelOutcome at ended
  cases ended <;> rfl

theorem answerOf_getCommittedState
    (represents : Represents saved db world) (addr : Address) (hash : Hash) :
    answerOf (getCommittedState addr hash) db =
      answerOf (Model.getCommittedState addr hash) world := by
  obtain ⟨result, -⟩ := stackStore_refines.run (getState addr hash) (⟨db.evm.base, []⟩) trivial
  rw [show Stack.view ⟨db.evm.base, []⟩ = fun key => db.evm.base[key]? from rfl] at result
  have committed : db.evm.committed = world.committed := represents.shows.committed
  unfold answerOf getCommittedState Model.getCommittedState DBImpl.snapshotted
  rw [represents.storageOverride_eq, ← committed, Stack.committed]
  cases db.tempState.storageOverrides[addr]? with
  | some => rfl
  | none =>
    simp only [Option.map_none, result]
    by_cases empty : db.evm.layers.length = 0
    · rw [if_pos empty, if_pos empty]
      rfl
    · rw [if_neg empty, if_neg empty]
      dsimp only
      cases ((mapStore Bytes Bytes).run (getState addr hash) fun key => db.evm.base[key]?).1 <;> rfl

/-- The state database shows what the world holds. -/
theorem Represents.observe (represents : Represents saved db world)
    (env : Env) : db.observe env = world.observe env := by
  have memory : db.tempState.contents = world.memory := represents.shows.memory
  unfold DBImpl.observe World.observe
  rw [← memory]
  simp only [Observation.mk.injEq]
  refine ⟨?_, ?_, rfl, ?_, ?_, ?_, ?_, rfl, rfl, rfl, rfl, rfl, rfl, rfl, rfl⟩
  · funext addr hash
    exact answerOf_eq (simulates_getStateOf addr hash db world represents)
  · funext addr hash
    exact answerOf_getCommittedState represents addr hash
  · funext addr
    exact answerOf_eq (simulates_getCodeOf addr db world represents)
  · funext addr
    exact answerOf_eq (represents.evmCall _ (keepsCode_getCodeSize addr))
  · funext addr
    exact answerOf_eq (represents.evmCall _ (keepsCode_getNonce addr))
  · funext addr
    exact answerOf_eq (simulates_getBalanceOf env addr db world represents)

/-! ### Exact reverts -/

theorem tracks_newDBImpl (evm : ExtTreeMap Bytes Bytes) (bank : ExtTreeMap BankKey Int)
    (simulation evmEntryViaWasmdPrecompile : Bool) :
    Tracks (newDBImpl evm bank simulation evmEntryViaWasmdPrecompile)
      (.start (fun key => evm[key]?) fun key => bank[key]?) := by
  let world : World := { evm := fun key => evm[key]?, bank := fun key => bank[key]? }
  let db : DBImpl :=
    { evm := ⟨evm, []⟩
      bank := ⟨bank, []⟩
      codeCache := if !simulation && !evmEntryViaWasmdPrecompile then some ∅ else none }
  have noMemo : ∀ addr, memo db.codeCache addr = none := by
    intro addr
    change memo (if _ then some ∅ else none) addr = none
    split
    · exact ExtTreeMap.getElem?_empty
    · rfl
  have shows : db.undoable.Shows world :=
    { evmValid := trivial
      evm := rfl
      committed := rfl
      bankValid := trivial
      bank := rfl
      memory := contents_empty
      coherent := fun addr code remembered => by
        rw [show memo db.undoable.codeCache addr = none from noMemo addr] at remembered
        cases remembered
      accessList := fun addr idx index => by simp [world] at index
      surplus := show SdkInt.bitLen 0 ≤ SdkInt.maxBitLen by decide
      err := fun _ => rfl }
  have tracks : Tracks db ⟨world, []⟩ := ⟨shows, .first rfl rfl⟩
  exact tracks.snapshot.2

/-- What the operations answer, and what is observed after them. -/
def outcome (ops : List Op) (db : DBImpl) : Except Panic (List Answer × Observation) := do
  let (answers, after) ← performAll env ops db
  .ok (answers, after.observe env)

/-- States that represent the same history cannot be told apart. -/
theorem outcome_eq {db db' : DBImpl} (tracks : Tracks db history)
    (tracks' : Tracks db' history) (env : Env) (ops : List Op) :
    outcome env ops db = outcome env ops db' := by
  have ended := tracks_performAll env ops db history tracks
  have ended' := tracks_performAll env ops db' history tracks'
  unfold outcome
  generalize performAll env ops db = ran at ended
  generalize performAll env ops db' = ran' at ended'
  generalize History.performAll env ops history = modelRan at ended ended'
  cases ended with
  | ok final =>
    cases ended' with
    | ok final' =>
      change Except.ok _ = Except.ok _
      rw [final.observe env, final'.observe env]
  | error =>
    cases ended'
    rfl

/-- After any operations, a snapshot, and operations that do not go behind it, the revert to the
snapshot succeeds. It shows what was shown at the snapshot, and from then on nothing differs from a
run without the snapshot and the reverted operations. The code that is remembered is always the code
in the store. -/
theorem revertToSnapshot_exact (env : Env) (evm : ExtTreeMap Bytes Bytes)
    (bank : ExtTreeMap BankKey Int) (simulation evmEntryViaWasmdPrecompile : Bool)
    (ops nested : List Op) (answers nestedAnswers : List Answer) (db changed : DBImpl)
    (taken : ∀ op ∈ ops, op.Taken)
    (ran : performAll env ops (newDBImpl evm bank simulation evmEntryViaWasmdPrecompile) =
      .ok (answers, db))
    (above : ∀ op ∈ nested, op.Above db.snapshot.1)
    (ranNested : performAll env nested db.snapshot.2 = .ok (nestedAnswers, changed)) :
    (∃ reverted, changed.revertToSnapshot db.snapshot.1 = .ok reverted ∧
      reverted.observe env = db.snapshot.2.observe env ∧
      ∀ later : List Op, (∀ op ∈ later, op.Taken) →
        outcome env later reverted = outcome env later db) ∧
    ∀ addr, answerOf (getCodeOf addr) db = answerOf (evmCall (getCode addr)) db := by
  obtain ⟨history, modelStart, tracks⟩ := (tracks_performAll env ops).of_ok
    (tracks_newDBImpl evm bank simulation evmEntryViaWasmdPrecompile) ran
  obtain ⟨newer, isSaved⟩ : ∃ newer, history.saved = newer ++ (start _ _).saved :=
    saved_performAll env (nil_append _).symm (fun op member => above_of_taken (taken op member))
      modelStart
  have sameNow := tracks.now_snapshot
    (isSaved ▸ append_ne_nil_of_right_ne_nil newer (cons_ne_nil _ _))
  obtain ⟨version, snapshotTracks⟩ := tracks.snapshot
  rw [version] at above ⊢
  obtain ⟨⟨changedNow, changedSaved⟩, modelRan, changedTracks⟩ :=
    (tracks_performAll env nested).of_ok snapshotTracks ranNested
  obtain ⟨newer, rfl⟩ : ∃ newer, changedSaved = newer ++ history.now :: history.saved :=
    saved_performAll env (nil_append _).symm above modelRan
  have back := changedTracks.revertToSnapshot history.saved.length
  rw [revertToSnapshot_append] at back
  constructor
  · cases reverted : changed.revertToSnapshot history.saved.length with
    | error =>
      rw [reverted] at back
      cases back
    | ok after =>
      rw [reverted] at back
      cases back with
      | ok afterTracks =>
        refine ⟨after, rfl, ?_, fun later _ => outcome_eq afterTracks tracks env later⟩
        rw [Represents.observe afterTracks env, Represents.observe snapshotTracks env, sameNow]
  · intro addr
    rw [answerOf_eq (simulates_getCodeOf addr db _ tracks),
      answerOf_eq (tracks.evmCall _ (keepsCode_getCode addr))]

/-- A contract is funded, gets code and storage, and self-destructs, all in one snapshot. -/
theorem revertToSnapshot_exact_contract :
    let env : Env := ⟨fun _ => 7, fun _ => [], false, [1], 9⟩
    let start := newDBImpl ∅ (ExtTreeMap.ofList [(.balance (Address.bytes 3) baseDenom, 5)] compare)
      false false
    let ops : List Op := [.createAccount 4, .snapshot, .setCode 4 [1], .revertToSnapshot 1, .getCode 4]
    let nested : List Op := [.subBalance 3 1000000000001, .addBalance 4 1000000000001,
      .setCode 4 [6, 0], .setState 4 1 2, .snapshot, .addSlotToAccessList 4 1, .addRefund 3,
      .selfDestruct6780 4]
    ∃ answers db nestedAnswers changed reverted,
      performAll env ops start = .ok (answers, db) ∧
      performAll env nested db.snapshot.2 = .ok (nestedAnswers, changed) ∧
      changed.revertToSnapshot db.snapshot.1 = .ok reverted ∧
      reverted.observe env = db.snapshot.2.observe env := by
  intro env start ops nested
  have succeeds : ∃ answers db nestedAnswers changed, performAll env ops start = .ok (answers, db) ∧
      performAll env nested db.snapshot.2 = .ok (nestedAnswers, changed) := by
    have both : (performAll env ops start >>= fun ended =>
        performAll env nested ended.2.snapshot.2).isOk = true := by
      decide +kernel
    cases ran : performAll env ops start >>= fun ended =>
        performAll env nested ended.2.snapshot.2 with
    | error =>
      rw [ran] at both
      cases both
    | ok =>
      obtain ⟨_, first, second⟩ := exceptBind_eq_ok.mp ran
      exact ⟨_, _, _, _, first, second⟩
  obtain ⟨answers, db, nestedAnswers, changed, ran, ranNested⟩ := succeeds
  obtain ⟨⟨reverted, isReverted, observed, _⟩, _⟩ := revertToSnapshot_exact env ∅ _ false false ops
    nested answers nestedAnswers db changed (by simp [ops, Op.Taken]) ran (by simp [nested, Op.Above])
    ranNested
  exact ⟨answers, db, nestedAnswers, changed, reverted, ran, ranNested, isReverted, observed⟩

end SeiChain.Evm
