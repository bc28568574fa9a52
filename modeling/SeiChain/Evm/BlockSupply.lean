/-
This file follows the funds through a block of EVM transactions. A state
database that is finalized has taken its surplus out of the accounts: what was
left on destroyed accounts is moved as a whole, or not at all. So after each
transaction the accounts and the recorded surpluses are worth what the accounts
were worth before the block, and the end of the block puts the surpluses back.
-/

import Mathlib.Algebra.BigOperators.Intervals
import SeiChain.Evm.Block
import SeiChain.Evm.Conservation

namespace SeiChain.Evm

open Std Library StoreProgram Bank CacheKV List Std.ExtTreeMap BaseSendKeeper Int

/-! ### What finalizing keeps -/

variable {addr : AccAddress} {before : BankStore}

theorem runs_getSpendableBalance {lockedCoins : AccAddress → Coins}
    {after : BankStore} {balance : Int}
    (ran : Runs (getSpendableBalance lockedCoins addr) before balance after) :
    balance = (useiOf before addr - (lockedCoins addr).amountOf baseDenom) * oneUseiInWei +
      weiOf before addr := by
  have subtracted := ran.next runs_getBalance
  have read := subtracted.next SdkInt.runs_bounded
  have multiplied := read.next runs_getWeiBalance
  have added := multiplied.next SdkInt.runs_mul
  exact (SdkInt.runs_bounded added).1

variable {env : Env}

/-- A debit of nothing does nothing. Any other debit leaves the locked usei and the wei part. -/
theorem runs_debit {usei : Int} {after : BankStore}
    (ran : Runs (debit env addr usei) before () after) :
    (usei = 0 ∧ after = before) ∨ (usei ≠ 0 ∧ weiOf after addr = weiOf before addr ∧
      (env.lockedCoins addr).amountOf baseDenom ≤ useiOf before addr - usei) := by
  have subRan := ran.next runs_useiCoins
  unfold subUnlockedCoins at subRan
  split at subRan
  · by_cases zero : usei = 0
    · rw [filter_cons_of_neg (by simpa using zero)] at subRan
      exact .inl ⟨zero, ((runs_pure _ _).mp subRan).2⟩
    · rw [filter_cons_of_pos (by simpa using zero)] at subRan
      obtain ⟨⟨⟩, _, roundRan, ended⟩ := subRan.parts
      obtain ⟨-, rfl⟩ := (runs_pure _ _).mp ended
      obtain ⟨stored, covered⟩ := runs_subUnlockedCoin roundRan
      exact .inr ⟨zero, (runs_setBalance stored).2 addr, covered rfl⟩
  · simp at subRan

/-- The Sei address under which an EVM address holds its funds. -/
def seiAddressIn (env : Env) (evm : EvmStore) (evmAddr : Address) : AccAddress :=
  if env.coinbaseEvmAddress = evmAddr then env.coinbaseAddress
  else (evm (evmAddressToSeiAddressKey evmAddr)).getD evmAddr.bytes

namespace Model

theorem seiAddressOf_eq (env : Env) (evmAddr : Address) (world : World) :
    seiAddressOf env evmAddr world = .ok (seiAddressIn env world.evm evmAddr, world) := by
  have read : (mapStore Bytes Bytes).run (getSeiAddressOrDefault evmAddr) world.evm =
      (.ok ((world.evm (evmAddressToSeiAddressKey evmAddr)).getD evmAddr.bytes), world.evm) := by
    have found : (mapStore Bytes Bytes).run (getSeiAddress evmAddr) world.evm =
      (.ok (world.evm (evmAddressToSeiAddressKey evmAddr)), world.evm) := rfl
    rw [getSeiAddressOrDefault, KVStore.run_bind, found]
    cases world.evm (evmAddressToSeiAddressKey evmAddr) <;> rfl
  unfold seiAddressOf seiAddressIn
  split
  · rfl
  · unfold evmCall
    rw [read]

end Model

/-- What an account reports as its balance can be taken as a whole, or not at all. -/
theorem split_of_reported {usei locked wei q : Int} {residual : BitVec 256}
    (reported : uint256OfBig ((usei - locked) * oneUseiInWei + wei) = .ok residual)
    (range : 0 ≤ wei ∧ wei < oneUseiInWei)
    (isUsei : (splitUseiWeiAmount residual.toNat).1 = q) (positive : q ≠ 0)
    (covered : locked ≤ usei - q) : (splitUseiWeiAmount residual.toNat).2 = wei := by
  have notNegative : 0 ≤ q := by
    rw [← isUsei]
    exact Int.tdiv_nonneg (Int.natCast_nonneg _) (show (0) ≤ oneUseiInWei by decide)
  have spendable : 0 ≤ (usei - locked) * oneUseiInWei + wei :=
    add_nonneg (mul_nonneg (by lia) (by decide)) range.1
  unfold uint256OfBig at reported
  split at reported
  · cases reported
  · next small =>
    cases reported
    rw [BitVec.toNat_ofInt, emod_eq_of_lt spendable (by lia), toNat_of_nonneg spendable]
    change ((usei - locked) * oneUseiInWei + wei) % oneUseiInWei = wei
    rw [mul_comm, mul_add_emod_self_left]
    exact emod_eq_of_lt range.1 range.2

namespace Model

variable {acc : Address} {world after : World} {balance : BitVec 256} {total : Int}

/-- The balance is what the stores of the world show. -/
def Reports (env : Env) (acc : Address) (world : World) (balance : BitVec 256) : Prop :=
  let addr := seiAddressIn env world.evm acc
  uint256OfBig ((useiOf world.bank addr - (env.lockedCoins addr).amountOf baseDenom) *
    oneUseiInWei + weiOf world.bank addr) = .ok balance

theorem getBalanceOf_spec (ran : getBalanceOf env acc world = .ok (balance, after)) :
    after = world ∧ Reports env acc world balance := by
  obtain ⟨address, ranAddress, ran⟩ := exceptBind_eq_ok.mp ran
  cases (seiAddressOf_eq env acc world).symm.trans ranAddress
  obtain ⟨⟨spendable, later⟩, ranBalance, ran⟩ := exceptBind_eq_ok.mp ran
  have same :=
    readOnly_getSpendableBalance env.lockedCoins (seiAddressIn env world.evm acc) world.bank
  unfold bankRead at ranBalance
  rcases shown : (mapStore BankKey Int).run (getSpendableBalance env.lockedCoins
    (seiAddressIn env world.evm acc)) world.bank with ⟨outcome, bank⟩
  rw [shown] at ranBalance same
  cases outcome <;> cases ranBalance
  cases same
  obtain ⟨_, converted, ran⟩ := exceptBind_eq_ok.mp ran
  cases ran
  rw [runs_getSpendableBalance shown] at converted
  exact ⟨rfl, converted⟩

/-- The debit of the whole balance is booked, or refused as a whole. -/
theorem balanced_subBalance (reported : Reports env acc world balance)
    (ran : subBalance env acc balance world = .ok ((), after))
    (balanced : world.funds.Balanced total) : after.funds.Balanced total := by
  unfold subBalance at ran
  split at ran
  · cases ran
    exact balanced
  · obtain ⟨address, ranAddress, ran⟩ := exceptBind_eq_ok.mp ran
    cases (seiAddressOf_eq env acc world).symm.trans ranAddress
    have ended := booking_of_booked ran
    unfold Funds.Balanced at balanced ⊢
    unfold Reports at reported
    rw [show world.bank = world.funds.bank from rfl] at reported
    generalize world.funds = funds at ended balanced reported
    generalize after.funds = later at ended
    cases ended with
    | done ranFirst ranSecond =>
      exact holds_of_debit (natCast_nonneg _) balanced ranFirst ranSecond
    | firstRefused notPanic failed =>
      rw [debit_refusedClean env _ _ failed notPanic]
      exact balanced
    | secondRefused ranFirst notPanic failed =>
      obtain ⟨-, same⟩ | ⟨nonzero, sameWei, covered⟩ := runs_debit ranFirst
      · subst same
        rw [subWei_refusedClean _ _ _ failed notPanic]
        exact balanced
      · -- Some usei were taken, so the wei part of the report is what the account holds.
        rw [split_of_reported reported (balanced.inRange _) rfl nonzero covered,
          ← sameWei] at failed
        obtain ⟨cause, isPanic⟩ := subWei_notRefused _ _ _ _ failed
        exact absurd isPanic (notPanic cause)

/-- What was sent to an account after its destruction. -/
def handleResidual (env : Env) (acc : Address) : Model Unit := do
  let residual ← getBalanceOf env acc
  if residual = 0 then pure ()
  else do
    subBalance env acc residual
    addBalance env env.coinbaseEvmAddress residual

theorem booked_handleResidual (env : Env) (acc : Address) :
    Keeps (Funds.Booked false total) (handleResidual env acc) := by
  intro world _ after ran balanced
  obtain ⟨⟨residual, middle⟩, ranBalance, ranRest⟩ := exceptBind_eq_ok.mp ran
  obtain ⟨rfl, reported⟩ := getBalanceOf_spec ranBalance
  dsimp only at ranRest
  split at ranRest
  · cases ranRest
    exact balanced
  · obtain ⟨ended, ranSub, ranAdd⟩ := exceptBind_eq_ok.mp ranRest
    exact booked_addBalance env env.coinbaseEvmAddress residual ended.2 () after ranAdd
      fun kept => balanced_subBalance reported ranSub (balanced kept)

def whenDestructed (acc : Address) (program : Model Unit) : Model Unit := do
  if (← get).memory.accountStatus acc = some .deleted then program else pure ()

/-- What is done to the accounts that were destroyed. -/
def forDestructed (program : Address → Model Unit) : List Address → Model Unit
  | [] => pure ()
  | acc :: rest => do
    whenDestructed acc (program acc)
    forDestructed program rest

theorem keeps_forDestructed {property : Funds → Prop} {program : Address → Model Unit}
    (each : ∀ acc, Keeps property (program acc)) (order : List Address) :
    Keeps property (forDestructed program order) := by
  induction order with
  | nil => exact .pure ()
  | cons acc rest ih =>
    exact .bind (.look fun _ => .ite (each acc) (.pure ())) fun _ => ih

end Model

section

variable {saved : List World}

theorem simulates_whenDestructed {acc : Address} {program : DBM Unit} {model : Model Unit}
    (simulates : Models saved program model) :
    Models saved (whenDestructed acc program) (Model.whenDestructed acc model) := by
  refine .look fun db world represents => ?_
  rw [represents.accountStatus_eq]
  unfold TemporaryState.hasSelfDestructed
  by_cases destructed : db.tempState.transientAccounts[acc]? = some .deleted
  · rw [if_pos (by simpa using destructed), if_pos destructed]
    exact simulates db world represents
  · rw [if_neg (by simpa using destructed), if_neg destructed]
    exact .ok represents

theorem simulates_handleResidualFunds (env : Env) (order : List Address) :
    Models saved (handleResidualFundsInDestructedAccounts env order)
      (Model.forDestructed (Model.handleResidual env) order) := by
  induction order with
  | nil => exact .pure ()
  | cons acc rest ih =>
    refine .bind (simulates_whenDestructed ?_) fun _ => ih
    exact .bind (simulates_getBalanceOf env acc) fun residual => .ite (fun _ => .pure ()) fun _ =>
      .bind (simulates_subBalance env acc residual) fun _ =>
        simulates_addBalance env env.coinbaseEvmAddress residual

theorem simulates_clearAccountStateIfDestructed (order : List Address) :
    Models saved (clearAccountStateIfDestructed order)
      (Model.forDestructed Model.clearAccountState order) := by
  induction order with
  | nil => exact .pure ()
  | cons acc rest ih =>
    exact .bind (simulates_whenDestructed (simulates_clearAccountState acc)) fun _ => ih

end

variable {total : Int} {db after : DBImpl}

variable {surplus : Int}

/-- What a finalized state database has taken out of the accounts is its surplus. -/
theorem holds_finalize {residualOrder clearOrder : List Address} {history : History}
    (tracks : Tracks db history) (conserves : history.Conserves total)
    (ran : finalize env residualOrder clearOrder db = .ok (.ok surplus, after)) :
    Holds (fun key => after.bank.base[key]?) (total - surplus) := by
  rw [finalize, get_bind] at ran
  cases noError : db.err <;> rw [noError] at ran
  case some => cases ran
  case none =>
    have balanced := conserves history.now mem_cons_self (tracks.shows.err noError)
    obtain ⟨settled, ranResidual, ran⟩ := exceptBind_eq_ok.mp ran
    obtain ⟨world, ranWorld, represents⟩ :=
      (simulates_handleResidualFunds env residualOrder).of_ok tracks ranResidual
    obtain ⟨cleared, ranClear, ran⟩ := exceptBind_eq_ok.mp ran
    obtain ⟨final, ranFinal, representsFinal⟩ :=
      (simulates_clearAccountStateIfDestructed clearOrder).of_ok represents ranClear
    have kept := Model.keeps_forDestructed Model.keeps_clearAccountState clearOrder world () final
      ranFinal (Model.keeps_forDestructed (Model.booked_handleResidual env) residualOrder _ _ _
        ranWorld fun _ => balanced) rfl
    change (flushEvents { cleared.2 with
      evm := cleared.2.evm.write, bank := cleared.2.bank.write } >>= _) = _ at ran
    unfold flushEvents at ran
    split at ran <;> cases ran
    have flushed : (fun key => cleared.2.bank.write.base[key]?) = final.bank :=
      (funext (write_spec representsFinal.shows.bankValid)).trans representsFinal.shows.bank
    have surplus : cleared.2.tempState.surplus = final.memory.surplus :=
      congrArg Memory.surplus representsFinal.shows.memory
    change Holds (fun key => cleared.2.bank.write.base[key]?) (total - cleared.2.tempState.surplus)
    rw [flushed, surplus]
    exact kept

theorem holds_execute {execution : Execution} {viaWasmd : Bool}
    {evm evm' : ExtTreeMap Bytes Bytes} {bank bank' : ExtTreeMap BankKey Int}
    (holds : Holds (fun key => bank[key]?) total)
    (ran : execute env execution viaWasmd evm bank = some (evm', bank', surplus)) :
    Holds (fun key => bank'[key]?) (total - surplus) := by
  unfold execute at ran
  split at ran
  case h_2 => cases ran
  case h_1 ended =>
    cases ran
    obtain ⟨performed, ranOps, ended⟩ := exceptBind_eq_ok.mp ended
    obtain ⟨history, tracks, conserves⟩ := conserves_of_performAll holds.inRange ranOps
    rw [holds.total] at conserves
    exact holds_finalize tracks conserves ended

/-! ### What is recorded -/

namespace BlockState

variable (state : BlockState)

/-- The surpluses that the ante handler recorded. -/
def anteTotal : Int := (state.anteSurplus.toList.map Prod.snd).sum

/-- The surplus that the message of a transaction recorded. -/
def deferredSurplus (txIdx : Nat) : Int :=
  (state.deferredInfo[txIdx]?.bind DeferredInfo.surplus).getD 0

/-- All surpluses of the first transactions. -/
def recordedSurplus (count : Nat) : Int :=
  state.anteTotal + ∑ txIdx ∈ Finset.range count, state.deferredSurplus txIdx

end BlockState

/-- The accounts and the recorded surpluses of the first transactions are worth the total. -/
structure Accounted (total : Int) (count : Nat) (state : BlockState) : Prop where
  holds : Holds (fun key => state.bank[key]?) (total - state.recordedSurplus count)
  later : ∀ txIdx, count ≤ txIdx → state.deferredInfo[txIdx]? = none
  succeeded : ∀ (txIdx : Nat) info, state.deferredInfo[txIdx]? = some info → info.error = ""

theorem sum_insert_of_not_mem (map : ExtTreeMap Hash Int) {key : Hash} (fresh : key ∉ map)
    (value : Int) :
    ((map.insert key value).toList.map Prod.snd).sum = (map.toList.map Prod.snd).sum + value := by
  have distinct : ∀ map : ExtTreeMap Hash Int, map.toList.Nodup := by
    intro map
    refine distinct_keys_toList.imp fun {entry other} different same => ?_
    rw [same] at different
    exact different ReflOrd.compare_self
  have listed : (map.insert key value).toList.Perm ((key, value) :: map.toList) := by
    refine (perm_ext_iff_of_nodup (distinct _) (nodup_cons.mpr ⟨?_, distinct map⟩)).mpr ?_
    · rw [ExtTreeMap.mem_toList_iff_getElem?_eq_some, getElem?_eq_none fresh]
      exact nofun
    · rintro ⟨other, -⟩
      rw [mem_cons, ExtTreeMap.mem_toList_iff_getElem?_eq_some,
        ExtTreeMap.mem_toList_iff_getElem?_eq_some, ExtTreeMap.getElem?_insert]
      by_cases same : key = other
      · subst same
        rw [getElem?_eq_none fresh]
        simp [eq_comm]
      · rw [if_neg (by simpa using same)]
        simp [Ne.symm same]
  rw [(listed.map Prod.snd).sum_eq, map_cons, sum_cons, add_comm]

namespace Accounted

variable {config : BlockEnv} {count : Nat} {state : BlockState} {tx : EvmTx}

section

variable (accounted : Accounted total count state)

include accounted

theorem unchanged : Accounted total (count + 1) state where
  holds := by
    have nothing : state.deferredSurplus count = 0 := by
      unfold BlockState.deferredSurplus
      rw [accounted.later count (Nat.le_refl count)]
      rfl
    unfold BlockState.recordedSurplus
    rw [Finset.sum_range_succ, nothing, add_zero]
    exact accounted.holds
  later txIdx isLater := accounted.later txIdx (by omega)
  succeeded := accounted.succeeded

theorem addAnteSurplus {evm : ExtTreeMap Bytes Bytes}
    {bank : ExtTreeMap BankKey Int} (fresh : tx.hash ∉ state.anteSurplus)
    (holds : Holds (fun key => bank[key]?) (total - state.recordedSurplus count - surplus)) :
    Accounted total count
      (Evm.addAnteSurplus { state with evm := evm, bank := bank } tx.hash surplus) where
  holds := by
    have sum := sum_insert_of_not_mem state.anteSurplus fresh surplus
    have recorded : (Evm.addAnteSurplus { state with evm := evm, bank := bank } tx.hash
        surplus).recordedSurplus count = state.recordedSurplus count + surplus := by
      change ((state.anteSurplus.insert tx.hash surplus).toList.map Prod.snd).sum +
        ∑ txIdx ∈ Finset.range count, state.deferredSurplus txIdx = _
      rw [sum, BlockState.recordedSurplus, BlockState.anteTotal]
      ring
    rw [recorded, ← sub_sub]
    exact holds
  later := accounted.later
  succeeded := accounted.succeeded

theorem runMessage : Accounted total (count + 1) (runMessage config count tx state) := by
  unfold Evm.runMessage
  split
  · exact accounted.unchanged
  · next evm bank surplus ran =>
    split
    · have nothing : extraSurplus state.deferredInfo tx.viaWasmd count = 0 := by
        unfold extraSurplus
        rw [accounted.later count (Nat.le_refl count)]
        split <;> rfl
      rw [nothing, add_zero]
      split
      · exact accounted.unchanged
      · next recorded bounded =>
        obtain ⟨rfl, -⟩ := boundedInt_eq_ok bounded
        have stored : ∀ txIdx, (appendToEvmTxDeferredInfo { state with evm := evm, bank := bank } count
            tx.hash recorded).deferredInfo[txIdx]? = if count = txIdx then
              some ⟨count % 2 ^ 32, tx.hash, some recorded, ""⟩ else state.deferredInfo[txIdx]? := by
          intro txIdx
          change (state.deferredInfo.insert count _)[txIdx]? = _
          rw [ExtTreeMap.getElem?_insert]
          simp only [Nat.compare_eq_eq]
        refine ⟨?_, fun txIdx isLater => ?_, fun txIdx info isStored => ?_⟩
        · have here : (appendToEvmTxDeferredInfo { state with evm := evm, bank := bank } count tx.hash
              recorded).deferredSurplus count = recorded := by
            unfold BlockState.deferredSurplus
            rw [stored, if_pos rfl]
            rfl
          have earlier : ∀ txIdx ∈ Finset.range count, (appendToEvmTxDeferredInfo
              { state with evm := evm, bank := bank } count tx.hash recorded).deferredSurplus txIdx =
              state.deferredSurplus txIdx := by
            intro txIdx isEarlier
            unfold BlockState.deferredSurplus
            rw [stored, if_neg (Finset.mem_range.mp isEarlier).ne']
          unfold BlockState.recordedSurplus
          rw [Finset.sum_range_succ, here, Finset.sum_congr rfl earlier, ← add_assoc, ← sub_sub]
          exact holds_execute accounted.holds ran
        · rw [stored, if_neg (by omega)]
          exact accounted.later txIdx (by omega)
        · rw [stored] at isStored
          split at isStored
          · cases isStored
            rfl
          · exact accounted.succeeded txIdx info isStored
    · exact accounted.unchanged

theorem deliverTx (fresh : tx.admitted = true → tx.hash ∉ state.anteSurplus) :
    Accounted total (count + 1) (deliverTx config count tx state) := by
  unfold Evm.deliverTx
  split
  · next admitted =>
    split
    · exact accounted.unchanged
    · next ran =>
      exact runMessage (accounted.addAnteSurplus (fresh admitted) (holds_execute accounted.holds ran))
  · exact accounted.unchanged

end

end Accounted

theorem anteSurplus_runMessage (config : BlockEnv) (txIdx : Nat) (tx : EvmTx) (state : BlockState) :
    (runMessage config txIdx tx state).anteSurplus = state.anteSurplus := by
  unfold runMessage
  split
  · rfl
  · split
    · split <;> rfl
    · rfl

variable {config : BlockEnv} {txIdx : Nat}

theorem mem_anteSurplus_deliverTx {tx : EvmTx} {state : BlockState}
    {hash : Hash} (recorded : hash ∈ (deliverTx config txIdx tx state).anteSurplus) :
    hash ∈ state.anteSurplus ∨ (tx.admitted = true ∧ tx.hash = hash) := by
  unfold deliverTx at recorded
  split at recorded
  · next admitted =>
    split at recorded
    · exact .inl recorded
    · rw [anteSurplus_runMessage] at recorded
      rcases mem_insert.mp recorded with same | older
      · exact .inr ⟨admitted, LawfulEqOrd.eq_of_compare same⟩
      · exact .inl older
  · exact .inl recorded

/-- A transaction is admitted once in a block: its nonce is used up then. -/
def AdmittedOnce (txs : List EvmTx) : Prop :=
  (txs.filter EvmTx.admitted).Pairwise fun tx later => tx.hash ≠ later.hash

variable {txs : List EvmTx}

theorem accounted_deliverTxs {count : Nat}
    {state : BlockState} (accounted : Accounted total count state) (once : AdmittedOnce txs)
    (fresh : ∀ tx ∈ txs, tx.admitted = true → tx.hash ∉ state.anteSurplus) :
    Accounted total (count + txs.length) (deliverTxs config count txs state) := by
  induction txs generalizing count state with
  | nil => exact accounted
  | cons tx rest ih =>
    have next : Accounted total (count + 1) (deliverTx config count tx state) :=
      accounted.deliverTx (fresh tx mem_cons_self)
    have onceRest : AdmittedOnce rest ∧ (tx.admitted = true → ∀ later ∈ rest,
        later.admitted = true → tx.hash ≠ later.hash) := by
      unfold AdmittedOnce at once ⊢
      rw [filter_cons] at once
      split at once
      · obtain ⟨different, onceRest⟩ := pairwise_cons.mp once
        exact ⟨onceRest, fun _ later member isAdmitted =>
          different later (mem_filter.mpr ⟨member, isAdmitted⟩)⟩
      · next rejected => exact ⟨once, fun isAdmitted => absurd isAdmitted rejected⟩
    have final := ih next onceRest.1 fun later member isAdmitted recorded => by
      rcases mem_anteSurplus_deliverTx recorded with before | ⟨wasAdmitted, same⟩
      · exact fresh later (mem_cons_of_mem tx member) isAdmitted before
      · exact onceRest.2 wasAdmitted later member isAdmitted same
    rw [length_cons, add_comm rest.length 1, ← add_assoc]
    exact final

/-! ### What the end of the block keeps -/

/-- The accounts hold the total, unless an error was logged. -/
structure Settled (total : Int) (state : EndBlockState) : Prop where
  valid : state.bank.Valid
  holds : state.errors = [] → Holds state.bank.view total

variable {block : BlockState}

section EndBlock

variable {keeper : BaseSendKeeper} {state after : EndBlockState}

section

variable (settled : Settled total state)

include settled

theorem Settled.read {A : Type} {program : BankProgram A} {result : A}
    (readOnly : ReadOnly program) (ran : readBank program state = .ok (result, after)) :
    Settled total after ∧ after.bank.view = state.bank.view ∧
      Runs program state.bank.view result state.bank.view := by
  obtain ⟨outcome, bank, ranProgram, shown, validAfter, -⟩ := run_stack settled.valid program
  have same : bank.view = state.bank.view :=
    (congrArg Prod.snd shown).symm.trans (readOnly state.bank.view)
  unfold readBank at ran
  rw [ranProgram] at ran
  cases outcome <;> cases ran
  exact ⟨⟨validAfter, fun noErrors => same ▸ settled.holds noErrors⟩, same,
    shown.trans (congrArg _ same)⟩

theorem Settled.logged {program : BankProgram Unit} {total' : Int}
    (moves : ∀ before after, Holds before total → before = state.bank.view →
      Runs program before () after → Holds after total')
    (ran : logged program state = .ok ((), after)) : Settled total' after := by
  obtain ⟨outcome, bank, ranProgram, shown, validAfter, -⟩ := run_stack settled.valid program
  unfold Evm.logged at ran
  rw [ranProgram] at ran
  cases outcome with
  | ok =>
    cases ran
    exact ⟨validAfter, fun noErrors => moves _ _ (settled.holds noErrors) rfl shown⟩
  | error cause =>
    cases cause with
    | panic cause => cases ran
    | _ =>
      cases ran
      exact ⟨validAfter, fun noErrors => absurd noErrors (by simp)⟩

omit settled in
/-- Only a positive amount of usei is sent. -/
theorem holds_sendCoinsAndWei {after : BankStore} {fromAddr toAddr : AccAddress} {amt wei : Int}
    (holds : Holds before total) (notNegative : 0 ≤ wei)
    (ran : Runs (keeper.sendCoinsAndWei fromAddr toAddr amt wei) before () after) :
    Holds after total := by
  by_cases positive : 0 ≤ amt
  · exact holds.sent (effect_of_sendCoinsAndWei positive notNegative ran)
  · have nothing : keeper.sendCoinsAndWei fromAddr toAddr amt wei =
        keeper.sendCoinsAndWei fromAddr toAddr 0 wei := by
      unfold sendCoinsAndWei sendUsei
      rw [if_neg (show ¬amt > 0 by omega), if_neg (show ¬(0 : Int) > 0 by decide)]
    rw [nothing] at ran
    exact holds.sent (effect_of_sendCoinsAndWei (Int.le_refl 0) notNegative ran)

theorem Settled.sweepCoinbase {txIndex : Nat}
    (ran : sweepCoinbase config keeper txIndex state = .ok ((), after)) : Settled total after := by
  obtain ⟨usei, ranUsei, ran⟩ := exceptBind_eq_ok.mp ran
  obtain ⟨settledUsei, -⟩ := settled.read (readOnly_getBalance _ _) ranUsei
  obtain ⟨balance, ranBalance, ran⟩ := exceptBind_eq_ok.mp ran
  obtain ⟨settledBalance, -⟩ := settledUsei.read (readOnly_bounded _) ranBalance
  obtain ⟨wei, ranWei, ran⟩ := exceptBind_eq_ok.mp ran
  obtain ⟨settledWei, view, runsWei⟩ := settledBalance.read (readOnly_getWeiBalance _) ranWei
  change (if balance.1 ≠ 0 ∨ wei.1 ≠ 0 then _ else _ : EndBlockM Unit) wei.2 = _ at ran
  split at ran
  · refine settledWei.logged (fun before after holds same sent => ?_) ran
    refine holds_sendCoinsAndWei holds ?_ sent
    rw [(runs_getWeiBalance runsWei).1, ← view, ← same]
    exact (holds.inRange _).1
  · cases ran
    exact settledWei

omit settled in
/-- The surplus of an entry is what the transaction recorded. -/
theorem deferredSurplus_of_info {tx : EvmTx} {amount : Int}
    (isSurplus : (deferredInfoOf block txIdx tx).surplus = some amount) :
    block.deferredSurplus txIdx = amount := by
  unfold BlockState.deferredSurplus
  unfold deferredInfoOf at isSurplus
  rcases stored : block.deferredInfo[txIdx]? with _ | info <;> rw [stored] at isSurplus
  · cases isSurplus
  · rw [Option.bind_some, show info.surplus = some amount from isSurplus]
    rfl

/-- Collecting keeps the total, and adds up the surpluses of the messages that succeeded. -/
theorem Settled.collectDeferred {sum : Int}
    (succeeded : ∀ (txIdx : Nat) info, block.deferredInfo[txIdx]? = some info → info.error = "")
    (ran : collectDeferred config keeper (getAllEVMTxDeferredInfo block txIdx txs) surplus state =
      .ok (sum, after)) :
    Settled total after ∧
      sum = surplus + ∑ offset ∈ Finset.range txs.length, block.deferredSurplus (txIdx + offset) := by
  induction txs generalizing txIdx surplus state with
  | nil =>
    cases ran
    exact ⟨settled, (add_zero _).symm⟩
  | cons tx rest ih =>
    have shifted : ∑ offset ∈ Finset.range (tx :: rest).length,
        block.deferredSurplus (txIdx + offset) = block.deferredSurplus txIdx +
          ∑ offset ∈ Finset.range rest.length, block.deferredSurplus (txIdx + 1 + offset) := by
      rw [length_cons, Finset.sum_range_succ', add_comm]
      congr 1
      exact Finset.sum_congr rfl fun offset _ => by rw [add_assoc, add_comm 1]
    rw [shifted]
    change (if (deferredInfoOf block txIdx tx).error ≠ "" ∧
        (deferredInfoOf block txIdx tx).txHash ≠ emptyTxsHash then _ else _ : EndBlockM Int) state = _
      at ran
    split at ran
    · next skipped =>
      have missing : block.deferredSurplus txIdx = 0 := by
        unfold BlockState.deferredSurplus
        cases stored : block.deferredInfo[txIdx]? with
        | none => rfl
        | some info =>
          unfold deferredInfoOf at skipped
          rw [stored] at skipped
          exact absurd (succeeded txIdx info stored) skipped.1
      obtain ⟨settledRest, isSum⟩ := ih settled ran
      exact ⟨settledRest, by rw [isSum, missing, zero_add]⟩
    · obtain ⟨swept, ranSweep, ran⟩ := exceptBind_eq_ok.mp ran
      cases isSurplus : (deferredInfoOf block txIdx tx).surplus <;> rw [isSurplus] at ran
      · cases ran
      · obtain ⟨added, ranAdd, ran⟩ := exceptBind_eq_ok.mp ran
        obtain ⟨settledAdd, -, runsAdd⟩ :=
          (settled.sweepCoinbase ranSweep).read (readOnly_bounded _) ranAdd
        obtain ⟨settledRest, isSum⟩ := ih settledAdd ran
        refine ⟨settledRest, ?_⟩
        rw [isSum, (SdkInt.runs_bounded runsAdd).1, deferredSurplus_of_info isSurplus, add_assoc]

theorem Settled.whenPositive {amount total' : Int} {program : BankProgram Unit}
    (moves : ∀ before after, Holds before total → before = state.bank.view →
      Runs program before () after → Holds after total')
    (nothing : ¬amount > 0 → total' = total)
    (ran : whenPositive amount program state = .ok ((), after)) : Settled total' after := by
  unfold Evm.whenPositive at ran
  split at ran
  · exact settled.logged moves ran
  · next notPositive =>
    cases ran
    rwa [nothing notPositive]

end

/-- The surplus is put back as a whole. -/
theorem Settled.creditSurplus (notNegative : 0 ≤ surplus)
    (settled : Settled (total - surplus) state)
    (ran : creditSurplus config keeper surplus state = .ok ((), after)) : Settled total after := by
  unfold Evm.creditSurplus at ran
  split at ran
  · obtain ⟨parts, weiNotNegative, -⟩ := splitUseiWeiAmount_spec notNegative
    have useiNotNegative : 0 ≤ (splitUseiWeiAmount surplus).1 :=
      Int.tdiv_nonneg notNegative (show (0) ≤ oneUseiInWei by decide)
    obtain ⟨credited, ranUsei, ran⟩ := exceptBind_eq_ok.mp ran
    have afterUsei : Settled (total - surplus + (splitUseiWeiAmount surplus).1 * oneUseiInWei)
        credited.2 := by
      refine settled.whenPositive (fun before after holds _ runs =>
        holds.moved (effect_of_credit runs).1) (fun notPositive => ?_) ranUsei
      rw [show (splitUseiWeiAmount surplus).1 = 0 by omega]
      simp
    refine afterUsei.whenPositive (fun before after holds _ runs => ?_) (fun notPositive => ?_) ran
    · have moved := holds.moved (effect_of_addWei weiNotNegative runs)
      rwa [add_assoc, parts, sub_add_cancel] at moved
    · rw [show (splitUseiWeiAmount surplus).2 = 0 by omega, add_zero] at parts
      rw [parts, sub_add_cancel]
  · next notPositive =>
    cases ran
    rwa [show surplus = 0 by omega, sub_zero] at settled

end EndBlock

theorem readOnly_sum (entries : List (Hash × Int)) (init : Int) :
    ReadOnly (entries.foldlM (fun sum entry => SdkInt.add sum entry.2) init : BankProgram Int) := by
  induction entries generalizing init with
  | nil => exact fun _ => rfl
  | cons entry rest ih =>
    exact .bind (readOnly_bounded _) fun sum => ih sum

theorem runs_sum {entries : List (Hash × Int)} {init result : Int} {after : BankStore}
    (ran : Runs (entries.foldlM (fun sum entry => SdkInt.add sum entry.2) init) before result after) :
    result = init + (entries.map Prod.snd).sum := by
  induction entries generalizing init with
  | nil =>
    obtain ⟨rfl, -⟩ := (runs_pure _ _).mp ran
    simp
  | cons entry rest ih =>
    have ranRest := ran.next SdkInt.runs_bounded
    rw [ih ranRest, map_cons, sum_cons, add_assoc]

theorem settled_endBlock {ended : EndBlockState} (accounted : Accounted total txs.length block)
    (notNegative : 0 ≤ block.recordedSurplus txs.length)
    (ran : endBlock config txs block = .ok ended) : Settled total ended := by
  have start : Settled (total - block.recordedSurplus txs.length)
      { bank := ⟨block.bank, []⟩ } := ⟨trivial, fun _ => accounted.holds⟩
  obtain ⟨final, ranProgram, isEnded⟩ := exceptBind_eq_ok.mp ran
  cases isEnded
  obtain ⟨ante, ranAnte, ran⟩ := exceptBind_eq_ok.mp ranProgram
  obtain ⟨settledAnte, -, runsAnte⟩ := start.read (readOnly_sum _ _) ranAnte
  obtain ⟨collected, ranCollect, ranCredit⟩ := exceptBind_eq_ok.mp ran
  obtain ⟨settledCollect, isSum⟩ := settledAnte.collectDeferred accounted.succeeded ranCollect
  have isRecorded : collected.1 = block.recordedSurplus txs.length := by
    rw [isSum, runs_sum runsAnte]
    simp only [zero_add]
    rfl
  change creditSurplus config (config.keeper block.evm) collected.1 collected.2 = _ at ranCredit
  rw [isRecorded] at ranCredit
  exact settledCollect.creditSurplus notNegative ranCredit

/-- Over a block whose recorded surpluses are not negative together and whose end logs no error, the
accounts keep what they hold together. In every state database without an error, the surplus is what
it has taken out of the accounts. -/
theorem block_conserves_supply (config : BlockEnv) (txs : List EvmTx) (evm : ExtTreeMap Bytes Bytes)
    (bank : ExtTreeMap BankKey Int) (inRange : WeiInRange fun key => bank[key]?)
    (once : AdmittedOnce txs) :
    (∀ ended : EndBlockState,
      0 ≤ (deliverTxs config 0 txs { evm := evm, bank := bank }).recordedSurplus txs.length →
      endBlock config txs (deliverTxs config 0 txs { evm := evm, bank := bank }) = .ok ended →
      ended.errors = [] →
      totalSupply ended.bank.view = totalSupply fun key => bank[key]?) ∧
    ∀ (env : Env) (simulation viaWasmd : Bool) (ops : List Op) (answers : List Answer) (db : DBImpl),
      performAll env ops (newDBImpl evm bank simulation viaWasmd) = .ok (answers, db) →
      db.err = none →
      db.tempState.surplus = -(totalSupply db.bank.view - totalSupply fun key => bank[key]?) := by
  constructor
  · intro ended notNegative ran noErrors
    have start : Accounted (totalSupply fun key => bank[key]?) 0 { evm := evm, bank := bank } :=
      { holds := by
          have empty : BlockState.recordedSurplus { evm := evm, bank := bank } 0 = 0 := rfl
          rw [empty, sub_zero]
          exact holds_of_map bank inRange
        later := fun _ _ => getElem?_empty
        succeeded := fun txIdx info stored => by
          have missing : (∅ : ExtTreeMap Nat DeferredInfo)[txIdx]? = none := getElem?_empty
          cases missing.symm.trans stored }
    have delivered : Accounted _ (0 + txs.length) (deliverTxs config 0 txs _) :=
      accounted_deliverTxs start once fun tx _ _ => not_mem_empty
    rw [zero_add] at delivered
    exact ((settled_endBlock delivered notNegative ran).holds noErrors).total
  · intro env simulation viaWasmd ops answers db ran noError
    obtain ⟨history, tracks, conserves⟩ := conserves_of_performAll inRange ran
    have balanced : Holds history.now.bank (_ - history.now.memory.surplus) :=
      conserves history.now mem_cons_self (tracks.shows.err noError)
    have bank : db.bank.view = history.now.bank := tracks.shows.bank
    have surplus : db.tempState.surplus = history.now.memory.surplus :=
      congrArg Memory.surplus tracks.shows.memory
    rw [bank, surplus, balanced.total]
    ring

/-- A transaction pays fees, funds a contract that destroys itself and is paid once more. A second
one fails after its fees are charged. -/
theorem block_conserves_supply_destroyed :
    let bank : ExtTreeMap BankKey Int := (∅ : ExtTreeMap BankKey Int).insert
      (.balance (Address.bytes 3) baseDenom) 9
    let config : BlockEnv := ⟨fun _ => 7, fun _ => [], false, 9, [1], [2]⟩
    let charge : Execution := ⟨[.subBalance 3 1500000000007], [], []⟩
    let pay : Execution := ⟨[.subBalance 3 1000000000001, .addBalance 4 1000000000001, .snapshot,
      .addBalance 5 3, .revertToSnapshot 1, .selfDestruct 4, .addBalance 4 5, .addBalance 9 700], [4], [4]⟩
    let overspend : Execution := ⟨[.subBalance 3 90000000000000], [], []⟩
    let txs : List EvmTx := [⟨1, true, charge, false, pay, true, "ok"⟩,
      ⟨2, true, charge, false, overspend, true, "insufficient funds"⟩,
      ⟨1, false, charge, false, pay, true, "nonce too low"⟩]
    ∃ ended, endBlock config txs (deliverTxs config 0 txs { evm := ∅, bank := bank }) = .ok ended ∧
      ended.errors = [] ∧ totalSupply ended.bank.view = totalSupply fun key => bank[key]? := by
  intro bank config charge pay overspend txs
  have inRange : WeiInRange fun key => bank[key]? := by
    intro addr
    have missing : bank[BankKey.wei addr]? = none := by
      simp [bank]
    unfold weiOf
    dsimp only
    rw [missing]
    decide
  have notNegative : 0 ≤ (deliverTxs config 0 txs { evm := ∅, bank := bank }).recordedSurplus
      txs.length := by
    decide +kernel
  have clean : (endBlock config txs (deliverTxs config 0 txs { evm := ∅, bank := bank })).toOption.map
      EndBlockState.errors = some [] := by
    decide +kernel
  cases ran : endBlock config txs (deliverTxs config 0 txs { evm := ∅, bank := bank }) with
  | error =>
    rw [ran] at clean
    cases clean
  | ok ended =>
    rw [ran] at clean
    have noErrors : ended.errors = [] := Option.some.inj clean
    exact ⟨ended, rfl, noErrors, (block_conserves_supply config txs ∅ bank inRange
      (by unfold AdmittedOnce; decide)).1 ended notNegative ran noErrors⟩

end SeiChain.Evm
