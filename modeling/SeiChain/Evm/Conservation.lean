/-
This file proves that the state database neither creates nor destroys funds
behind its books. The surplus counts what its debits have taken out of the
accounts and its credits have not given back. As long as no bank call was
refused, the accounts and the surplus together are worth what the accounts were
worth at the start, now and in every snapshot that can still be reverted to. The
operations are followed on the world that the state database represents.
-/

import SeiChain.Bank.Supply
import SeiChain.Evm.Reverts

namespace SeiChain.Evm

open Std Library StoreProgram Bank List BaseSendKeeper

/-! ### The books -/

/-- What the accounts hold, what was taken out of them, and whether the bank refused a call. -/
structure Funds where
  bank : BankStore
  surplus : Int
  refused : Bool

def World.funds (world : World) : Funds := ⟨world.bank, world.memory.surplus, world.refused⟩

namespace Funds

/-- The accounts and the surplus are worth the total together. -/
def Balanced (total : Int) (funds : Funds) : Prop := Holds funds.bank (total - funds.surplus)

/-- The books are right. Lenient ones may be wrong after a call that the bank refused. -/
def Booked (lenient : Bool) (total : Int) (funds : Funds) : Prop :=
  (lenient && funds.refused) = false → funds.Balanced total

end Funds

open Funds

/-- What holds of the funds before the operation holds afterwards. -/
def Keeps {A : Type} (property : Funds → Prop) (program : Model A) : Prop :=
  ∀ world answer after, program world = .ok (answer, after) →
    property world.funds → property after.funds

variable {A B : Type} {property : Funds → Prop} {world after : World}

namespace Keeps

theorem pure (answer : A) : Keeps property (Pure.pure answer : Model A) := by
  rintro _ _ _ ⟨⟩
  exact id

theorem throw (cause : Panic) : Keeps property (throwThe Panic cause : Model A) := by
  rintro _ _ _ ⟨⟩

section

variable {program : Model A}

theorem bind {next : A → Model B} (first : Keeps property program)
    (second : ∀ answer, Keeps property (next answer)) : Keeps property (program >>= next) := by
  intro world answer after ran holds
  obtain ⟨ended, ranFirst, ran⟩ := exceptBind_eq_ok.mp ran
  exact second ended.1 ended.2 answer after ran (first world ended.1 ended.2 ranFirst holds)

theorem map (change : A → B) (keeps : Keeps property program) :
    Keeps property (change <$> program) :=
  keeps.bind fun answer => pure (change answer)

/-- An operation that looks at the world first. -/
theorem look {next : World → Model A} (each : ∀ world, Keeps property (next world)) :
    Keeps property (get >>= next) :=
  fun world => each world world

theorem ite {condition : Prop} [Decidable condition] {other : Model A}
    (holds : Keeps property program) (fails : Keeps property other) :
    Keeps property (if condition then program else other) := by
  split
  · exact holds
  · exact fails

end

theorem evmCall (program : EvmProgram A) : Keeps property (Model.evmCall program) := by
  intro world answer after ran
  unfold Model.evmCall at ran
  split at ran <;> cases ran
  exact id

theorem bankRead {program : BankProgram A} (readOnly : ReadOnly program) :
    Keeps property (Model.bankRead program) := by
  intro world answer after ran
  have same := readOnly world.bank
  unfold Model.bankRead at ran
  generalize (mapStore BankKey Int).run program world.bank = ended at ran same
  obtain ⟨cause | result, bank⟩ := ended <;> cases ran
  cases same
  exact id

theorem lift (outcome : Except Panic A) : Keeps property (liftM outcome : Model A) := by
  intro world answer after ran
  cases outcome <;> cases ran
  exact id

theorem remember {change : Memory → Memory}
    (sameSurplus : ∀ memory, (change memory).surplus = memory.surplus) :
    Keeps property (Model.remember change) := by
  rintro world _ _ ⟨⟩ holds
  unfold World.funds
  rwa [sameSurplus]

end Keeps

theorem readOnly_getSpendableBalance (lockedCoins : AccAddress → Coins) (addr : AccAddress) :
    ReadOnly (getSpendableBalance lockedCoins addr) :=
  .bind (readOnly_getBalance addr baseDenom) fun _ => .bind (readOnly_bounded _) fun _ =>
    .bind (readOnly_getWeiBalance addr) fun _ => .bind (readOnly_mul _ _) fun _ => readOnly_bounded _

namespace Model

/-! ### Operations that move no funds -/

variable (env : Env) (acc addr evmAddr : Address)

theorem keeps_markAccount (status : AccountStatus) : Keeps property (markAccount acc status) :=
  .remember fun _ => rfl

theorem keeps_setCodeOf (code : Bytes) : Keeps property (setCodeOf env addr code) :=
  .bind (.evmCall _) fun oldCode => .bind (.evmCall _) fun _ => .pure oldCode

theorem keeps_clearAccountState : Keeps property (clearAccountState acc) :=
  .bind (.remember fun _ => rfl) fun _ => .bind (.evmCall _) fun _ =>
    .ite (.bind (.evmCall _) fun _ => .evmCall _) (.pure ())

theorem keeps_createAccount : Keeps property (createAccount env acc) :=
  .bind (.ite (.pure ()) (keeps_clearAccountState acc)) fun _ => keeps_markAccount acc .created

theorem keeps_getStateOf (hash : Hash) : Keeps property (getStateOf addr hash) := by
  refine .look fun world => ?_
  cases world.memory.storageOverride addr with
  | some => exact .pure _
  | none => exact .evmCall _

theorem keeps_setStateOf (key val : Hash) : Keeps property (setStateOf addr key val) := by
  refine .look fun world => ?_
  cases world.memory.storageOverride addr with
  | some => exact .bind (.remember fun _ => rfl) fun _ => .pure _
  | none => exact .bind (keeps_getStateOf addr key) fun old => .bind (.evmCall _) fun _ => .pure old

theorem keeps_addAddressToAccessList : Keeps property (addAddressToAccessList addr) := by
  refine .look fun world => ?_
  cases world.memory.accessList.addresses[addr]? with
  | some => exact .pure ()
  | none => exact .remember fun _ => rfl

theorem keeps_addSlotToAccessList (slot : Hash) :
    Keeps property (addSlotToAccessList addr slot) := by
  refine .look fun world => ?_
  dsimp only
  split
  · exact .bind (keeps_addAddressToAccessList addr) fun _ => .remember fun _ => rfl
  · exact .remember fun _ => rfl
  · split
    · exact .throw _
    · exact .ite (.pure ()) (.remember fun _ => rfl)

theorem keeps_seiAddressOf : Keeps property (seiAddressOf env evmAddr) :=
  .ite (.pure _) (.evmCall _)

theorem keeps_getBalanceOf : Keeps property (getBalanceOf env evmAddr) :=
  .bind (keeps_seiAddressOf env evmAddr) fun addr =>
    .bind (.bankRead (readOnly_getSpendableBalance env.lockedCoins addr)) fun _ => .lift _

theorem keeps_disassociate : Keeps property (disassociate acc) := by
  refine .bind (.evmCall _) fun associated => ?_
  cases associated with
  | some => exact .evmCall _
  | none => exact .pure ()

end Model

/-! ### Debits and credits -/

/-- How a bank call ends. -/
inductive Called (program : BankProgram Unit) (world : World) : Bool → World → Prop
  | done {bank : BankStore} (ran : Runs program world.bank () bank) :
      Called program world true { world with bank := bank }
  | refused {bank : BankStore} {error : BankError} (notPanic : ∀ cause, error ≠ .panic cause)
      (failed : (mapStore BankKey Int).run program world.bank = (.error error, bank)) :
      Called program world false { world with bank := bank, refused := true }

theorem called_of_bankCall {program : BankProgram Unit} {succeeded : Bool}
    (ran : Model.bankCall program world = .ok (succeeded, after)) :
    Called program world succeeded after := by
  unfold Model.bankCall at ran
  rcases shown : (mapStore BankKey Int).run program world.bank with ⟨cause | ⟨⟩, bank⟩ <;>
    rw [shown] at ran
  · cases cause with
    | panic => cases ran
    | _ =>
      cases ran
      refine .refused ?_ shown
      exact nofun
  · cases ran
    exact .done shown

theorem addSurplus_spec {delta : Int} (ran : Model.addSurplus delta world = .ok ((), after)) :
    after = { world with
      memory := { world.memory with surplus := world.memory.surplus + delta } } := by
  obtain ⟨lifted, isLifted, ran⟩ := exceptBind_eq_ok.mp ran
  obtain ⟨surplus, bounded, isLifted⟩ := exceptBind_eq_ok.mp isLifted
  cases isLifted
  cases ran
  obtain ⟨rfl, -⟩ := boundedInt_eq_ok bounded
  rfl

/-- The two bank calls of a debit or a credit, and the entry in the books. -/
def booked (first second : BankProgram Unit) (delta : Int) : Model Unit := do
  if ← Model.bankCall first then
    if ← Model.bankCall second then Model.addSurplus delta else pure ()
  else pure ()

/-- How the two calls end: both succeed and the surplus is changed, or one of them is refused and
the surplus is not. -/
inductive Booking (first second : BankProgram Unit) (delta : Int) : Funds → Funds → Prop
  | done {before middle after : BankStore} {surplus : Int} {refused : Bool}
      (ranFirst : Runs first before () middle) (ranSecond : Runs second middle () after) :
      Booking first second delta ⟨before, surplus, refused⟩ ⟨after, surplus + delta, refused⟩
  | firstRefused {before after : BankStore} {surplus : Int} {refused : Bool} {error : BankError}
      (notPanic : ∀ cause, error ≠ .panic cause)
      (failed : (mapStore BankKey Int).run first before = (.error error, after)) :
      Booking first second delta ⟨before, surplus, refused⟩ ⟨after, surplus, true⟩
  | secondRefused {before middle after : BankStore} {surplus : Int} {refused : Bool}
      {error : BankError} (ranFirst : Runs first before () middle)
      (notPanic : ∀ cause, error ≠ .panic cause)
      (failed : (mapStore BankKey Int).run second middle = (.error error, after)) :
      Booking first second delta ⟨before, surplus, refused⟩ ⟨after, surplus, true⟩

theorem booking_of_booked {first second : BankProgram Unit} {delta : Int}
    (ran : booked first second delta world = .ok ((), after)) :
    Booking first second delta world.funds after.funds := by
  obtain ⟨⟨succeeded, middle⟩, ranFirst, ran⟩ := exceptBind_eq_ok.mp ran
  cases called_of_bankCall ranFirst with
  | refused notPanic failed =>
    cases ran
    exact .firstRefused notPanic failed
  | done firstRan =>
    obtain ⟨⟨succeeded, later⟩, ranSecond, ran⟩ := exceptBind_eq_ok.mp ran
    cases called_of_bankCall ranSecond with
    | refused notPanic failed =>
      cases ran
      exact .secondRefused firstRan notPanic failed
    | done secondRan =>
      cases addSurplus_spec ran
      exact .done firstRan secondRan

theorem total_filter (amt : Int) :
    Coins.total ([⟨baseDenom, amt⟩].filter fun coin : Coin => coin.amount ≠ 0) baseDenom = amt := by
  by_cases zero : amt = 0 <;> simp [Coins.total, zero]

theorem runs_useiCoins {usei : Int} {coins : Coins} {before after : BankStore}
    (ran : Runs (useiCoins usei) before coins after) :
    coins = [⟨baseDenom, usei⟩].filter (fun coin : Coin => coin.amount ≠ 0) ∧ after = before := by
  have coinsRan := ran.next runs_newCoin
  exact runs_newCoins coinsRan

theorem readOnly_useiCoins (usei : Int) : ReadOnly (useiCoins usei) :=
  .bind (readOnly_newCoin baseDenom usei) fun coin => readOnly_newCoins coin

theorem length_useiCoins (usei : Int) :
    ([⟨baseDenom, usei⟩].filter fun coin : Coin => coin.amount ≠ 0).length ≤ 1 :=
  length_filter_le _ _

section Payments

variable {env : Env} {keeper : BaseSendKeeper} {addr : AccAddress} {usei : Int}
  {before after : BankStore}

theorem debit_refusedClean (env : Env) : RefusedClean before (debit env addr usei) := by
  refine .bind (readOnly_useiCoins usei) fun coins _ ran => ?_
  rw [(runs_useiCoins ran).1]
  exact subUnlockedCoins_refusedClean (length_useiCoins usei) true

theorem credit_refusedClean : RefusedClean before (credit keeper addr usei) := by
  refine .bind (readOnly_useiCoins usei) fun coins _ ran => ?_
  rw [(runs_useiCoins ran).1]
  exact addCoins_refusedClean (length_useiCoins usei) true

theorem effect_of_debit (ran : Runs (debit env addr usei) before () after) :
    Effect before after (movedAt addr (-(usei * oneUseiInWei))) := by
  have subRan := ran.next runs_useiCoins
  have effect := effect_of_subUnlockedCoins subRan
  rwa [total_filter] at effect

theorem effect_of_credit (ran : Runs (credit keeper addr usei) before () after) :
    Effect before after (movedAt addr (usei * oneUseiInWei)) ∧ keeper.canSendTo addr = true := by
  have addRan := ran.next runs_useiCoins
  obtain ⟨effect, -⟩ := effect_of_addCoins addRan
  rw [total_filter] at effect
  refine ⟨effect, ?_⟩
  unfold addCoins at addRan
  by_contra refused
  rw [if_pos (by simpa using refused)] at addRan
  simp at addRan

end Payments

variable {total : Int} {lenient : Bool}

/-- A debit that succeeds puts into the surplus what it takes. -/
theorem holds_of_debit {env : Env} {addr : AccAddress} {amt surplus : Int}
    {before middle after : BankStore} (notNegative : 0 ≤ amt)
    (holds : Holds before (total - surplus))
    (ranFirst : Runs (debit env addr (splitUseiWeiAmount amt).1) before () middle)
    (ranSecond : Runs (subWei addr (splitUseiWeiAmount amt).2) middle () after) :
    Holds after (total - (surplus + amt)) := by
  obtain ⟨parts, weiNotNegative, -⟩ := splitUseiWeiAmount_spec notNegative
  have effect := (effect_of_debit ranFirst).trans_at (effect_of_subWei weiNotNegative ranSecond)
  have moved := holds.moved effect
  rwa [show total - surplus + (-((splitUseiWeiAmount amt).1 * oneUseiInWei) +
    -(splitUseiWeiAmount amt).2) = total - (surplus + amt) by lia] at moved

namespace Model

variable (env : Env) (acc evmAddr : Address)

theorem booked_subBalance (amt : BitVec 256) :
    Keeps (Booked true total) (subBalance env evmAddr amt) := by
  unfold subBalance
  split
  · exact .pure ()
  · refine .bind (keeps_seiAddressOf env evmAddr) fun addr => ?_
    intro world _ after ran
    have ended := booking_of_booked ran
    generalize world.funds = funds at ended
    generalize after.funds = later at ended
    cases ended with
    | done ranFirst ranSecond =>
      exact fun balanced kept =>
        holds_of_debit (Int.natCast_nonneg _) (balanced kept) ranFirst ranSecond
    | firstRefused => exact fun _ => nofun
    | secondRefused => exact fun _ => nofun

/-- A credit is refused as a whole, so the books are kept in any case. -/
theorem booked_addBalance (amt : BitVec 256) :
    Keeps (Booked lenient total) (addBalance env evmAddr amt) := by
  unfold addBalance
  split
  · exact .pure ()
  · refine .bind (keeps_seiAddressOf env evmAddr) fun addr => .bind (.evmCall _) fun receives => ?_
    intro world _ after ran
    have ended := booking_of_booked ran
    generalize world.funds = funds at ended
    generalize after.funds = later at ended
    cases ended with
    | @done _ _ _ surplus _ ranFirst ranSecond =>
      obtain ⟨parts, weiNotNegative, -⟩ := splitUseiWeiAmount_spec (Int.natCast_nonneg amt.toNat)
      intro balanced kept
      have moved := (balanced kept).moved ((effect_of_credit ranFirst).1.trans_at
        (effect_of_addWei weiNotNegative ranSecond))
      rwa [parts, show total - surplus + amt.toNat =
        total - (surplus + -amt.toNat) by ring] at moved
    | firstRefused notPanic failed =>
      intro balanced kept
      rw [Bool.and_true] at kept
      unfold Funds.Balanced
      rw [credit_refusedClean _ _ failed notPanic]
      exact balanced (by rw [kept, Bool.false_and])
    | secondRefused ranFirst notPanic failed =>
      -- The recipient was accepted by the first call.
      obtain ⟨cause, isPanic⟩ := addWei_notRefused (effect_of_credit ranFirst).2 _ _ _ failed
      exact absurd isPanic (notPanic cause)

theorem booked_selfDestruct : Keeps (Booked true total) (selfDestruct env acc) :=
  .bind (keeps_disassociate acc) fun _ => .bind (keeps_getBalanceOf env acc) fun balance =>
    .bind (booked_subBalance env acc balance) fun _ =>
      .bind (keeps_markAccount acc .deleted) fun _ => .pure balance

theorem booked_selfDestruct6780 : Keeps (Booked true total) (selfDestruct6780 env acc) :=
  .look fun _ => .ite (.bind (booked_selfDestruct env acc) fun _ => .pure _) (.pure _)

theorem booked_perform (op : Op) : Keeps (Booked true total) (perform env op) := by
  cases op with
  | setState addr key val => exact .map _ (keeps_setStateOf addr key val)
  | setTransientState | addLog | createContract | setStorage =>
    exact .map _ (.remember fun _ => rfl)
  | setCode addr code => exact .map _ (keeps_setCodeOf env addr code)
  | setNonce | getCode => exact .map _ (.evmCall _)
  | addBalance addr amt => exact .map _ (booked_addBalance env addr amt)
  | subBalance addr amt => exact .map _ (booked_subBalance env addr amt)
  | addRefund => exact .map _ (.look fun _ => .remember fun _ => rfl)
  | subRefund => exact .map _ (.look fun _ => .ite (.throw _) (.remember fun _ => rfl))
  | addAddressToAccessList addr => exact .map _ (keeps_addAddressToAccessList addr)
  | addSlotToAccessList addr slot => exact .map _ (keeps_addSlotToAccessList addr slot)
  | createAccount acc => exact .map _ (keeps_createAccount env acc)
  | selfDestruct acc => exact .map _ (booked_selfDestruct env acc)
  | selfDestruct6780 acc => exact .map _ (booked_selfDestruct6780 env acc)
  | snapshot | revertToSnapshot => exact .pure _

end Model

/-! ### Whole runs -/

/-- The books are kept, now and in every copy that a snapshot made. -/
def History.Conserves (total : Int) (history : History) : Prop :=
  ∀ world ∈ history.now :: history.saved, world.funds.Booked true total

namespace History

variable {env : Env} {history after : History}

theorem conserves_perform {op : Op} {answer : Answer} (conserves : history.Conserves total)
    (ran : perform env op history = .ok (answer, after)) : after.Conserves total := by
  obtain ⟨now, saved⟩ := forall_mem_cons.mp conserves
  by_cases isSnapshot : op = .snapshot
  · subst isSnapshot
    cases ran
    exact forall_mem_cons.mpr ⟨now, conserves⟩
  by_cases isRevert : ∃ rev, op = .revertToSnapshot rev
  · obtain ⟨rev, rfl⟩ := isRevert
    obtain ⟨reverted, isReverted, ran⟩ := exceptBind_eq_ok.mp ran
    cases ran
    unfold revertToSnapshot at isReverted
    split at isReverted
    case h_2 => cases isReverted
    case h_1 dropped =>
      split at isReverted <;> cases isReverted
      -- The world that comes back and the copies that remain were all among the copies.
      exact fun world member => saved world (mem_of_mem_drop (dropped ▸ member))
  · rw [perform_of_ne env isSnapshot fun rev same => isRevert ⟨rev, same⟩] at ran
    obtain ⟨ended, performed, ran⟩ := exceptBind_eq_ok.mp ran
    cases ran
    exact forall_mem_cons.mpr ⟨Model.booked_perform env op _ _ _ performed now, saved⟩

theorem conserves_performAll {ops : List Op} {answers : List Answer}
    (conserves : history.Conserves total)
    (ran : performAll env ops history = .ok (answers, after)) : after.Conserves total := by
  induction ops generalizing history answers with
  | nil =>
    cases ran
    exact conserves
  | cons op rest ih =>
    obtain ⟨ended, ranOp, ran⟩ := exceptBind_eq_ok.mp ran
    obtain ⟨endedRest, ranRest, ran⟩ := exceptBind_eq_ok.mp ran
    cases ran
    exact ih (conserves_perform conserves ranOp) ranRest

end History

/-- A run of the state database leads to a history that keeps the books. -/
theorem conserves_of_performAll {env : Env} {evm : ExtTreeMap Bytes Bytes}
    {bank : ExtTreeMap BankKey Int} (inRange : WeiInRange fun key => bank[key]?)
    {simulation viaWasmd : Bool} {ops : List Op} {answers : List Answer} {db : DBImpl}
    (ran : performAll env ops (newDBImpl evm bank simulation viaWasmd) = .ok (answers, db)) :
    ∃ history, Tracks db history ∧ history.Conserves (totalSupply fun key => bank[key]?) := by
  obtain ⟨history, modelRan, tracks⟩ :=
    (tracks_performAll env ops).of_ok (tracks_newDBImpl evm bank _ _) ran
  refine ⟨history, tracks, History.conserves_performAll ?_ modelRan⟩
  have start : Holds (fun key => bank[key]?) ((totalSupply fun key => bank[key]?) - 0) := by
    rw [Int.sub_zero]
    exact holds_of_map bank inRange
  exact forall_mem_cons.mpr ⟨fun _ => start, forall_mem_singleton.mpr fun _ => start⟩

end SeiChain.Evm
