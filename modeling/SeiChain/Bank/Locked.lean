/-
This file follows the locked usei of vesting accounts through sequences of bank
operations. What an account holds is split into usei and wei by division, so an
account keeps its locked usei exactly when both parts together are worth that
much. A debit of coins is checked against the lock. A debit of wei is not: it
keeps the lock as long as it does not exceed the balance the EVM sees, which
leaves the locked usei out.
-/

import Mathlib.Algebra.Order.BigOperators.Group.List
import SeiChain.Bank.Send

namespace SeiChain.Bank

open Library StoreProgram BaseSendKeeper List

variable (keeper : BaseSendKeeper)

/-- The usei of an account that are locked. -/
def lockedUsei (addr : AccAddress) : Int := (keeper.lockedCoins addr).amountOf baseDenom

variable (store : BankStore)

/-- The balance the EVM sees: what the account holds without its locked usei, in wei. -/
def evmBalance (addr : AccAddress) : Int :=
  (useiOf store addr - lockedUsei keeper addr) * oneUseiInWei + weiOf store addr

/-- No account holds less than its locked usei. -/
def CoversLocked : Prop := ∀ addr, lockedUsei keeper addr ≤ useiOf store addr

variable {keeper : BaseSendKeeper} {before after : BankStore} {addr : AccAddress}

theorem coversLocked_iff (range : WeiInRange before) :
    CoversLocked keeper before ↔
      ∀ addr, lockedUsei keeper addr * oneUseiInWei ≤ aggregate before addr := by
  refine forall_congr' fun addr => ?_
  obtain ⟨lower, upper⟩ := range addr
  unfold aggregate
  unfold oneUseiInWei at upper ⊢
  lia

theorem evmBalance_eq :
    evmBalance keeper store addr =
      aggregate store addr - lockedUsei keeper addr * oneUseiInWei := by
  unfold evmBalance aggregate
  ring

/-- An effect keeps the lock if no account falls below its locked usei. -/
theorem Effect.coversLocked {delta : AccAddress → Int} (effect : Effect before after delta)
    (range : WeiInRange before) (covered : CoversLocked keeper before)
    (enough : ∀ addr, -delta addr ≤ 0 ∨ -delta addr ≤ evmBalance keeper before addr) :
    CoversLocked keeper after := by
  rw [coversLocked_iff (effect.inRange range)]
  rw [coversLocked_iff range] at covered
  intro addr
  have worth := covered addr
  rw [effect.aggregates]
  rcases enough addr with credit | debit
  · lia
  · rw [evmBalance_eq] at debit
    lia

/-! ### Operations -/

inductive BankOp where
  | subWei (addr : AccAddress) (amt : Int)
  | addWei (addr : AccAddress) (amt : Int)
  | subUnlockedCoins (addr : AccAddress) (amt : Coins) (checkNeg : Bool)
  | addCoins (addr : AccAddress) (amt : Coins) (checkNeg : Bool)
  | sendCoinsAndWei (fromAddr toAddr : AccAddress) (amt wei : Int)
  deriving DecidableEq

namespace BankOp

def program (keeper : BaseSendKeeper) : BankOp → BankProgram Unit
  | subWei addr amt => BaseSendKeeper.subWei addr amt
  | addWei addr amt => keeper.addWei addr amt
  | subUnlockedCoins addr amt checkNeg => keeper.subUnlockedCoins addr amt checkNeg
  | addCoins addr amt checkNeg => keeper.addCoins addr amt checkNeg
  | sendCoinsAndWei fromAddr toAddr amt wei => keeper.sendCoinsAndWei fromAddr toAddr amt wei

/-- The amounts of the operation are not negative. Coin sets are checked by the operations. -/
def NonNegative : BankOp → Prop
  | subWei _ amt => 0 ≤ amt
  | addWei _ amt => 0 ≤ amt
  | subUnlockedCoins .. => True
  | addCoins .. => True
  | sendCoinsAndWei _ _ amt wei => 0 ≤ amt ∧ 0 ≤ wei

/-- What the operation adds to each account and removes from it, in wei. -/
def moved : BankOp → AccAddress → Int
  | subWei addr amt => movedAt addr (-amt)
  | addWei addr amt => movedAt addr amt
  | subUnlockedCoins addr amt _ => movedAt addr (-(amt.total baseDenom * oneUseiInWei))
  | addCoins addr amt _ => movedAt addr (amt.total baseDenom * oneUseiInWei)
  | sendCoinsAndWei fromAddr toAddr amt wei =>
    movedAt fromAddr (-(amt * oneUseiInWei + wei)) + movedAt toAddr (amt * oneUseiInWei + wei)

/-- The operation takes from the account only what the EVM sees: a debit of wei does not exceed
that balance, and a debit of coins is checked or does not exceed it either. -/
def SpendsUnlocked (keeper : BaseSendKeeper) (store : BankStore) : BankOp → Prop
  | subWei addr amt => amt ≤ evmBalance keeper store addr
  | addWei .. => True
  | subUnlockedCoins addr amt checkNeg =>
    checkNeg = true ∨ amt.total baseDenom * oneUseiInWei ≤ evmBalance keeper store addr
  | addCoins .. => True
  | sendCoinsAndWei fromAddr _ _ wei => wei ≤ evmBalance keeper store fromAddr

end BankOp

/-- An operation that succeeds. -/
def bankStep (keeper : BaseSendKeeper) (store : BankStore) (op : BankOp) : Option BankStore :=
  match (mapStore BankKey Int).run (op.program keeper) store with
  | (.ok (), after) => some after
  | (.error _, _) => none

variable {op : BankOp}

theorem runs_of_bankStep (taken : bankStep keeper before op = some after) :
    Runs (op.program keeper) before () after := by
  unfold bankStep at taken
  split at taken
  · next ran =>
    cases taken
    exact ran
  · cases taken

theorem effect_of_bankStep (notNegative : op.NonNegative)
    (taken : bankStep keeper before op = some after) : Effect before after op.moved := by
  have ran := runs_of_bankStep taken
  cases op with
  | subWei addr amt => exact effect_of_subWei notNegative ran
  | addWei addr amt => exact effect_of_addWei notNegative ran
  | subUnlockedCoins addr amt checkNeg => exact effect_of_subUnlockedCoins ran
  | addCoins addr amt checkNeg => exact (effect_of_addCoins ran).1
  | sendCoinsAndWei fromAddr toAddr amt =>
    exact effect_of_sendCoinsAndWei notNegative.1 notNegative.2 ran

/-! ### The lock through one operation -/

variable {coins : Coins}

theorem total_nonneg (positive : ∀ coin ∈ coins, 0 < coin.amount) : 0 ≤ coins.total baseDenom := by
  refine sum_nonneg fun amount member => ?_
  obtain ⟨coin, inCoins, rfl⟩ := mem_map.mp member
  split
  · exact (positive coin inCoins).le
  · rfl

variable {amt : Int}

section

variable (range : WeiInRange before) (covered : CoversLocked keeper before)

include range covered

theorem coversLocked_of_credit (effect : Effect before after (movedAt addr amt))
    (notNegative : 0 ≤ amt) : CoversLocked keeper after := by
  refine effect.coversLocked range covered fun other => .inl ?_
  unfold movedAt
  split <;> lia

theorem coversLocked_of_debit (effect : Effect before after (movedAt addr (-amt)))
    (spends : amt ≤ evmBalance keeper before addr) : CoversLocked keeper after := by
  refine effect.coversLocked range covered fun other => ?_
  unfold movedAt
  split
  · next same =>
    exact .inr (by lia)
  · exact .inl (by lia)

theorem coversLocked_of_addCoins {checkNeg : Bool}
    (ran : Runs (keeper.addCoins addr coins checkNeg) before () after) :
    CoversLocked keeper after := by
  obtain ⟨effect, positive⟩ := effect_of_addCoins ran
  exact coversLocked_of_credit range covered effect
    (mul_nonneg (total_nonneg positive) (show 0 ≤ oneUseiInWei by decide))

omit range in
/-- The check of every round keeps the lock through the loop over the coins. -/
theorem coversLocked_of_checkedSub
    (ran : Runs (coins.forM (keeper.subUnlockedCoin addr true)) before () after) :
    CoversLocked keeper after := by
  induction coins generalizing before with
  | nil =>
    obtain ⟨-, rfl⟩ := (runs_pure _ _).mp ran
    exact covered
  | cons coin rest ih =>
    obtain ⟨⟨⟩, middle, first, later⟩ := ran.parts
    refine ih (fun other => ?_) later
    obtain ⟨stored, checked⟩ := runs_subUnlockedCoin first
    rw [(runs_setBalance stored).1 other]
    split
    · next same =>
      have enough := checked rfl
      obtain ⟨rfl, base⟩ := same
      unfold lockedUsei
      rw [← base]
      exact enough
    · exact covered other

theorem coversLocked_of_subUnlockedCoins {checkNeg : Bool}
    (spends : checkNeg = true ∨ coins.total baseDenom * oneUseiInWei ≤ evmBalance keeper before addr)
    (ran : Runs (keeper.subUnlockedCoins addr coins checkNeg) before () after) :
    CoversLocked keeper after := by
  rcases spends with rfl | enough
  · unfold subUnlockedCoins at ran
    split at ran
    · exact coversLocked_of_checkedSub covered ran
    · simp at ran
  · exact coversLocked_of_debit range covered (effect_of_subUnlockedCoins ran) enough

theorem coversLocked_of_sendUsei {fromAddr toAddr : AccAddress}
    (ran : Runs (keeper.sendUsei fromAddr toAddr amt) before () after) :
    CoversLocked keeper after := by
  unfold sendUsei at ran
  split at ran
  · have sets := ran.next runs_newCoin
    have sent := sets.next runs_newCoins
    obtain ⟨⟨⟩, middle, subRan, addRan⟩ := sent.parts
    exact coversLocked_of_addCoins ((effect_of_subUnlockedCoins subRan).inRange range)
      (coversLocked_of_subUnlockedCoins range covered (.inl rfl) subRan) addRan
  · obtain ⟨-, rfl⟩ := (runs_pure _ _).mp ran
    exact covered

theorem coversLocked_of_bankStep (notNegative : op.NonNegative)
    (spends : op.SpendsUnlocked keeper before) (taken : bankStep keeper before op = some after) :
    CoversLocked keeper after := by
  have ran := runs_of_bankStep taken
  cases op with
  | subWei addr amt =>
    exact coversLocked_of_debit range covered (effect_of_subWei notNegative ran) spends
  | addWei addr amt =>
    exact coversLocked_of_credit range covered (effect_of_addWei notNegative ran) notNegative
  | subUnlockedCoins addr amt checkNeg =>
    exact coversLocked_of_subUnlockedCoins range covered spends ran
  | addCoins addr amt checkNeg => exact coversLocked_of_addCoins range covered ran
  | sendCoinsAndWei fromAddr toAddr amt =>
    obtain ⟨⟨⟩, debited, subRan, credited⟩ := ran.parts
    obtain ⟨⟨⟩, credit, addRan, sendRan⟩ := credited.parts
    have debit := effect_of_subWei notNegative.2 subRan
    have credit := effect_of_addWei notNegative.2 addRan
    have debitCovers := coversLocked_of_debit range covered debit spends
    have creditCovers :=
      coversLocked_of_credit (debit.inRange range) debitCovers credit notNegative.2
    exact coversLocked_of_sendUsei (credit.inRange (debit.inRange range)) creditCovers sendRan

end

/-! ### Sequences of operations -/

/-- Every operation of the sequence takes only what the EVM sees of the account at that point. -/
def SpendsUnlocked (keeper : BaseSendKeeper) : BankStore → List BankOp → Prop
  | _, [] => True
  | store, op :: rest => op.SpendsUnlocked keeper store ∧
    ∀ next, bankStep keeper store op = some next → SpendsUnlocked keeper next rest

/-- Every sequence of operations that succeeds leaves the wei parts below one usei and changes
what each account holds by exactly the amounts added and removed. It leaves no account below its
locked usei if the debits of wei keep to the balance the EVM sees. -/
theorem bank_operations_exact (keeper : BaseSendKeeper) (start final : BankStore)
    (ops : List BankOp) (notNegative : ∀ op ∈ ops, op.NonNegative) (range : WeiInRange start)
    (ran : runEvents (bankStep keeper) start ops = some final) :
    WeiInRange final ∧
      (∀ addr, aggregate final addr =
        aggregate start addr + (ops.map fun op => op.moved addr).sum) ∧
      (CoversLocked keeper start → SpendsUnlocked keeper start ops →
        CoversLocked keeper final) := by
  induction ops generalizing start with
  | nil =>
    cases ran
    exact ⟨range, fun addr => by simp, fun covered _ => covered⟩
  | cons op rest ih =>
    obtain ⟨next, taken, ranRest⟩ := Option.bind_eq_some_iff.mp ran
    have opNotNegative := notNegative op mem_cons_self
    have effect := effect_of_bankStep opNotNegative taken
    obtain ⟨finalRange, aggregates, locked⟩ := ih next
      (fun other member => notNegative other (.tail _ member))
      (effect.inRange range) ranRest
    refine ⟨finalRange, fun addr => ?_, fun covered spends => ?_⟩
    · rw [aggregates, effect.aggregates, map_cons, sum_cons, add_assoc]
    · exact locked (coversLocked_of_bankStep range covered opNotNegative spends.1 taken)
        (spends.2 next taken)

/-! ### A vesting account -/

/-- One account has 5 usei, all of them locked. -/
def vestingKeeper : BaseSendKeeper where
  lockedCoins addr := if addr = [1] then [⟨baseDenom, 5⟩] else []
  canSendTo _ := true

def vestingStore : BankStore
  | .balance addr denom => if addr = [1] ∧ denom = baseDenom then some 5 else none
  | .wei _ => none

theorem vestingStore_inRange : WeiInRange vestingStore := fun _ =>
  show (0) ≤ 0 ∧ (0) < oneUseiInWei by decide

theorem vestingStore_covers : CoversLocked vestingKeeper vestingStore := by
  intro addr
  unfold lockedUsei useiOf vestingKeeper vestingStore
  by_cases vesting : addr = [1]
  · subst vesting
    decide
  · simp [vesting, Coins.amountOf]

/-- A credit of 7 wei can be spent again, the locked usei stay. -/
theorem bank_operations_exact_vesting :
    ∃ final, runEvents (bankStep vestingKeeper) vestingStore [.addWei [1] 7, .subWei [1] 7] =
        some final ∧ WeiInRange final ∧ aggregate final [1] = aggregate vestingStore [1] ∧
      CoversLocked vestingKeeper final := by
  have succeeds : (runEvents (bankStep vestingKeeper) vestingStore
      [.addWei [1] 7, .subWei [1] 7]).isSome = true := by decide +kernel
  obtain ⟨final, ran⟩ := Option.isSome_iff_exists.mp succeeds
  have credited : (bankStep vestingKeeper vestingStore (.addWei [1] 7)).map
      (fun store => evmBalance vestingKeeper store [1]) = some 7 := by decide +kernel
  have spends : SpendsUnlocked vestingKeeper vestingStore [.addWei [1] 7, .subWei [1] 7] := by
    refine ⟨trivial, fun next taken => ⟨?_, fun _ _ => trivial⟩⟩
    rw [taken] at credited
    exact (Option.some.inj credited).ge
  obtain ⟨range, aggregates, locked⟩ := bank_operations_exact vestingKeeper vestingStore final
    [.addWei [1] 7, .subWei [1] 7] (by simp [BankOp.NonNegative]) vestingStore_inRange ran
  exact ⟨final, ran, range, aggregates [1], locked vestingStore_covers spends⟩

/-- A debit of 1 wei succeeds on the account whose usei are all locked, and leaves 4 of them. -/
theorem subWei_spends_locked :
    WeiInRange vestingStore ∧ CoversLocked vestingKeeper vestingStore ∧
      ∃ final, runEvents (bankStep vestingKeeper) vestingStore [.subWei [1] 1] = some final ∧
        lockedUsei vestingKeeper [1] = 5 ∧ useiOf final [1] = 4 := by
  refine ⟨vestingStore_inRange, vestingStore_covers, ?_⟩
  have left : (runEvents (bankStep vestingKeeper) vestingStore [.subWei [1] 1]).map
      (fun final => useiOf final [1]) = some 4 := by decide +kernel
  obtain ⟨final, ran, usei⟩ := Option.map_eq_some_iff.mp left
  exact ⟨final, ran, by decide, usei⟩

end SeiChain.Bank
