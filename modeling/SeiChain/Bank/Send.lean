/-
This file models how the bank's send keeper moves funds. The base denomination
is held in two parts: whole usei in the balances of the account, and the rest,
below one usei, in wei. Debits and credits of wei borrow from and carry into the
usei part. What an account holds in both parts together changes by exactly the
amounts moved, and the wei part stays below one usei. Vesting accounts have
locked usei: debits of coins are checked against what is spendable, while a
debit of wei borrows from the whole usei balance.
-/

import Mathlib.Algebra.BigOperators.Group.List.Basic
import SeiChain.Bank.Coins
import SeiChain.Library.Transition

namespace SeiChain.Bank

open Library StoreProgram List Function SdkInt

/-- The base denomination, `usei`. -/
def baseDenom : Denom := [117, 115, 101, 105]

def oneUseiInWei : Int := 1000000000000

/-- What the send keeper asks other keepers: the locked coins of vesting accounts, and which
addresses the registered recipient checkers accept. -/
structure BaseSendKeeper where
  lockedCoins : AccAddress → Coins
  canSendTo : AccAddress → Bool

/-! ### Reading and writing balances -/

variable (keeper : BaseSendKeeper) (addr : AccAddress)

def getBalance (denom : Denom) : BankProgram Coin := do
  match ← read (.balance addr denom) with
  | none => newCoin denom 0
  | some amount => pure ⟨denom, amount⟩

def getWeiBalance : BankProgram Int := do
  match ← read (.wei addr) with
  | none => pure 0
  | some amount => pure amount

/-- Zero balances are not stored. -/
def setBalance (balance : Coin) (checkNeg : Bool) : BankProgram Unit :=
  if checkNeg && !balance.isValid then fail (.invalidCoins [balance])
  else if balance.amount = 0 then erase (.balance addr balance.denom)
  else write (.balance addr balance.denom) balance.amount

def setWeiBalance (amt : Int) : BankProgram Unit :=
  if amt = 0 then erase (.wei addr) else write (.wei addr) amt

def splitUseiWeiAmount (amt : Int) : Int × Int := (quo amt oneUseiInWei, mod amt oneUseiInWei)

namespace BaseSendKeeper

/-! ### Moving coins -/

/-- With `checkNeg`, the coin has to be covered by what is not locked. -/
def checkSpendable (checkNeg : Bool) (balance coin : Coin) : BankProgram Unit :=
  if checkNeg then do
    let locked ← newCoin coin.denom ((keeper.lockedCoins addr).amountOf coin.denom)
    let spendable ← balance.sub locked
    let difference ← spendable.add ⟨coin.denom, -coin.amount⟩
    if difference.amount < 0 then fail (.insufficientFunds spendable coin) else pure ()
  else pure ()

def subUnlockedCoin (checkNeg : Bool) (coin : Coin) : BankProgram Unit := do
  let balance ← getBalance addr coin.denom
  keeper.checkSpendable addr checkNeg balance coin
  let newBalance ← (if checkNeg then balance.sub coin else balance.subUnsafe coin)
  setBalance addr newBalance checkNeg

def subUnlockedCoins (amt : Coins) (checkNeg : Bool) : BankProgram Unit :=
  if Coins.isValid amt then amt.forM (keeper.subUnlockedCoin addr checkNeg)
  else fail (.invalidCoins amt)

def addCoin (checkNeg : Bool) (coin : Coin) : BankProgram Unit := do
  let balance ← getBalance addr coin.denom
  let newBalance ← balance.add coin
  setBalance addr newBalance checkNeg

def addCoins (amt : Coins) (checkNeg : Bool) : BankProgram Unit :=
  if !keeper.canSendTo addr then fail .invalidRecipient
  else if Coins.isValid amt then amt.forM (addCoin addr checkNeg)
  else fail (.invalidCoins amt)

def sendCoinsWithoutAccCreation (fromAddr toAddr : AccAddress) (amt : Coins) :
    BankProgram Unit := do
  keeper.subUnlockedCoins fromAddr amt true
  keeper.addCoins toAddr amt true

/-! ### Moving wei -/

/-- A debit that the wei part does not cover is taken from both parts together. -/
def borrowWei (amt currentWeiBalance : Int) : BankProgram Unit := do
  let currentUseiBalance ← getBalance addr baseDenom
  let currentUseiInWei ← mul currentUseiBalance.amount oneUseiInWei
  let currentAggregatedBalance ← add currentUseiInWei currentWeiBalance
  let postAggregatedBalance ← sub currentAggregatedBalance amt
  if postAggregatedBalance < 0 then fail (.insufficientWei currentAggregatedBalance amt)
  else do
    let useiBalance ← newCoin baseDenom (splitUseiWeiAmount postAggregatedBalance).1
    setBalance addr useiBalance true
    setWeiBalance addr (splitUseiWeiAmount postAggregatedBalance).2

def subPositiveWei (amt : Int) : BankProgram Unit := do
  let currentWeiBalance ← getWeiBalance addr
  if amt ≤ currentWeiBalance then do
    let rest ← sub currentWeiBalance amt
    setWeiBalance addr rest
  else borrowWei addr amt currentWeiBalance

def subWei (amt : Int) : BankProgram Unit := if amt = 0 then pure () else subPositiveWei addr amt

/-- A credit that fills one usei carries into the usei part. -/
def carryWei (postWeiBalance : Int) : BankProgram Unit := do
  let currentUseiBalance ← getBalance addr baseDenom
  let credited ← add currentUseiBalance.amount (splitUseiWeiAmount postWeiBalance).1
  let useiBalance ← newCoin baseDenom credited
  setBalance addr useiBalance true
  setWeiBalance addr (splitUseiWeiAmount postWeiBalance).2

def addPositiveWei (amt : Int) : BankProgram Unit := do
  let currentWeiBalance ← getWeiBalance addr
  let postWeiBalance ← add currentWeiBalance amt
  if postWeiBalance < oneUseiInWei then setWeiBalance addr postWeiBalance
  else carryWei addr postWeiBalance

def addWei (amt : Int) : BankProgram Unit :=
  if !keeper.canSendTo addr then fail .invalidRecipient
  else if amt = 0 then pure ()
  else addPositiveWei addr amt

/-- The usei part of a transfer, left out if there is nothing to send. -/
def sendUsei (fromAddr toAddr : AccAddress) (amt : Int) : BankProgram Unit :=
  if amt > 0 then do
    let coin ← newCoin baseDenom amt
    let coins ← newCoins coin
    keeper.sendCoinsWithoutAccCreation fromAddr toAddr coins
  else pure ()

def sendCoinsAndWei (fromAddr toAddr : AccAddress) (amt wei : Int) : BankProgram Unit := do
  subWei fromAddr wei
  keeper.addWei toAddr wei
  keeper.sendUsei fromAddr toAddr amt

end BaseSendKeeper

/-! ### What an account holds -/

variable (store : BankStore) (addr : AccAddress)

/-- The usei part of what an account holds. -/
def useiOf : Int := (store (.balance addr baseDenom)).getD 0

/-- The wei part of what an account holds. -/
def weiOf : Int := (store (.wei addr)).getD 0

/-- Both parts together, in wei. -/
def aggregate : Int := useiOf store addr * oneUseiInWei + weiOf store addr

/-- No account holds a negative amount of wei, or a whole usei in wei. -/
def WeiInRange : Prop := ∀ addr, 0 ≤ weiOf store addr ∧ weiOf store addr < oneUseiInWei

/-- An amount that is moved at one account. -/
def movedAt (amount : Int) : AccAddress → Int := fun other => if other = addr then amount else 0

/-- What a program does to the accounts: it moves the given amounts and keeps the wei parts in
range. -/
structure Effect (before after : BankStore) (delta : AccAddress → Int) : Prop where
  aggregates : ∀ addr, aggregate after addr = aggregate before addr + delta addr
  inRange : WeiInRange before → WeiInRange after

namespace Effect

variable {before middle after : BankStore} {delta delta' : AccAddress → Int}

theorem trans (first : Effect before middle delta) (second : Effect middle after delta') :
    Effect before after (delta + delta') where
  aggregates addr := by
    rw [second.aggregates, first.aggregates, Pi.add_apply]
    ring
  inRange range := second.inRange (first.inRange range)

theorem of_eq {addr : AccAddress} {amount amount' : Int}
    (effect : Effect before after (movedAt addr amount)) (equal : amount = amount') :
    Effect before after (movedAt addr amount') :=
  equal ▸ effect

theorem trans_at {addr : AccAddress} {amount amount' : Int}
    (first : Effect before middle (movedAt addr amount))
    (second : Effect middle after (movedAt addr amount')) :
    Effect before after (movedAt addr (amount + amount')) := by
  have both := first.trans second
  have sum : movedAt addr amount + movedAt addr amount' = movedAt addr (amount + amount') := by
    funext other
    unfold movedAt
    rw [Pi.add_apply]
    split <;> simp
  rwa [sum] at both

theorem nothing_at (addr : AccAddress) : Effect store store (movedAt addr 0) where
  aggregates other := by simp [movedAt]
  inRange := id

end Effect

section Stores

variable {before after : BankStore} {addr : AccAddress} {denom : Denom} {amount amt : Int}
  {checkNeg : Bool} {coin balance : Coin}

theorem runs_getBalance {result : Coin} (ran : Runs (getBalance addr denom) before result after) :
    result = ⟨denom, (before (.balance addr denom)).getD 0⟩ ∧ after = before := by
  have ended := ran.next (runs_read _ _).mp
  rcases stored : before (.balance addr denom) with _ | amount
  · rw [stored] at ended
    obtain ⟨rfl, rfl⟩ := runs_newCoin ended
    exact ⟨rfl, rfl⟩
  · rw [stored] at ended
    exact (runs_pure _ _).mp ended

theorem runs_getWeiBalance {result : Int} (ran : Runs (getWeiBalance addr) before result after) :
    result = weiOf before addr ∧ after = before := by
  have ended := ran.next (runs_read _ _).mp
  unfold weiOf
  rcases stored : before (.wei addr) with _ | amount
  all_goals
    rw [stored] at ended
    exact (runs_pure _ _).mp ended

theorem runs_setBalance (ran : Runs (setBalance addr balance checkNeg) before () after) :
    (∀ other, useiOf after other =
      if other = addr ∧ balance.denom = baseDenom then balance.amount else useiOf before other) ∧
      ∀ other, weiOf after other = weiOf before other := by
  have written : ∃ value : Option Int, value.getD 0 = balance.amount ∧
      after = update before (.balance addr balance.denom) value := by
    unfold setBalance at ran
    split at ran
    · simp at ran
    · split at ran
      · next zero => exact ⟨none, zero.symm, (runs_erase _ _).mp ran⟩
      · exact ⟨some balance.amount, rfl, (runs_write _ _ _).mp ran⟩
  obtain ⟨value, stored, rfl⟩ := written
  refine ⟨fun other => ?_, fun other => rfl⟩
  unfold useiOf
  by_cases same : other = addr ∧ balance.denom = baseDenom
  · rw [if_pos same, same.1, ← same.2, update_self, stored]
  · rw [if_neg same, update_of_ne]
    rintro equal
    injection equal with sameAddr sameDenom
    exact same ⟨sameAddr, sameDenom.symm⟩

theorem runs_setWeiBalance (ran : Runs (setWeiBalance addr amt) before () after) :
    (∀ other, useiOf after other = useiOf before other) ∧
      ∀ other, weiOf after other = if other = addr then amt else weiOf before other := by
  have written : ∃ value : Option Int, value.getD 0 = amt ∧
      after = update before (.wei addr) value := by
    unfold setWeiBalance at ran
    split at ran
    · next zero => exact ⟨none, zero.symm, (runs_erase _ _).mp ran⟩
    · exact ⟨some amt, rfl, (runs_write _ _ _).mp ran⟩
  obtain ⟨value, stored, rfl⟩ := written
  refine ⟨fun other => rfl, fun other => ?_⟩
  unfold weiOf
  by_cases same : other = addr
  · rw [if_pos same, same, update_self, stored]
  · rw [if_neg same, update_of_ne]
    rintro equal
    injection equal with sameAddr
    exact same sameAddr

/-- Setting one coin balance moves what it adds in the base denomination. -/
theorem effect_of_setBalance (ran : Runs (setBalance addr balance checkNeg) before () after) :
    Effect before after (movedAt addr (if balance.denom = baseDenom then
      (balance.amount - useiOf before addr) * oneUseiInWei else 0)) where
  aggregates other := by
    obtain ⟨usei, wei⟩ := runs_setBalance ran
    unfold aggregate
    rw [usei, wei]
    by_cases same : other = addr
    · subst same
      by_cases base : balance.denom = baseDenom
      · simp only [base, and_self, if_true, movedAt]
        ring
      · simp [base, movedAt]
    · simp [same, movedAt]
  inRange range other := by
    rw [(runs_setBalance ran).2]
    exact range other

theorem effect_of_setWeiBalance (ran : Runs (setWeiBalance addr amt) before () after)
    (range : WeiInRange before → 0 ≤ amt ∧ amt < oneUseiInWei) :
    Effect before after (movedAt addr (amt - weiOf before addr)) where
  aggregates other := by
    obtain ⟨usei, wei⟩ := runs_setWeiBalance ran
    unfold aggregate
    rw [usei, wei]
    by_cases same : other = addr
    · subst same
      simp [movedAt]
    · simp [same, movedAt]
  inRange beforeInRange other := by
    rw [(runs_setWeiBalance ran).2]
    split
    · exact range beforeInRange
    · exact beforeInRange other

/-- A loop over coins moves the sum of what its rounds move. -/
theorem effect_of_forM {round : Coin → BankProgram Unit} {moved : Coin → Int}
    (each : ∀ coin before after, Runs (round coin) before () after →
      Effect before after (movedAt addr (moved coin)))
    {coins : Coins} (ran : Runs (coins.forM round) before () after) :
    Effect before after (movedAt addr (coins.map moved).sum) := by
  induction coins generalizing before with
  | nil =>
    obtain ⟨-, rfl⟩ := (runs_pure _ _).mp ran
    exact Effect.nothing_at after addr
  | cons coin rest ih =>
    obtain ⟨⟨⟩, middle, first, later⟩ := ran.parts
    have both := (each coin before middle first).trans_at (ih later)
    rwa [← sum_cons] at both

end Stores

namespace BaseSendKeeper

variable {keeper : BaseSendKeeper} {before after : BankStore} {addr : AccAddress} {amt : Int}
  {checkNeg : Bool} {coin : Coin} {coins : Coins}

/-! ### What the operations move -/

/-- What a coin counts for in wei. -/
def inWei (coin : Coin) : Int := if coin.denom = baseDenom then coin.amount * oneUseiInWei else 0

theorem sum_inWei (coins : Coins) :
    (coins.map inWei).sum = coins.total baseDenom * oneUseiInWei := by
  induction coins with
  | nil => rfl
  | cons coin rest ih =>
    unfold Coins.total at ih ⊢
    rw [map_cons, sum_cons, ih, map_cons, sum_cons, inWei]
    split <;> ring

theorem runs_checkSpendable {balance : Coin}
    (ran : Runs (keeper.checkSpendable addr checkNeg balance coin) before () after) :
    after = before ∧ (checkNeg = true →
      (keeper.lockedCoins addr).amountOf coin.denom ≤ balance.amount - coin.amount) := by
  unfold checkSpendable at ran
  split at ran
  · have unlocked := ran.next runs_newCoin
    have compared := unlocked.next runs_coin_sub
    have ended := compared.next runs_coin_add
    split at ended
    · simp at ended
    · next covered =>
      obtain ⟨-, rfl⟩ := (runs_pure _ _).mp ended
      lia
  · next unchecked =>
    obtain ⟨-, rfl⟩ := (runs_pure _ _).mp ran
    exact ⟨rfl, fun checked => absurd checked unchecked⟩

section

variable (ran : Runs (keeper.subUnlockedCoin addr checkNeg coin) before () after)

include ran

/-- What one round of `subUnlockedCoins` does: the balance of the coin's denomination is reduced,
and with `checkNeg` it stays above the locked amount. -/
theorem runs_subUnlockedCoin :
    Runs (setBalance addr ⟨coin.denom, (before (.balance addr coin.denom)).getD 0 - coin.amount⟩
        checkNeg) before () after ∧
      (checkNeg = true → (keeper.lockedCoins addr).amountOf coin.denom ≤
        (before (.balance addr coin.denom)).getD 0 - coin.amount) := by
  have checked := ran.next runs_getBalance
  obtain ⟨⟨⟩, _, checkRan, subtracted⟩ := checked.parts
  obtain ⟨rfl, covered⟩ := runs_checkSpendable checkRan
  obtain ⟨newBalance, _, newRan, stored⟩ := subtracted.parts
  cases checkNeg with
  | true =>
    obtain ⟨rfl, rfl⟩ := runs_coin_sub newRan
    exact ⟨stored, covered⟩
  | false =>
    obtain ⟨rfl, rfl⟩ := runs_coin_subUnsafe newRan
    exact ⟨stored, covered⟩

theorem effect_of_subUnlockedCoin : Effect before after (movedAt addr (-inWei coin)) := by
  refine (effect_of_setBalance (runs_subUnlockedCoin ran).1).of_eq ?_
  unfold inWei
  split
  · next base =>
    rw [useiOf, base]
    ring
  · rfl

end

theorem effect_of_subUnlockedCoins
    (ran : Runs (keeper.subUnlockedCoins addr coins checkNeg) before () after) :
    Effect before after (movedAt addr (-(coins.total baseDenom * oneUseiInWei))) := by
  unfold subUnlockedCoins at ran
  split at ran
  · have effect := effect_of_forM (fun coin before after => effect_of_subUnlockedCoin) ran
    have negated : (coins.map fun coin => -inWei coin).sum = -(coins.map inWei).sum :=
      by rw [sum_neg, map_map]; rfl
    rwa [negated, sum_inWei] at effect
  · simp at ran

theorem effect_of_addCoin (ran : Runs (addCoin addr checkNeg coin) before () after) :
    Effect before after (movedAt addr (inWei coin)) := by
  have added := ran.next runs_getBalance
  have stored := added.next runs_coin_add
  refine (effect_of_setBalance stored).of_eq ?_
  unfold inWei
  split
  · next base =>
    rw [useiOf, base]
    ring
  · rfl

theorem effect_of_addCoins (ran : Runs (keeper.addCoins addr coins checkNeg) before () after) :
    Effect before after (movedAt addr (coins.total baseDenom * oneUseiInWei)) ∧
      ∀ coin ∈ coins, 0 < coin.amount := by
  unfold addCoins at ran
  split at ran
  · simp at ran
  · split at ran
    · next valid =>
      have effect := effect_of_forM (fun coin before after => effect_of_addCoin) ran
      rw [sum_inWei] at effect
      exact ⟨effect, Coins.isValid_positive valid⟩
    · simp at ran

/-- Splitting a non-negative amount keeps it, and leaves less than one usei in wei. -/
theorem splitUseiWeiAmount_spec {amt : Int} (notNegative : 0 ≤ amt) :
    (splitUseiWeiAmount amt).1 * oneUseiInWei + (splitUseiWeiAmount amt).2 = amt ∧
      0 ≤ (splitUseiWeiAmount amt).2 ∧ (splitUseiWeiAmount amt).2 < oneUseiInWei := by
  unfold splitUseiWeiAmount quo mod oneUseiInWei
  rw [Int.tdiv_eq_ediv_of_nonneg notNegative]
  change amt / 1000000000000 * 1000000000000 + amt % 1000000000000 = amt ∧
    0 ≤ amt % 1000000000000 ∧ amt % 1000000000000 < 1000000000000
  lia

/-- Storing a split amount: first the usei part, then the wei part. -/
theorem effect_of_storeSplit {useiBalance weiBalance : Int} {middle : BankStore}
    (useiRan : Runs (setBalance addr ⟨baseDenom, useiBalance⟩ true) before () middle)
    (weiRan : Runs (setWeiBalance addr weiBalance) middle () after)
    (range : 0 ≤ weiBalance ∧ weiBalance < oneUseiInWei) :
    Effect before after (movedAt addr
      (useiBalance * oneUseiInWei + weiBalance - aggregate before addr)) := by
  have weiEffect := effect_of_setWeiBalance weiRan fun _ => range
  refine ((effect_of_setBalance useiRan).trans_at weiEffect).of_eq ?_
  rw [(runs_setBalance useiRan).2, if_pos rfl, aggregate]
  ring

theorem effect_of_subWei (notNegative : 0 ≤ amt) (ran : Runs (subWei addr amt) before () after) :
    Effect before after (movedAt addr (-amt)) := by
  unfold subWei at ran
  split at ran
  · next zero =>
    obtain ⟨-, rfl⟩ := (runs_pure _ _).mp ran
    exact (Effect.nothing_at after addr).of_eq (by rw [zero]; rfl)
  · have debited := ran.next runs_getWeiBalance
    split at debited
    · next covered =>
      have stored := debited.next runs_bounded
      have effect := effect_of_setWeiBalance stored fun range =>
        ⟨by lia, lt_of_le_of_lt (by lia) (range addr).2⟩
      exact effect.of_eq (by ring)
    · exact effect_of_borrowWei debited
where
  effect_of_borrowWei {before : BankStore}
      (ran : Runs (borrowWei addr amt (weiOf before addr)) before () after) :
      Effect before after (movedAt addr (-amt)) := by
    have multiplied := ran.next runs_getBalance
    have added := multiplied.next runs_mul
    have subtracted := added.next runs_bounded
    have checked := subtracted.next runs_bounded
    split at checked
    · simp at checked
    · next covered =>
      have stored := checked.next runs_newCoin
      obtain ⟨⟨⟩, _, useiStored, weiStored⟩ := stored.parts
      obtain ⟨split, range⟩ := splitUseiWeiAmount_spec (not_lt.mp covered)
      refine (effect_of_storeSplit useiStored weiStored range).of_eq ?_
      rw [split, aggregate, useiOf]
      ring

theorem effect_of_addWei (notNegative : 0 ≤ amt)
    (ran : Runs (keeper.addWei addr amt) before () after) :
    Effect before after (movedAt addr amt) := by
  unfold addWei at ran
  split at ran
  · simp at ran
  · split at ran
    · next zero =>
      obtain ⟨-, rfl⟩ := (runs_pure _ _).mp ran
      exact (Effect.nothing_at after addr).of_eq zero.symm
    · have added := ran.next runs_getWeiBalance
      have credited := added.next runs_bounded
      split at credited
      · next below =>
        have effect := effect_of_setWeiBalance credited fun range =>
          ⟨add_nonneg (range addr).1 notNegative, below⟩
        exact effect.of_eq (by ring)
      · next full => exact effect_of_carryWei full credited
where
  effect_of_carryWei {before : BankStore}
      (full : ¬weiOf before addr + amt < oneUseiInWei)
      (ran : Runs (carryWei addr (weiOf before addr + amt)) before () after) :
      Effect before after (movedAt addr amt) := by
    have added := ran.next runs_getBalance
    have renewed := added.next runs_bounded
    have stored := renewed.next runs_newCoin
    obtain ⟨⟨⟩, _, useiStored, weiStored⟩ := stored.parts
    have positive : (0) < oneUseiInWei := by decide
    obtain ⟨split, range⟩ := splitUseiWeiAmount_spec (le_trans positive.le (not_lt.mp full))
    refine (effect_of_storeSplit useiStored weiStored range).of_eq ?_
    rw [add_mul, add_assoc, split, aggregate, useiOf]
    ring

theorem effect_of_sendUsei {fromAddr toAddr : AccAddress} (notNegative : 0 ≤ amt)
    (ran : Runs (keeper.sendUsei fromAddr toAddr amt) before () after) :
    Effect before after (movedAt fromAddr (-(amt * oneUseiInWei)) +
      movedAt toAddr (amt * oneUseiInWei)) := by
  unfold sendUsei at ran
  split at ran
  · next positive =>
    have sets := ran.next runs_newCoin
    have sent := sets.next runs_newCoins
    have total : Coins.total ([⟨baseDenom, amt⟩].filter fun coin : Coin => coin.amount ≠ 0)
        baseDenom = amt := by
      simp [Coins.total, positive.ne']
    obtain ⟨⟨⟩, _, subRan, addRan⟩ := sent.parts
    have both := (effect_of_subUnlockedCoins subRan).trans (effect_of_addCoins addRan).1
    rwa [total] at both
  · next notPositive =>
    obtain ⟨-, rfl⟩ := (runs_pure _ _).mp ran
    have zero : amt = 0 := le_antisymm (not_lt.mp notPositive) notNegative
    have both := (Effect.nothing_at after fromAddr).trans (Effect.nothing_at after toAddr)
    simpa [zero] using both

theorem effect_of_sendCoinsAndWei {fromAddr toAddr : AccAddress} {wei : Int}
    (amtNotNegative : 0 ≤ amt) (weiNotNegative : 0 ≤ wei)
    (ran : Runs (keeper.sendCoinsAndWei fromAddr toAddr amt wei) before () after) :
    Effect before after (movedAt fromAddr (-(amt * oneUseiInWei + wei)) +
      movedAt toAddr (amt * oneUseiInWei + wei)) := by
  obtain ⟨⟨⟩, _, subRan, credited⟩ := ran.parts
  obtain ⟨⟨⟩, _, addRan, sendRan⟩ := credited.parts
  have all := ((effect_of_subWei weiNotNegative subRan).trans
    (effect_of_addWei weiNotNegative addRan)).trans (effect_of_sendUsei amtNotNegative sendRan)
  convert all using 1
  funext other
  simp only [movedAt, Pi.add_apply]
  split <;> split <;> ring

end BaseSendKeeper

end SeiChain.Bank
