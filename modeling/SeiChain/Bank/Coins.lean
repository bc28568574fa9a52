/-
This file models the coins of the bank module: the bounded integers `sdk.Int`,
coins and coin sets, and the keys under which the bank keeps balances. An
operation of the bank is a program over the bank's store. It ends with an error
that the caller sees, or with a panic that unwinds the transaction.
-/

import Mathlib.Data.Int.Lemmas
import SeiChain.Library.Codes
import SeiChain.Library.StoreProgram

namespace SeiChain.Bank

open Library StoreProgram

abbrev AccAddress := Bytes
abbrev Denom := Bytes

structure Coin where
  denom : Denom
  amount : Int
  deriving DecidableEq, Repr

/-- A set of coins, one per denomination. -/
abbrev Coins := List Coin

inductive Panic where
  | intOverflow
  | negativeCoinAmount
  | invalidCoin (coin : Coin)
  | invalidCoinSet (coins : Coins)
  | invalidCoinDenominations (left right : Denom)
  deriving DecidableEq, Repr

inductive BankError where
  | panic (cause : Panic)
  | invalidCoins (coins : Coins)
  | insufficientFunds (spendable coin : Coin)
  | insufficientWei (aggregated amount : Int)
  | invalidRecipient
  deriving DecidableEq, Repr

/-- The keys of the bank's store: the balances of an account by denomination, and its wei. -/
inductive BankKey where
  | balance (addr : AccAddress) (denom : Denom)
  | wei (addr : AccAddress)
  deriving DecidableEq, Repr

namespace BankKey

/-- The parts of the key in the store: balances and wei amounts have their own prefixes. -/
def path : BankKey → List Bytes
  | balance addr denom => [[2], addr, denom]
  | wei addr => [[4], addr]

instance : Ord BankKey := ⟨compareOn path⟩

instance : Std.TransOrd BankKey := inferInstanceAs (Std.TransCmp (compareOn path))

theorem path_injective {key other : BankKey} (same : key.path = other.path) : key = other := by
  cases key <;> cases other <;> simp_all [path]

instance : Std.LawfulEqOrd BankKey where
  eq_of_compare equal := path_injective (Std.LawfulEqOrd.eq_of_compare equal)

end BankKey

abbrev BankStore := BankKey → Option Int
abbrev BankProgram := StoreProgram BankKey Int BankError

/-! ### Bounded integers -/

namespace SdkInt

def maxBitLen : Nat := 256

/-- The length of the absolute value in bits, as `big.Int.BitLen` gives it. -/
def bitLen (i : Int) : Nat := if i = 0 then 0 else i.natAbs.log2 + 1

def overflow {A : Type} : BankProgram A := fail (.panic .intOverflow)

def bounded (i : Int) : BankProgram Int := if bitLen i > maxBitLen then overflow else pure i

def add (i i2 : Int) : BankProgram Int := bounded (i + i2)

def sub (i i2 : Int) : BankProgram Int := bounded (i - i2)

def mul (i i2 : Int) : BankProgram Int :=
  if (bitLen i : Int) + bitLen i2 - 1 > maxBitLen then overflow else bounded (i * i2)

/-- Division rounds towards zero. -/
def quo (i i2 : Int) : Int := i.tdiv i2

/-- The remainder is never negative. -/
def mod (i i2 : Int) : Int := i.emod i2

variable {i i2 result : Int} {before after : BankStore}

theorem runs_bounded (ran : Runs (bounded i) before result after) :
    result = i ∧ after = before := by
  unfold bounded overflow at ran
  split at ran
  · simp at ran
  · simpa using ran

theorem runs_mul (ran : Runs (mul i i2) before result after) :
    result = i * i2 ∧ after = before := by
  unfold mul overflow at ran
  split at ran
  · simp at ran
  · exact runs_bounded ran

end SdkInt

/-! ### Coins -/

/-- A denomination is a letter and then 2 to 127 letters, digits, slashes or hyphens. -/
def validateDenom : Denom → Bool
  | [] => false
  | first :: rest =>
    isLetter first && 2 ≤ rest.length && rest.length ≤ 127 &&
      rest.all fun byte => isLetter byte || isDigit byte || byte = 47 || byte = 45
where
  isLetter (byte : UInt8) : Bool := (65 ≤ byte && byte ≤ 90) || (97 ≤ byte && byte ≤ 122)
  isDigit (byte : UInt8) : Bool := 48 ≤ byte && byte ≤ 57

namespace Coin

def isValid (coin : Coin) : Bool := validateDenom coin.denom && 0 ≤ coin.amount

def sameDenom {A : Type} (coin coinB : Coin) (program : BankProgram A) : BankProgram A :=
  if coin.denom = coinB.denom then program
  else fail (.panic (.invalidCoinDenominations coin.denom coinB.denom))

def add (coin coinB : Coin) : BankProgram Coin :=
  coin.sameDenom coinB do
    let amount ← SdkInt.add coin.amount coinB.amount
    pure ⟨coin.denom, amount⟩

def subUnsafe (coin coinB : Coin) : BankProgram Coin :=
  coin.sameDenom coinB do
    let amount ← SdkInt.sub coin.amount coinB.amount
    pure ⟨coin.denom, amount⟩

def nonNegative (coin : Coin) : BankProgram Coin :=
  if coin.amount < 0 then fail (.panic .negativeCoinAmount) else pure coin

def sub (coin coinB : Coin) : BankProgram Coin := do
  let res ← coin.subUnsafe coinB
  res.nonNegative

end Coin

def newCoin (denom : Denom) (amount : Int) : BankProgram Coin :=
  if Coin.isValid ⟨denom, amount⟩ then pure ⟨denom, amount⟩
  else fail (.panic (.invalidCoin ⟨denom, amount⟩))

namespace Coins

/-- The coins after the first one: sorted above `lowDenom`, without repetition, and positive. A
denomination that was seen before is not above the last one, so it needs no check of its own. -/
def validAbove (lowDenom : Denom) : Coins → Bool
  | [] => true
  | coin :: rest =>
    validateDenom coin.denom && lowDenom < coin.denom && 0 < coin.amount &&
      validAbove coin.denom rest

def isValid : Coins → Bool
  | [] => true
  | coin :: rest => validateDenom coin.denom && 0 < coin.amount && validAbove coin.denom rest

def amountOf (coins : Coins) (denom : Denom) : Int :=
  match coins.find? fun coin => coin.denom = denom with
  | some coin => coin.amount
  | none => 0

/-- What the set holds of one denomination, counted over all its coins. -/
def total (coins : Coins) (denom : Denom) : Int :=
  (coins.map fun coin => if coin.denom = denom then coin.amount else 0).sum

theorem isValid_positive {coins : Coins} (valid : Coins.isValid coins = true) :
    ∀ coin ∈ coins, 0 < coin.amount := by
  have above : ∀ (lowDenom : Denom) (rest : Coins), validAbove lowDenom rest = true →
      ∀ coin ∈ rest, 0 < coin.amount := by
    intro lowDenom rest
    induction rest generalizing lowDenom with
    | nil => simp
    | cons head tail ih =>
      intro validTail coin member
      simp only [validAbove, Bool.and_eq_true, decide_eq_true_eq] at validTail
      rcases List.mem_cons.mp member with rfl | later
      · exact validTail.1.2
      · exact ih _ validTail.2 coin later
  cases coins with
  | nil => simp
  | cons head tail =>
    intro coin member
    simp only [Coins.isValid, Bool.and_eq_true, decide_eq_true_eq] at valid
    rcases List.mem_cons.mp member with rfl | later
    · exact valid.1.2
    · exact above _ _ valid.2 coin later

end Coins

/-- The set of one coin, empty if the coin is zero. -/
def newCoins (coin : Coin) : BankProgram Coins :=
  let coins := [coin].filter fun coin => coin.amount ≠ 0
  if Coins.isValid coins then pure coins else fail (.panic (.invalidCoinSet coins))

variable {before after : BankStore} {coin coinB : Coin} {denom : Denom} {amount : Int}
  {result : Coin}

theorem runs_coin_add (ran : Runs (coin.add coinB) before result after) :
    result = ⟨coin.denom, coin.amount + coinB.amount⟩ ∧ after = before := by
  unfold Coin.add Coin.sameDenom at ran
  split at ran
  · have ended := ran.next SdkInt.runs_bounded
    simpa using ended
  · simp at ran

theorem runs_coin_subUnsafe (ran : Runs (coin.subUnsafe coinB) before result after) :
    result = ⟨coin.denom, coin.amount - coinB.amount⟩ ∧ after = before := by
  unfold Coin.subUnsafe Coin.sameDenom at ran
  split at ran
  · have ended := ran.next SdkInt.runs_bounded
    simpa using ended
  · simp at ran

theorem runs_coin_sub (ran : Runs (coin.sub coinB) before result after) :
    result = ⟨coin.denom, coin.amount - coinB.amount⟩ ∧ after = before := by
  unfold Coin.sub Coin.nonNegative at ran
  have ended := ran.next runs_coin_subUnsafe
  split at ended
  · simp at ended
  · exact (runs_pure _ _).mp ended

theorem runs_newCoin (ran : Runs (newCoin denom amount) before result after) :
    result = ⟨denom, amount⟩ ∧ after = before := by
  unfold newCoin at ran
  split at ran
  · exact (runs_pure _ _).mp ran
  · simp at ran

theorem runs_newCoins {result : Coins} (ran : Runs (newCoins coin) before result after) :
    result = [coin].filter (fun coin => coin.amount ≠ 0) ∧ after = before := by
  unfold newCoins at ran
  dsimp only at ran
  split at ran
  · exact (runs_pure _ _).mp ran
  · simp at ran

end SeiChain.Bank
