/-
This file counts what all accounts hold together. The bank operations move known
amounts at one or two accounts, so the total changes by what they move. The last
part says how the operations end when they do not succeed: a credit that is
refused has written nothing, and once its usei part is accepted the wei part is
not refused any more.
-/

import Mathlib.Algebra.BigOperators.Finprod
import Std.Data.ExtTreeMap.Lemmas
import SeiChain.Bank.Send

namespace SeiChain.Bank

open Std Library StoreProgram

/-! ### The total -/

/-- What all accounts hold together, in wei. -/
noncomputable def totalSupply (store : BankStore) : Int := ∑ᶠ addr, aggregate store addr

/-- The accounts hold the total together, and the wei parts are in range. -/
structure Holds (store : BankStore) (total : Int) : Prop where
  finite : (aggregate store).HasFiniteSupport
  total : totalSupply store = total
  inRange : WeiInRange store

variable {before after : BankStore} {total amount : Int} {addr : AccAddress}

theorem hasFiniteSupport_movedAt (addr : AccAddress) (amount : Int) :
    (movedAt addr amount).HasFiniteSupport := by
  refine (Set.finite_singleton addr).subset fun other moved => ?_
  by_contra elsewhere
  exact moved (if_neg elsewhere)

theorem finsum_movedAt (addr : AccAddress) (amount : Int) :
    ∑ᶠ other, movedAt addr amount other = amount := by
  rw [finsum_eq_single (movedAt addr amount) addr fun other elsewhere => if_neg elsewhere]
  exact if_pos rfl

theorem Holds.effect {delta : AccAddress → Int} (holds : Holds before total)
    (effect : Effect before after delta) (finite : delta.HasFiniteSupport) :
    Holds after (total + ∑ᶠ addr, delta addr) where
  finite := by
    rw [show aggregate after = aggregate before + delta from funext effect.aggregates]
    exact holds.finite.add finite
  total := by
    rw [← holds.total, totalSupply, totalSupply, ← finsum_add_distrib holds.finite finite]
    exact finsum_congr effect.aggregates
  inRange := effect.inRange holds.inRange

theorem Holds.moved (holds : Holds before total)
    (effect : Effect before after (movedAt addr amount)) : Holds after (total + amount) := by
  have moved := holds.effect effect (hasFiniteSupport_movedAt addr amount)
  rwa [finsum_movedAt] at moved

theorem Holds.sent {toAddr : AccAddress} (holds : Holds before total)
    (effect : Effect before after (movedAt addr (-amount) + movedAt toAddr amount)) :
    Holds after total := by
  have moved := holds.effect effect
    ((hasFiniteSupport_movedAt addr (-amount)).add (hasFiniteSupport_movedAt toAddr amount))
  have sum : ∑ᶠ other, (movedAt addr (-amount) + movedAt toAddr amount) other = 0 := by
    change ∑ᶠ other, (movedAt addr (-amount) other + movedAt toAddr amount other) = 0
    rw [finsum_add_distrib (hasFiniteSupport_movedAt addr (-amount))
      (hasFiniteSupport_movedAt toAddr amount), finsum_movedAt, finsum_movedAt]
    exact neg_add_cancel amount
  rwa [sum, add_zero] at moved

def BankKey.owner : BankKey → AccAddress
  | balance addr _ | wei addr => addr

/-- A store that lists its entries has a total. -/
theorem holds_of_map (bank : ExtTreeMap BankKey Int) (inRange : WeiInRange fun key => bank[key]?) :
    Holds (fun key => bank[key]?) (totalSupply fun key => bank[key]?) := by
  refine ⟨?_, rfl, inRange⟩
  refine ((bank.keys.map BankKey.owner).finite_toSet).subset fun addr holding => ?_
  by_contra absent
  have missing (key : BankKey) (owned : key.owner = addr) : bank[key]? = none := by
    refine ExtTreeMap.getElem?_eq_none fun listed => absent ?_
    exact List.mem_map.mpr ⟨key, ExtTreeMap.mem_keys.mpr listed, owned⟩
  apply holding
  unfold aggregate useiOf weiOf
  dsimp only
  rw [missing (.balance addr baseDenom) rfl, missing (.wei addr) rfl]
  rfl

/-! ### Operations that fail -/

theorem readOnly_bounded (i : Int) : ReadOnly (SdkInt.bounded i) := by
  intro before
  unfold SdkInt.bounded
  split <;> rfl

theorem readOnly_mul (i i2 : Int) : ReadOnly (SdkInt.mul i i2) := by
  intro before
  unfold SdkInt.mul
  split
  · rfl
  · exact readOnly_bounded (i * i2) before

theorem readOnly_newCoin (denom : Denom) (amount : Int) : ReadOnly (newCoin denom amount) := by
  intro before
  unfold newCoin
  split <;> rfl

theorem readOnly_newCoins (coin : Coin) : ReadOnly (newCoins coin) := by
  intro before
  unfold newCoins
  dsimp only
  split <;> rfl

theorem readOnly_getBalance (addr : AccAddress) (denom : Denom) :
    ReadOnly (getBalance addr denom) := by
  refine .bind (fun _ => rfl) fun stored => ?_
  cases stored with
  | none => exact readOnly_newCoin denom 0
  | some => exact fun _ => rfl

theorem readOnly_getWeiBalance (addr : AccAddress) : ReadOnly (getWeiBalance addr) := by
  refine .bind (fun _ => rfl) fun stored => ?_
  cases stored <;> exact fun _ => rfl

namespace Coin

theorem readOnly_sameDenom {A : Type} (coin coinB : Coin) {program : BankProgram A}
    (readOnly : ReadOnly program) : ReadOnly (coin.sameDenom coinB program) := by
  unfold sameDenom
  split
  · exact readOnly
  · exact fun _ => rfl

theorem readOnly_add (coin coinB : Coin) : ReadOnly (coin.add coinB) :=
  coin.readOnly_sameDenom coinB (.bind (readOnly_bounded _) fun _ _ => rfl)

theorem readOnly_subUnsafe (coin coinB : Coin) : ReadOnly (coin.subUnsafe coinB) :=
  coin.readOnly_sameDenom coinB (.bind (readOnly_bounded _) fun _ _ => rfl)

theorem readOnly_sub (coin coinB : Coin) : ReadOnly (coin.sub coinB) := by
  refine .bind (coin.readOnly_subUnsafe coinB) fun res _ => ?_
  unfold nonNegative
  split <;> rfl

end Coin

/-- From this store, the program is not refused: it succeeds or panics. -/
def NotRefused {A : Type} (before : BankStore) (program : BankProgram A) : Prop :=
  ∀ error after, (mapStore BankKey Int).run program before = (.error error, after) →
    ∃ cause, error = .panic cause

/-- From this store, the program has written nothing if it is refused. -/
def RefusedClean {A : Type} (before : BankStore) (program : BankProgram A) : Prop :=
  ∀ error after, (mapStore BankKey Int).run program before = (.error error, after) →
    (∀ cause, error ≠ .panic cause) → after = before

namespace NotRefused

variable {A B : Type} {program : BankProgram A} {next : A → BankProgram B}

theorem bind (first : NotRefused before program)
    (second : ∀ result after, Runs program before result after → NotRefused after (next result)) :
    NotRefused before (program >>= next) := by
  intro error after failed
  rw [KVStore.run_bind] at failed
  rcases ran : (mapStore BankKey Int).run program before with ⟨cause | result, middle⟩
  · rw [ran] at failed
    cases failed
    exact first error after ran
  · rw [ran] at failed
    exact second result middle ran error after failed

theorem bounded (i : Int) : NotRefused before (SdkInt.bounded i) := by
  intro error after failed
  unfold SdkInt.bounded at failed
  split at failed
  · cases failed
    exact ⟨_, rfl⟩
  · cases failed

theorem newCoin (denom : Denom) (amount : Int) : NotRefused before (newCoin denom amount) := by
  intro error after failed
  unfold Bank.newCoin at failed
  split at failed <;> cases failed
  exact ⟨_, rfl⟩

theorem getBalance (addr : AccAddress) (denom : Denom) :
    NotRefused before (getBalance addr denom) := by
  refine .bind (fun _ _ failed => by cases failed) fun stored _ _ => ?_
  cases stored with
  | none => exact .newCoin denom 0
  | some => exact fun _ _ failed => by cases failed

theorem getWeiBalance (addr : AccAddress) : NotRefused before (getWeiBalance addr) := by
  refine .bind (fun _ _ failed => by cases failed) fun stored _ _ => ?_
  cases stored <;> exact fun _ _ failed => by cases failed

theorem setWeiBalance (addr : AccAddress) (amt : Int) :
    NotRefused before (setWeiBalance addr amt) := by
  intro error after failed
  unfold Bank.setWeiBalance at failed
  split at failed <;> cases failed

theorem setBalance {balance : Coin} (valid : balance.isValid = true) (checkNeg : Bool) :
    NotRefused before (setBalance addr balance checkNeg) := by
  intro error after failed
  unfold Bank.setBalance at failed
  rw [valid, Bool.not_true, Bool.and_false, if_neg Bool.false_ne_true] at failed
  split at failed <;> cases failed

end NotRefused

namespace RefusedClean

variable {A B : Type} {program : BankProgram A} {next : A → BankProgram B}

theorem fail (error : BankError) : RefusedClean before
    (StoreProgram.fail error : BankProgram A) := by
  rintro _ _ ⟨⟩ _
  rfl

theorem of_notRefused (notRefused : NotRefused before program) : RefusedClean before program := by
  intro error after failed refused
  obtain ⟨cause, isPanic⟩ := notRefused error after failed
  exact absurd isPanic (refused cause)

theorem bind (first : ReadOnly program)
    (second : ∀ result after, Runs program before result after → RefusedClean after (next result)) :
    RefusedClean before (program >>= next) := by
  intro error after failed refused
  have start := first before
  rw [KVStore.run_bind] at failed
  rcases ran : (mapStore BankKey Int).run program before with ⟨cause | result, middle⟩
  · rw [ran] at start failed
    cases failed
    exact start
  · rw [ran] at start failed
    exact (second result middle ran error after failed refused).trans start

theorem setBalance (addr : AccAddress) (balance : Coin) (checkNeg : Bool) :
    RefusedClean before (setBalance addr balance checkNeg) := by
  unfold Bank.setBalance
  split
  · exact .fail _
  · exact .of_notRefused fun error after failed => by split at failed <;> cases failed

/-- A set of at most one coin leaves nothing half done. -/
theorem forM {round : Coin → BankProgram Unit} (each : ∀ coin, RefusedClean before (round coin))
    {coins : Coins} (single : coins.length ≤ 1) : RefusedClean before (coins.forM round) := by
  match coins, single with
  | [], _ => exact .of_notRefused fun error after failed => by cases failed
  | [coin], _ =>
    intro error after failed refused
    change (mapStore BankKey Int).run (round coin >>= fun _ => pure ()) before = _ at failed
    rw [KVStore.run_bind] at failed
    rcases ran : (mapStore BankKey Int).run (round coin) before with ⟨cause | value, middle⟩
    · rw [ran] at failed
      cases failed
      exact each coin error after ran refused
    · rw [ran] at failed
      cases failed

end RefusedClean

theorem isValid_of_newCoin {denom : Denom} {amount : Int} {coin : Coin}
    (ran : Runs (newCoin denom amount) before coin after) : coin.isValid = true := by
  unfold newCoin at ran
  split at ran
  · next valid =>
    obtain ⟨rfl, -⟩ := (runs_pure _ _).mp ran
    exact valid
  · simp at ran

namespace BaseSendKeeper

variable {keeper : BaseSendKeeper}

theorem readOnly_checkSpendable (keeper : BaseSendKeeper) (addr : AccAddress) (checkNeg : Bool)
    (balance coin : Coin) : ReadOnly (keeper.checkSpendable addr checkNeg balance coin) := by
  unfold checkSpendable
  split
  · refine .bind (readOnly_newCoin _ _) fun locked => .bind (balance.readOnly_sub locked)
      fun spendable => .bind (spendable.readOnly_add _) fun difference _ => ?_
    split <;> rfl
  · exact fun _ => rfl

theorem subUnlockedCoins_refusedClean {coins : Coins} (single : coins.length ≤ 1)
    (checkNeg : Bool) :
    RefusedClean before (keeper.subUnlockedCoins addr coins checkNeg) := by
  unfold subUnlockedCoins
  split
  · refine .forM (fun coin => ?_) single
    refine .bind (readOnly_getBalance addr coin.denom) fun balance _ _ =>
      .bind (keeper.readOnly_checkSpendable addr checkNeg balance coin) fun _ _ _ =>
        .bind ?_ fun newBalance _ _ => .setBalance addr newBalance checkNeg
    split
    · exact balance.readOnly_sub coin
    · exact balance.readOnly_subUnsafe coin
  · exact .fail _

theorem addCoins_refusedClean {coins : Coins} (single : coins.length ≤ 1) (checkNeg : Bool) :
    RefusedClean before (keeper.addCoins addr coins checkNeg) := by
  unfold addCoins
  split
  · exact .fail _
  · split
    · refine .forM (fun coin => ?_) single
      exact .bind (readOnly_getBalance addr coin.denom) fun balance _ _ =>
        .bind (balance.readOnly_add coin) fun newBalance _ _ =>
          .setBalance addr newBalance checkNeg
    · exact .fail _

theorem subWei_refusedClean (amt : Int) : RefusedClean before (subWei addr amt) := by
  unfold subWei
  split
  · exact .of_notRefused fun _ _ failed => by cases failed
  · refine .bind (readOnly_getWeiBalance addr) fun current _ _ => ?_
    split
    · exact .of_notRefused (.bind (.bounded _) fun rest _ _ => .setWeiBalance addr rest)
    · refine .bind (readOnly_getBalance addr baseDenom) fun usei _ _ =>
        .bind (readOnly_mul _ _) fun inWei _ _ => .bind (readOnly_bounded _) fun aggregated _ _ =>
          .bind (readOnly_bounded _) fun post _ _ => ?_
      split
      · exact .fail _
      · exact .of_notRefused (.bind (.newCoin _ _) fun useiBalance _ ran =>
          .bind (.setBalance (isValid_of_newCoin ran) true) fun _ _ _ => .setWeiBalance addr _)

/-- Taking away exactly the wei of an account is not refused. -/
theorem subWei_notRefused (before : BankStore) (addr : AccAddress) :
    NotRefused before (subWei addr (weiOf before addr)) := by
  unfold subWei
  split
  · exact fun _ _ failed => by cases failed
  · refine .bind (.getWeiBalance addr) fun current middle ran => ?_
    obtain ⟨rfl, rfl⟩ := runs_getWeiBalance ran
    rw [if_pos le_rfl]
    exact .bind (.bounded _) fun rest _ _ => .setWeiBalance addr rest

/-- A recipient that is accepted gets the wei. -/
theorem addWei_notRefused (accepted : keeper.canSendTo addr = true) (amt : Int) :
    NotRefused before (keeper.addWei addr amt) := by
  unfold addWei
  rw [accepted, Bool.not_true, if_neg Bool.false_ne_true]
  split
  · exact fun _ _ failed => by cases failed
  · refine .bind (.getWeiBalance addr) fun current _ _ => .bind (.bounded _) fun post _ _ => ?_
    split
    · exact .setWeiBalance addr post
    · refine .bind (.getBalance addr baseDenom) fun usei _ _ => .bind (.bounded _)
        fun credited _ _ => .bind (.newCoin baseDenom credited) fun useiBalance _ ran =>
          .bind (.setBalance (isValid_of_newCoin ran) true) fun _ _ _ => .setWeiBalance addr _

end BaseSendKeeper

end SeiChain.Bank
