/-
This file models what the EVM keeper keeps in its store: contract code with its
size and hash, nonces, contract storage, and the association of EVM addresses
with Sei addresses. Each keeper function is a program over the store. The state
database remembers code it has read, so the last part says which programs leave
the code of an address alone.
-/

import SeiChain.Bank.Send

namespace SeiChain.Evm

open Library StoreProgram Bank Function

abbrev Address := BitVec 160
abbrev Hash := BitVec 256

def Address.bytes (addr : Address) : Bytes := bigEndian 20 addr.toNat

def Hash.bytes (hash : Hash) : Bytes := bigEndian 32 hash.toNat

variable (bytes : Bytes) (keccak : Bytes → Hash) (addr evmAddress : Address)

/-- Longer inputs are cut on the left, shorter ones are padded there. -/
def bytesToAddress : Address := BitVec.ofNat 160 (ofBigEndian bytes)

def bytesToHash : Hash := BitVec.ofNat 256 (ofBigEndian bytes)

inductive Panic where
  | indexOutOfRange
  | bank (error : BankError)
  | balanceOverflow
  | refundBelowZero (gas refund : UInt64)
  | invalidRevision
  deriving DecidableEq, Repr

abbrev EvmStore := Bytes → Option Bytes
abbrev EvmProgram := StoreProgram Bytes Bytes Panic

/-! ### Keys -/

def evmAddressToSeiAddressKey : Bytes := 0x01 :: evmAddress.bytes

def seiAddressToEvmAddressKey (seiAddress : AccAddress) : Bytes := 0x02 :: seiAddress

def stateKey : Bytes := 0x03 :: evmAddress.bytes

def codeKey : Bytes := 0x07 :: addr.bytes

def codeHashKey : Bytes := 0x08 :: addr.bytes

def codeSizeKey : Bytes := 0x09 :: addr.bytes

def nonceKey : Bytes := 0x0a :: addr.bytes

/-! ### Associated addresses -/

def getSeiAddress : EvmProgram (Option AccAddress) := read (evmAddressToSeiAddressKey evmAddress)

def getSeiAddressOrDefault : EvmProgram AccAddress := do
  match ← getSeiAddress evmAddress with
  | some addr => pure addr
  | none => pure evmAddress.bytes

def setAddressMapping (seiAddress : AccAddress) (evmAddress : Address) : EvmProgram Unit := do
  write (evmAddressToSeiAddressKey evmAddress) seiAddress
  write (seiAddressToEvmAddressKey seiAddress) evmAddress.bytes

def deleteAddressMapping (seiAddress : AccAddress) (evmAddress : Address) : EvmProgram Unit := do
  erase (evmAddressToSeiAddressKey evmAddress)
  erase (seiAddressToEvmAddressKey seiAddress)

/-- The check the keeper registers with the bank: an address that is the direct cast of an EVM
address does not receive funds if that EVM address is associated with another one. -/
def canAddressReceive (addr : AccAddress) : EvmProgram Bool := do
  match ← getSeiAddress (bytesToAddress addr) with
  | some associatedAddr => pure (associatedAddr = addr)
  | none => pure true

/-! ### Code, nonces and storage -/

/-- No code and empty code are the same. -/
def getCode : EvmProgram Bytes := do
  match ← read (codeKey addr) with
  | some code => pure code
  | none => pure []

/-- The number in the first 8 bytes; fewer bytes are an index error. -/
def uint64 : EvmProgram UInt64 :=
  if bytes.length < 8 then fail .indexOutOfRange
  else pure (UInt64.ofNat (ofBigEndian (bytes.take 8)))

def getCodeSize : EvmProgram UInt64 := do
  match ← read (codeSizeKey addr) with
  | some bytes => uint64 bytes
  | none => pure 0

def associateIfMissing : EvmProgram Unit := do
  match ← getSeiAddress addr with
  | some _ => pure ()
  | none => do
    let seiAddress ← getSeiAddressOrDefault addr
    setAddressMapping seiAddress addr

def setCode (code : Bytes) : EvmProgram Unit := do
  write (codeKey addr) code
  write (codeSizeKey addr) (bigEndian 8 code.length)
  write (codeHashKey addr) (keccak code).bytes
  associateIfMissing addr

def getNonce : EvmProgram UInt64 := do
  match ← read (nonceKey addr) with
  | some bytes => uint64 bytes
  | none => pure 0

def setNonce (nonce : UInt64) : EvmProgram Unit := write (nonceKey addr) (bigEndian 8 nonce.toNat)

def getState (hash : Hash) : EvmProgram Hash := do
  match ← read (stateKey addr ++ hash.bytes) with
  | some val => pure (bytesToHash val)
  | none => pure 0

/-- A slot that is set to zero is removed. -/
def setState (key val : Hash) : EvmProgram Unit :=
  if val = 0 then erase (stateKey addr ++ key.bytes)
  else write (stateKey addr ++ key.bytes) val.bytes

def deleteIfExists (key : Bytes) : EvmProgram Bool := do
  match ← read key with
  | some _ => do
    erase key
    pure true
  | none => pure false

def purgePrefix (start : Bytes) : EvmProgram Unit := eraseAll fun key => start.isPrefixOf key

/-- The part of `clearAccountCodeAndNonce` that works on the store. -/
def deleteCodeAndNonce (acc : Address) : EvmProgram Unit := do
  let _ ← deleteIfExists (codeKey acc)
  let _ ← deleteIfExists (codeSizeKey acc)
  let _ ← deleteIfExists (nonceKey acc)
  pure ()

/-! ### The balance that the EVM sees -/

/-- `Keeper.GetBalance`: what the account holds without its locked usei, in wei. -/
def getSpendableBalance (lockedCoins : AccAddress → Coins) (addr : AccAddress) :
    BankProgram Int := do
  let allUsei ← getBalance addr baseDenom
  let usei ← SdkInt.sub allUsei.amount ((lockedCoins addr).amountOf baseDenom)
  let wei ← getWeiBalance addr
  let useiInWei ← SdkInt.mul usei oneUseiInWei
  SdkInt.add useiInWei wei

/-! ### Which programs change code -/

/-- The code of an address in a store. -/
def codeOf (store : EvmStore) (addr : Address) : Bytes := (store (codeKey addr)).getD []

variable {addr other : Address}

theorem Address.bytes_injective (same : addr.bytes = other.bytes) : addr = other := by
  have number := congrArg ofBigEndian same
  unfold Address.bytes at number
  rw [ofBigEndian_bigEndian 20 _ addr.isLt, ofBigEndian_bigEndian 20 _ other.isLt] at number
  exact BitVec.eq_of_toNat_eq number

theorem codeKey_injective (same : codeKey addr = codeKey other) : addr = other :=
  Address.bytes_injective (List.cons.inj same).2

theorem codeKey_ne_of_ne (different : ¬other = addr) : codeKey addr ≠ codeKey other :=
  fun same => different (codeKey_injective same).symm

/-- The program changes the code of no address but those that are `exempt`. -/
def KeepsCode {A : Type} (exempt : Address → Prop) (program : EvmProgram A) : Prop :=
  ∀ store addr, ¬exempt addr →
    codeOf ((mapStore Bytes Bytes).run program store).2 addr = codeOf store addr

namespace KeepsCode

variable {A B : Type} {exempt : Address → Prop} {program : EvmProgram A}

theorem pure (result : A) : KeepsCode exempt (Pure.pure result : EvmProgram A) := fun _ _ _ => rfl

theorem read (key : Bytes) : KeepsCode exempt (StoreProgram.read key : EvmProgram _) :=
  fun _ _ _ => rfl

theorem bind {next : A → EvmProgram B} (first : KeepsCode exempt program)
    (second : ∀ result, KeepsCode exempt (next result)) : KeepsCode exempt (program >>= next) := by
  intro store addr kept
  rw [KVStore.run_bind]
  have start := first store addr kept
  generalize (mapStore Bytes Bytes).run program store = ran at start
  rcases ran with ⟨cause | result, after⟩
  · exact start
  · exact (second result after addr kept).trans start

variable {key : Bytes}

/-- A program that goes on with what it has found at a key. -/
theorem lookup {next : Option Bytes → EvmProgram A}
    (found : ∀ bytes, KeepsCode exempt (next (some bytes)))
    (absent : KeepsCode exempt (next none)) : KeepsCode exempt (StoreProgram.read key >>= next) :=
  bind (read key) fun
    | some bytes => found bytes
    | none => absent

theorem write {value : Bytes} (other : ∀ addr, ¬exempt addr → key ≠ codeKey addr) :
    KeepsCode exempt (StoreProgram.write key value : EvmProgram _) := by
  intro store addr kept
  change (update store key (some value) (codeKey addr)).getD [] = codeOf store addr
  rw [update_of_ne (other addr kept).symm]
  rfl

theorem erase (other : ∀ addr, ¬exempt addr → key ≠ codeKey addr) :
    KeepsCode exempt (StoreProgram.erase key : EvmProgram _) := by
  intro store addr kept
  change (update store key none (codeKey addr)).getD [] = codeOf store addr
  rw [update_of_ne (other addr kept).symm]
  rfl

theorem eraseAll {range : Bytes → Bool} (other : ∀ addr, range (codeKey addr) = false) :
    KeepsCode exempt (StoreProgram.eraseAll range : EvmProgram _) := by
  intro store addr _
  change (if range (codeKey addr) then none else store (codeKey addr)).getD [] = codeOf store addr
  rw [other addr]
  rfl

theorem deleteIfExists (other : ∀ addr, ¬exempt addr → key ≠ codeKey addr) :
    KeepsCode exempt (Evm.deleteIfExists key) :=
  lookup (fun _ => bind (erase other) fun _ => pure true) (pure false)

end KeepsCode

variable {exempt : Address → Prop}

/-- A key of another kind is the code key of no address. -/
theorem otherKey {head : UInt8} {rest : Bytes} (different : head ≠ 0x07) (addr : Address)
    (_ : ¬exempt addr) : head :: rest ≠ codeKey addr :=
  fun same => different (List.cons.inj same).1

variable (addr)

theorem keepsCode_getSeiAddressOrDefault : KeepsCode exempt (getSeiAddressOrDefault addr) :=
  .lookup (fun _ => .pure _) (.pure _)

theorem keepsCode_setAddressMapping (seiAddress : AccAddress) (addr : Address) :
    KeepsCode exempt (setAddressMapping seiAddress addr) :=
  .bind (.write (otherKey (by decide))) fun _ =>
    .write (otherKey (by decide))

theorem keepsCode_deleteAddressMapping (seiAddress : AccAddress) (addr : Address) :
    KeepsCode exempt (deleteAddressMapping seiAddress addr) :=
  .bind (.erase (otherKey (by decide))) fun _ =>
    .erase (otherKey (by decide))

theorem keepsCode_canAddressReceive (addr : AccAddress) :
    KeepsCode exempt (canAddressReceive addr) :=
  .lookup (fun _ => .pure _) (.pure _)

theorem keepsCode_getCode : KeepsCode exempt (getCode addr) := .lookup (fun _ => .pure _) (.pure _)

theorem keepsCode_uint64 : KeepsCode exempt (uint64 bytes) := by
  unfold uint64
  split
  · exact fun _ _ _ => rfl
  · exact .pure _

theorem keepsCode_getCodeSize : KeepsCode exempt (getCodeSize addr) :=
  .lookup (fun bytes => keepsCode_uint64 bytes) (.pure _)

theorem keepsCode_getNonce : KeepsCode exempt (getNonce addr) :=
  .lookup (fun bytes => keepsCode_uint64 bytes) (.pure _)

theorem keepsCode_getState (hash : Hash) : KeepsCode exempt (getState addr hash) :=
  .lookup (fun _ => .pure _) (.pure _)

theorem keepsCode_setState (key val : Hash) : KeepsCode exempt (setState addr key val) := by
  unfold setState
  split
  · exact .erase (otherKey (by decide))
  · exact .write (otherKey (by decide))

theorem keepsCode_setNonce (nonce : UInt64) : KeepsCode exempt (setNonce addr nonce) :=
  .write (otherKey (by decide))

theorem keepsCode_purgeState : KeepsCode exempt (purgePrefix (stateKey addr)) :=
  .eraseAll fun _ => rfl

theorem keepsCode_deleteCodeHash : KeepsCode exempt (deleteIfExists (codeHashKey addr)) :=
  .deleteIfExists (otherKey (by decide))

theorem keepsCode_associateIfMissing : KeepsCode exempt (associateIfMissing addr) :=
  .lookup (fun _ => .pure _) (.bind (keepsCode_getSeiAddressOrDefault addr) fun seiAddress =>
    keepsCode_setAddressMapping seiAddress addr)

/-- Setting code changes the code of that address only. -/
theorem keepsCode_setCode (code : Bytes) : KeepsCode (· = addr) (setCode keccak addr code) :=
  .bind (.write fun _ => codeKey_ne_of_ne) fun _ =>
    .bind (.write (otherKey (by decide))) fun _ =>
      .bind (.write (otherKey (by decide))) fun _ =>
        keepsCode_associateIfMissing addr

theorem keepsCode_deleteCodeAndNonce (acc : Address) :
    KeepsCode (· = acc) (deleteCodeAndNonce acc) :=
  .bind (.deleteIfExists fun _ => codeKey_ne_of_ne) fun _ =>
    .bind (.deleteIfExists (otherKey (by decide))) fun _ =>
      .bind (.deleteIfExists (otherKey (by decide))) fun _ => .pure ()

theorem run_getCode (store : EvmStore) :
    (mapStore Bytes Bytes).run (getCode addr) store = (.ok (codeOf store addr), store) := by
  unfold getCode codeOf
  change (mapStore Bytes Bytes).run (match store (codeKey addr) with
    | some code => pure code
    | none => pure []) store = _
  cases store (codeKey addr) <;> rfl

/-- After setting code the store has it. -/
theorem codeOf_setCode (code : Bytes) (store : EvmStore) :
    codeOf ((mapStore Bytes Bytes).run (setCode keccak addr code) store).2 addr = code := by
  have rest : KeepsCode (fun _ => False) (do
      write (codeSizeKey addr) (bigEndian 8 code.length)
      write (codeHashKey addr) (keccak code).bytes
      associateIfMissing addr) :=
    .bind (.write (otherKey (by decide))) fun _ =>
      .bind (.write (otherKey (by decide))) fun _ =>
        keepsCode_associateIfMissing addr
  refine (rest (update store (codeKey addr) (some code)) addr not_false).trans ?_
  rw [codeOf, update_self]
  rfl

end SeiChain.Evm
