/-
This file models the check of the supply on the change set of a block. It reads
the accounts off the changed keys and compares what they held before and after
the block with the change of the supply. Accounts that do not change add nothing
to the difference, so this is the total over all accounts, if the sums fit into
256 bits. The balance of an empty address is stored without a length, and the
check does not see it.
-/

import SeiChain.Bank.Supply
import SeiChain.Library.WriteLog

namespace SeiChain.Bank

open Function List SdkInt Library

abbrev Tree := Bytes → Option Bytes
abbrev KVPair := KeyWrite Bytes Bytes

/-- The committed store of the bank, and what a block sets or deletes. -/
structure CommitmentStore where
  tree : Tree
  changeSet : List KVPair

namespace CommitmentStore

variable (store : CommitmentStore)

def getChangedPairs (keyPrefix : Bytes) : List KVPair :=
  store.changeSet.filter fun pair => keyPrefix.isPrefixOf pair.key

/-- The tree after the block. -/
def committed : Tree := overlay store.tree store.changeSet

end CommitmentStore

/-- An empty address gets no length. -/
def mustLengthPrefix (addr : AccAddress) : Option Bytes :=
  if addr = [] then some addr
  else if addr.length > 255 then none
  else some (.ofNat addr.length :: addr)

def balanceKey (addr : AccAddress) (denom : Denom) : Option Bytes :=
  (mustLengthPrefix addr).map fun bz => 2 :: bz ++ denom

/-- The account of a changed key, unless the key is invalid or of another denomination. -/
def parseUsei : Bytes → Option AccAddress
  | _ :: addrLen :: rest =>
    if rest.length < addrLen.toNat then none
    else if rest.drop addrLen.toNat ≠ baseDenom then none
    else some (rest.take addrLen.toNat)
  | _ => none

/-- Sums and differences panic on overflow. -/
def bounded? (i : Int) : Option Int := if bitLen i > maxBitLen then none else some i

def addUp (amounts : List Int) : Option Int :=
  amounts.foldlM (fun total amount => bounded? (total + amount)) 0

/-- One kind of balances. -/
structure Balances where
  keyPrefix : Bytes
  parse : Bytes → Option AccAddress
  keyOf : AccAddress → Option Bytes
  unmarshal : Bytes → Option Int

namespace Balances

variable (kind : Balances)

/-- The changed balances with their accounts. One that is deleted counts as nothing, and one that
cannot be read is skipped. -/
def changed (store : CommitmentStore) : List (AccAddress × Int) :=
  (store.getChangedPairs kind.keyPrefix).filterMap fun pair =>
    (kind.parse pair.key).bind fun addr =>
      (pair.value.elim (some 0) kind.unmarshal).map fun amount => (addr, amount)

def balanceOf (tree : Tree) (addr : AccAddress) : Int :=
  (((kind.keyOf addr).bind tree).bind kind.unmarshal).getD 0

/-- The totals of the changed balances, before and after the block. A negative balance and an
address that is too long for a key are panics. -/
def totals (store : CommitmentStore) : Option (Int × Int) :=
  let changed := kind.changed store
  if ∃ entry ∈ changed, entry.2 < 0 ∨ kind.keyOf entry.1 = none then none
  else do
    let postTotal ← addUp (changed.map Prod.snd)
    let preTotal ← addUp (changed.map fun entry => kind.balanceOf store.tree entry.1)
    some (preTotal, postTotal)

end Balances

/-- The comparison at the end. -/
def compareTotals (useiPreTotal useiPostTotal weiPreTotal weiPostTotal supplyChanged : Int) :
    Option Unit := do
  let weiDiff ← bounded? (weiPostTotal - weiPreTotal)
  let (weiDiffInUsei, weiDiffRemainder) := splitUseiWeiAmount weiDiff
  if weiDiffRemainder ≠ 0 then none
  else do
    let useiDiff ← bounded? (useiPreTotal - useiPostTotal)
    let useiDiff ← bounded? (useiDiff - weiDiffInUsei)
    let useiDiff ← bounded? (useiDiff + supplyChanged)
    if useiDiff ≠ 0 then none else some ()

def supplyKey : Bytes := 0 :: baseDenom

/-- How stored coins and integers are read. -/
structure Codec where
  coin : Bytes → Option Int
  int : Bytes → Option Int

namespace Codec

variable (codec : Codec)

def usei : Balances := ⟨[2], parseUsei, (balanceKey · baseDenom), codec.coin⟩

def wei : Balances := ⟨[4], tail?, fun addr => some (4 :: addr), codec.int⟩

def supplyOf (tree : Tree) : Int := ((tree supplyKey).bind codec.int).getD 0

def supplyChanged (store : CommitmentStore) (preTotalSupply : Int) : Option Int :=
  match (store.getChangedPairs [0]).find? fun pair => pair.key.tail = baseDenom with
  | none => some 0
  | some pair =>
    match pair.value.map codec.int with
    | none => some (-preTotalSupply)
    | some none => some 0
    | some (some amt) => bounded? (amt - preTotalSupply)

/-- The check; `none` is a panic. -/
def lightInvarianceTotalSupply (store : CommitmentStore) : Option Unit := do
  let (useiPreTotal, useiPostTotal) ← codec.usei.totals store
  let (weiPreTotal, weiPostTotal) ← codec.wei.totals store
  if (store.tree supplyKey).map codec.int = some none then some ()
  else do
    let supplyChanged ← codec.supplyChanged store (codec.supplyOf store.tree)
    compareTotals useiPreTotal useiPostTotal weiPreTotal weiPostTotal supplyChanged

end Codec

/-! ### Sums -/

theorem bounded?_eq {i : Int} (fits : i.natAbs < 2 ^ 256) : bounded? i = some i := by
  refine if_neg (not_lt.mpr ?_)
  unfold bitLen
  split
  · exact Nat.zero_le _
  · exact (Nat.log2_lt (Int.natAbs_ne_zero.mpr ‹_›)).mpr fits

theorem addUp_eq {amounts : List Int} (fits : (amounts.map Int.natAbs).sum < 2 ^ 256) :
    addUp amounts = some amounts.sum ∧ amounts.sum.natAbs ≤ (amounts.map Int.natAbs).sum := by
  induction amounts using reverseRecOn with
  | nil => exact ⟨rfl, le_rfl⟩
  | append_singleton amounts amount ih =>
    rw [map_append, sum_append, map_singleton, sum_singleton] at fits ⊢
    obtain ⟨isSum, small⟩ := ih (by omega)
    rw [sum_append, sum_singleton, addUp, foldlM_append, ← addUp, isSum]
    refine ⟨?_, by omega⟩
    simp [bounded?_eq (show (amounts.sum + amount).natAbs < 2 ^ 256 by omega)]

theorem compareTotals_iff {useiPre useiPost weiPre weiPost supply : Int}
    (fits : useiPre.natAbs + useiPost.natAbs + (weiPre.natAbs + weiPost.natAbs) + supply.natAbs <
      2 ^ 256) :
    compareTotals useiPre useiPost weiPre weiPost supply = some () ↔
      (useiPost - useiPre) * oneUseiInWei + (weiPost - weiPre) = oneUseiInWei * supply := by
  have fits := (Nat.add_le_add_right (Nat.add_le_add (Int.natAbs_sub_le useiPre useiPost)
    ((Int.natAbs_sub_le weiPost weiPre).trans_eq (Nat.add_comm ..))) _).trans_lt fits
  unfold compareTotals splitUseiWeiAmount quo mod oneUseiInWei
  rw [← neg_sub useiPre useiPost]
  generalize useiPre - useiPost = usei at fits ⊢
  generalize weiPost - weiPre = wei at fits ⊢
  rw [bounded?_eq (by omega), bounded?_eq (by omega)]
  simp only [Option.bind_eq_bind, Option.bind_some]
  split
  · next part =>
    change ¬wei % 1000000000000 = 0 at part
    exact ⟨nofun, by omega⟩
  · next whole =>
    -- without a remainder the truncated quotient is exact, also below zero
    obtain ⟨inUsei, rfl⟩ := Int.dvd_of_emod_eq_zero (not_not.mp whole)
    rw [Int.mul_tdiv_cancel_left inUsei (by decide), bounded?_eq (by omega),
      Option.bind_some, bounded?_eq (by omega), Option.bind_some]
    split
    · exact ⟨nofun, by omega⟩
    · exact iff_of_true rfl (by omega)

/-! ### The accounts that change -/

variable {store : CommitmentStore}

theorem CommitmentStore.committed_eq {pair : KVPair}
    (distinct : (store.changeSet.map KeyWrite.key).Nodup) (member : pair ∈ store.changeSet) :
    store.committed pair.key = pair.value := by
  rw [committed, overlay, lastWrite_eq_some member fun other isOther sameKey => by
    rw [inj_on_of_nodup_map distinct isOther member sameKey]]
  rfl

namespace Balances

variable (kind : Balances)

/-- The account whose balance is under the key. -/
def owner (key : Bytes) : Option AccAddress :=
  if kind.keyPrefix.isPrefixOf key then kind.parse key else none

/-- The accounts whose balances change. -/
def owners (store : CommitmentStore) : List AccAddress :=
  store.changeSet.filterMap fun pair => kind.owner pair.key

/-- What the changed balances are in a tree. -/
def balancesIn (store : CommitmentStore) (tree : Tree) : List Int :=
  (kind.owners store).map (kind.balanceOf tree)

/-- The changed balances, before and after the block, in absolute value. -/
def volume (store : CommitmentStore) : Nat :=
  ((kind.balancesIn store store.tree ++ kind.balancesIn store store.committed).map
    Int.natAbs).sum

/-- No changed balance is negative after the block. -/
def NonNegative (store : CommitmentStore) : Prop :=
  ∀ addr, ∀ pair ∈ store.changeSet, kind.keyOf addr = some pair.key →
    0 ≤ kind.balanceOf store.committed addr

/-- Every balance can be read. -/
def Reads (tree : Tree) : Prop :=
  ∀ addr, ((kind.keyOf addr).bind tree).map kind.unmarshal ≠ some none

/-- The balances can be read, and the changed keys are those of their owners only. -/
structure Accepts (store : CommitmentStore) : Prop where
  distinct : (store.changeSet.map KeyWrite.key).Nodup
  reads : kind.Reads store.committed
  owns : ∀ pair ∈ store.changeSet, ∀ addr,
    kind.owner pair.key = some addr ↔ kind.keyOf addr = some pair.key

theorem natAbs_sum_add_le (fits : kind.volume store < 2 ^ 256) :
    (kind.balancesIn store store.tree).sum.natAbs +
      (kind.balancesIn store store.committed).sum.natAbs ≤ kind.volume store := by
  rw [volume, map_append, sum_append] at fits ⊢
  exact Nat.add_le_add (addUp_eq (by omega)).2 (addUp_eq (by omega)).2

namespace Accepts

variable {kind} {addr : AccAddress} (accepts : kind.Accepts store)

include accepts

theorem changed_eq : kind.changed store =
    (kind.owners store).map fun addr => (addr, kind.balanceOf store.committed addr) := by
  unfold changed owners CommitmentStore.getChangedPairs
  rw [filterMap_filter, map_filterMap]
  refine filterMap_congr fun pair member => ?_
  split
  case isFalse outside => simp [owner, outside]
  case isTrue inside =>
    rw [show kind.parse pair.key = kind.owner pair.key from (if_pos inside).symm]
    cases isOwner : kind.owner pair.key with
    | none => rfl
    | some addr =>
      have stored : (kind.keyOf addr).bind store.committed = pair.value := by
        rw [(accepts.owns pair member addr).mp isOwner, Option.bind_some,
          CommitmentStore.committed_eq accepts.distinct member]
      have reads := accepts.reads addr
      rw [stored] at reads
      rcases isValue : pair.value with _ | value
      · simp [balanceOf, stored, isValue]
      · cases isAmount : kind.unmarshal value <;>
          simp_all [balanceOf]

theorem mem_owners : addr ∈ kind.owners store ↔
    ∃ pair ∈ store.changeSet, kind.keyOf addr = some pair.key := by
  rw [owners, mem_filterMap]
  exact exists_congr fun pair => and_congr_right fun member => accepts.owns pair member addr

theorem nodup_owners : (kind.owners store).Nodup := by
  refine pairwise_filterMap.mpr ((pairwise_map.mp accepts.distinct).imp_of_mem ?_)
  rintro pair other member isOther different addr isOwner _ isOwner' rfl
  have isKey := (accepts.owns pair member addr).mp isOwner
  rw [(accepts.owns other isOther addr).mp isOwner'] at isKey
  exact different (Option.some.inj isKey).symm

theorem totals_eq_some {totals : Int × Int} (fits : kind.volume store < 2 ^ 256) :
    kind.totals store = some totals ↔ kind.NonNegative store ∧
      totals = ((kind.balancesIn store store.tree).sum,
        (kind.balancesIn store store.committed).sum) := by
  rw [volume, map_append, sum_append] at fits
  unfold Balances.totals
  simp only [accepts.changed_eq, map_map, comp_def]
  rw [← balancesIn, ← balancesIn, (addUp_eq (by omega)).1, (addUp_eq (by omega)).1]
  have passes : (¬∃ entry ∈ (kind.owners store).map fun addr =>
      (addr, kind.balanceOf store.committed addr),
      entry.2 < 0 ∨ kind.keyOf entry.1 = none) ↔ kind.NonNegative store := by
    simp only [mem_map, exists_exists_and_eq_and, accepts.mem_owners, NonNegative]
    grind
  rw [Option.ite_none_left_eq_some, passes]
  exact and_congr_right fun _ => Option.some_inj.trans eq_comm

/-- Only the owners change. -/
theorem finsum_change :
    (kind.balanceOf store.committed - kind.balanceOf store.tree).HasFiniteSupport ∧
      ∑ᶠ addr, (kind.balanceOf store.committed - kind.balanceOf store.tree) addr =
        (kind.balancesIn store store.committed).sum -
          (kind.balancesIn store store.tree).sum := by
  have within : support (kind.balanceOf store.committed - kind.balanceOf store.tree) ⊆
      (kind.owners store).toFinset := by
    intro addr changes
    by_contra absent
    rw [Finset.mem_coe, mem_toFinset, accepts.mem_owners] at absent
    have same : ∀ key, kind.keyOf addr = some key → store.committed key = store.tree key := by
      intro key isKey
      have unwritten := lastWrite_eq_none_iff.mpr fun pair member same =>
        absent ⟨pair, member, same ▸ isKey⟩
      rw [CommitmentStore.committed, overlay, unwritten]
      rfl
    refine changes (sub_eq_zero.mpr ?_)
    unfold balanceOf
    rw [Option.bind_congr same]
  refine ⟨(Finset.finite_toSet _).subset within, ?_⟩
  rw [finsum_eq_sum_of_support_subset _ within, balancesIn, balancesIn,
    ← sum_toFinset _ accepts.nodup_owners, ← sum_toFinset _ accepts.nodup_owners]
  exact Finset.sum_sub_distrib _ _

end Accepts

end Balances

/-! ### Conservation -/

namespace Codec

variable {codec : Codec} {key : Bytes}

/-- The store as the bank sees it. -/
def view (codec : Codec) (tree : Tree) : BankStore
  | .balance addr denom => ((balanceKey addr denom).bind tree).bind codec.coin
  | .wei addr => (tree (4 :: addr)).bind codec.int

/-- Every stored balance and the supply can be read. -/
structure WellFormed (codec : Codec) (tree : Tree) : Prop where
  usei : codec.usei.Reads tree
  wei : codec.wei.Reads tree
  supply : (tree supplyKey).map codec.int ≠ some none

/-- The key of the usei balance of the empty address, and the key that is parsed as one. -/
def emptyKeys : List Bytes := [2 :: baseDenom, 2 :: 0 :: baseDenom]

theorem owner_wei (addr : AccAddress) :
    codec.wei.owner key = some addr ↔ codec.wei.keyOf addr = some key := by
  unfold Balances.owner wei
  cases key <;> grind

theorem owner_usei (notEmpty : key ∉ emptyKeys) (addr : AccAddress) :
    codec.usei.owner key = some addr ↔ codec.usei.keyOf addr = some key := by
  constructor
  · intro isOwner
    rcases key with _ | ⟨first, _ | ⟨addrLen, rest⟩⟩ <;>
      simp [Balances.owner, usei, parseUsei] at isOwner
    obtain ⟨rfl, long, isDenom, isAddr⟩ := isOwner
    have length : addr.length = addrLen.toNat := by simp [← isAddr, long]
    obtain rfl : rest = addr ++ baseDenom := by rw [← isAddr, ← isDenom, take_append_drop]
    -- an empty address would have been parsed from one of the keys left out
    have positive : addr ≠ [] := by
      rintro rfl
      obtain rfl : addrLen = 0 := UInt8.toNat_inj.mp length.symm
      simp [emptyKeys] at notEmpty
    have short := addrLen.toNat_lt
    change (mustLengthPrefix addr).map _ = _
    rw [mustLengthPrefix, if_neg positive, if_neg (by omega), length, UInt8.ofNat_toNat]
    rfl
  · intro isKey
    obtain ⟨bz, isPrefixed, rfl⟩ := Option.map_eq_some_iff.mp isKey
    unfold mustLengthPrefix at isPrefixed
    split at isPrefixed
    · next empty =>
      cases isPrefixed
      simp [empty, emptyKeys] at notEmpty
    · split at isPrefixed <;> cases isPrefixed
      have length : (UInt8.ofNat addr.length).toNat = addr.length := by simp; omega
      simp [Balances.owner, usei, parseUsei, length]

theorem supplyChanged_eq (distinct : (store.changeSet.map KeyWrite.key).Nodup)
    (reads : (store.committed supplyKey).map codec.int ≠ some none)
    (fits : (codec.supplyOf store.committed - codec.supplyOf store.tree).natAbs < 2 ^ 256) :
    codec.supplyChanged store (codec.supplyOf store.tree) =
      some (codec.supplyOf store.committed - codec.supplyOf store.tree) := by
  have bounded := bounded?_eq fits
  unfold supplyChanged CommitmentStore.getChangedPairs
  split
  · next absent =>
    have unwritten : lastWrite store.changeSet supplyKey = none := by
      refine lastWrite_eq_none_iff.mpr fun pair member same => ?_
      simpa [same, supplyKey] using
        find?_eq_none.mp absent pair (mem_filter.mpr ⟨member, by simp [same, supplyKey]⟩)
    simp [supplyOf, CommitmentStore.committed, overlay, unwritten]
  · next pair found =>
    obtain ⟨member, isSupply⟩ := mem_filter.mp (mem_of_find?_eq_some found)
    have isDenom : pair.key.tail = baseDenom := by simpa using find?_some found
    have isKey : pair.key = supplyKey := by
      rcases pair with ⟨_ | ⟨first, rest⟩, value⟩ <;> simp_all [supplyKey]
    have written := isKey ▸ CommitmentStore.committed_eq distinct member
    rw [written] at reads
    have isSupply : codec.supplyOf store.committed = (pair.value.bind codec.int).getD 0 := by
      rw [supplyOf, written]
    rw [isSupply] at bounded ⊢
    cases isValue : pair.value with
    | none => simp
    | some value => cases isAmt : codec.int value <;> simp_all

theorem totalSupply_committed (finite : (aggregate (codec.view store.tree)).HasFiniteSupport)
    (usei : codec.usei.Accepts store) (wei : codec.wei.Accepts store) :
    totalSupply (codec.view store.committed) - totalSupply (codec.view store.tree) =
      ((codec.usei.balancesIn store store.committed).sum -
        (codec.usei.balancesIn store store.tree).sum) * oneUseiInWei +
      ((codec.wei.balancesIn store store.committed).sum -
        (codec.wei.balancesIn store store.tree).sum) := by
  obtain ⟨useiFinite, useiChange⟩ := usei.finsum_change
  obtain ⟨weiFinite, weiChange⟩ := wei.finsum_change
  have useiFinite := useiFinite.mul_left fun _ => oneUseiInWei
  rw [← useiChange, ← weiChange, finsum_mul, sub_eq_iff_eq_add']
  refine Eq.trans (finsum_congr fun addr => ?_)
    ((finsum_add_distrib finite (useiFinite.add weiFinite)).trans
      (congrArg _ (finsum_add_distrib useiFinite weiFinite)))
  change codec.usei.balanceOf store.committed addr * oneUseiInWei +
    codec.wei.balanceOf store.committed addr = codec.usei.balanceOf store.tree addr * oneUseiInWei +
      codec.wei.balanceOf store.tree addr + ((_ - _) * _ + (_ - _))
  ring

/-- The check is exact: it returns if and only if no changed balance is negative and the total over
all accounts changes with the supply. -/
theorem lightInvarianceTotalSupply_exact (codec : Codec) (store : CommitmentStore)
    (finite : (aggregate (codec.view store.tree)).HasFiniteSupport)
    (distinct : (store.changeSet.map KeyWrite.key).Nodup)
    (before : codec.WellFormed store.tree) (after : codec.WellFormed store.committed)
    (notEmpty : ∀ pair ∈ store.changeSet, pair.key ∉ emptyKeys)
    (fits : codec.usei.volume store + codec.wei.volume store +
      ((codec.supplyOf store.committed).natAbs + (codec.supplyOf store.tree).natAbs) < 2 ^ 256) :
    codec.lightInvarianceTotalSupply store = some () ↔
      codec.usei.NonNegative store ∧ codec.wei.NonNegative store ∧
      totalSupply (codec.view store.committed) - totalSupply (codec.view store.tree) =
        oneUseiInWei * (codec.supplyOf store.committed - codec.supplyOf store.tree) := by
  have usei : codec.usei.Accepts store :=
    ⟨distinct, after.usei, fun pair member => owner_usei (notEmpty pair member)⟩
  have wei : codec.wei.Accepts store := ⟨distinct, after.wei, fun _ _ => owner_wei⟩
  have useiFits : codec.usei.volume store < 2 ^ 256 := by omega
  have weiFits : codec.wei.volume store < 2 ^ 256 := by omega
  have supplyLe := Int.natAbs_sub_le (codec.supplyOf store.committed) (codec.supplyOf store.tree)
  have supplyFits := (supplyLe.trans (Nat.le_add_left ..)).trans_lt fits
  rw [totalSupply_committed finite usei wei]
  unfold lightInvarianceTotalSupply
  simp only [Option.bind_eq_bind, Option.bind_eq_some_iff, usei.totals_eq_some useiFits,
    wei.totals_eq_some weiFits, and_assoc, exists_and_left, exists_eq_left, if_neg before.supply,
    supplyChanged_eq distinct after.supply supplyFits, Option.some.injEq, exists_eq_left']
  rw [compareTotals_iff ((Nat.add_le_add (Nat.add_le_add (codec.usei.natAbs_sum_add_le useiFits)
    (codec.wei.natAbs_sum_add_le weiFits)) supplyLe).trans_lt fits)]

/-- A number is stored as the bytes of its successor. -/
def plain : Codec :=
  let read bz := some (ofLittleEndian bz - 1 : Int)
  ⟨read, read⟩

/-- A block that mints to a new account. -/
def minting : CommitmentStore :=
  ⟨fun _ => none, [⟨2 :: 1 :: 7 :: baseDenom, some [4]⟩, ⟨supplyKey, some [4]⟩]⟩

theorem lightInvarianceTotalSupply_minting :
    totalSupply (plain.view minting.committed) - totalSupply (plain.view minting.tree) =
      oneUseiInWei * 3 := by
  have isEmpty : aggregate (plain.view minting.tree) = 0 := by
    funext addr
    simp [aggregate, useiOf, weiOf, view, minting]
  have reads (value : Option Bytes) : value.map plain.coin ≠ some none := by
    cases value <;> rintro ⟨⟩
  have wellFormed (tree : Tree) : plain.WellFormed tree :=
    ⟨fun _ => reads _, fun _ => reads _, reads _⟩
  exact ((lightInvarianceTotalSupply_exact plain minting (by simp [isEmpty, HasFiniteSupport])
    (by decide) (wellFormed _) (wellFormed _) (by decide) (by decide +kernel)).mp
    (by decide +kernel)).2.2

/-- Two large balances are written again as they are. -/
def rewriting : CommitmentStore :=
  let pairs : List KVPair := [7, 8].map fun byte =>
    ⟨2 :: 1 :: byte :: baseDenom, some (replicate 32 255)⟩
  ⟨overlay (fun _ => none) pairs, pairs⟩

/-- The empty address gets a negative balance. -/
def overdrawing : CommitmentStore := ⟨fun _ => none, [⟨2 :: baseDenom, some []⟩]⟩

/-- Large balances overflow although nothing changes, and the empty address is not seen. -/
theorem lightInvarianceTotalSupply_not_exact :
    (rewriting.committed = rewriting.tree ∧
      plain.usei.NonNegative rewriting ∧ plain.wei.NonNegative rewriting ∧
      plain.lightInvarianceTotalSupply rewriting = none) ∧
    ¬plain.usei.NonNegative overdrawing ∧
      plain.lightInvarianceTotalSupply overdrawing = some () := by
  have amounts : ∀ pair ∈ rewriting.changeSet,
      0 ≤ ((rewriting.committed pair.key).bind plain.coin).getD 0 := by decide +kernel
  refine ⟨⟨?same, ?usei, ?wei, by decide +kernel⟩, fun nonNegative =>
    absurd (nonNegative [] _ mem_cons_self rfl) (by decide +kernel), by decide +kernel⟩
  case same =>
    funext key
    unfold CommitmentStore.committed overlay
    cases isLast : lastWrite rewriting.changeSet key with
    | none => rfl
    | some => exact (congrArg (Option.getD · none) isLast).symm
  case usei | wei =>
    intro addr pair member isKey
    rw [Balances.balanceOf, isKey]
    exact amounts pair member

end Codec

end SeiChain.Bank
