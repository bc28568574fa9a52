/-
This file models how the mempool hands out transactions for a block: those at the
front of the inclusion order, until one is not ready or would break a limit. What
is handed out is as long as the limits allow, its totals do not overflow, and of
every account it has the lowest nonces without a gap, also after the EVM
transactions were moved to the front. With fewer ready transactions than a
configured threshold nothing is handed out.
-/

import Mathlib.Data.Fintype.Defs
import Mathlib.Data.Finset.Insert
import Mathlib.Tactic.Ring
import SeiChain.Mempool.InclusionOrder

namespace SeiChain.Mempool

open List

/-- What a block has a limit of, besides the number of its transactions. -/
inductive Resource where
  | protoSize
  | gasWanted
  | estimatedGas
  deriving DecidableEq

instance : Fintype Resource where
  elems := {.protoSize, .gasWanted, .estimatedGas}
  complete resource := by cases resource <;> decide

/-- The store, with the index invariant: an account has a transaction for every nonce from the
first one up to the next one, and none below. -/
structure TxStore extends TxStoreInner where
  firstNonce : Address → Nat
  /-- The fields of a transaction that count against the limits, none of them negative. -/
  cost : WrappedTx → Resource → Nat
  txNotifyThreshold : Nat
  lowest : ∀ tx ∈ byHash, ∀ evm ∈ tx.evm, firstNonce evm.address ≤ evm.nonce
  gapless : ∀ address nonce, firstNonce address ≤ nonce → nonce < nextNonce address →
    ∃ tx ∈ byHash, tx.evm = some ⟨address, nonce⟩

structure ReapLimits where
  maxTxs : Option UInt64
  max : Resource → Option Int64

def maxInt64 : Int := 2 ^ 63 - 1

/-- The value that a 64-bit operation gives. -/
def int64 (value : Int) : Int := value.bmod (2 ^ 64)

section

variable (l : ReapLimits)

def ReapLimits.txs : Nat := l.maxTxs.elim (2 ^ 64 - 1) UInt64.toNat

/-- A limit that is missing or negative is none. -/
def ReapLimits.bound (resource : Resource) : Int :=
  let max := (l.max resource).elim maxInt64 Int64.toInt
  if max < 0 then maxInt64 else max

variable (store : TxStore)

/-- The loop over the inclusion order, with the transactions and the totals so far. -/
def TxStore.reapLoop (wtxs : List WrappedTx) (total : Resource → Int) :
    List WrappedTx → List WrappedTx × (Resource → Int)
  | [] => (wtxs, total)
  | wtx :: rest =>
    if l.txs ≤ wtxs.length ∨ ¬ store.isReady wtx ∨
      ∃ resource, int64 (l.bound resource - total resource) < store.cost wtx resource
    then (wtxs, total)
    else TxStore.reapLoop (wtxs ++ [wtx])
      (fun resource => int64 (total resource + store.cost wtx resource)) rest

def evmFirst (wtxs : List WrappedTx) : List WrappedTx :=
  wtxs.filter (·.evm.isSome) ++ wtxs.filter (·.evm.isNone)

/-- The transactions and their estimated gas; the reaped ones are not removed. The store counts
its ready transactions. -/
def TxStore.reap : List WrappedTx × Int :=
  let reaped :=
    if store.txNotifyThreshold ≤ store.ready.length
    then store.reapLoop l [] (fun _ => 0) store.inInclusionOrder
    else ([], fun _ => 0)
  (evmFirst reaped.1, reaped.2 .estimatedGas)

/-! ### The limits -/

def TxStore.total (txs : List WrappedTx) (resource : Resource) : Int :=
  ((txs.map (store.cost · resource)).sum : Nat)

/-- The transactions are within the limits. -/
def TxStore.Within (txs : List WrappedTx) : Prop :=
  txs.length ≤ l.txs ∧ ∀ resource, store.total txs resource ≤ l.bound resource

end

variable {l : ReapLimits} {store : TxStore} {wtxs txs : List WrappedTx}

theorem int64_eq {value : Int} (nonneg : 0 ≤ value) (fits : value ≤ maxInt64) :
    int64 value = value := by
  rw [maxInt64] at fits
  rw [int64, Int.bmod_eq_of_le] <;> omega

theorem ReapLimits.bound_le (resource : Resource) : l.bound resource ≤ maxInt64 := by
  rw [bound]
  split
  · rfl
  · cases l.max resource with
    | none => rfl
    | some max => exact Int.le_of_lt_add_one max.toInt_lt

theorem TxStore.total_append (resource : Resource) : store.total (wtxs ++ txs) resource =
    store.total wtxs resource + store.total txs resource := by
  rw [total, map_append, sum_append, Int.natCast_add]
  rfl

theorem TxStore.total_singleton (wtx : WrappedTx) (resource : Resource) :
    store.total [wtx] resource = store.cost wtx resource :=
  rfl

/-- The sum of the first transactions does not overflow. -/
theorem TxStore.Within.total_exact (within : store.Within l wtxs) (front : txs <+: wtxs)
    (resource : Resource) : int64 (store.total txs resource) = store.total txs resource := by
  obtain ⟨rest, rfl⟩ := front
  have limit := (within.2 resource).trans (l.bound_le resource)
  rw [total_append] at limit
  unfold total at limit ⊢
  exact int64_eq (by omega) (by omega)

/-- The loop takes ready transactions as long as they are within the limits. -/
theorem TxStore.reapLoop_spec (within : store.Within l wtxs) :
    ∃ taken rest, txs = taken ++ rest ∧ store.reapLoop l wtxs (store.total wtxs) txs =
        (wtxs ++ taken, store.total (wtxs ++ taken)) ∧
      (∀ tx ∈ taken, store.isReady tx) ∧ store.Within l (wtxs ++ taken) ∧
      ∀ next ∈ rest.head?, store.isReady next → ¬ store.Within l (wtxs ++ taken ++ [next]) := by
  induction txs generalizing wtxs with
  | nil => exact ⟨[], [], rfl, by simp [reapLoop], nofun, by simpa using within, nofun⟩
  | cons wtx rest ih =>
    have room (resource : Resource) : int64 (l.bound resource - store.total wtxs resource) =
        l.bound resource - store.total wtxs resource := by
      have := l.bound_le resource
      have := within.2 resource
      exact int64_eq (by omega) (by unfold total; omega)
    simp only [reapLoop, room]
    split
    next stops =>
      refine ⟨[], wtx :: rest, rfl, by simp, nofun, by simpa using within, ?_⟩
      rintro _ ⟨⟩ ready ⟨count, bounded⟩
      rcases stops with full | notReady | ⟨resource, exceeds⟩
      · simp at count
        omega
      · exact notReady ready
      · have := bounded resource
        rw [append_nil, total_append, total_singleton] at this
        omega
    next goes =>
      simp only [not_or, not_exists, not_not, not_le, not_lt] at goes
      obtain ⟨count, ready, fits⟩ := goes
      have within : store.Within l (wtxs ++ [wtx]) := by
        refine ⟨by simpa using Nat.succ_le_of_lt count, fun resource => ?_⟩
        have := fits resource
        rw [total_append, total_singleton]
        omega
      have added (resource : Resource) :
          int64 (store.total wtxs resource + store.cost wtx resource) =
            store.total (wtxs ++ [wtx]) resource := by
        rw [← within.total_exact prefix_rfl, total_append, total_singleton]
      obtain ⟨taken, left, rfl, reaped, allReady, result⟩ := ih within
      refine ⟨wtx :: taken, left, rfl, ?_, forall_mem_cons.mpr ⟨ready, allReady⟩, ?_⟩
      · simpa [added] using reaped
      · simpa using result

/-! ### The nonces -/

/-- The nonce of a transaction of an account. -/
def nonceOf (address : Address) (tx : WrappedTx) : Option Nat :=
  tx.evm.bind fun evm => if evm.address = address then some evm.nonce else none

theorem nonceOf_eq_some {address : Address} {nonce : Nat} {tx : WrappedTx} :
    nonceOf address tx = some nonce ↔ tx.evm = some ⟨address, nonce⟩ := by
  rcases tx with ⟨_, _, _ | ⟨_, _⟩⟩ <;> simp [nonceOf]

/-- The ready transactions of an account come in the order of their nonces, without a gap. -/
theorem TxStore.nonces_ready (store : TxStore) (address : Address) :
    (store.sortByRank store.ready).filterMap (nonceOf address) =
      range' (store.firstNonce address) (store.nextNonce address - store.firstNonce address) := by
  have before : (store.sortByRank store.ready).Pairwise Before :=
    TxStoreInner.sortByRank_before filter_sublist
  refine SortedLT.eq_of_mem_iff (before.filterMap _ ?_).sortedLT
    (sortedLT_range' _ _ Nat.one_ne_zero) fun nonce => ?_
  · intro first second before nonce isFirst other isSecond
    rw [nonceOf_eq_some] at isFirst isSecond
    simpa [Before, WrappedTx.account, WrappedTx.evmNonce, isFirst, isSecond] using before
  · simp only [mem_filterMap, nonceOf_eq_some, (store.sortByRank_perm _).mem_iff, TxStoreInner.ready,
      mem_filter, mem_range'_1]
    constructor
    · rintro ⟨tx, ⟨member, ready⟩, isEvm⟩
      have lowest := store.lowest tx member _ isEvm
      simp [TxStoreInner.isReady, isEvm] at ready lowest
      omega
    · rintro ⟨lowest, ready⟩
      obtain ⟨tx, member, isEvm⟩ := store.gapless address nonce lowest (by omega)
      refine ⟨tx, ⟨member, ?_⟩, isEvm⟩
      simp [TxStoreInner.isReady, isEvm]
      omega

theorem TxStore.filter_isReady : store.inInclusionOrder.filter store.isReady =
    store.sortByRank store.ready := by
  have isReady {tx} (member : tx ∈ store.sortByRank store.ready) : store.isReady tx :=
    (mem_filter.mp ((store.sortByRank_perm _).mem_iff.mp member)).2
  have waits {tx} (member : tx ∈ store.sortByRank store.pending) : ¬ store.isReady tx := by
    simpa using (mem_filter.mp ((store.sortByRank_perm _).mem_iff.mp member)).2
  rw [TxStoreInner.inInclusionOrder_eq, filter_append, filter_eq_self.mpr fun _ => isReady,
    filter_eq_nil_iff.mpr fun _ => waits, append_nil]

/-- Ready transactions at the front of the inclusion order have the lowest nonces of each
account, also after the EVM transactions were moved to the front. -/
theorem TxStore.nonces_evmFirst (order : store.inInclusionOrder = wtxs ++ txs)
    (ready : ∀ tx ∈ wtxs, store.isReady tx) (address : Address) : ∃ count,
      (evmFirst wtxs).filterMap (nonceOf address) = range' (store.firstNonce address) count := by
  have front : wtxs <+: store.sortByRank store.ready := by
    rw [← filter_isReady, order, filter_append, filter_eq_self.mpr ready]
    exact prefix_append _ _
  have moved : (evmFirst wtxs).filterMap (nonceOf address) = wtxs.filterMap (nonceOf address) := by
    have other : (wtxs.filter (·.evm.isNone)).filterMap (nonceOf address) = [] := by
      simp +contextual [nonceOf]
    rw [evmFirst, filterMap_append, other, append_nil, filterMap_filter]
    congr
    funext tx
    cases isEvm : tx.evm <;> simp [nonceOf, isEvm]
  obtain ⟨left, split⟩ := front.filterMap (nonceOf address)
  rw [nonces_ready] at split
  obtain ⟨count, -, isRange, -⟩ := range'_eq_append_iff.mp split.symm
  exact ⟨count, moved.trans isRange⟩

/-- The transactions that are handed out are a front of the inclusion order, ready and within
the limits, with running totals that do not overflow and the lowest nonces of each account. If
enough transactions are ready it is the longest such front. -/
theorem reap_longest_front (store : TxStore) (l : ReapLimits) :
    ∃ wtxs rest, store.inInclusionOrder = wtxs ++ rest ∧
      store.reap l = (evmFirst wtxs, store.total wtxs .estimatedGas) ∧
      (∀ tx ∈ wtxs, store.isReady tx) ∧ store.Within l wtxs ∧
      (∀ txs, txs <+: wtxs → ∀ resource,
        int64 (store.total txs resource) = store.total txs resource) ∧
      (∀ address, ∃ count, (store.reap l).1.filterMap (nonceOf address) =
        range' (store.firstNonce address) count) ∧
      if store.txNotifyThreshold ≤ store.ready.length then
        ∀ next ∈ rest.head?, store.isReady next → ¬ store.Within l (wtxs ++ [next])
      else wtxs = [] := by
  have empty : store.Within l [] := by
    refine ⟨Nat.zero_le _, fun resource => ?_⟩
    rw [ReapLimits.bound]
    split
    · exact (by decide : (0 : Int) ≤ maxInt64)
    · exact not_lt.mp ‹_›
  simp only [TxStore.reap]
  split
  · obtain ⟨wtxs, rest, order, reaped, ready, within, longest⟩ :=
      @TxStore.reapLoop_spec l store [] store.inInclusionOrder empty
    rw [show store.reapLoop l [] (fun _ => 0) _ = _ from reaped]
    exact ⟨wtxs, rest, order, rfl, ready, within, fun _ => within.total_exact,
      store.nonces_evmFirst order ready, longest⟩
  · exact ⟨[], _, rfl, rfl, nofun, empty, fun _ => empty.total_exact, fun address => ⟨0, rfl⟩, rfl⟩

/-- A store with two transactions of an account and one that is no EVM transaction. -/
def mixedReady : TxStore where
  byHash := [⟨0, 9, none⟩, ⟨1, 5, some ⟨1, 4⟩⟩, ⟨2, 3, some ⟨1, 3⟩⟩]
  nextNonce address := if address = 1 then 5 else 0
  distinct := by simp [WrappedTx.account, WrappedTx.evmNonce]
  firstNonce address := if address = 1 then 3 else 0
  cost _ _ := 1
  txNotifyThreshold := 2
  lowest := by simp
  gapless address nonce lower upper := by
    split_ifs at lower upper with first
    · subst first
      obtain rfl | rfl : nonce = 3 ∨ nonce = 4 := by omega
      all_goals simp
    · cases upper

example : (mixedReady.reap ⟨some 2, fun _ => none⟩).1 =
    [⟨2, 3, some ⟨1, 3⟩⟩, ⟨0, 9, none⟩] := by decide +kernel

/-- A store that waits for two transactions. -/
def oneReady : TxStore where
  byHash := [⟨0, 1, none⟩]
  nextNonce _ := 0
  distinct := by simp
  firstNonce _ := 0
  cost _ _ := 1
  txNotifyThreshold := 2
  lowest := by simp
  gapless := by simp

theorem reap_below_threshold : ∃ next, oneReady.inInclusionOrder = [next] ∧
    oneReady.isReady next ∧ oneReady.Within ⟨none, fun _ => none⟩ [next] ∧
    (oneReady.reap ⟨none, fun _ => none⟩).1 = [] := by
  refine ⟨⟨0, 1, none⟩, by decide +kernel, by decide, ?_, by decide +kernel⟩
  unfold TxStore.Within
  decide

end SeiChain.Mempool
