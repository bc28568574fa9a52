/-
This file models the order in which the mempool hands out its transactions. The
documented procedure pops, again and again, the highest priority among the lowest
nonces of the accounts, first of the ready transactions and then of the pending
ones. The code does not simulate it: it caps the priority of a transaction by those
of the lower nonces of its account and sorts by the capped priority, stably.
-/

import Mathlib.Data.List.Sort
import Mathlib.Order.Bounds.Basic
import Mathlib.Order.MinMax

namespace SeiChain.Mempool

open List

abbrev Address := BitVec 160

structure EvmTx where
  address : Address
  nonce : Nat
  deriving DecidableEq

structure WrappedTx where
  hash : BitVec 256
  priority : Int
  evm : Option EvmTx
  deriving DecidableEq

def WrappedTx.evmNonce (tx : WrappedTx) : Nat := tx.evm.elim 0 EvmTx.nonce

/-- A transaction that is no EVM one is an account of its own. -/
def WrappedTx.account (tx : WrappedTx) : Address ⊕ BitVec 256 :=
  tx.evm.elim (.inr tx.hash) fun evm => .inl evm.address

/-- What the order reads of the store: the transactions as an iteration over the map gives
them, in any order, and the next nonce of every account. -/
structure TxStoreInner where
  byHash : List WrappedTx
  nextNonce : Address → Nat
  distinct : byHash.Pairwise fun first second =>
    first.account = second.account → first.evmNonce ≠ second.evmNonce

/-- The least priority of each account so far. -/
abbrev AccPrio := Address → Option Int

abbrev Entry := WrappedTx × Int

section Prio

variable (accPrio : AccPrio)

def carried (tx : WrappedTx) : Option Int := tx.evm.bind fun evm => accPrio evm.address

/-- The entry of the account is set if it is missing or larger, and then read. -/
def newPriority (tx : WrappedTx) : Int := (carried accPrio tx).elim tx.priority (min tx.priority)

def accumulate (tx : WrappedTx) : AccPrio :=
  tx.evm.elim accPrio fun evm =>
    Function.update accPrio evm.address (some (newPriority accPrio tx))

end Prio

def txPrio (accPrio : AccPrio) : List WrappedTx → List Entry
  | [] => []
  | tx :: txs => (tx, newPriority accPrio tx) :: txPrio (accumulate accPrio tx) txs

/-- The source's sort by nonce is not stable, but it starts from the arbitrary order of a map:
a stable one has the same results. -/
def sortByNonce (txs : List WrappedTx) : List WrappedTx :=
  txs.insertionSort (Order.Preimage WrappedTx.evmNonce (· ≤ ·))

def sortByPrio (entries : List Entry) : List Entry :=
  entries.insertionSort (Order.Preimage Prod.snd (· ≥ ·))

def sortGroup (accPrio : AccPrio) (txs : List WrappedTx) : List WrappedTx :=
  (sortByPrio (txPrio accPrio (sortByNonce txs))).map Prod.fst

namespace TxStoreInner

variable (inner : TxStoreInner)

def isReady (tx : WrappedTx) : Bool := tx.evm.all fun evm => evm.nonce < inner.nextNonce evm.address

def ready : List WrappedTx := inner.byHash.filter inner.isReady

def pending : List WrappedTx := inner.byHash.filter (!inner.isReady ·)

/-- What the ready transactions accumulate, which is kept for the pending ones. -/
def accPrio : AccPrio := (sortByNonce inner.ready).foldl accumulate fun _ => none

def inInclusionOrder : List WrappedTx :=
  sortGroup (fun _ => none) inner.ready ++ sortGroup inner.accPrio inner.pending

end TxStoreInner

/-! ### The documented procedure -/

/-- A transaction with the lowest nonce that remains of its account. -/
def Front (remaining : List WrappedTx) (tx : WrappedTx) : Prop :=
  ∀ other ∈ remaining, other.account = tx.account → tx.evmNonce ≤ other.evmNonce

/-- The procedure can pop the transactions in this order: each is a front of what remains, of
the highest priority among the fronts. -/
def Greedy : List WrappedTx → Prop
  | [] => True
  | tx :: rest => Front (tx :: rest) tx ∧
    (∀ other ∈ rest, Front (tx :: rest) other → other.priority ≤ tx.priority) ∧ Greedy rest

/-- The documented procedure can produce this order of the store's transactions. -/
def TxStoreInner.Produces (inner : TxStoreInner) (order : List WrappedTx) : Prop :=
  ∃ ready pending, order = ready ++ pending ∧ ready.Perm inner.ready ∧ Greedy ready ∧
    pending.Perm inner.pending ∧ Greedy pending

/-! ### The ranks -/

/-- The same map, iterated in some order. -/
structure TxStoreInner.SameContent (iterated inner : TxStoreInner) : Prop where
  byHash : iterated.byHash.Perm inner.byHash
  nextNonce : iterated.nextNonce = inner.nextNonce

section Rank

variable (inner : TxStoreInner)

/-- The least priority of the account up to a transaction, ready or not. -/
def TxStoreInner.cap (tx : WrappedTx) : Int :=
  let upTo := inner.byHash.filter fun lower =>
    lower.account = tx.account ∧ lower.evmNonce ≤ tx.evmNonce
  (upTo.map WrappedTx.priority).foldl min tx.priority

/-- The higher cap comes first, then the lower nonce. -/
def TxStoreInner.Ranks (first second : WrappedTx) : Prop :=
  inner.cap second < inner.cap first ∨
    inner.cap second = inner.cap first ∧ first.evmNonce ≤ second.evmNonce

/-- No transaction of a group ranks after one of another account with a lower priority, unless
its own account holds it back: a lower nonce that ranks after the other one as well. -/
def TxStoreInner.RankedByPriority (group : List WrappedTx) : Prop :=
  ∀ first ∈ group, ∀ second ∈ group, first.account ≠ second.account →
    inner.Ranks first second →
    (∀ lower ∈ group, lower.account = second.account → lower.evmNonce < second.evmNonce →
      inner.Ranks lower first) →
    second.priority ≤ first.priority

end Rank

variable {inner iterated : TxStoreInner} {accPrio : AccPrio} {txs popped todo : List WrappedTx}
  {tx other first second : WrappedTx} {prio : Int}

theorem TxStoreInner.le_cap_iff : prio ≤ inner.cap tx ↔ prio ≤ tx.priority ∧
    ∀ lower ∈ inner.byHash, lower.account = tx.account → lower.evmNonce ≤ tx.evmNonce →
      prio ≤ lower.priority := by
  have le_foldl (prios : List Int) (start : Int) :
      prio ≤ prios.foldl min start ↔ prio ≤ start ∧ ∀ found ∈ prios, prio ≤ found := by
    induction prios generalizing start with
    | nil => simp
    | cons found prios ih => simp [ih, and_assoc]
  simp only [cap, le_foldl, forall_mem_map, mem_filter, decide_eq_true_eq, and_imp]

theorem TxStoreInner.SameContent.cap (same : iterated.SameContent inner) :
    iterated.cap = inner.cap := by
  funext tx
  refine eq_of_forall_le_iff fun prio => ?_
  simp only [le_cap_iff, same.byHash.mem_iff]

/-- Within an account the caps fall with the nonces. -/
theorem TxStoreInner.cap_le (same : first.account = second.account) (member : first ∈ inner.byHash)
    (nonce : first.evmNonce ≤ second.evmNonce) : inner.cap second ≤ inner.cap first := by
  obtain ⟨-, lower⟩ := le_cap_iff.mp (le_refl (inner.cap second))
  refine le_cap_iff.mpr ⟨lower first member same nonce, fun found isFound account below => ?_⟩
  exact lower found isFound (account.trans same) (below.trans nonce)

/-! ### The capped priorities -/

def Before (first second : WrappedTx) : Prop :=
  first.account = second.account → first.evmNonce < second.evmNonce

theorem carried_of_account (same : tx.account = other.account) :
    carried accPrio tx = carried accPrio other := by
  cases isEvm : tx.evm <;> cases isOther : other.evm <;> simp_all [carried, WrappedTx.account]

theorem carried_accumulate (before : Before tx other) :
    carried (accumulate accPrio tx) other =
      if tx.account = other.account then some (newPriority accPrio tx)
      else carried accPrio other := by
  have alone (same : tx.account = other.account) := before same
  cases isEvm : tx.evm <;> cases isOther : other.evm <;>
    simp_all [carried, accumulate, WrappedTx.account, WrappedTx.evmNonce, Function.update_apply,
      eq_comm]

theorem le_newPriority_iff : prio ≤ newPriority accPrio tx ↔
    prio ≤ tx.priority ∧ ∀ found ∈ carried accPrio tx, prio ≤ found := by
  cases isCarried : carried accPrio tx <;> simp [newPriority, isCarried]

theorem map_fst_txPrio (accPrio : AccPrio) (txs : List WrappedTx) :
    (txPrio accPrio txs).map Prod.fst = txs := by
  induction txs generalizing accPrio with
  | nil => rfl
  | cons tx txs ih => simp [txPrio, ih]

theorem txPrio_append (accPrio : AccPrio) (txs more : List WrappedTx) :
    txPrio accPrio (txs ++ more) =
      txPrio accPrio txs ++ txPrio (txs.foldl accumulate accPrio) more := by
  induction txs generalizing accPrio with
  | nil => rfl
  | cons tx txs ih => simp [txPrio, ih]

/-- The new priority is the least of the account's up to the transaction, the accumulated one
included. -/
theorem le_txPrio_iff (ordered : txs.Pairwise Before) {entry : Entry}
    (member : entry ∈ txPrio accPrio txs) : prio ≤ entry.2 ↔
      (∀ found ∈ carried accPrio entry.1, prio ≤ found) ∧
      ∀ lower ∈ txs, lower.account = entry.1.account → lower.evmNonce ≤ entry.1.evmNonce →
        prio ≤ lower.priority := by
  induction txs generalizing accPrio with
  | nil => cases member
  | cons tx txs ih =>
    obtain ⟨before, ordered⟩ := pairwise_cons.mp ordered
    obtain rfl | member := mem_cons.mp member
    · have above (lower) (isTx : lower ∈ txs) (same : lower.account = tx.account) :
          ¬ lower.evmNonce ≤ tx.evmNonce := not_le.mpr (before lower isTx same.symm)
      simp +contextual [le_newPriority_iff, above, and_comm]
    · have isTx : entry.1 ∈ txs := map_fst_txPrio _ txs ▸ mem_map_of_mem member
      have before := before entry.1 isTx
      rw [ih ordered member, carried_accumulate before]
      split <;> rename_i same
      · simp [← carried_of_account same, le_newPriority_iff, same, (before same).le, and_assoc,
          and_left_comm]
      · simp [same]

/-! ### The sorted groups -/

theorem TxStoreInner.distinct_of_perm (inner : TxStoreInner) {group : List WrappedTx}
    (perm : txs.Perm group) (kept : group.Sublist inner.byHash) : txs.Pairwise fun first second =>
      first.account = second.account → first.evmNonce ≠ second.evmNonce :=
  (perm.pairwise_iff fun {_ _} ne same equal => ne same.symm equal.symm).mpr
    (inner.distinct.sublist kept)

theorem sortByNonce_before (kept : txs.Sublist inner.byHash) :
    (sortByNonce txs).Pairwise Before := by
  have byNonce : (sortByNonce txs).Pairwise (Order.Preimage WrappedTx.evmNonce (· ≤ ·)) :=
    pairwise_insertionSort _ _
  refine (byNonce.and (inner.distinct_of_perm (perm_insertionSort ..) kept)).imp ?_
  exact fun both same => lt_of_le_of_ne both.1 (both.2 same)

/-- The lower nonces of a ready transaction are ready. -/
theorem TxStoreInner.ready_before (inner : TxStoreInner) :
    ∀ first ∈ inner.ready, ∀ second ∈ inner.pending, Before first second := by
  intro first isReady second isPending same
  obtain ⟨-, isReady⟩ := mem_filter.mp isReady
  obtain ⟨-, isPending⟩ := mem_filter.mp isPending
  cases isFirst : first.evm <;> cases isSecond : second.evm <;>
    simp_all [TxStoreInner.isReady, WrappedTx.account, WrappedTx.evmNonce]
  exact isReady.trans_le isPending

section Rank

variable (inner : TxStoreInner) (txs : List WrappedTx)

/-- A group as it is sorted in the end. -/
def TxStoreInner.sortByRank : List WrappedTx :=
  (sortByNonce txs).insertionSort (Order.Preimage inner.cap (· ≥ ·))

theorem TxStoreInner.sortByRank_perm : (inner.sortByRank txs).Perm txs :=
  (perm_insertionSort _ _).trans (perm_insertionSort _ _)

/-- Over the two groups, one after the other, the accumulated priorities are the caps. -/
theorem TxStoreInner.txPrio_eq :
    txPrio (fun _ => none) (sortByNonce inner.ready) =
        (sortByNonce inner.ready).map (fun tx => (tx, inner.cap tx)) ∧
      txPrio inner.accPrio (sortByNonce inner.pending) =
        (sortByNonce inner.pending).map fun tx => (tx, inner.cap tx) := by
  let both := sortByNonce inner.ready ++ sortByNonce inner.pending
  have ordered : both.Pairwise Before := by
    refine pairwise_append.mpr ⟨sortByNonce_before filter_sublist,
      sortByNonce_before filter_sublist, ?_⟩
    simpa [sortByNonce, mem_insertionSort] using inner.ready_before
  have isBoth (tx) : tx ∈ both ↔ tx ∈ inner.byHash := by
    simp [both, sortByNonce, mem_insertionSort, ready, pending, ← and_or_left]
  have caps : txPrio (fun _ => none) both = both.map fun tx => (tx, inner.cap tx) := by
    conv_rhs => rw [← map_fst_txPrio (fun _ => none) both, map_map]
    refine (map_id _).symm.trans (map_congr_left fun entry member => ?_)
    have isTx : entry.1 ∈ both := map_fst_txPrio _ both ▸ mem_map_of_mem member
    refine Prod.ext rfl (eq_of_forall_le_iff fun prio => ?_)
    simp only [id, Function.comp, le_txPrio_iff ordered member, le_cap_iff, isBoth]
    have own := (isBoth _).mp isTx
    refine ⟨fun ⟨_, lower⟩ => ⟨lower _ own rfl le_rfl, lower⟩, fun ⟨_, lower⟩ => ⟨?_, lower⟩⟩
    simp [carried]
  rw [txPrio_append, map_append] at caps
  exact append_inj caps (by rw [length_map, ← length_map Prod.fst, map_fst_txPrio])

theorem sortGroup_eq
    (caps : txPrio accPrio (sortByNonce txs) = (sortByNonce txs).map fun tx => (tx, inner.cap tx)) :
    sortGroup accPrio txs = inner.sortByRank txs := by
  have sorted := map_insertionSort (Order.Preimage inner.cap (· ≥ ·))
    (Order.Preimage Prod.snd (· ≥ ·)) (fun tx => (tx, inner.cap tx)) (sortByNonce txs)
    fun _ _ _ _ => Iff.rfl
  rw [sortGroup, sortByPrio, caps, ← sorted, map_map]
  exact map_id _

theorem TxStoreInner.inInclusionOrder_eq :
    inner.inInclusionOrder = inner.sortByRank inner.ready ++ inner.sortByRank inner.pending := by
  rw [inInclusionOrder, sortGroup_eq inner _ inner.txPrio_eq.1, sortGroup_eq inner _
    inner.txPrio_eq.2]

end Rank

/-! ### The order of two transactions -/

section

variable {α : Type} {l : List α} {first second : α}

theorem pair_sublist_or (isFirst : first ∈ l) (isSecond : second ∈ l) (ne : first ≠ second) :
    [first, second] <+ l ∨ [second, first] <+ l := by
  obtain ⟨front, back, rfl⟩ := append_of_mem isFirst
  rcases mem_append.mp isSecond with isFront | isBack
  · exact .inr ((singleton_sublist.mpr isFront).append (by simp))
  · have isBack := mem_of_ne_of_mem ne.symm isBack
    exact .inl (((singleton_sublist.mpr isBack).cons_cons first).trans (sublist_append_right ..))

theorem not_pair_sublist_swap (nodup : l.Nodup) (sublist : [first, second] <+ l) :
    ¬ [second, first] <+ l := by
  obtain ⟨front, back, rfl, isFirst, isSecond⟩ := cons_sublist_iff.mp sublist
  have disjoint := disjoint_of_nodup_append nodup
  intro swapped
  obtain ⟨left, right, split, inFront, inBack⟩ := sublist_append_iff.mp swapped
  cases left with
  | nil => exact disjoint isFirst (inBack.mem (by simp [← show [second, first] = right from split]))
  | cons head left =>
    obtain ⟨rfl, -⟩ := cons.inj split
    exact disjoint (inFront.mem mem_cons_self) (singleton_sublist.mp isSecond)

/-- A stable sort puts the smaller one first, or keeps the order of the two. -/
theorem pair_sublist_sort {r : α → α → Prop} [DecidableRel r] [Std.Total r] [IsTrans α r]
    (isFirst : first ∈ l) (isSecond : second ∈ l) (ne : first ≠ second) (related : r first second)
    (ties : r second first → [first, second] <+ l) : [first, second] <+ l.insertionSort r := by
  by_cases tied : r second first
  · exact pair_sublist_insertionSort related (ties tied)
  · refine (pair_sublist_or (by simpa) (by simpa) ne).resolve_right fun swapped => tied ?_
    exact pairwise_iff_forall_sublist.mp (pairwise_insertionSort r l) swapped

end

theorem TxStoreInner.pair_sublist_sortByRank (isFirst : first ∈ txs) (isSecond : second ∈ txs)
    (ne : first ≠ second) (ranks : inner.Ranks first second)
    (ties : inner.Ranks second first → [first, second] <+ txs) :
    [first, second] <+ inner.sortByRank txs := by
  unfold Ranks at ranks ties
  refine pair_sublist_sort (by simpa [sortByNonce]) (by simpa [sortByNonce]) ne
    (show inner.cap first ≥ inner.cap second by omega)
    fun (tied : inner.cap second ≥ inner.cap first) => ?_
  exact pair_sublist_sort isFirst isSecond ne (show first.evmNonce ≤ second.evmNonce by omega)
    fun (tied : second.evmNonce ≤ first.evmNonce) => ties (by omega)

section Group

variable (kept : txs.Sublist inner.byHash)

include kept

theorem TxStoreInner.nodup_sortByRank : (inner.sortByRank txs).Nodup :=
  (inner.distinct_of_perm (inner.sortByRank_perm txs) kept).imp fun ne equal =>
    ne (congrArg _ equal) (congrArg _ equal)

theorem TxStoreInner.ranks_of_sublist (pair : [first, second] <+ inner.sortByRank txs) :
    inner.Ranks first second := by
  have nodup := nodup_sortByRank kept
  have isTx {tx} (member : tx ∈ [first, second]) : tx ∈ txs :=
    (inner.sortByRank_perm txs).mem_iff.mp (pair.mem member)
  by_contra notRanks
  refine not_pair_sublist_swap nodup pair (pair_sublist_sortByRank (isTx (by simp))
    (isTx (by simp)) ?_ (by unfold Ranks at *; omega) fun ranks => absurd ranks notRanks)
  rintro rfl
  exact nodup_iff_sublist.mp nodup _ pair

theorem TxStoreInner.sortByRank_before : (inner.sortByRank txs).Pairwise Before := by
  have perm := inner.sortByRank_perm txs
  refine pairwise_iff_forall_sublist.mpr fun {first second} pair same => ?_
  have ranks := ranks_of_sublist kept pair
  have distinct := pairwise_iff_forall_sublist.mp (inner.distinct_of_perm perm kept) pair same
  by_contra above
  have isTx : second ∈ txs := perm.mem_iff.mp (pair.mem (by simp))
  have cap := cap_le same.symm (kept.mem isTx) (not_lt.mp above)
  unfold Ranks at ranks
  omega

end Group

/-! ### The two directions -/

/-- The order of a greedy list, in terms of pairs: when the first of a pair is popped, the second
one is a front if all that its account has below it was popped before. -/
theorem greedy_iff (ordered : txs.Pairwise Before) (nodup : txs.Nodup) : Greedy txs ↔
    ∀ first second, [first, second] <+ txs →
      (∀ lower ∈ txs, lower.account = second.account → lower.evmNonce < second.evmNonce →
        [lower, first] <+ txs) →
      second.priority ≤ first.priority := by
  induction txs with
  | nil => simp [Greedy]
  | cons tx txs ih =>
    obtain ⟨before, ordered⟩ := pairwise_cons.mp ordered
    obtain ⟨notIn, nodup⟩ := nodup_cons.mp nodup
    have now : ¬ ∃ lower, [lower, tx] <+ tx :: txs := by
      rintro ⟨lower, pair⟩
      rcases cons_sublist_cons'.mp pair with inRest | ⟨-, inRest⟩ <;>
        exact notIn (inRest.mem (by simp))
    rw [Greedy, ih ordered nodup]
    constructor
    · rintro ⟨-, highest, rest⟩ first second pair lower
      rcases cons_sublist_cons'.mp pair with inRest | ⟨rfl, isSecond⟩
      · refine rest first second inRest fun other isOther same below => ?_
        rcases cons_sublist_cons'.mp (lower other (.tail _ isOther) same below) with
          sublist | ⟨rfl, -⟩
        · exact sublist
        · exact absurd isOther notIn
      · refine highest second (singleton_sublist.mp isSecond) fun other isOther same => ?_
        by_contra below
        exact now ⟨other, lower other isOther same (not_le.mp below)⟩
    · intro all
      refine ⟨?_, fun second waits front => ?_, fun first second pair lower => ?_⟩
      · exact forall_mem_cons.mpr ⟨fun _ => le_rfl, fun other waits same =>
          (before other waits same.symm).le⟩
      · exact all tx second ((singleton_sublist.mpr waits).cons_cons tx) fun other isOther same
          below => absurd (front other isOther same) below.not_ge
      · refine all first second (pair.cons tx) (forall_mem_cons.mpr ⟨fun _ _ => ?_, ?_⟩)
        · exact (singleton_sublist.mpr (pair.mem (by simp))).cons_cons tx
        · exact fun other isOther same below => (lower other isOther same below).cons tx

/-- The map can be iterated so that two of its transactions come last. -/
theorem TxStoreInner.exists_iterateLast (isFirst : first ∈ inner.byHash)
    (isSecond : second ∈ inner.byHash) (ne : second ≠ first) :
    ∃ iterated : TxStoreInner, iterated.SameContent inner ∧ [first, second] <+ iterated.byHash ∧
      ∀ lower ∈ inner.byHash, lower ≠ first → lower ≠ second →
        [lower, first] <+ iterated.byHash := by
  let others := (inner.byHash.erase first).erase second
  have perm : (others ++ [first, second]).Perm inner.byHash :=
    calc others ++ [first, second]
      _ ~ first :: second :: others := perm_append_comm
      _ ~ first :: inner.byHash.erase first :=
        (perm_cons_erase ((mem_erase_of_ne ne).mpr isSecond)).symm.cons first
      _ ~ inner.byHash := (perm_cons_erase isFirst).symm
  refine ⟨⟨others ++ [first, second], inner.nextNonce, inner.distinct_of_perm perm (.refl _)⟩,
    ⟨perm, rfl⟩, sublist_append_right .., fun lower isLower neFirst neSecond => ?_⟩
  have isOther : lower ∈ others :=
    (mem_erase_of_ne neSecond).mpr ((mem_erase_of_ne neFirst).mpr isLower)
  exact (singleton_sublist.mpr isOther).append (by simp)

theorem TxStoreInner.rankedByPriority_iff (inner : TxStoreInner) (isGroup : WrappedTx → Bool) :
    (∀ iterated : TxStoreInner, iterated.SameContent inner →
      Greedy (iterated.sortByRank (iterated.byHash.filter isGroup))) ↔
    inner.RankedByPriority (inner.byHash.filter isGroup) := by
  have greedy (iterated : TxStoreInner) :=
    greedy_iff (sortByRank_before (@filter_sublist _ isGroup iterated.byHash))
      (nodup_sortByRank filter_sublist)
  have isTx {iterated : TxStoreInner} (same : iterated.SameContent inner) (tx : WrappedTx) :
      tx ∈ iterated.sortByRank (iterated.byHash.filter isGroup) ↔
        tx ∈ inner.byHash.filter isGroup :=
    ((iterated.sortByRank_perm _).trans (same.byHash.filter isGroup)).mem_iff
  simp only [greedy]
  constructor
  · intro produced first isFirst second isSecond apart ranks lower
    obtain ⟨iterated, same, last, others⟩ := exists_iterateLast (mem_filter.mp isFirst).1
      (mem_filter.mp isSecond).1 (ne_of_apply_ne _ apart.symm)
    -- the two come last, so that ties put them where the procedure may not
    have sorted {left right : WrappedTx} (isLeft : left ∈ inner.byHash.filter isGroup)
        (isRight : right ∈ inner.byHash.filter isGroup) (apart : left.account ≠ right.account)
        (ranks : inner.Ranks left right) (pair : [left, right] <+ iterated.byHash) :
        [left, right] <+ iterated.sortByRank (iterated.byHash.filter isGroup) := by
      have pair : [left, right] <+ iterated.byHash.filter isGroup := by
        simpa [mem_filter.mp isLeft, mem_filter.mp isRight] using pair.filter isGroup
      rw [Ranks, ← same.cap] at ranks
      exact pair_sublist_sortByRank (pair.mem (by simp)) (pair.mem (by simp))
        (ne_of_apply_ne _ apart) ranks fun _ => pair
    refine produced iterated same first second (sorted isFirst isSecond apart ranks last) ?_
    intro other isOther account below
    have isOther := (isTx same other).mp isOther
    have fromFirst : other.account ≠ first.account := account.trans_ne apart.symm
    exact sorted isOther isFirst fromFirst (lower other isOther account below) (others other
      (mem_filter.mp isOther).1 (ne_of_apply_ne _ fromFirst) (ne_of_apply_ne _ below.ne))
  · intro ranked iterated same first second pair lower
    have ranks {left right}
        (pair : [left, right] <+ iterated.sortByRank (iterated.byHash.filter isGroup)) :
        inner.Ranks left right := by
      rw [Ranks, ← same.cap]
      exact ranks_of_sublist filter_sublist pair
    have isFirst := pair.mem (show first ∈ _ by simp)
    have isSecond := pair.mem (show second ∈ _ by simp)
    refine ranked first ((isTx same _).mp isFirst) second ((isTx same _).mp isSecond) ?_
      (ranks pair) fun other isOther account below =>
        ranks (lower other ((isTx same _).mpr isOther) account below)
    intro account
    have below := pairwise_iff_forall_sublist.mp (sortByRank_before filter_sublist) pair account
    exact nodup_iff_sublist.mp (nodup_sortByRank filter_sublist) first
      (lower first isFirst account below)

theorem TxStoreInner.SameContent.produces_iff (same : iterated.SameContent inner) :
    inner.Produces iterated.inInclusionOrder ↔
      Greedy (iterated.sortByRank (iterated.byHash.filter inner.isReady)) ∧
      Greedy (iterated.sortByRank (iterated.byHash.filter (!inner.isReady ·))) := by
  have isReady : iterated.isReady = inner.isReady := by
    funext tx
    simp [TxStoreInner.isReady, same.nextNonce]
  rw [inInclusionOrder_eq, ready, pending, isReady]
  constructor
  · rintro ⟨ready, pending, split, isReady, readyGreedy, -, pendingGreedy⟩
    have length := ((iterated.sortByRank_perm _).trans (same.byHash.filter _)).trans isReady.symm
    obtain ⟨rfl, rfl⟩ := append_inj split length.length_eq
    exact ⟨readyGreedy, pendingGreedy⟩
  · rintro ⟨readyGreedy, pendingGreedy⟩
    exact ⟨_, _, rfl, (iterated.sortByRank_perm _).trans (same.byHash.filter _), readyGreedy,
      (iterated.sortByRank_perm _).trans (same.byHash.filter _), pendingGreedy⟩

/-- Whatever the order in which the map is iterated, the result is an order of the documented
procedure, if and only if the ranks of both groups follow the priorities. -/
theorem inInclusionOrder_produced (inner : TxStoreInner) :
    (∀ iterated : TxStoreInner, iterated.SameContent inner →
      inner.Produces iterated.inInclusionOrder) ↔
    inner.RankedByPriority inner.ready ∧ inner.RankedByPriority inner.pending := by
  rw [TxStoreInner.ready, TxStoreInner.pending, ← inner.rankedByPriority_iff,
    ← inner.rankedByPriority_iff, ← forall₂_and]
  exact forall₂_congr fun iterated same => same.produces_iff

/-- Two accounts with a pending transaction each; account 1 has a ready one of lower
priority. -/
def readyCap (priority : Int) : TxStoreInner where
  byHash := [⟨0, priority, some ⟨1, 0⟩⟩, ⟨1, 10, some ⟨1, 1⟩⟩, ⟨2, 5, some ⟨2, 5⟩⟩]
  nextNonce address := if address = 1 then 1 else 0
  distinct := by simp [WrappedTx.account, WrappedTx.evmNonce]

theorem inInclusionOrder_not_produced : ¬(readyCap 1).Produces (readyCap 1).inInclusionOrder := by
  rintro ⟨ready, pending, split, readyPerm, -, -, greedy⟩
  obtain rfl : ready = _ := perm_singleton.mp readyPerm
  obtain rfl : _ = pending := cons_injective split
  exact absurd (greedy.2.1 ⟨1, 10, some ⟨1, 1⟩⟩ (by decide +kernel)
    (by unfold Front; decide +kernel)) (by decide)

end SeiChain.Mempool
