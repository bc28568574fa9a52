/-
This file proves what the receipt store still has of one height after crashes. A crash
may take receipts that were not flushed although the index lists them; what the table
kept can be read. The keymap repair stops at a key that was put before, which happens
when the last blocks are executed again. It misses nothing of the height, because the
request that the key was in had one of the height before it, as long as the application
does not go back to the height after it has resumed above it. The tags of the height
are all there unless a crash stopped a prune above it between its two writes.
-/

import SeiChain.Receipts.Store

namespace SeiChain.Receipts

open Library List Store Table Nat
open Option hiding mem_map

/-! ### The blocks and the run -/

/-- The receipts of the blocks, from the first one that the store was used for. Executing a block
again gives the same ones, and a transaction is in one block only. -/
structure Chain where
  first : Nat
  first_pos : 0 < first
  records : Nat → List ReceiptRecord
  ofBlock : ∀ block, ∀ record ∈ withReceipts (records block), record.receipt.blockNumber = block
  oneBlock : ∀ first second, ∀ record ∈ withReceipts (records first),
    ∀ other ∈ withReceipts (records second), record.txHash = other.txHash → first = second
  distinctHashes : ∀ block, ((withReceipts (records block)).map Record.txHash).Nodup
  distinctIndices : ∀ block, ((withReceipts (records block)).map (·.receipt.transactionIndex)).Nodup

def Chain.sorted (chain : Chain) (block : Nat) : List Record :=
  sortRecordsByTxIndex (withReceipts (chain.records block))

/-- The application sets the receipts of one block after the other. After a crash it may set blocks
again that it had set, but it does not go back to the given height or below when it had resumed
above it. A crash between the two writes of a prune is one of a prune up to `pruned` at most. -/
def Follows (chain : Chain) (height pruned : Nat) (store : Store) : Event → Prop
  | .reopen _ _ resumed => resumed ≤ store.next ∧ (resumed ≤ height → store.resumed ≤ height)
  | .setReceipts records => records = chain.records store.next
  | .crash => ∀ cutoff ∈ store.pruning, cutoff ≤ pruned
  | _ => True

instance (chain : Chain) (height pruned : Nat) (store : Store) (event : Event) :
    Decidable (Follows chain height pruned store event) := by
  unfold Follows
  split <;> infer_instance

variable {chain : Chain} {block height pruned : Nat} {record : Record}

theorem Chain.mem_sorted :
    record ∈ chain.sorted block ↔ record ∈ withReceipts (chain.records block) :=
  mem_insertionSort _

theorem Chain.sorted_perm (chain : Chain) (block : Nat) :
    (chain.sorted block).Perm (withReceipts (chain.records block)) := perm_insertionSort _ _

variable {records : List Record}

theorem foldl_insertByBlock {done : List Record}
    (same : ∀ record ∈ records, record.receipt.blockNumber = block) :
    records.foldl (fun groups record => insertByBlock record groups) [(block, done)] =
      [(block, done ++ records)] := by
  induction records generalizing done with
  | nil => rw [append_nil, foldl_nil]
  | cons record rest ih =>
    have ofBlock := same record mem_cons_self
    rw [foldl_cons, insertByBlock, if_neg (by omega), if_pos ofBlock,
      ih fun other member => same other (.tail _ member),
      append_assoc, singleton_append]

theorem groups_of_block {records : List ReceiptRecord}
    (same : ∀ record ∈ withReceipts records, record.receipt.blockNumber = block) :
    groupReceiptRecordsByBlock records =
      if withReceipts records = [] then [] else [(block, withReceipts records)] := by
  rw [groupReceiptRecordsByBlock]
  cases split : withReceipts records with
  | nil => rfl
  | cons record =>
    rw [split] at same
    have ofBlock := same record mem_cons_self
    rw [foldl_cons, insertByBlock, ofBlock,
      foldl_insertByBlock fun other member => same other (.tail _ member)]
    rfl

/-! ### The table -/

/-- What holds of a table with the receipts of the chain, and of those of one height in it. The
floor is the lowest height that may be read; the requests from `base` on were put since the table
was opened, for the heights from `resumed` up to `frontier`. -/
structure TableOk (chain : Chain) (height floor base resumed frontier : Nat) (table : Table) :
    Prop where
  content : ∀ request ∈ table.requests, request.records = chain.sorted request.block
  bound : ∀ key index, table.keymap key = some index → index < table.applied ∧
    ∃ request, table.requests[index]? = some request ∧ key ∈ request.keys
  present : ∀ (index : Nat) (request : Request), index < table.applied →
    table.requests[index]? = some request → request.block = height → floor ≤ height →
      ∀ record ∈ request.records, (table.keymap (.tx record.txHash)).isSome
  collected : ∀ (index : Nat) (request : Request), index < table.watermark →
    table.requests[index]? = some request → request.block < floor
  counts : base ≤ table.applied ∧ table.applied ≤ table.flushed ∧
    table.flushed ≤ table.requests.length ∧ table.watermark ≤ table.flushed
  increasing : ∀ (index later : Nat) (request other : Request), base ≤ index → index < later →
    table.requests[index]? = some request → table.requests[later]? = some other →
      request.block < other.block
  within : ∀ (index : Nat) (request : Request), base ≤ index →
    table.requests[index]? = some request → resumed ≤ request.block ∧ request.block < frontier
  current : resumed ≤ height → height < frontier → chain.sorted height ≠ [] →
    ∃ (index : Nat) (request : Request), table.requests[index]? = some request ∧
      request.block = height
  closed : resumed ≤ height → chain.sorted height ≠ [] → ∀ (index : Nat) (request : Request),
    table.requests[index]? = some request → height < request.block →
      ∃ (earlier : Nat) (other : Request), earlier < index ∧
        table.requests[earlier]? = some other ∧ other.block = height

variable {floor base resumed frontier : Nat} {table : Table}
  {Item : Type} {items : List Item} {item : Item} {index : Nat}

theorem getElem?_concat {last : Item} (found : (items ++ [last])[index]? = some item) :
    items[index]? = some item ∨ index = items.length ∧ item = last := by
  rcases lt_or_ge index items.length with inside | outside
  · rw [List.getElem?_append_left inside] at found
    exact .inl found
  · rw [getElem?_append_right outside, getElem?_singleton] at found
    obtain ⟨zero, same⟩ := ite_none_right_eq_some.mp found
    exact .inr ⟨by omega, (some.inj same).symm⟩

theorem getElem?_concat_of_some (last : Item) (found : items[index]? = some item) :
    (items ++ [last])[index]? = some item := by
  rw [List.getElem?_append_left (List.getElem?_eq_some_iff.mp found).1]
  exact found

theorem getElem?_take_iff {count : Nat} :
    (items.take count)[index]? = some item ↔ index < count ∧ items[index]? = some item := by
  rw [getElem?_take, ite_none_right_eq_some]

variable {request : Request} {key : Key}

theorem tx_mem_keys (member : record ∈ request.records) : Key.tx record.txHash ∈ request.keys :=
  .tail _ (mem_map.mpr ⟨record, member, rfl⟩)

theorem TableOk.tx_of_mem {hash : Hash}
    (ok : TableOk chain height floor base resumed frontier table)
    (member : request ∈ table.requests) (hasKey : Key.tx hash ∈ request.keys) :
    ∃ record ∈ withReceipts (chain.records request.block), record.txHash = hash := by
  obtain ⟨record, recordMember, same⟩ := mem_map.mp ((mem_cons.mp hasKey).resolve_left nofun)
  rw [ok.content request member] at recordMember
  exact ⟨record, Chain.mem_sorted.mp recordMember, Key.tx.inj same⟩

/-- A key belongs to one block. -/
theorem TableOk.block_eq {other : Request}
    (ok : TableOk chain height floor base resumed frontier table)
    (member : request ∈ table.requests) (otherMember : other ∈ table.requests)
    (hasKey : key ∈ request.keys) (otherHasKey : key ∈ other.keys) :
    request.block = other.block := by
  cases key with
  | part block part =>
    have ofPart : ∀ {known : Request}, Key.part block part ∈ known.keys → block = known.block := by
      intro known inKeys
      rcases mem_cons.mp inKeys with same | inRecords
      · exact (Key.part.inj same).1
      · obtain ⟨_, _, different⟩ := mem_map.mp inRecords
        cases different
    exact (ofPart hasKey).symm.trans (ofPart otherHasKey)
  | tx hash =>
    obtain ⟨record, recordMember, sameHash⟩ := ok.tx_of_mem member hasKey
    obtain ⟨another, anotherMember, alsoHash⟩ := ok.tx_of_mem otherMember otherHasKey
    exact chain.oneBlock _ _ record recordMember another anotherMember
      (sameHash.trans alsoHash.symm)

variable {keymap : Key → Option Nat}

theorem bindKeys_some {entries : List (Key × Nat)}
    (found : bindKeys keymap entries key = some index) :
    keymap key = some index ∨ (key, index) ∈ entries := by
  induction entries generalizing keymap with
  | nil => exact .inl found
  | cons entry rest ih =>
    rcases ih found with before | later
    · rcases Decidable.em (key = entry.1) with rfl | different
      · rw [bindKey, if_pos rfl] at before
        exact .inr (some.inj before ▸ .head _)
      · rw [bindKey, if_neg different] at before
        exact .inl before
    · exact .inr (.tail _ later)

theorem bindKeys_isSome {entries : List (Key × Nat)}
    (known : (keymap key).isSome ∨ ∃ index, (key, index) ∈ entries) :
    (bindKeys keymap entries key).isSome := by
  induction entries generalizing keymap with
  | nil => exact known.resolve_right fun ⟨_, member⟩ => absurd member not_mem_nil
  | cons entry rest ih =>
    refine ih ?_
    rcases Decidable.em (key = entry.1) with same | different
    · exact .inl (by rw [bindKey, if_pos same]; rfl)
    · rw [bindKey, if_neg different]
      refine known.imp id fun ⟨index, member⟩ => ⟨index, ?_⟩
      rcases mem_cons.mp member with rfl | later
      · exact absurd rfl different
      · exact later

variable {requests : List Request}

section

variable (ok : TableOk chain height floor base resumed frontier table)

include ok

theorem TableOk.put
    (block : request.block = frontier) (records : request.records = chain.sorted frontier)
    (reached : resumed ≤ frontier) :
    TableOk chain height floor base resumed (frontier + 1) (table.put request) where
  content other member := by
    rcases mem_append.mp member with old | new
    · exact ok.content other old
    · rw [mem_singleton] at new
      rw [new, records, block]
  bound key index found := by
    obtain ⟨applied, other, inside, hasKey⟩ := ok.bound key index found
    exact ⟨applied, other, getElem?_concat_of_some _ inside, hasKey⟩
  present index other applied found := by
    rcases getElem?_concat found with old | ⟨atEnd, _⟩
    · exact ok.present index other applied old
    · have counts := ok.counts
      have applied : index < table.applied := applied
      omega
  collected index other below found := by
    rcases getElem?_concat found with old | ⟨atEnd, _⟩
    · exact ok.collected index other below old
    · have counts := ok.counts
      have below : index < table.watermark := below
      omega
  counts := by
    have counts := ok.counts
    simp only [Table.put, List.length_append, List.length_singleton]
    omega
  increasing index later other last from_base before found laterFound := by
    rcases getElem?_concat found with old | ⟨atEnd, _⟩
    · rcases getElem?_concat laterFound with laterOld | ⟨_, rfl⟩
      · exact ok.increasing index later other last from_base before old laterOld
      · exact block ▸ (ok.within index other from_base old).2
    · have inside := (List.getElem?_eq_some_iff.mp laterFound).1
      simp only [Table.put, List.length_append, List.length_singleton] at inside
      omega
  within index other from_base found := by
    rcases getElem?_concat found with old | ⟨_, rfl⟩
    · obtain ⟨lower, upper⟩ := ok.within index other from_base old
      exact ⟨lower, upper.trans (lt_succ_self _)⟩
    · exact ⟨reached.trans block.ge, lt_succ_of_le block.le⟩
  current lower upper nonempty := by
    rcases Nat.lt_succ_iff_lt_or_eq.mp upper with earlier | rfl
    · obtain ⟨index, other, found, same⟩ := ok.current lower earlier nonempty
      exact ⟨index, other, getElem?_concat_of_some _ found, same⟩
    · exact ⟨table.requests.length, request, getElem?_concat_length, block⟩
  closed lower nonempty index other found upper := by
    rcases getElem?_concat found with old | ⟨atEnd, rfl⟩
    · obtain ⟨earlier, another, before, inside, same⟩ :=
        ok.closed lower nonempty index other old upper
      exact ⟨earlier, another, before, getElem?_concat_of_some _ inside, same⟩
    · obtain ⟨earlier, another, inside, same⟩ := ok.current lower (block ▸ upper) nonempty
      exact ⟨earlier, another, atEnd ▸ (List.getElem?_eq_some_iff.mp inside).1,
        getElem?_concat_of_some _ inside, same⟩

/-- A height without receipts puts nothing. -/
theorem TableOk.skip (empty : chain.sorted frontier = []) :
    TableOk chain height floor base resumed (frontier + 1) table :=
  { ok with
    within := fun index request from_base found =>
      (ok.within index request from_base found).imp id fun upper => upper.trans (lt_succ_self _)
    current := fun lower upper nonempty =>
      ok.current lower
        ((Nat.lt_succ_iff_lt_or_eq.mp upper).resolve_right fun same =>
          nonempty (same ▸ empty)) nonempty }

theorem TableOk.flush {flushed : Nat}
    (more : table.flushed ≤ flushed) (inside : flushed ≤ table.requests.length) :
    TableOk chain height floor base resumed frontier { table with flushed } :=
  { ok with
    counts := by
      have counts := ok.counts
      exact ⟨counts.1, counts.2.1.trans more, inside, counts.2.2.2.trans more⟩ }

theorem TableOk.apply (pending : table.applied < table.flushed)
    (next : table.requests[table.applied]? = some request) :
    TableOk chain height floor base resumed frontier (table.apply request) :=
  { ok with
    bound := by
      intro key index found
      rcases bindKeys_some found with old | new
      · obtain ⟨applied, known⟩ := ok.bound key index old
        exact ⟨applied.trans (lt_succ_self _), known⟩
      · obtain ⟨known, hasKey, ⟨⟩⟩ := mem_map.mp new
        exact ⟨lt_succ_self _, request, next, hasKey⟩
    present := by
      intro index other applied found isHeight above record member
      refine bindKeys_isSome ?_
      rcases Nat.lt_succ_iff_lt_or_eq.mp applied with earlier | rfl
      · exact .inl (ok.present index other earlier found isHeight above record member)
      · cases next.symm.trans found
        exact .inr ⟨table.applied, mem_map.mpr ⟨.tx record.txHash, tx_mem_keys member, rfl⟩⟩
    counts := by
      have counts := ok.counts
      exact ⟨counts.1.trans (le_succ _), pending, counts.2.2.1, counts.2.2.2⟩ }

theorem TableOk.collect (durable : table.watermark < table.flushed)
    (next : table.requests[table.watermark]? = some request) (below : request.block < floor) :
    TableOk chain height floor base resumed frontier
      { table with watermark := table.watermark + 1 } :=
  { ok with
    collected := by
      intro index other under found
      rcases Nat.lt_succ_iff_lt_or_eq.mp under with earlier | rfl
      · exact ok.collected index other earlier found
      · cases next.symm.trans found
        exact below
    counts := ⟨ok.counts.1, ok.counts.2.1, ok.counts.2.2.1, durable⟩ }

omit ok in
theorem mem_purgedKeys {reclaimed watermark : Nat}
    (member : key ∈ purgedKeys requests reclaimed watermark) :
    ∃ index request, index < watermark ∧ requests[index]? = some request ∧ key ∈ request.keys := by
  obtain ⟨request, dropped, hasKey⟩ := mem_flatMap.mp member
  obtain ⟨index, found⟩ := List.mem_iff_getElem?.mp (mem_of_mem_drop dropped)
  obtain ⟨below, inside⟩ := getElem?_take_iff.mp found
  exact ⟨index, request, below, inside, hasKey⟩

/-- Keys of collected requests are not needed, also where they are bound to a later request. -/
theorem TableOk.unbind {keys : List Key}
    (purged : ∀ key ∈ keys, ∃ index request, index < table.watermark ∧
      table.requests[index]? = some request ∧ key ∈ request.keys) :
    TableOk chain height floor base resumed frontier
      { table with keymap := unbindKeys table.keymap keys } :=
  { ok with
    bound := by
      intro key index found
      exact ok.bound key index (ite_none_left_eq_some.mp found).2
    present := by
      intro index request applied found isHeight above record member
      have kept : Key.tx record.txHash ∉ keys := by
        intro inKeys
        obtain ⟨gone, other, below, otherFound, hasKey⟩ := purged _ inKeys
        have same := ok.block_eq (mem_of_getElem? otherFound) (mem_of_getElem? found)
          hasKey (tx_mem_keys member)
        have under := ok.collected gone other below otherFound
        omega
      change (if _ then _ else _ : Option Nat).isSome
      rw [if_neg kept]
      exact ok.present index request applied found isHeight above record member }

theorem TableOk.raiseFloor {higher : Nat}
    (le : floor ≤ higher) : TableOk chain height higher base resumed frontier table :=
  { ok with
    present := fun index request applied found isHeight above =>
      ok.present index request applied found isHeight (le.trans above)
    collected := fun index request below found =>
      (ok.collected index request below found).trans_le le }

end

/-! ### The repair -/

theorem mem_keyLog :
    (key, index) ∈ keyLog requests ↔
      ∃ request, requests[index]? = some request ∧ key ∈ request.keys := by
  simp only [keyLog, mem_flatMap, mem_map, Prod.exists, Prod.mk.injEq, mk_mem_zipIdx_iff_getElem?]
  constructor
  · rintro ⟨request, position, found, known, hasKey, rfl, rfl⟩
    exact ⟨request, found, hasKey⟩
  · rintro ⟨request, found, hasKey⟩
    exact ⟨request, index, found, key, hasKey, rfl, rfl⟩

theorem keyLog_pairwise (requests : List Request) :
    (keyLog requests).Pairwise fun first second => first.2 ≤ second.2 := by
  have order : requests.zipIdx.Pairwise fun first second => first.2 < second.2 := by
    rw [← pairwise_map, zipIdx_map_snd]
    exact pairwise_lt_range'
  refine pairwise_flatMap.mpr ⟨fun entry _ => ?_, order.imp fun before => ?_⟩
  · exact pairwise_map.mpr (pairwise_of_forall fun _ _ => le_rfl)
  · intro first firstMember second secondMember
    obtain ⟨_, _, rfl⟩ := mem_map.mp firstMember
    obtain ⟨_, _, rfl⟩ := mem_map.mp secondMember
    exact before.le

/-- What a walk along an ordered list does not reach comes after the item it stopped at. -/
theorem mem_takeWhile_or_stopped {order : Item → Item → Prop} {goesOn : Item → Bool}
    (ordered : items.Pairwise order) (member : item ∈ items) :
    item ∈ items.takeWhile goesOn ∨
      ∃ stop ∈ items, goesOn stop = false ∧ (stop = item ∨ order stop item) := by
  induction items with
  | nil => cases member
  | cons first rest ih =>
    obtain ⟨before, orderedRest⟩ := pairwise_cons.mp ordered
    cases on : goesOn first with
    | false =>
      refine .inr ⟨first, .head _, on, ?_⟩
      exact (mem_cons.mp member).imp Eq.symm (before item)
    | true =>
      rw [takeWhile_cons_of_pos on]
      rcases mem_cons.mp member with rfl | later
      · exact .inl mem_cons_self
      · rcases ih orderedRest later with taken | ⟨stop, stopMember, stopped⟩
        · exact .inl (.tail _ taken)
        · exact .inr ⟨stop, .tail _ stopMember, stopped⟩

/-- A key that the repair does not rescue stands before one of the same or a later request that
the keymap has. -/
theorem rescued_or_stopped {watermark : Nat} (logged : (key, index) ∈ keyLog requests)
    (live : watermark ≤ index) :
    (key, index) ∈ rescued requests watermark keymap ∨
      ∃ stop later, index ≤ later ∧ (stop, later) ∈ keyLog requests ∧ (keymap stop).isSome := by
  have order : ((keyLog requests).filter fun entry => watermark ≤ entry.2).reverse.Pairwise
      fun first second => second.2 ≤ first.2 :=
    pairwise_reverse.mpr ((keyLog_pairwise requests).filter _)
  have member : (key, index) ∈
      ((keyLog requests).filter fun entry => watermark ≤ entry.2).reverse :=
    mem_reverse.mpr (mem_filter.mpr ⟨logged, by simpa using live⟩)
  refine (mem_takeWhile_or_stopped order member).imp id fun ⟨stop, stopMember, known, after⟩ => ?_
  refine ⟨stop.1, stop.2, ?_, (mem_filter.mp (mem_reverse.mp stopMember)).1, by simpa using known⟩
  rcases after with rfl | le
  · exact le_rfl
  · exact le

variable {survivors : Nat}

/-- The repaired keymap has every receipt of the height in the requests that the table kept. -/
theorem TableOk.repaired
    (ok : TableOk chain height floor base resumed frontier table) (live : table.watermark ≤ index)
    (found : (table.requests.take survivors)[index]? = some request)
    (isHeight : request.block = height) (above : floor ≤ height)
    (member : record ∈ request.records) :
    (repairKeymap (table.requests.take survivors) table.watermark table.keymap
      (.tx record.txHash)).isSome := by
  obtain ⟨-, found'⟩ := getElem?_take_iff.mp found
  refine bindKeys_isSome ?_
  rcases lt_or_ge index table.applied with applied | pending
  · exact .inl (ok.present index request applied found' isHeight above record member)
  rcases rescued_or_stopped (mem_keyLog.mpr ⟨request, found, tx_mem_keys member⟩) live
    with rescued | ⟨stop, later, le, logged, known⟩
  · exact .inr ⟨index, rescued⟩
  refine .inl ?_
  -- The walk stopped at a key that an applied request has too, so that one is of the same block
  -- and was put before the table was opened.
  obtain ⟨other, otherFound, stopInOther⟩ := mem_keyLog.mp logged
  obtain ⟨_, otherFound⟩ := getElem?_take_iff.mp otherFound
  obtain ⟨old, bound⟩ := isSome_iff_exists.mp known
  obtain ⟨oldApplied, older, olderFound, stopInOlder⟩ := ok.bound stop old bound
  have sameBlock : older.block = other.block := ok.block_eq (mem_of_getElem? olderFound)
    (mem_of_getElem? otherFound) stopInOlder stopInOther
  have counts := ok.counts
  have content := ok.content request (mem_of_getElem? found')
  rw [isHeight] at content
  have nonempty : chain.sorted height ≠ [] := content ▸ ne_nil_of_mem member
  have resumedBefore := (ok.within index request (counts.1.trans pending) found').1
  obtain ⟨earlier, twin, earlierApplied, twinFound, twinBlock⟩ : ∃ (earlier : Nat)
      (twin : Request), earlier < table.applied ∧ table.requests[earlier]? = some twin ∧
        twin.block = height := by
    rcases lt_or_eq_of_le le with before | rfl
    · have less := ok.increasing index later request other (counts.1.trans pending) before found'
        otherFound
      obtain ⟨earlier, twin, lower, twinFound, twinBlock⟩ := ok.closed (isHeight ▸ resumedBefore)
        nonempty old older olderFound (by omega)
      exact ⟨earlier, twin, lower.trans oldApplied, twinFound, twinBlock⟩
    · cases found'.symm.trans otherFound
      exact ⟨old, older, oldApplied, olderFound, sameBlock.trans isHeight⟩
  refine ok.present earlier twin earlierApplied twinFound twinBlock above record ?_
  rw [ok.content twin (mem_of_getElem? twinFound), twinBlock, ← content]
  exact member

theorem TableOk.reopen {reclaimed next : Nat}
    (ok : TableOk chain height floor base resumed frontier table) (kept : table.flushed ≤ survivors)
    (inside : survivors ≤ table.requests.length)
    (notBack : next ≤ height → resumed ≤ height) :
    TableOk chain height floor survivors next next (table.reopen survivors reclaimed) := by
  have counts := ok.counts
  have length : (table.requests.take survivors).length = survivors := length_take_of_le inside
  have bounded : ∀ (index : Nat) (request : Request),
      (table.requests.take survivors)[index]? = some request → index < survivors :=
    fun index request found => (getElem?_take_iff.mp found).1
  have repaired : TableOk chain height floor survivors next next
      { table.reopen survivors reclaimed with
        keymap := repairKeymap (table.requests.take survivors) table.watermark table.keymap } := by
    refine ⟨?_, ?_, ?_, ?_, ?_, ?_, ?_, ?_, ?_⟩
    · exact fun request member => ok.content request (mem_of_mem_take member)
    · intro key index found
      rcases bindKeys_some found with old | new
      · obtain ⟨applied, request, requestFound, hasKey⟩ := ok.bound key index old
        have early : index < survivors := applied.trans_le (counts.2.1.trans kept)
        exact ⟨early, request, getElem?_take_iff.mpr ⟨early, requestFound⟩, hasKey⟩
      · have logged := (mem_filter.mp (mem_reverse.mp ((takeWhile_sublist _).subset new))).1
        obtain ⟨request, requestFound, hasKey⟩ := mem_keyLog.mp logged
        exact ⟨bounded index request requestFound, request, requestFound, hasKey⟩
    · intro index request _ found isHeight above record member
      refine ok.repaired ?_ found isHeight above member
      by_contra below
      have under := ok.collected index request (not_le.mp below) (getElem?_take_iff.mp found).2
      omega
    · exact fun index request below found =>
        ok.collected index request below (getElem?_take_iff.mp found).2
    · exact ⟨le_rfl, le_rfl, length.ge, counts.2.2.2.trans kept⟩
    · intro index later request other from_base _ found _
      exact absurd (bounded index request found) (not_lt.mpr from_base)
    · intro index request from_base found
      exact absurd (bounded index request found) (not_lt.mpr from_base)
    · exact fun lower upper => absurd upper (not_lt.mpr lower)
    · intro lower nonempty index request found upper
      obtain ⟨early, found⟩ := getElem?_take_iff.mp found
      obtain ⟨earlier, other, before, otherFound, same⟩ :=
        ok.closed (notBack lower) nonempty index request found upper
      exact ⟨earlier, other, before, getElem?_take_iff.mpr ⟨before.trans early, otherFound⟩, same⟩
  exact repaired.unbind fun key member => mem_purgedKeys member

/-! ### The store -/

/-- The height up to which the receipts are in the table. -/
def Store.putUpTo (store : Store) : Nat :=
  match store.call with
  | some { maxBlock := _, groups := [], staged := _ } => store.next + 1
  | _ => store.next

/-- The height from which on the index has its tags. -/
def Store.tagFloor (store : Store) : Nat := max store.earliestVersion (store.pruning.getD 0)

/-- A call sets the receipts of the next height, before or after it has put them. -/
inductive CallOk (chain : Chain) (next : Nat) : Call → Prop
  | writing : CallOk chain next
      { maxBlock := next, groups := [(next, withReceipts (chain.records next))], staged := [] }
  | written : CallOk chain next
      { maxBlock := next, groups := [], staged := stageTagKeys next (chain.sorted next) }

structure StoreOk (chain : Chain) (height pruned base : Nat) (store : Store) : Prop where
  table : TableOk chain height store.earliestVersion base store.resumed store.putUpTo store.table
  resumed : store.resumed ≤ store.next
  staged : pruned ≤ height → height < store.next ∨ height ≤ store.latestVersion →
    store.tagFloor ≤ height → ∀ key ∈ stageTagKeys height (chain.sorted height), key ∈ store.tags
  only : ∀ key ∈ store.tags, key ∈ stageTagKeys key.block (chain.sorted key.block)
  call : ∀ call, store.call = some call → CallOk chain store.next call
  stopped : store.isOpen = false → ∀ cutoff ∈ store.pruning, cutoff ≤ pruned
  rising : ∀ cutoff ∈ store.pruning, store.earliestVersion ≤ cutoff

variable {store after : Store}

theorem block_of_mem_stageTagKeys {key : TagKey}
    (member : key ∈ stageTagKeys block records) : key.block = block := by
  obtain ⟨_, _, ofBlock, _⟩ := mem_stageTagKeys.mp member
  exact ofBlock

theorem mem_foldl_insertTagKey {staged tags : List TagKey} {key : TagKey} :
    key ∈ staged.foldl insertTagKey tags ↔ key ∈ staged ∨ key ∈ tags := by
  induction staged generalizing tags with
  | nil => simp
  | cons other rest ih =>
    rw [foldl_cons, ih, mem_insertTagKey, mem_cons]
    tauto

theorem storeOk_fresh (fromFirst : chain.first ≤ height) :
    StoreOk chain height pruned 0 (.fresh chain.first) where
  table :=
    { content := nofun
      bound := nofun
      present := nofun
      collected := nofun
      counts := ⟨le_rfl, le_rfl, le_rfl, le_rfl⟩
      increasing := nofun
      within := nofun
      current := fun lower upper => absurd upper (not_lt.mpr lower)
      closed := nofun }
  resumed := le_rfl
  staged _ upper := by
    have positive := chain.first_pos
    have upper : height < chain.first ∨ height ≤ 0 := upper
    omega
  only _ member := absurd member not_mem_nil
  call := nofun
  stopped := nofun
  rising := nofun

section

variable (ok : StoreOk chain height pruned base store)

include ok

/-- The table changes and nothing else does. -/
theorem StoreOk.withTable {table : Table} (tableOk : TableOk chain height store.earliestVersion base
      store.resumed store.putUpTo table) : StoreOk chain height pruned base { store with table } :=
  { ok with table := tableOk }

theorem StoreOk.reopen {resumed : Nat} (reclaimed : Nat)
    (isClosed : store.isOpen = false) (kept : store.table.flushed ≤ survivors)
    (inside : survivors ≤ store.table.requests.length)
    (follows : resumed ≤ store.next ∧ (resumed ≤ height → store.resumed ≤ height)) :
    StoreOk chain height pruned survivors { store with
      isOpen := true, table := store.table.reopen survivors reclaimed, call := none,
      pruning := none, resumed, next := resumed } where
  table := ok.table.reopen kept inside follows.2
  resumed := le_rfl
  staged untouched upper above := by
    refine ok.staged untouched (upper.imp (fun below => below.trans_le follows.1) id) ?_
    refine max_le (le_of_max_le_left above) ?_
    cases pruning : store.pruning with
    | none => exact zero_le _
    | some cutoff => exact (ok.stopped isClosed cutoff pruning).trans untouched
  only := ok.only
  call := nofun
  stopped := nofun
  rising := nofun

theorem StoreOk.setReceipts (idle : store.call = none) :
    StoreOk chain height pruned base (store.setReceipts (chain.records store.next)) := by
  have upTo : store.putUpTo = store.next := by rw [putUpTo, idle]
  have table := ok.table
  rw [upTo] at table
  have groups := groups_of_block (chain.ofBlock store.next)
  rw [Store.setReceipts]
  by_cases none : withReceipts (chain.records store.next) = []
  · have empty : chain.sorted store.next = [] :=
      eq_nil_of_length_eq_zero (by rw [(chain.sorted_perm _).length_eq, none]; rfl)
    rw [groups, if_pos none]
    refine { ok with
      table := ?_, resumed := ok.resumed.trans (le_succ _), staged := ?_, call := ?_ }
    · have skipped := table.skip empty
      simpa only [putUpTo, idle] using skipped
    · intro untouched upper above key member
      by_cases same : height = store.next
      · rw [same, empty] at member
        cases member
      · refine ok.staged untouched ?_ above key member
        have upper : height < store.next + 1 ∨ height ≤ max store.latestVersion store.next := upper
        omega
    · intro call pending
      exact absurd (idle.symm.trans pending) nofun
  · rw [groups, if_neg none]
    refine { ok with table := ?_, call := ?_ }
    · simpa only [putUpTo] using table
    · intro call pending
      cases pending
      exact .writing

theorem StoreOk.writeBlock {call : Call} {part : Nat} (pending : store.call = some call)
    {rest : List (Nat × List Record)} (groups : call.groups = (block, records) :: rest)
    (written : store.writeBlock call part block records rest = some after) :
    StoreOk chain height pruned base after := by
  cases ok.call call pending with
  | written => cases groups
  | writing =>
    cases groups
    have upTo : store.putUpTo = store.next := by rw [putUpTo, pending]
    have table := ok.table
    rw [upTo] at table
    obtain ⟨_, written⟩ := ite_none_right_eq_some.mp written
    split at written
    · cases written
      refine { ok with table := table.put rfl rfl ok.resumed, call := ?_ }
      intro call now
      cases now
      exact .written
    · cases written
      refine { ok with table := ?_, call := nofun }
      simpa only [putUpTo] using table

theorem StoreOk.commitIndex {maxBlock : Nat} {staged : List TagKey}
    (pending : store.call = some { maxBlock, groups := [], staged }) :
    StoreOk chain height pruned base { store with
      tags := staged.foldl insertTagKey store.tags
      latestVersion := max store.latestVersion maxBlock
      call := none
      next := store.next + 1 } := by
  have upTo : store.putUpTo = store.next + 1 := by rw [putUpTo, pending]
  have table := ok.table
  rw [upTo] at table
  cases ok.call _ pending with
  | written =>
    refine { ok with
      table := ?_, resumed := ok.resumed.trans (le_succ _), staged := ?_, only := ?_,
      call := nofun }
    · simpa only [putUpTo] using table
    · intro untouched upper above key member
      rw [mem_foldl_insertTagKey]
      by_cases same : height = store.next
      · exact .inl (same ▸ member)
      · refine .inr (ok.staged untouched ?_ above key member)
        have upper : height < store.next + 1 ∨ height ≤ max store.latestVersion store.next := upper
        omega
    · intro key member
      rcases mem_foldl_insertTagKey.mp member with new | old
      · rw [block_of_mem_stageTagKeys new]
        exact new
      · exact ok.only key old

theorem StoreOk.pruneTags {cutoff : Nat}
    (isOpen : store.isOpen = true) (idle : store.pruning = none)
    (higher : store.earliestVersion < cutoff) :
    StoreOk chain height pruned base { store with
      tags := store.tags.filter fun key =>
        ¬ (store.earliestVersion ≤ key.block ∧ key.block < cutoff)
      pruning := some cutoff } := by
  refine { ok with staged := ?_, only := ?_, stopped := ?_, rising := ?_ }
  · intro untouched upper above key member
    have above : max store.earliestVersion cutoff ≤ height := above
    have ofBlock := block_of_mem_stageTagKeys member
    refine mem_filter.mpr ⟨ok.staged untouched upper ?_ key member, ?_⟩
    · rw [tagFloor, idle]
      exact max_le (by omega) (zero_le _)
    · simp only [decide_not, Bool.not_eq_true', decide_eq_false_iff_not]
      omega
  · exact fun key member => ok.only key (mem_filter.mp member).1
  · exact fun isClosed => absurd (isOpen.symm.trans isClosed) nofun
  · intro known same
    exact some.inj same ▸ higher.le

theorem StoreOk.pruneFloor {cutoff : Nat} (pruning : store.pruning = some cutoff) :
    StoreOk chain height pruned base { store with earliestVersion := cutoff, pruning := none } := by
  have higher := ok.rising cutoff pruning
  refine { ok with
    table := ok.table.raiseFloor higher, staged := ?_, stopped := nofun, rising := nofun }
  intro untouched upper above key member
  refine ok.staged untouched upper ?_ key member
  have above : max cutoff 0 ≤ height := above
  rw [tagFloor, pruning]
  exact max_le (higher.trans (by omega)) (by simpa using above)

theorem StoreOk.step {event : Event}
    (follows : Follows chain height pruned store event) (stepped : store.step event = some after) :
    ∃ base, StoreOk chain height pruned base after := by
  cases event with
  | reopen survivors reclaimed =>
    obtain ⟨⟨isClosed, kept, inside, _⟩, ⟨⟩⟩ := ite_none_right_eq_some.mp stepped
    exact ⟨survivors, ok.reopen reclaimed (by simpa using isClosed) kept inside follows⟩
  | setReceipts =>
    obtain ⟨⟨_, idle⟩, ⟨⟩⟩ := ite_none_right_eq_some.mp stepped
    subst follows
    exact ⟨base, ok.setReceipts (isNone_iff_eq_none.mp idle)⟩
  | writeBlock =>
    simp only [Store.step] at stepped
    split at stepped
    next _ pending => exact ⟨base, ok.writeBlock pending rfl stepped⟩
    next => cases stepped
  | commitIndex =>
    simp only [Store.step] at stepped
    split at stepped
    next _ pending =>
      cases stepped
      exact ⟨base, ok.commitIndex pending⟩
    next => cases stepped
  | flush =>
    obtain ⟨⟨_, more, inside⟩, ⟨⟩⟩ := ite_none_right_eq_some.mp stepped
    exact ⟨base, ok.withTable (ok.table.flush more inside)⟩
  | applyKeys =>
    obtain ⟨⟨_, pending⟩, mapped⟩ := ite_none_right_eq_some.mp stepped
    obtain ⟨request, next, ⟨⟩⟩ := map_eq_some_iff.mp mapped
    exact ⟨base, ok.withTable (ok.table.apply pending next)⟩
  | collect =>
    obtain ⟨request, next, chosen⟩ := bind_eq_some_iff.mp stepped
    obtain ⟨⟨_, durable, below⟩, ⟨⟩⟩ := ite_none_right_eq_some.mp chosen
    have below : request.block < store.earliestVersion := by
      simpa using (Bool.and_eq_true_iff.mp below).2
    exact ⟨base, ok.withTable (ok.table.collect durable next below)⟩
  | deleteKeys =>
    obtain ⟨⟨_, purged⟩, ⟨⟩⟩ := ite_none_right_eq_some.mp stepped
    exact ⟨base, ok.withTable (ok.table.unbind fun key member => mem_purgedKeys (purged key member))⟩
  | pruneTags cutoff =>
    obtain ⟨⟨isOpen, idle, higher⟩, ⟨⟩⟩ := ite_none_right_eq_some.mp stepped
    exact ⟨base, ok.pruneTags isOpen (isNone_iff_eq_none.mp idle) higher⟩
  | pruneFloor =>
    obtain ⟨_, mapped⟩ := ite_none_right_eq_some.mp stepped
    obtain ⟨cutoff, pruning, ⟨⟩⟩ := map_eq_some_iff.mp mapped
    exact ⟨base, ok.pruneFloor pruning⟩
  | crash =>
    obtain ⟨_, ⟨⟩⟩ := ite_none_right_eq_some.mp stepped
    exact ⟨base, { ok with stopped := fun _ => follows }⟩

end

/-- What holds in every state of a run. -/
def IsStoreOk (chain : Chain) (height pruned : Nat) (store : Store) : Prop :=
  ∃ base, StoreOk chain height pruned base store

theorem isStoreOk_of_reaches (fromFirst : chain.first ≤ height)
    (reached : Reaches step (Follows chain height pruned) (.fresh chain.first) store) :
    IsStoreOk chain height pruned store := by
  refine reached.invariant ⟨0, storeOk_fresh fromFirst⟩ fun _ _ _ held follows stepped => ?_
  obtain ⟨base, ok⟩ := held
  exact ok.step follows stepped

/-! ### Reads -/

/-- A receipt of a live request is read from its own or from another request of its block. -/
theorem TableOk.readReceipt
    (ok : TableOk chain height floor base resumed frontier table) (noCache : table.unflushed = [])
    (complete : table.applied = table.requests.length) (member : request ∈ table.requests)
    (isHeight : request.block = height) (above : floor ≤ height)
    (recordMember : record ∈ request.records) :
    readReceipt table record.txHash = some record.receipt := by
  obtain ⟨index, found⟩ := List.mem_iff_getElem?.mp member
  have applied : index < table.applied := complete ▸ (List.getElem?_eq_some_iff.mp found).1
  obtain ⟨source, bound⟩ := isSome_iff_exists.mp
    (ok.present index request applied found isHeight above record recordMember)
  obtain ⟨_, other, otherFound, hasKey⟩ := ok.bound _ source bound
  have sameBlock :=
    ok.block_eq (mem_of_getElem? otherFound) member hasKey (tx_mem_keys recordMember)
  have live : table.watermark ≤ source := by
    by_contra below
    have under := ok.collected source other (not_le.mp below) otherFound
    omega
  have sameRecords : other.records = request.records := by
    rw [ok.content other (mem_of_getElem? otherFound), ok.content request member, sameBlock]
  have located : table.locate (.tx record.txHash) = some other := by
    rw [locate, noCache, bound]
    exact (if_pos live).trans otherFound
  have distinct : (request.records.map Record.txHash).Nodup := by
    rw [ok.content request member]
    exact ((chain.sorted_perm _).map _).nodup_iff.mpr (chain.distinctHashes _)
  have unique : request.records.find? (fun another => another.txHash = record.txHash) =
      some record := by
    have isFound : (request.records.find? fun another => another.txHash = record.txHash).isSome :=
      find?_isSome.mpr ⟨record, recordMember, decide_eq_true rfl⟩
    obtain ⟨another, foundRecord⟩ := isSome_iff_exists.mp isFound
    rw [foundRecord, inj_on_of_nodup_map distinct (mem_of_find?_eq_some foundRecord)
      recordMember (by simpa using find?_some foundRecord)]
  rw [Store.readReceipt, located, bind_some, sameRecords, unique, map_some]

/-- A receipt of a height without a request is not found. -/
theorem TableOk.readReceipt_eq_none
    (ok : TableOk chain height floor base resumed frontier table) (noCache : table.unflushed = [])
    (lost : ∀ request ∈ table.requests, request.block ≠ block)
    (recordMember : record ∈ chain.sorted block) :
    Store.readReceipt table record.txHash = none := by
  have unbound : table.keymap (.tx record.txHash) = none := by
    rw [eq_none_iff_forall_ne_some]
    intro index bound
    obtain ⟨_, request, found, hasKey⟩ := ok.bound _ index bound
    have member := mem_of_getElem? found
    obtain ⟨other, otherMember, same⟩ := ok.tx_of_mem member hasKey
    exact lost request member (chain.oneBlock _ _ other otherMember record
      (Chain.mem_sorted.mp recordMember) same)
  rw [Store.readReceipt, locate, noCache, unbound]
  rfl

/-- After a restart every receipt of a height that the table kept a request of, which it did if one
was flushed, can be read by its hash and its logs are found, if the height lies between the earliest
and the latest version. If the table kept none, the receipts of the height are not found. -/
theorem kept_receipts_readable (chain : Chain) {height pruned : Nat} {store opened : Store}
    {survivors reclaimed resumed : Nat} (fromFirst : chain.first ≤ height)
    (reached : Reaches step (Follows chain height pruned) (.fresh chain.first) store)
    (resumes : Follows chain height pruned store (.reopen survivors reclaimed resumed))
    (reopened : store.step (.reopen survivors reclaimed resumed) = some opened) :
    store.table.requests.take store.table.flushed <+: opened.table.requests ∧
    (∀ request ∈ opened.table.requests, request.block = height →
      opened.earliestVersion ≤ height → height ≤ opened.latestVersion →
      request.records = chain.sorted height ∧
      ∀ entry ∈ withLogStarts 0 (chain.sorted height),
        opened.getReceiptFromStore entry.1.txHash = some entry.1.receipt ∧
        (pruned ≤ height → ∀ log ∈ entry.1.receipt.logs, ∀ crit fromBlock toBlock,
          fromBlock ≤ height → height ≤ toBlock →
          matchLog (convertLog log entry.1.receipt entry.2) crit = true →
          convertLog log entry.1.receipt entry.2 ∈ opened.filterLogs fromBlock toBlock crit)) ∧
    ((∀ request ∈ opened.table.requests, request.block ≠ height) →
      ∀ record ∈ chain.sorted height, opened.getReceiptFromStore record.txHash = none) := by
  obtain ⟨base, before⟩ := isStoreOk_of_reaches fromFirst reached
  obtain ⟨⟨isClosed, kept, inside, _⟩, same⟩ := ite_none_right_eq_some.mp reopened
  have ok := before.reopen reclaimed (by simpa using isClosed) kept inside resumes
  cases same
  refine ⟨take_prefix_take_left kept, fun request member isHeight above upTo => ?_,
    fun lost record recordMember => ?_⟩
  · have content : request.records = chain.sorted height :=
      isHeight ▸ ok.table.content request member
    refine ⟨content, fun entry entryMember => ?_⟩
    have recordMember := fst_mem_of_mem_withLogStarts entryMember
    have readable := ok.table.readReceipt rfl (length_take_of_le inside).symm member isHeight above
      (content ▸ recordMember)
    have ofBlock := chain.ofBlock height entry.1 (Chain.mem_sorted.mp recordMember)
    refine ⟨?_, fun untouched log logMember crit fromBlock toBlock lower upper matched => ?_⟩
    · rw [getReceiptFromStore, readable, filter_some, ofBlock]
      refine if_pos ?_
      simp only [belowRetentionFloor, Bool.not_eq_true', Bool.and_eq_false_iff]
      exact .inr (decide_eq_false (not_lt.mpr above))
    · have indexed : Indexed store.tags height (chain.sorted height) := by
        refine ⟨ok.staged untouched (.inr upTo) (max_le above (zero_le _)), ?_⟩
        intro key keyMember keyBlock
        exact keyBlock ▸ ok.only key keyMember
      have distinct := ((chain.sorted_perm height).map
        (·.receipt.transactionIndex)).nodup_iff.mpr (chain.distinctIndices _)
      rw [filterLogs, mem_flatMap]
      refine ⟨height, mem_range'_1.mpr ?_,
        mem_blockLogs indexed distinct entryMember logMember readable matched⟩
      omega
  · rw [getReceiptFromStore, ok.table.readReceipt_eq_none rfl lost recordMember, filter_none]

/-! ### Two blocks -/

def sampleLog : Log := { address := 5, topics := [], data := [], index := 0 }

def sampleReceipt (block : Nat) : Receipt :=
  { blockNumber := block, transactionIndex := 0, txHash := .ofNat 256 block, logs := [sampleLog] }

/-- The first two blocks have one transaction with one log each; the others are empty. -/
def sampleRecords (block : Nat) : List ReceiptRecord :=
  if block ≤ 2 then [{ txHash := .ofNat 256 block, receipt := some (sampleReceipt block) }] else []

theorem mem_sampleRecords {record : Record} (member : record ∈ withReceipts (sampleRecords block)) :
    block ≤ 2 ∧ record = { txHash := .ofNat 256 block, receipt := sampleReceipt block } := by
  unfold sampleRecords at member
  split at member
  next few => exact ⟨few, mem_singleton.mp member⟩
  next => cases member

def sampleChain : Chain where
  first := 1
  first_pos := one_pos
  records := sampleRecords
  ofBlock block record member := (mem_sampleRecords member).2 ▸ rfl
  oneBlock first second record member other otherMember same := by
    obtain ⟨_, rfl⟩ := mem_sampleRecords member
    obtain ⟨_, rfl⟩ := mem_sampleRecords otherMember
    have equal := congrArg BitVec.toNat same
    simp only [BitVec.toNat_ofNat] at equal
    omega
  distinctHashes block := by
    unfold sampleRecords
    split <;> simp [withReceipts]
  distinctIndices block := by
    unfold sampleRecords
    split <;> simp [withReceipts]

/-- The receipts of a block are set. -/
def setBlock (block part : Nat) : List Event :=
  [.setReceipts (sampleRecords block), .writeBlock part, .commitIndex]

def sampleRequest (block part : Nat) : Request :=
  { block, part, records := [{ txHash := .ofNat 256 block, receipt := sampleReceipt block }] }

/-- The first block is executed again after a crash, and there is another crash before the keymap
has the keys of the second part. -/
def twiceExecuted : List Event :=
  [.reopen 0 0 1] ++ setBlock 1 0 ++ [.flush 1, .applyKeys, .crash, .reopen 1 0 1] ++
    setBlock 1 1 ++ [.flush 2, .crash]

theorem kept_receipts_readable_twice :
    ∃ opened : Store, opened.latestVersion = 1 ∧
      opened.getReceiptFromStore 1 = some (sampleReceipt 1) ∧
      convertLog sampleLog (sampleReceipt 1) 0 ∈
        opened.filterLogs 1 1 { addresses := [], topics := [] } := by
  obtain ⟨store, reached, resumes, opened, reopened, latest, earliest, requests⟩ : ∃ store,
      Reaches step (Follows sampleChain 1 0) (.fresh 1) store ∧
      Follows sampleChain 1 0 store (.reopen 2 0 1) ∧
      ∃ opened ∈ store.step (.reopen 2 0 1), opened.latestVersion = 1 ∧
        opened.earliestVersion = 0 ∧
        opened.table.requests = [sampleRequest 1 0, sampleRequest 1 1] :=
    exists_reaches twiceExecuted (by decide +kernel)
  have readable := (kept_receipts_readable sampleChain le_rfl reached resumes reopened).2.1
  have entries := (readable (sampleRequest 1 1) (by rw [requests]; decide) rfl
    (earliest ▸ zero_le _) latest.ge).2
  obtain ⟨got, logs⟩ := entries ({ txHash := 1, receipt := sampleReceipt 1 }, 0) mem_cons_self
  exact ⟨opened, latest, got,
    logs (zero_le _) sampleLog mem_cons_self _ 1 1 le_rfl le_rfl (by decide)⟩

/-- The receipts of the first block are set, but not flushed, when the process dies. -/
def unflushedRun : List Event := [.reopen 0 0 1] ++ setBlock 1 0 ++ [.crash, .reopen 0 0 1]

/-- The first block is lost, and the application goes on with the second one. Then it goes back to
the first one, and the keys of the two are not in the keymap when the process dies. -/
def resumedBelow : List Event :=
  [.reopen 0 0 1] ++ setBlock 1 0 ++ [.crash, .reopen 0 0 2] ++ setBlock 2 0 ++
    [.flush 1, .applyKeys, .crash, .reopen 1 0 1] ++ setBlock 1 0 ++ setBlock 2 1 ++
    [.flush 3, .crash, .reopen 3 0 3]

/-- The process dies after a prune has deleted the tags of the first block. -/
def halfPruned : List Event :=
  [.reopen 0 0 1] ++ setBlock 1 0 ++ setBlock 2 0 ++
    [.flush 2, .pruneTags 2, .crash, .reopen 2 0 3]

/-- Three ways to lose what was set: the table has no request of the block; it has a flushed one
that the repair does not reach; the tags are gone while the floor is below the block. -/
theorem unflushed_receipt_lost :
    (∃ opened, runEvents step (.fresh 1) unflushedRun = some opened ∧
      opened.earliestVersion ≤ 1 ∧ 1 ≤ opened.latestVersion ∧
      opened.getReceiptFromStore 1 = none) ∧
    (∃ opened, runEvents step (.fresh 1) resumedBelow = some opened ∧
      opened.earliestVersion ≤ 1 ∧ 1 ≤ opened.latestVersion ∧
      sampleRequest 1 0 ∈ opened.table.requests ∧ opened.getReceiptFromStore 1 = none) ∧
    ∃ opened, runEvents step (.fresh 1) halfPruned = some opened ∧
      opened.earliestVersion ≤ 1 ∧ 1 ≤ opened.latestVersion ∧
      opened.getReceiptFromStore 1 = some (sampleReceipt 1) ∧
      opened.filterLogs 1 1 { addresses := [5], topics := [] } = [] := by
  refine ⟨⟨_, rfl, ?_⟩, ⟨_, rfl, ?_⟩, ⟨_, rfl, ?_⟩⟩ <;> decide +kernel

end SeiChain.Receipts
