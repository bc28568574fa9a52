/-
This file models the multiversion store of the optimistic executor and what it
represents. For every key there is a tree of versions, one for each transaction that
wrote the key, and for every transaction the list of its keys. A transaction that
runs again replaces its writes; a version of a key that it writes again is left in
the tree to be overwritten. After any sequence of calls a tree has a version exactly
where the last call for the transaction has one, so that the lookups find the latest
write before a transaction, and the final write hands down the latest write of each
key.
-/

import Mathlib.Data.List.Induction
import SeiChain.Library.Maps

namespace SeiChain.MultiVersion

open Std Library List Option

variable {K V : Type} [Ord K] [TransOrd K] [LawfulEqOrd K]

/-! ### Versions of one key -/

/-- A version of a key. A version without a value is a deletion or an estimate. -/
structure ValueItem (V : Type) where
  index : Nat
  incarnation : Int
  value : Option V
  estimate : Bool
  deriving DecidableEq, Repr

namespace ValueItem

def isDeleted (item : ValueItem V) : Bool := item.value.isNone && !item.estimate

def isEstimate (item : ValueItem V) : Bool := item.estimate

end ValueItem

def newValueItem (index : Nat) (incarnation : Int) (value : V) : ValueItem V where
  index := index
  incarnation := incarnation
  value := some value
  estimate := false

def newEstimateItem (index : Nat) (incarnation : Int) : ValueItem V where
  index := index
  incarnation := incarnation
  value := none
  estimate := true

def newDeletedItem (index : Nat) (incarnation : Int) : ValueItem V where
  index := index
  incarnation := incarnation
  value := none
  estimate := false

/-- The tree of versions, ordered by the indices of the transactions. -/
abbrev MultiVersionItem (V : Type) := ExtTreeMap Nat (ValueItem V)

namespace MultiVersionItem

def getLatestNonEstimate (item : MultiVersionItem V) : Option (ValueItem V) :=
  (lastEntry item fun _ version => !version.isEstimate).map Prod.snd

/-- The walk down from the pivot `index - 1`. -/
def getLatestBeforeIndex (item : MultiVersionItem V) (index : Nat) : Option (ValueItem V) :=
  (lastEntry item fun other _ => (other : Int) ≤ (index : Int) - 1).map Prod.snd

end MultiVersionItem

/-! ### The store -/

/-- What a transaction writes; a key without a value is deleted. -/
abbrev WriteSet (K V : Type) [Ord K] := ExtTreeMap K (Option V)

structure Store (K V : Type) [Ord K] where
  multiVersionMap : ExtTreeMap K (MultiVersionItem V) := ∅
  txWritesetKeys : ExtTreeMap Nat (List K) := ∅

variable (store : Store K V) (index : Nat) (incarnation : Int) (parent : ExtTreeMap K V)

namespace Store

def getLatestBeforeIndex (store : Store K V) (index : Nat) (key : K) : Option (ValueItem V) :=
  store.multiVersionMap[key]?.bind (·.getLatestBeforeIndex index)

/-- One round of the loop of `removeOldWriteset`. -/
def removeOld (newWriteSet : WriteSet K V) (map : ExtTreeMap K (MultiVersionItem V)) (key : K) :
    ExtTreeMap K (MultiVersionItem V) :=
  if newWriteSet.contains key then map
  else match map[key]? with
    | none => map
    | some item => map.insert key (item.erase index)

def removeOldWriteset (newWriteSet : WriteSet K V) : Store K V :=
  match store.txWritesetKeys[index]? with
  | none => store
  | some keys => {
      multiVersionMap := keys.foldl (removeOld index newWriteSet) store.multiVersionMap
      txWritesetKeys := store.txWritesetKeys.erase index }

/-- Put a version into the tree of its key, which is made if there is none. -/
def putVersion (map : ExtTreeMap K (MultiVersionItem V)) (version : K × ValueItem V) :
    ExtTreeMap K (MultiVersionItem V) :=
  map.insert version.1 ((map[version.1]?.getD ∅).insert version.2.index version.2)

/-- The part that `SetWriteset` and `SetEstimatedWriteset` share: `item` is the version that is
put for a value of the write set. -/
def replaceWriteset (writeset : WriteSet K V) (item : Option V → ValueItem V) : Store K V :=
  let removed := store.removeOldWriteset index writeset
  { multiVersionMap := (writeset.toList.map fun write => (write.1, item write.2)).foldl putVersion
      removed.multiVersionMap
    txWritesetKeys := removed.txWritesetKeys.insert index writeset.keys }

/-- A value that is missing deletes the key. -/
def writtenItem : Option V → ValueItem V
  | none => newDeletedItem index incarnation
  | some value => newValueItem index incarnation value

def setWriteset (writeset : WriteSet K V) : Store K V :=
  store.replaceWriteset index writeset (writtenItem index incarnation)

def setEstimatedWriteset (writeset : WriteSet K V) : Store K V :=
  store.replaceWriteset index writeset fun _ => newEstimateItem index incarnation

def invalidateWriteset : Store K V :=
  match store.txWritesetKeys[index]? with
  | none => store
  | some keys => { store with
      multiVersionMap := (keys.map fun key => (key, newEstimateItem index incarnation)).foldl
        putVersion store.multiVersionMap }

/-- One round of the loop of `WriteLatestToStore`; `none` is its panic. -/
def writeLatest (entry : K × MultiVersionItem V) : Option (ExtTreeMap K V) :=
  match entry.2.getLatestNonEstimate with
  | none => some parent
  | some item =>
    if item.isEstimate then none
    else if item.isDeleted then some (parent.erase entry.1)
    else match item.value with
      | none => some parent
      | some value => some (parent.insert entry.1 value)

def writeLatestToStore : Option (ExtTreeMap K V) :=
  store.multiVersionMap.toList.foldlM writeLatest parent

end Store

/-! ### Calls -/

inductive Call (K V : Type) [Ord K] where
  | setWriteset (index : Nat) (incarnation : Int) (writeset : WriteSet K V)
  | setEstimatedWriteset (index : Nat) (incarnation : Int) (writeset : WriteSet K V)
  | invalidateWriteset (index : Nat) (incarnation : Int)

def Store.apply : Call K V → Store K V
  | .setWriteset index incarnation writeset => store.setWriteset index incarnation writeset
  | .setEstimatedWriteset index incarnation writeset =>
    store.setEstimatedWriteset index incarnation writeset
  | .invalidateWriteset index incarnation => store.invalidateWriteset index incarnation

def storeAfter (calls : List (Call K V)) : Store K V := calls.foldl Store.apply {}

/-- What a call for `index` makes of the version of a key, `old` being the one before. -/
def Call.version (key : K) (old : Option (ValueItem V)) : Call K V → Option (ValueItem V)
  | .setWriteset target incarnation writeset =>
    if target = index then writeset[key]?.map (Store.writtenItem target incarnation) else old
  | .setEstimatedWriteset target incarnation writeset =>
    if target = index then writeset[key]?.map fun _ => newEstimateItem target incarnation else old
  | .invalidateWriteset target incarnation =>
    if target = index then old.map fun _ => newEstimateItem target incarnation else old

/-- The version of a key that the last call for `index` leaves. -/
def lastVersion (calls : List (Call K V)) (index : Nat) (key : K) : Option (ValueItem V) :=
  calls.foldl (Call.version index key) none

/-! ### What the store represents -/

/-- The version of `key` at `index`. -/
def versionAt (map : ExtTreeMap K (MultiVersionItem V)) (index : Nat) (key : K) :
    Option (ValueItem V) :=
  map[key]?.bind (·[index]?)

def Store.writesetKeys : List K := store.txWritesetKeys[index]?.getD []

/-- The trees have the versions of `view`, and the key lists name them. -/
structure Represents (view : Nat → K → Option (ValueItem V)) : Prop where
  versions : ∀ index key, versionAt store.multiVersionMap index key = view index key
  keys : ∀ index key, key ∈ store.writesetKeys index ↔ (view index key).isSome

variable {map : ExtTreeMap K (MultiVersionItem V)} {index other : Nat} {key : K}

theorem versionAt_putVersion_of_ne {version : K × ValueItem V}
    (elsewhere : version.1 = key → version.2.index ≠ other) :
    versionAt (Store.putVersion map version) other key = versionAt map other key := by
  unfold versionAt Store.putVersion
  by_cases sameKey : version.1 = key
  · subst sameKey
    cases map[version.1]? <;> simp [ExtTreeMap.getElem?_insert, elsewhere rfl]
  · simp [ExtTreeMap.getElem?_insert, sameKey]

theorem versionAt_putAll_of_ne {versions : List (K × ValueItem V)}
    (elsewhere : ∀ version ∈ versions, version.1 = key → version.2.index ≠ other) :
    versionAt (versions.foldl Store.putVersion map) other key = versionAt map other key := by
  induction versions generalizing map with
  | nil => rfl
  | cons version rest ih =>
    rw [foldl_cons, ih fun later member => elsewhere later (mem_cons_of_mem _ member)]
    exact versionAt_putVersion_of_ne (elsewhere version mem_cons_self)

variable {item : ValueItem V}

theorem versionAt_putAll {versions : List (K × ValueItem V)}
    (member : (key, item) ∈ versions) (unique : ∀ again, (key, again) ∈ versions → again = item) :
    versionAt (versions.foldl Store.putVersion map) item.index key = some item := by
  induction versions generalizing map with
  | nil => exact nomatch member
  | cons version rest ih =>
    rw [foldl_cons]
    by_cases inRest : (key, item) ∈ rest
    · exact ih inRest fun again later => unique again (mem_cons_of_mem _ later)
    · obtain rfl := (mem_cons.mp member).resolve_right inRest
      rw [versionAt_putAll_of_ne]
      · simp [versionAt, Store.putVersion]
      · rintro ⟨sameKey, again⟩ later rfl
        exact absurd (unique again (mem_cons_of_mem _ later) ▸ later) inRest

variable {newWriteSet : WriteSet K V}

/-- A round removes the version of its key, unless the key is written again. -/
theorem versionAt_removeOld (dropped : newWriteSet[key]? = none) :
    versionAt (Store.removeOld index newWriteSet map key) index key = none := by
  unfold versionAt Store.removeOld
  rw [ExtTreeMap.contains_eq_isSome_getElem?, dropped]
  cases found : map[key]? with
  | none => simp [found]
  | some => simp

theorem versionAt_removeOld_of_ne {removed : K}
    (elsewhere : removed = key → newWriteSet[key]? = none → index ≠ other) :
    versionAt (Store.removeOld index newWriteSet map removed) other key =
      versionAt map other key := by
  unfold versionAt Store.removeOld
  split
  · rfl
  case isFalse dropped =>
    rw [ExtTreeMap.contains_eq_isSome_getElem?, not_isSome_iff_eq_none] at dropped
    cases found : map[removed]? with
    | none => rfl
    | some =>
      by_cases sameKey : removed = key
      · subst sameKey
        simp [ExtTreeMap.getElem?_erase, elsewhere rfl dropped, found]
      · simp [ExtTreeMap.getElem?_insert, sameKey]

theorem versionAt_removeAll_of_ne {keys : List K}
    (elsewhere : key ∈ keys → newWriteSet[key]? = none → index ≠ other) :
    versionAt (keys.foldl (Store.removeOld index newWriteSet) map) other key =
      versionAt map other key := by
  induction keys generalizing map with
  | nil => rfl
  | cons removed rest ih =>
    rw [foldl_cons, ih fun later => elsewhere (mem_cons_of_mem _ later)]
    refine versionAt_removeOld_of_ne ?_
    rintro rfl
    exact elsewhere mem_cons_self

theorem versionAt_removeAll {keys : List K} (member : key ∈ keys)
    (dropped : newWriteSet[key]? = none) :
    versionAt (keys.foldl (Store.removeOld index newWriteSet) map) index key = none := by
  induction keys generalizing map with
  | nil => exact nomatch member
  | cons removed rest ih =>
    rw [foldl_cons]
    by_cases inRest : key ∈ rest
    · exact ih inRest
    · obtain rfl := (mem_cons.mp member).resolve_right inRest
      rw [versionAt_removeAll_of_ne fun later => absurd later inRest]
      exact versionAt_removeOld dropped

namespace Represents

variable {store : Store K V} {view : Nat → K → Option (ValueItem V)}
  (represents : Represents store view)

include represents

/-- Removing the old writes leaves the other transactions alone, and nothing of this one but
versions of keys that are written again. -/
theorem removeOldWriteset (index : Nat) (newWriteSet : WriteSet K V) :
    (∀ other key, other ≠ index →
      versionAt (store.removeOldWriteset index newWriteSet).multiVersionMap other key =
        view other key ∧
      (store.removeOldWriteset index newWriteSet).writesetKeys other = store.writesetKeys other) ∧
    ∀ key, newWriteSet[key]? = none →
      versionAt (store.removeOldWriteset index newWriteSet).multiVersionMap index key = none := by
  unfold Store.removeOldWriteset
  cases stored : store.txWritesetKeys[index]? with
  | none =>
    refine ⟨fun other key _ => ⟨represents.versions other key, rfl⟩, fun key _ => ?_⟩
    have noKeys : key ∉ store.writesetKeys index := by simp [Store.writesetKeys, stored]
    rw [represents.keys, not_isSome_iff_eq_none] at noKeys
    rw [represents.versions, noKeys]
  | some keys =>
    refine ⟨fun other key different => ⟨?_, ?_⟩, fun key dropped => ?_⟩
    · rw [versionAt_removeAll_of_ne fun _ _ => Ne.symm different, represents.versions]
    · simp [Store.writesetKeys, ExtTreeMap.getElem?_erase, Ne.symm different]
    · by_cases listed : key ∈ keys
      · exact versionAt_removeAll listed dropped
      · have notListed : key ∉ store.writesetKeys index := by
          simpa [Store.writesetKeys, stored] using listed
        rw [represents.keys, not_isSome_iff_eq_none] at notListed
        rw [versionAt_removeAll_of_ne fun later => absurd later listed, represents.versions,
          notListed]

theorem replaceWriteset (writeset : WriteSet K V) {item : Option V → ValueItem V}
    (indexed : ∀ value, (item value).index = index) :
    Represents (store.replaceWriteset index writeset item) fun other key =>
      if index = other then writeset[key]?.map item else view other key := by
  obtain ⟨others, dropped⟩ := represents.removeOldWriteset index writeset
  constructor
  · intro other key
    unfold Store.replaceWriteset
    by_cases same : index = other
    · subst same
      rw [if_pos rfl]
      cases written : writeset[key]? with
      | none =>
        rw [versionAt_putAll_of_ne, dropped key written, map_none]
        rintro version member rfl
        obtain ⟨write, isWrite, rfl⟩ := mem_map.mp member
        rw [ExtTreeMap.mem_toList_iff_getElem?_eq_some.mp isWrite] at written
        exact nomatch written
      | some value =>
        have member : (key, item value) ∈
            writeset.toList.map fun write => (write.1, item write.2) :=
          mem_map.mpr ⟨(key, value), ExtTreeMap.mem_toList_iff_getElem?_eq_some.mpr written, rfl⟩
        rw [← indexed value]
        refine versionAt_putAll member fun again isAgain => ?_
        obtain ⟨write, isWrite, sameWrite⟩ := mem_map.mp isAgain
        obtain ⟨rfl, rfl⟩ := Prod.mk.inj sameWrite
        rw [ExtTreeMap.mem_toList_iff_getElem?_eq_some.mp isWrite] at written
        rw [Option.some.inj written]
    · rw [if_neg same, versionAt_putAll_of_ne, (others other key (Ne.symm same)).1]
      intro version member _
      obtain ⟨write, _, rfl⟩ := mem_map.mp member
      rw [indexed]
      exact same
  · intro other key
    by_cases same : index = other
    · subst same
      simp [Store.writesetKeys, Store.replaceWriteset]
    · have kept := (others other key (Ne.symm same)).2
      rw [if_neg same, ← represents.keys, ← kept]
      simp [Store.writesetKeys, Store.replaceWriteset, ExtTreeMap.getElem?_insert, same]

theorem invalidateWriteset (index : Nat) (incarnation : Int) :
    Represents (store.invalidateWriteset index incarnation) fun other key =>
      if index = other then (view other key).map fun _ => newEstimateItem index incarnation
      else view other key := by
  have sameKeys : (store.invalidateWriteset index incarnation).txWritesetKeys =
      store.txWritesetKeys := by
    unfold Store.invalidateWriteset
    split <;> rfl
  constructor
  · intro other key
    unfold Store.invalidateWriteset
    have listed := represents.keys index key
    cases stored : store.txWritesetKeys[index]? with
    | none =>
      rw [Store.writesetKeys, stored] at listed
      have absent : view index key = none := by simpa using listed
      rw [represents.versions]
      split
      case isTrue same => rw [← same, absent, map_none]
      case isFalse => rfl
    | some keys =>
      rw [Store.writesetKeys, stored] at listed
      by_cases same : index = other
      · subst same
        rw [if_pos rfl]
        cases found : view index key with
        | none =>
          rw [found] at listed
          rw [versionAt_putAll_of_ne, represents.versions, found, map_none]
          rintro version member rfl
          obtain ⟨written, isWritten, rfl⟩ := mem_map.mp member
          exact absurd (listed.mp isWritten) (by simp)
        | some =>
          rw [found] at listed
          have member : (key, newEstimateItem index incarnation) ∈
              keys.map fun key => (key, (newEstimateItem index incarnation : ValueItem V)) :=
            mem_map.mpr ⟨key, listed.mpr rfl, rfl⟩
          refine versionAt_putAll member fun again isAgain => ?_
          obtain ⟨written, _, sameWritten⟩ := mem_map.mp isAgain
          exact (Prod.mk.inj sameWritten).2.symm
      · rw [if_neg same, versionAt_putAll_of_ne, represents.versions]
        intro version member _
        obtain ⟨written, _, rfl⟩ := mem_map.mp member
        exact same
  · intro other key
    rw [Store.writesetKeys, sameKeys]
    refine (represents.keys other key).trans ?_
    split <;> simp

/-- Every call makes of the versions what it says. -/
theorem apply (call : Call K V) :
    Represents (store.apply call) fun index key => call.version index key (view index key) := by
  cases call with
  | setWriteset target incarnation writeset =>
    exact represents.replaceWriteset writeset fun value => by cases value <;> rfl
  | setEstimatedWriteset target incarnation writeset =>
    have indexed : ∀ _ : Option V, (newEstimateItem target incarnation : ValueItem V).index =
      target := fun _ => rfl
    exact represents.replaceWriteset writeset indexed
  | invalidateWriteset target incarnation =>
    exact represents.invalidateWriteset target incarnation

end Represents

/-- After any calls the store has the versions that they leave. -/
theorem represents_storeAfter (calls : List (Call K V)) :
    Represents (storeAfter calls) (lastVersion calls) := by
  induction calls using List.reverseRecOn with
  | nil => exact ⟨fun _ _ => by simp [storeAfter, versionAt, lastVersion],
      fun _ _ => by simp [storeAfter, Store.writesetKeys, lastVersion]⟩
  | append_singleton earlier call ih =>
    have step := ih.apply call
    unfold storeAfter lastVersion at step ⊢
    simp only [foldl_append, foldl_cons, foldl_nil]
    exact step

/-! ### Lookups and the final write -/

/-- `item` is the version of the greatest index among those that are `chosen`. -/
def IsLatest (view : Nat → Option (ValueItem V)) (chosen : Nat → ValueItem V → Bool)
    (item : ValueItem V) : Prop :=
  ∃ index, view index = some item ∧ chosen index item = true ∧
    ∀ other otherItem, view other = some otherItem → chosen other otherItem = true → other ≤ index

theorem IsLatest.unique {view : Nat → Option (ValueItem V)} {chosen : Nat → ValueItem V → Bool}
    {again : ValueItem V} (latest : IsLatest view chosen item)
    (latestAgain : IsLatest view chosen again) : item = again := by
  obtain ⟨index, isItem, isChosen, greatest⟩ := latest
  obtain ⟨other, isAgain, againChosen, greatestAgain⟩ := latestAgain
  obtain rfl := Nat.le_antisymm (greatestAgain index item isItem isChosen)
    (greatest other again isAgain againChosen)
  exact Option.some.inj (isItem.symm.trans isAgain)

omit [LawfulEqOrd K] in
/-- What a walk down the tree of a key stops at. -/
theorem lastEntry_eq_some_iff {chosen : Nat → ValueItem V → Bool} :
    (map[key]?.bind fun tree => (lastEntry tree chosen).map Prod.snd) = some item ↔
      IsLatest (versionAt map · key) chosen item := by
  have sound (latest : ValueItem V)
      (found : (map[key]?.bind fun tree => (lastEntry tree chosen).map Prod.snd) = some latest) :
      IsLatest (versionAt map · key) chosen latest := by
    obtain ⟨tree, isTree, found⟩ := bind_eq_some_iff.mp found
    obtain ⟨⟨index, version⟩, isLast, rfl⟩ := map_eq_some_iff.mp found
    obtain ⟨stored, isChosen, greatest⟩ := lastEntry_spec isLast
    refine ⟨index, by simp [versionAt, isTree, stored], isChosen, ?_⟩
    intro other otherItem isOther otherChosen
    simp only [versionAt, isTree, bind_some] at isOther
    exact Nat.compare_ne_gt.mp (greatest other otherItem isOther otherChosen)
  refine ⟨sound item, fun latest => ?_⟩
  cases found : map[key]?.bind fun tree => (lastEntry tree chosen).map Prod.snd with
  | some other => rw [latest.unique (sound other found)]
  | none =>
    obtain ⟨index, isItem, isChosen, _⟩ := latest
    obtain ⟨tree, isTree, stored⟩ := bind_eq_some_iff.mp isItem
    rw [isTree, bind_some, map_eq_none_iff] at found
    rw [lastEntry_eq_none found stored] at isChosen
    exact nomatch isChosen

/-- What the final write makes of the value of a key. -/
def handedDown (tree : MultiVersionItem V) (old : Option V) : Option V :=
  match tree.getLatestNonEstimate with
  | none => old
  | some item => item.value

theorem writeLatest_eq (written : K) (tree : MultiVersionItem V) :
    ∃ after, Store.writeLatest parent (written, tree) = some after ∧
      after[written]? = handedDown tree parent[written]? ∧
      ∀ key, key ≠ written → after[key]? = parent[key]? := by
  unfold Store.writeLatest handedDown
  cases found : tree.getLatestNonEstimate with
  | none => exact ⟨parent, rfl, rfl, fun _ _ => rfl⟩
  | some =>
    obtain ⟨⟨index, version⟩, isLast, rfl⟩ := map_eq_some_iff.mp found
    have final : version.isEstimate = false := by simpa using (lastEntry_spec isLast).2.1
    cases stored : version.value with
    | none =>
      refine ⟨parent.erase written, ?_, by simp [stored], fun key different => ?_⟩
      · simp_all [ValueItem.isDeleted, ValueItem.isEstimate]
      · simp [ExtTreeMap.getElem?_erase, Ne.symm different]
    | some value =>
      refine ⟨parent.insert written value, ?_, by simp [stored], fun key different => ?_⟩
      · simp_all [ValueItem.isDeleted, ValueItem.isEstimate]
      · simp [ExtTreeMap.getElem?_insert, Ne.symm different]

theorem foldlM_writeLatest (entries : List (K × MultiVersionItem V))
    (distinct : entries.Pairwise fun entry later => entry.1 ≠ later.1) (parent : ExtTreeMap K V) :
    ∃ after, entries.foldlM Store.writeLatest parent = some after ∧
      (∀ key tree, (key, tree) ∈ entries → after[key]? = handedDown tree parent[key]?) ∧
      ∀ key, (∀ tree, (key, tree) ∉ entries) → after[key]? = parent[key]? := by
  induction entries generalizing parent with
  | nil => exact ⟨parent, rfl, nofun, fun _ _ => rfl⟩
  | cons entry rest ih =>
    obtain ⟨apart, restDistinct⟩ := pairwise_cons.mp distinct
    obtain ⟨middle, first, here, elsewhere⟩ := writeLatest_eq parent entry.1 entry.2
    obtain ⟨after, later, listed, unlisted⟩ := ih restDistinct middle
    refine ⟨after, ?_, fun key tree member => ?_, fun key absent => ?_⟩
    · rw [foldlM_cons, first]
      exact later
    · rcases mem_cons.mp member with rfl | inRest
      · rw [unlisted key fun tree inRest => apart _ inRest rfl]
        exact here
      · rw [listed key tree inRest, elsewhere key (Ne.symm (apart _ inRest))]
    · rw [unlisted key fun tree inRest => absent tree (mem_cons_of_mem _ inRest)]
      refine elsewhere key ?_
      rintro rfl
      exact absent entry.2 mem_cons_self

/-- After any calls: a key has a version at an index exactly if it is in the key list of the
index, the version is the one that the last call for the index leaves, a lookup before an index
finds the version of the greatest index below it, and the final write sets every key to its
latest version that is not an estimate and leaves the keys without one. -/
theorem store_represents_calls (calls : List (Call K V)) :
    (∀ index key,
      (key ∈ (storeAfter calls).writesetKeys index ↔
        (versionAt (storeAfter calls).multiVersionMap index key).isSome) ∧
      versionAt (storeAfter calls).multiVersionMap index key = lastVersion calls index key) ∧
    (∀ index key item, (storeAfter calls).getLatestBeforeIndex index key = some item ↔
      IsLatest (lastVersion calls · key) (fun other _ => other < index) item) ∧
    ∀ parent, ∃ after, (storeAfter calls).writeLatestToStore parent = some after ∧
      ∀ key,
        (∀ item, IsLatest (lastVersion calls · key) (fun _ item => !item.isEstimate) item →
          after[key]? = item.value) ∧
        ((∀ index item, lastVersion calls index key = some item → item.isEstimate = true) →
          after[key]? = parent[key]?) := by
  obtain ⟨versions, keys⟩ := represents_storeAfter calls
  have views (key : K) : (versionAt (storeAfter calls).multiVersionMap · key) =
      (lastVersion calls · key) := funext fun index => versions index key
  refine ⟨fun index key => ⟨?_, versions index key⟩, fun index key item => ?_, fun parent => ?_⟩
  · rw [keys, versions]
  · have pivot : (fun (other : Nat) (_ : ValueItem V) =>
        decide (other ≤ (index : Int) - 1)) = fun other _ => decide (other < index) := by
      funext other _
      rw [decide_eq_decide]
      omega
    rw [← views key, ← pivot]
    exact lastEntry_eq_some_iff
  · have distinct : (storeAfter calls).multiVersionMap.toList.Pairwise
        fun entry later => entry.1 ≠ later.1 := by
      refine ExtTreeMap.ordered_keys_toList.imp ?_
      rintro entry later before same
      rw [same, compare_self] at before
      exact nomatch before
    obtain ⟨after, wrote, listed, unlisted⟩ :=
      foldlM_writeLatest (storeAfter calls).multiVersionMap.toList distinct parent
    have handed (key : K) : after[key]? =
        (match (storeAfter calls).multiVersionMap[key]?.bind (·.getLatestNonEstimate) with
        | none => parent[key]?
        | some item => item.value) := by
      cases stored : (storeAfter calls).multiVersionMap[key]? with
      | none =>
        refine unlisted key fun tree member => ?_
        rw [ExtTreeMap.mem_toList_iff_getElem?_eq_some.mp member] at stored
        exact nomatch stored
      | some tree => exact listed key tree (ExtTreeMap.mem_toList_iff_getElem?_eq_some.mpr stored)
    refine ⟨after, wrote, fun key => ⟨fun item latest => ?_, fun estimates => ?_⟩⟩
    · rw [← views key] at latest
      have found : (storeAfter calls).multiVersionMap[key]?.bind (·.getLatestNonEstimate) =
          some item := lastEntry_eq_some_iff.mpr latest
      rw [handed, found]
    · rw [handed]
      cases found : (storeAfter calls).multiVersionMap[key]?.bind (·.getLatestNonEstimate) with
      | none => rfl
      | some item =>
        obtain ⟨index, isItem, isFinal, _⟩ := lastEntry_eq_some_iff.mp found
        have estimate := estimates index item (versions index key ▸ isItem)
        simp [estimate] at isFinal

/-- The first transaction writes two keys and runs again with one of them; a later one deletes
that key and is invalidated. -/
def rerunCalls : List (Call Nat Nat) :=
  [.setWriteset 0 0 (ExtTreeMap.insert ∅ 5 (some 7) |>.insert 6 (some 8)),
    .setWriteset 0 1 (ExtTreeMap.insert ∅ 5 (some 9)),
    .setWriteset 2 0 (ExtTreeMap.insert ∅ 5 none), .invalidateWriteset 2 0]

theorem store_represents_calls_rerun :
    versionAt (storeAfter rerunCalls).multiVersionMap 0 5 = some (newValueItem 0 1 9) ∧
    versionAt (storeAfter rerunCalls).multiVersionMap 0 6 = none ∧
    versionAt (storeAfter rerunCalls).multiVersionMap 2 5 = some (newEstimateItem 2 0) := by
  have versions := fun index key => ((store_represents_calls rerunCalls).1 index key).2
  rw [versions, versions, versions]
  simp [lastVersion, rerunCalls, Call.version, Store.writtenItem]

end SeiChain.MultiVersion
