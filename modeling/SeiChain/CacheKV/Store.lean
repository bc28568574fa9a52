/-
This file models stacks of cache stores. A layer keeps what was written to it
and reads through to its parent. A layer that was superseded by a newer one is
frozen, and a read skips frozen layers without writes; where it ended up is
remembered in the layer. Iteration merges the sorted writes of the layer into
the iterator of the parent; the sorted copy of the writes is brought up to date
only in the range that is iterated.

A stack is a base and the layers over it, the newest first. The pointer of a
layer to the store it reads from is the number of layers from that store down.
-/

import SeiChain.CacheKV.MergeIterator
import Std.Data.ExtTreeSet

namespace SeiChain.CacheKV

open Std

structure CValue (V : Type) where
  value : Option V
  dirty : Bool
  deriving DecidableEq, Repr

variable {K V : Type} [Ord K] [TransOrd K] [LawfulEqOrd K] [Inhabited V]

structure Layer (K V : Type) [Ord K] where
  cache : ExtTreeMap K (CValue V) := ∅
  deleted : ExtTreeSet K := ∅
  unsortedCache : ExtTreeSet K := ∅
  sortedCache : ExtTreeMap K V := ∅
  frozen : Bool := false
  dirty : Bool := false
  readParent : Option Nat := none

structure Stack (K V : Type) [Ord K] where
  base : ExtTreeMap K V
  layers : List (Layer K V)

/-- The keys from `start` on and below `stop`; a bound that is not given does not limit. -/
def inDomain (start stop : Option K) (key : K) : Bool :=
  (start.all fun start => compare key start != .lt) && stop.all fun stop => compare key stop == .lt

/-- The order of the items of an iterator. -/
def iterCompare (ascending : Bool) (left right : K) : Ordering :=
  if ascending then compare left right else compare right left

instance (ascending : Bool) : TransCmp (iterCompare (K := K) ascending) := by
  cases ascending
  · exact (TransCmp.opposite : TransCmp fun left right : K => compare right left)
  · exact inferInstanceAs (TransCmp (compare : K → K → Ordering))

instance (ascending : Bool) : LawfulEqCmp (iterCompare (K := K) ascending) where
  compare_self := by cases ascending <;> exact compare_self
  eq_of_compare := by
    intro left right equal
    cases ascending
    · exact (LawfulEqOrd.eq_of_compare equal).symm
    · exact LawfulEqOrd.eq_of_compare equal

/-- The entries of a sorted map in a range, in the order asked for. -/
def rangeItems {A : Type} (map : ExtTreeMap K A) (start stop : Option K) (ascending : Bool) :
    List (K × A) :=
  let items := map.toList.filter fun item => inDomain start stop item.1
  if ascending then items else items.reverse

/-! ### One layer -/

namespace Layer

variable (layer : Layer K V) (start stop : Option K)

def setCacheValue (key : K) (value : Option V) (deleted dirty : Bool) : Layer K V :=
  { layer with
    cache := layer.cache.insert key ⟨value, dirty⟩
    deleted := if deleted then layer.deleted.insert key else layer.deleted.erase key
    unsortedCache := if dirty then layer.unsortedCache.insert key else layer.unsortedCache
    dirty := true }

def set (key : K) (value : V) : Layer K V := layer.setCacheValue key (some value) false true

def delete (key : K) : Layer K V := layer.setCacheValue key none true true

/-- Where a layer keeps its place in a run of frozen layers without writes. -/
def skippable : Bool := layer.frozen && !layer.dirty

/-- The first store from `layers` down that can hold data. -/
def skipFrozen : List (Layer K V) → Nat
  | [] => 0
  | layer :: below => if layer.skippable then skipFrozen below else below.length + 1

/-- The store that a read falls through to, and the layer that remembers it. -/
def readThroughParent : List (Layer K V) → Nat × Layer K V
  | [] => (0, layer)
  | parent :: below =>
    if parent.skippable then
      match layer.readParent with
      | some memo => (memo, layer)
      | none =>
        let found := skipFrozen (parent :: below)
        (found, { layer with readParent := some found })
    else (below.length + 1, layer)

/-- The keys that a call to `dirtyItems` moves to the sorted cache, with their values. -/
def unsortedItems : List (K × Option V) :=
  (layer.unsortedCache.toList.filter (inDomain start stop)).filterMap fun key =>
    layer.cache[key]?.map fun cacheValue => (key, cacheValue.value)

/-- A deleted key is put with an arbitrary value, it is known from `deleted`. -/
def clearUnsortedCacheSubset (unsorted : List (K × Option V)) : Layer K V :=
  { layer with
    unsortedCache := unsorted.foldl (fun keys item => keys.erase item.1) layer.unsortedCache
    sortedCache := unsorted.foldl (fun map item => map.insert item.1 (item.2.getD default))
      layer.sortedCache }

def dirtyItems : Layer K V :=
  if start.any fun start => stop.any fun stop => compare start stop == .gt then layer
  else layer.clearUnsortedCacheSubset (layer.unsortedItems start stop)

/-- The items of the iterator over the sorted cache. -/
def memItems (ascending : Bool) : List (K × Option V) :=
  (rangeItems layer.sortedCache start stop ascending).map fun item =>
    (item.1, if item.1 ∈ layer.deleted then none else some item.2)

/-- The writes that `Write` passes on, in the order of the keys. -/
def dirtyKeys : List K := (layer.cache.toList.filter fun entry => entry.2.dirty).map Prod.fst

/-- The layer after `Write`. -/
def cleared : Layer K V :=
  { frozen := layer.frozen }

/-- Pass one key on to a parent with the given operations. -/
def writeKey {P : Type} (set : P → K → V → P) (delete : P → K → P) (layer : Layer K V)
    (parent : P) (key : K) : P :=
  if key ∈ layer.deleted then delete parent key
  else
    match layer.cache[key]?.bind CValue.value with
    | some value => set parent key value
    | none => parent

/-- Pass all writes on. -/
def writeTo {P : Type} (set : P → K → V → P) (delete : P → K → P) (layer : Layer K V)
    (parent : P) : P :=
  layer.dirtyKeys.foldl (layer.writeKey set delete) parent

end Layer

/-! ### Stacks -/

/-- `Get` on the store with `target` layers from it down. -/
def getFrom (base : ExtTreeMap K V) (key : K) :
    List (Layer K V) → Nat → Option V × List (Layer K V)
  | [], _ => (base[key]?, [])
  | layer :: below, target =>
    if below.length + 1 > target then
      let found := getFrom base key below target
      (found.1, layer :: found.2)
    else
      match layer.cache[key]? with
      | some cacheValue => (cacheValue.value, layer :: below)
      | none =>
        let through := layer.readThroughParent below
        let found := getFrom base key below through.1
        (found.1, through.2 :: found.2)

/-- `Iterator` and `ReverseIterator` on the store with `target` layers from it down. A layer
without writes in the range gives the iterator of its parent. -/
def iterateFrom (base : ExtTreeMap K V) (start stop : Option K) (ascending : Bool) :
    List (Layer K V) → Nat → List (K × V) × List (Layer K V)
  | [], _ => (rangeItems base start stop ascending, [])
  | layer :: below, target =>
    if below.length + 1 > target then
      let found := iterateFrom base start stop ascending below target
      (found.1, layer :: found.2)
    else
      let through := layer.readThroughParent below
      let parent := iterateFrom base start stop ascending below through.1
      let sorted := through.2.dirtyItems start stop
      let cache := sorted.memItems start stop ascending
      if cache.isEmpty then (parent.1, sorted :: parent.2)
      else (drain (iterCompare ascending) parent.1 cache, sorted :: parent.2)

/-- `GetAllKeyStrsInRange`, for any range. -/
def keysFrom (base : ExtTreeMap K V) (range : K → Bool) : List (Layer K V) → ExtTreeSet K
  | [] => (base.toList.filter fun entry => range entry.1).foldl
      (fun keys entry => keys.insert entry.1) ∅
  | layer :: below =>
    (layer.cache.toList.filter fun entry => range entry.1).foldl
      (fun keys entry =>
        if entry.2.value.isNone then keys.erase entry.1 else keys.insert entry.1)
      (keysFrom base range below)

namespace Stack

variable (stack : Stack K V)

def get (key : K) : Option V × Stack K V :=
  let found := getFrom stack.base key stack.layers stack.layers.length
  (found.1, { stack with layers := found.2 })

def has (key : K) : Bool × Stack K V :=
  let found := stack.get key
  (found.1.isSome, found.2)

def iterator (start stop : Option K) (ascending : Bool) : List (K × V) × Stack K V :=
  let found := iterateFrom stack.base start stop ascending stack.layers stack.layers.length
  (found.1, { stack with layers := found.2 })

def set (stack : Stack K V) (key : K) (value : V) : Stack K V :=
  match stack.layers with
  | [] => { stack with base := stack.base.insert key value }
  | layer :: below => { stack with layers := layer.set key value :: below }

def delete (stack : Stack K V) (key : K) : Stack K V :=
  match stack.layers with
  | [] => { stack with base := stack.base.erase key }
  | layer :: below => { stack with layers := layer.delete key :: below }

/-- `DeleteAll`, for any range. -/
def deleteAll (range : K → Bool) : Stack K V :=
  (keysFrom stack.base range stack.layers).toList.foldl delete stack

/-- The layers after a new one was put over them: the superseded layer is frozen, the base is
not. -/
def snapshot : Stack K V :=
  match stack.layers with
  | [] => { stack with layers := [{}] }
  | layer :: below => { stack with layers := {} :: { layer with frozen := true } :: below }

/-- Go back to the layer with `revision` layers from it down. It is writable again. -/
def revertToSnapshot (revision : Nat) : Stack K V :=
  match stack.layers.drop (stack.layers.length - revision) with
  | [] => { stack with layers := [] }
  | layer :: below => { stack with layers := { layer with frozen := false } :: below }

/-- `Write` on the layer that has `above` layers over it. -/
def writeAt (base : ExtTreeMap K V) : Nat → List (Layer K V) → Stack K V
  | _, [] => ⟨base, []⟩
  | 0, [layer] => ⟨layer.writeTo .insert .erase base, [layer.cleared]⟩
  | 0, layer :: parent :: below =>
    ⟨base, layer.cleared :: layer.writeTo Layer.set Layer.delete parent :: below⟩
  | above + 1, layer :: below =>
    let written := writeAt base above below
    ⟨written.base, layer :: written.layers⟩

/-- `Write` on every layer, from the newest down. -/
def write : Stack K V :=
  (List.range stack.layers.length).foldl
    (fun stack above => writeAt stack.base above stack.layers) stack

end Stack

end SeiChain.CacheKV
