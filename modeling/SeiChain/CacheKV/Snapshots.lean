/-
This file puts the stack of cache stores under the discipline of the EVM's state
database: a snapshot puts a layer on top and freezes the one below, a revert
drops layers and unfreezes the one that is exposed again, writes go to the top,
and in the end every layer is written down. Whatever the operations, the top
shows the logical overlay: the base with the sets and deletes of each layer in
order, without those of the layers that were dropped.
-/

import Mathlib.Data.List.Forall2
import SeiChain.CacheKV.Transparency

namespace SeiChain.CacheKV

open Std Library List Function Option Std.ExtTreeMap Stack

variable {K V : Type} [Ord K] {stack : Stack K V} {layers : List (Layer K V)} {key : K}
  {value : Option V} {after : Stack K V} {E A : Type}

/-! ### Snapshots and what lies below the top -/

theorem length_snapshot (stack : Stack K V) :
    stack.snapshot.layers.length = stack.layers.length + 1 := by
  obtain ⟨-, layers⟩ := stack
  cases layers <;> rfl

/-- The layers with the top unfrozen. -/
def unfreezeTop : List (Layer K V) → List (Layer K V)
  | [] => []
  | layer :: below => { layer with frozen := false } :: below

theorem layers_revertToSnapshot (stack : Stack K V) (revision : Nat) :
    stack.revertToSnapshot revision =
      ⟨stack.base, unfreezeTop (stack.layers.drop (stack.layers.length - revision))⟩ := by
  unfold revertToSnapshot
  cases stack.layers.drop (stack.layers.length - revision) <;> rfl

theorem length_unfreezeTop (layers : List (Layer K V)) :
    (unfreezeTop layers).length = layers.length := by
  cases layers <;> rfl

theorem writes_unfreezeTop (layers : List (Layer K V)) :
    (unfreezeTop layers).map Layer.writes = layers.map Layer.writes := by
  cases layers <;> rfl

theorem unfreezeTop_drop (layers : List (Layer K V)) (count : Nat) :
    unfreezeTop ((unfreezeTop layers).drop count) = unfreezeTop (layers.drop count) := by
  cases layers with
  | nil => rfl
  | cons => cases count <;> rfl

theorem length_revertToSnapshot {revision : Nat} (isRevision : revision ≤ stack.layers.length) :
    (stack.revertToSnapshot revision).layers.length = revision := by
  rw [layers_revertToSnapshot, length_unfreezeTop, length_drop]
  omega

/-- Going back twice is going back to the older snapshot. -/
theorem revertToSnapshot_revertToSnapshot (stack : Stack K V) {revision older : Nat}
    (isOlder : older ≤ revision) (isRevision : revision ≤ stack.layers.length) :
    (stack.revertToSnapshot revision).revertToSnapshot older = stack.revertToSnapshot older := by
  rw [layers_revertToSnapshot (stack.revertToSnapshot revision), length_revertToSnapshot isRevision,
    layers_revertToSnapshot stack revision, layers_revertToSnapshot stack older, unfreezeTop_drop,
    drop_drop]
  congr 3
  omega

/-- The stacks have the same base, if there is a layer above it, and below the top, layers with the
same writes. -/
structure SameBelow (before after : Stack K V) : Prop where
  base : before.layers ≠ [] → after.base = before.base
  length : after.layers.length = before.layers.length
  below : SameWrites (before.layers.drop 1) (after.layers.drop 1)

namespace SameBelow

variable {before middle after : Stack K V}

theorem refl (stack : Stack K V) : SameBelow stack stack := ⟨fun _ => rfl, rfl, rfl⟩

theorem layered (same : SameBelow before after) (isLayered : before.layers ≠ []) :
    after.layers ≠ [] := by
  intro empty
  have length := same.length
  rw [empty, length_nil, eq_comm, length_eq_zero_iff] at length
  exact isLayered length

theorem trans (first : SameBelow before middle) (second : SameBelow middle after) :
    SameBelow before after where
  base isLayered := (second.base (first.layered isLayered)).trans (first.base isLayered)
  length := second.length.trans first.length
  below := second.below.trans first.below

theorem of_sameWrites (stack : Stack K V) (same : SameWrites stack.layers layers) :
    SameBelow stack { stack with layers := layers } where
  base _ := rfl
  length := by simpa using congrArg List.length same
  below := by
    unfold SameWrites at same ⊢
    rw [map_drop, map_drop]
    exact congrArg (List.drop 1) same

end SameBelow

variable [TransOrd K]

theorem view_snapshot (stack : Stack K V) : stack.snapshot.view = stack.view := by
  obtain ⟨-, layers⟩ := stack
  cases layers with
  | nil => simp [snapshot, view, viewFrom]
  | cons => simp [snapshot, view, viewFrom]

/-- What lies below all layers, if there are any. -/
def Stack.committed (stack : Stack K V) : Option (K → Option V) :=
  if stack.layers.length = 0 then none else some fun key => stack.base[key]?

theorem committed_snapshot (stack : Stack K V) :
    stack.snapshot.committed = some (stack.committed.getD stack.view) := by
  obtain ⟨-, layers⟩ := stack
  cases layers <;> rfl

theorem SameBelow.committed {before after : Stack K V} (same : SameBelow before after) :
    after.committed = before.committed := by
  unfold Stack.committed
  rw [same.length]
  by_cases isLayered : before.layers = []
  · rw [isLayered, length_nil, if_pos rfl, if_pos rfl]
  · rw [same.base isLayered]

/-- Stacks that are the same below the top are the same after going back. -/
theorem SameBelow.revertToSnapshot {before after : Stack K V} (same : SameBelow before after)
    (revision : Nat) (isRevision : revision < before.layers.length) :
    SameBelow (before.revertToSnapshot revision) (after.revertToSnapshot revision) ∧
      (after.revertToSnapshot revision).view = (before.revertToSnapshot revision).view := by
  obtain ⟨popped, isPopped⟩ : ∃ popped, before.layers.length - revision = 1 + popped :=
    ⟨before.layers.length - revision - 1, by omega⟩
  have sameWrites : SameWrites (before.revertToSnapshot revision).layers
      (after.revertToSnapshot revision).layers := by
    unfold SameWrites
    rw [layers_revertToSnapshot, layers_revertToSnapshot, writes_unfreezeTop, writes_unfreezeTop,
      same.length, isPopped, ← drop_drop, ← drop_drop, map_drop, same.below,
      ← map_drop]
  have sameBase : (after.revertToSnapshot revision).base =
      (before.revertToSnapshot revision).base := by
    rw [layers_revertToSnapshot, layers_revertToSnapshot,
      same.base (ne_nil_of_length_pos (Nat.zero_lt_of_lt isRevision))]
  constructor
  · have below := of_sameWrites (before.revertToSnapshot revision) sameWrites
    exact ⟨fun _ => sameBase, below.length, below.below⟩
  · funext key
    unfold view
    rw [sameBase, viewFrom_congr sameWrites]

/-- Going back right after a snapshot. -/
theorem revertToSnapshot_snapshot (stack : Stack K V) :
    SameBelow stack (stack.snapshot.revertToSnapshot stack.layers.length) ∧
      (stack.snapshot.revertToSnapshot stack.layers.length).view = stack.view := by
  obtain ⟨-, layers⟩ := stack
  cases layers with
  | nil => exact ⟨.refl _, rfl⟩
  | cons =>
    rw [layers_revertToSnapshot]
    simp only [snapshot, length_cons, Nat.add_sub_cancel_left, drop_succ_cons, drop_zero]
    exact ⟨⟨fun _ => rfl, rfl, rfl⟩, rfl⟩

section

variable [Inhabited V]

/-- A stack whose layers are well formed. -/
def Stack.Valid (stack : Stack K V) : Prop := WellFormed stack.layers

theorem get_spec (valid : stack.Valid) (key : K) :
    (stack.get key).1 = stack.view key ∧ (stack.get key).2.view = stack.view ∧
      (stack.get key).2.Valid := by
  obtain ⟨value, same, kept⟩ := getFrom_spec stack.base key valid (.self stack.layers)
  exact ⟨value, funext fun other => viewFrom_congr same other, kept⟩

theorem valid_snapshot (valid : stack.Valid) : stack.snapshot.Valid := by
  obtain ⟨base, layers⟩ := stack
  have noMemo : ∀ (below : List (Layer K V)) memo,
      ({} : Layer K V).readParent = some memo → Skips below memo := by
    intro below memo isMemo
    cases isMemo
  cases layers with
  | nil => exact ⟨.empty, noMemo _, trivial⟩
  | cons layer below => exact ⟨.empty, noMemo _, valid.1.freeze true, valid.2⟩

theorem wellFormed_drop (wellFormed : WellFormed layers) (count : Nat) :
    WellFormed (layers.drop count) := by
  induction layers generalizing count with
  | nil => simpa using wellFormed
  | cons layer below ih =>
    cases count with
    | zero => exact wellFormed
    | succ count => exact ih wellFormed.2.2 count

theorem valid_revertToSnapshot (valid : stack.Valid) (revision : Nat) :
    (stack.revertToSnapshot revision).Valid := by
  have kept := wellFormed_drop valid (stack.layers.length - revision)
  unfold revertToSnapshot
  split
  · exact trivial
  case h_2 exposed =>
    rw [exposed] at kept
    exact ⟨kept.1.freeze false, kept.2⟩

end

variable [LawfulEqOrd K] [DecidableEq K]

/-! ### Writes to the top -/

theorem getElem?_insert_eq_update (map : ExtTreeMap K V) (key : K) (value : V) :
    (fun other => (map.insert key value)[other]?) =
      update (fun other => map[other]?) key (some value) := by
  funext other
  by_cases same : key = other
  · subst same
    simp
  · rw [update_of_ne (Ne.symm same), ExtTreeMap.getElem?_insert, if_neg (by simpa using same)]

theorem getElem?_erase_eq_update (map : ExtTreeMap K V) (key : K) :
    (fun other => (map.erase key)[other]?) = update (fun other => map[other]?) key none := by
  funext other
  by_cases same : key = other
  · subst same
    simp
  · rw [update_of_ne (Ne.symm same), getElem?_erase, if_neg (by simpa using same)]

/-- One write: to the top layer, or to the base if there is none. -/
inductive Wrote (key : K) (value : Option V) : Stack K V → Stack K V → Prop
  | base {before after : ExtTreeMap K V}
      (shows : ∀ other, after[other]? = update (before[·]?) key value other) :
      Wrote key value ⟨before, []⟩ ⟨after, []⟩
  | layer (base : ExtTreeMap K V) (layer : Layer K V) (below : List (Layer K V)) :
      Wrote key value ⟨base, layer :: below⟩
        ⟨base, layer.setCacheValue key value value.isNone true :: below⟩

theorem wrote_set (stack : Stack K V) (key : K) (value : V) :
    Wrote key (some value) stack (stack.set key value) := by
  obtain ⟨base, layers⟩ := stack
  cases layers with
  | nil => exact .base (congrFun (getElem?_insert_eq_update base key value))
  | cons layer below => exact .layer base layer below

theorem wrote_delete (stack : Stack K V) (key : K) : Wrote key none stack (stack.delete key) := by
  obtain ⟨base, layers⟩ := stack
  cases layers with
  | nil => exact .base (congrFun (getElem?_erase_eq_update base key))
  | cons layer below => exact .layer base layer below

theorem Wrote.view (wrote : Wrote key value stack after) :
    after.view = update stack.view key value := by
  funext other
  cases wrote with
  | base shows => exact shows other
  | layer base layer below =>
    unfold view
    rw [viewFrom_cons]
    rcases written_setCacheValue layer key value value.isNone other with
      ⟨written, rfl⟩ | ⟨written, different⟩
    · rw [written, update_self]
      rfl
    · rw [written, update_of_ne (Ne.symm different), ← viewFrom_cons]

theorem mem_keysFrom (base : ExtTreeMap K V) (range : K → Bool) (layers : List (Layer K V))
    (key : K) :
    key ∈ keysFrom base range layers ↔
      range key = true ∧ (viewFrom base layers key).isSome = true := by
  induction layers with
  | nil =>
    have listed := foldl_writes (fun (keys : ExtTreeSet K) entry => keys.insert entry.1)
      (fun keys key => key ∈ keys) Prod.fst (fun _ => True)
      (base.toList.filter fun entry => range entry.1)
      (fun entry _ keys key => by
        by_cases same : entry.1 = key
        · exact .inl ⟨by simp [same], same⟩
        · exact .inr ⟨by simp [same], same⟩) ∅ key
    rw [viewFrom]
    rcases listed with ⟨⟨entry, member, rfl⟩, listed⟩ | ⟨absent, listed⟩
    · obtain ⟨inBase, inRange⟩ := mem_filter.mp member
      rw [mem_toList_iff_getElem?_eq_some] at inBase
      exact ⟨fun _ => ⟨inRange, by rw [inBase]; rfl⟩, fun _ => listed.mpr trivial⟩
    · refine Iff.trans (iff_of_eq listed) ⟨fun inEmpty => by simp at inEmpty, ?_⟩
      rintro ⟨inRange, present⟩
      obtain ⟨value, found⟩ := isSome_iff_exists.mp present
      exact absurd rfl (absent (key, value) (mem_filter.mpr
        ⟨mem_toList_iff_getElem?_eq_some.mpr found, inRange⟩))
  | cons layer below ih =>
    have listed := foldl_writes (fun (keys : ExtTreeSet K) (entry : K × CValue V) =>
        if entry.2.value.isNone then keys.erase entry.1 else keys.insert entry.1)
      (fun keys key => key ∈ keys) Prod.fst
      (fun key => (layer.cache[key]?.bind CValue.value).isSome = true)
      (layer.cache.toList.filter fun entry => range entry.1)
      (fun entry member keys key => by
        have cached := mem_toList_iff_getElem?_eq_some.mp (mem_filter.mp member).1
        by_cases same : entry.1 = key
        · subst same
          rw [cached, bind_some]
          cases entry.2.value <;> simp
        · split <;> simp [same]) (keysFrom base range below) key
    rw [viewFrom]
    rcases listed with ⟨⟨entry, member, rfl⟩, listed⟩ | ⟨absent, listed⟩
    · obtain ⟨inCache, inRange⟩ := mem_filter.mp member
      rw [mem_toList_iff_getElem?_eq_some] at inCache
      rw [inCache] at listed
      rw [inCache]
      exact (iff_of_eq listed).trans ⟨fun present => ⟨inRange, present⟩, And.right⟩
    · refine (iff_of_eq listed).trans (ih.trans ?_)
      refine and_congr_right fun inRange => ?_
      cases cached : layer.cache[key]? with
      | none => rfl
      | some cacheValue =>
        exact absurd rfl (absent (key, cacheValue) (mem_filter.mpr
          ⟨mem_toList_iff_getElem?_eq_some.mpr cached, inRange⟩))

theorem view_foldl_delete (keys : List K) (stack : Stack K V) (key : K) :
    (keys.foldl delete stack).view key = if key ∈ keys then none else stack.view key := by
  induction keys generalizing stack with
  | nil => simp
  | cons first rest ih =>
    rw [foldl_cons, ih, (wrote_delete stack first).view]
    by_cases same : key = first
    · subst same
      simp
    · simp [same]

theorem view_deleteAll (stack : Stack K V) (range : K → Bool) :
    (stack.deleteAll range).view = fun key => if range key then none else stack.view key := by
  funext key
  rw [deleteAll, view_foldl_delete]
  have listed := mem_keysFrom stack.base range stack.layers key
  rw [← ExtTreeSet.mem_toList] at listed
  simp only [listed]
  cases isRange : range key with
  | false => simp
  | true =>
    by_cases present : (viewFrom stack.base stack.layers key).isSome = true
    · simp [present]
    · have absent : stack.view key = none := not_isSome_iff_eq_none.mp present
      simp [absent]

omit [LawfulEqOrd K] in
theorem SameBelow.wrote (wrote : Wrote key value stack after) : SameBelow stack after := by
  cases wrote with
  | base => exact ⟨absurd rfl, rfl, rfl⟩
  | layer => exact ⟨fun _ => rfl, rfl, rfl⟩

theorem SameBelow.deleteAll (stack : Stack K V) (range : K → Bool) :
    SameBelow stack (stack.deleteAll range) := by
  unfold Stack.deleteAll
  generalize (keysFrom stack.base range stack.layers).toList = keys
  induction keys generalizing stack with
  | nil => exact .refl stack
  | cons key rest ih => exact (wrote (wrote_delete stack key)).trans (ih _)

/-! ### The stack as a store -/

variable [Inhabited V]

def stackStore : KVStore (Stack K V) K V where
  get := get
  set := set
  delete := delete
  deleteAll := deleteAll

theorem Wrote.keeps (valid : stack.Valid) (wrote : Wrote key value stack after) : after.Valid := by
  cases wrote with
  | base => exact trivial
  | layer => exact ⟨valid.1.setCacheValue key value, valid.2⟩

theorem valid_deleteAll (valid : stack.Valid) (range : K → Bool) :
    (stack.deleteAll range).Valid := by
  unfold deleteAll
  generalize (keysFrom stack.base range stack.layers).toList = keys
  induction keys generalizing stack with
  | nil => exact valid
  | cons key rest ih => exact ih ((wrote_delete stack key).keeps valid)

/-- The stack runs every program over a store as the map that it shows. -/
theorem stackStore_refines : (stackStore : KVStore (Stack K V) K V).Refines Stack.Valid view where
  get _ key valid := get_spec valid key
  set state key value valid :=
    ⟨(wrote_set state key value).view, (wrote_set state key value).keeps valid⟩
  delete state key valid := ⟨(wrote_delete state key).view, (wrote_delete state key).keeps valid⟩
  deleteAll state range valid := ⟨view_deleteAll state range, valid_deleteAll valid range⟩

/-- A program works on the top only. -/
theorem SameBelow.run (valid : stack.Valid) (program : StoreProgram K V E A) :
    SameBelow stack (stackStore.run program stack).2 := by
  refine And.left (KVStore.run_keeps stackStore
    (fun after => SameBelow stack after ∧ after.Valid) ?_ ?_ ?_ ?_ program stack
    ⟨refl stack, valid⟩)
  · rintro state key ⟨same, isValid⟩
    obtain ⟨-, sameWrites, kept⟩ := getFrom_spec state.base key isValid (.self state.layers)
    exact ⟨same.trans (of_sameWrites state sameWrites), kept⟩
  · rintro state key value ⟨same, isValid⟩
    have written := wrote_set state key value
    exact ⟨same.trans (wrote written), written.keeps isValid⟩
  · rintro state key ⟨same, isValid⟩
    have written := wrote_delete state key
    exact ⟨same.trans (wrote written), written.keeps isValid⟩
  · rintro state range ⟨same, isValid⟩
    exact ⟨same.trans (deleteAll state range), valid_deleteAll isValid range⟩

/-- What a program does to a stack, from the map that the stack shows. -/
theorem run_stack (valid : stack.Valid) (program : StoreProgram K V E A) :
    ∃ outcome after, stackStore.run program stack = (outcome, after) ∧
      (mapStore K V).run program stack.view = (outcome, after.view) ∧ after.Valid ∧
      SameBelow stack after := by
  obtain ⟨result, shown, validAfter⟩ := stackStore_refines.run program stack valid
  exact ⟨_, _, rfl, Prod.ext result.symm shown.symm, validAfter, .run valid program⟩

/-! ### Snapshots and reverts -/

inductive Op (K V : Type) where
  | get (key : K)
  | has (key : K)
  | iterator (start stop : Option K) (ascending : Bool)
  | set (key : K) (value : V)
  | delete (key : K)
  | snapshot
  | revertToSnapshot (revision : Nat)

/-- A revert to a snapshot that does not exist panics. -/
def stackStep (stack : Stack K V) : Op K V → Option (Stack K V)
  | .get key => some (stack.get key).2
  | .has key => some (stack.has key).2
  | .iterator start stop ascending => some (stack.iterator start stop ascending).2
  | .set key value => some (stack.set key value)
  | .delete key => some (stack.delete key)
  | .snapshot => some stack.snapshot
  | .revertToSnapshot revision =>
    if revision < stack.layers.length then some (stack.revertToSnapshot revision) else none

/-- The overlay that the operations define: the base and the writes of each layer, the newest
layer first and the writes of a layer in order. -/
structure Logical (K V : Type) where
  base : K → Option V
  layers : List (List (KeyWrite K V))

namespace Logical

/-- The map of the overlay: the writes of the oldest layer come first. -/
def view (logical : Logical K V) : K → Option V :=
  overlay logical.base logical.layers.reverse.flatten

def write (logical : Logical K V) (write : KeyWrite K V) : Logical K V :=
  match logical.layers with
  | [] => { logical with base := update logical.base write.key write.value }
  | top :: below => { logical with layers := (top ++ [write]) :: below }

def step (logical : Logical K V) : Op K V → Logical K V
  | .set key value => logical.write ⟨key, some value⟩
  | .delete key => logical.write ⟨key, none⟩
  | .snapshot => { logical with layers := [] :: logical.layers }
  | .revertToSnapshot revision =>
    { logical with layers := logical.layers.drop (logical.layers.length - revision) }
  | _ => logical

end Logical

/-- The layer has what the writes leave. -/
def HasWrites (layer : Layer K V) (writes : List (KeyWrite K V)) : Prop :=
  ∀ key, layer.written key = lastWrite writes key

omit [LawfulEqOrd K] [Inhabited V] in
theorem hasWrites_empty : HasWrites ({} : Layer K V) [] := fun key => by
  simp [Layer.written]

structure Represents (stack : Stack K V) (logical : Logical K V) : Prop where
  valid : stack.Valid
  base : ∀ key, stack.base[key]? = logical.base key
  layers : List.Forall₂ HasWrites stack.layers logical.layers

namespace Represents

variable {logical : Logical K V}

omit [LawfulEqOrd K] [Inhabited V] in
theorem viewFrom_eq {base : ExtTreeMap K V}
    {writes : List (List (KeyWrite K V))} (represented : List.Forall₂ HasWrites layers writes)
    (key : K) :
    viewFrom base layers key = overlay (fun key => base[key]?) writes.reverse.flatten key := by
  induction represented with
  | nil => rfl
  | cons hasWrites _ ih =>
    rw [viewFrom_cons, hasWrites key, ih, reverse_cons, flatten_append,
      overlay_append, flatten_singleton]
    rfl

omit [LawfulEqOrd K] in
theorem view (represents : Represents stack logical) : stack.view = logical.view := by
  funext key
  rw [Stack.view, viewFrom_eq represents.layers]
  congr 1
  exact funext represents.base

omit [LawfulEqOrd K] [Inhabited V] in
theorem hasWrites_of_sameWrites {layers layers' : List (Layer K V)}
    {writes : List (List (KeyWrite K V))} (same : SameWrites layers layers')
    (represented : List.Forall₂ HasWrites layers writes) :
    List.Forall₂ HasWrites layers' writes := by
  induction represented generalizing layers' with
  | nil =>
    rw [SameWrites, map_nil, map_eq_nil_iff] at same
    rw [same]
    exact .nil
  | cons hasWrites _ ih =>
    obtain ⟨layer', below', rfl, sameLayer, sameBelow⟩ := map_eq_cons_iff.mp same
    refine .cons (fun key => ?_) (ih sameBelow)
    rw [← hasWrites key, Layer.written, (Prod.mk.inj sameLayer).1, Layer.written]

omit [Inhabited V] in
theorem hasWrites_setCacheValue {layer : Layer K V} {writes : List (KeyWrite K V)}
    (hasWrites : HasWrites layer writes) (key : K) (value : Option V) (deleted : Bool) :
    HasWrites (layer.setCacheValue key value deleted true) (writes ++ [⟨key, value⟩]) := by
  intro other
  rw [lastWrite_append]
  rcases written_setCacheValue layer key value deleted other with
    ⟨written, rfl⟩ | ⟨written, different⟩
  · rw [written]
    simp [lastWrite]
  · rw [written, hasWrites other]
    simp [lastWrite, different]

variable (represents : Represents stack logical)

include represents

theorem wrote (wrote : Wrote key value stack after) :
    Represents after (logical.write ⟨key, value⟩) := by
  have isValid := wrote.keeps represents.valid
  obtain ⟨-, base, layers⟩ := represents
  obtain ⟨logicalBase, logicalLayers⟩ := logical
  cases wrote with
  | base shows =>
    cases layers
    refine ⟨isValid, fun other => ?_, .nil⟩
    rw [shows, funext base]
    rfl
  | layer =>
    cases layers with
    | cons hasWrites rest =>
      exact ⟨isValid, base, .cons (hasWrites_setCacheValue hasWrites key value _) rest⟩

omit [LawfulEqOrd K] in
theorem get (key : K) : Represents (stack.get key).2 logical := by
  obtain ⟨_, same, kept⟩ := getFrom_spec stack.base key represents.valid (.self stack.layers)
  exact ⟨kept, represents.base, hasWrites_of_sameWrites same represents.layers⟩

theorem iterator (start stop : Option K)
    (ascending : Bool) : Represents (stack.iterator start stop ascending).2 logical := by
  obtain ⟨_, same, kept⟩ := iterateFrom_spec stack.base start stop ascending
    represents.valid (.self stack.layers)
  exact ⟨kept, represents.base, hasWrites_of_sameWrites same represents.layers⟩

omit [LawfulEqOrd K] in
theorem snapshot : Represents stack.snapshot { logical with layers := [] :: logical.layers } := by
  obtain ⟨valid, base, layers⟩ := represents
  refine ⟨valid_snapshot valid, ?_, ?_⟩
  all_goals
    obtain ⟨stackBase, stackLayers⟩ := stack
    obtain ⟨logicalBase, logicalLayers⟩ := logical
    cases layers
  case refine_1.nil => exact base
  case refine_1.cons => exact base
  case refine_2.nil => exact .cons hasWrites_empty .nil
  case refine_2.cons hasWrites rest => exact .cons hasWrites_empty (.cons hasWrites rest)

omit [LawfulEqOrd K] in
theorem revertToSnapshot (revision : Nat) :
    Represents (stack.revertToSnapshot revision)
      { logical with
        layers := logical.layers.drop (logical.layers.length - revision) } := by
  have dropped := forall₂_drop (stack.layers.length - revision) represents.layers
  rw [represents.layers.length_eq] at dropped
  refine ⟨valid_revertToSnapshot represents.valid revision, ?_, ?_⟩
  · unfold Stack.revertToSnapshot
    split
    all_goals exact represents.base
  · unfold Stack.revertToSnapshot
    rw [represents.layers.length_eq]
    split
    case h_1 empty =>
      rw [empty] at dropped
      exact dropped
    case h_2 exposed =>
      rw [exposed] at dropped
      obtain ⟨_, _, hasWrites, rest, kept⟩ := forall₂_cons_left_iff.mp dropped
      exact forall₂_cons_left_iff.mpr ⟨_, _, hasWrites, rest, kept⟩

/-- One operation on the stack is one operation on the overlay. -/
theorem step {op : Op K V} (stepped : stackStep stack op = some after) :
    Represents after (logical.step op) := by
  cases op with
  | get key | has key =>
    cases stepped
    exact represents.get key
  | iterator start stop ascending =>
    cases stepped
    exact represents.iterator start stop ascending
  | set key value =>
    cases stepped
    exact represents.wrote (wrote_set stack key value)
  | delete key =>
    cases stepped
    exact represents.wrote (wrote_delete stack key)
  | snapshot =>
    cases stepped
    exact represents.snapshot
  | revertToSnapshot revision =>
    obtain ⟨_, ⟨⟩⟩ := ite_none_right_eq_some.mp stepped
    exact represents.revertToSnapshot revision

theorem run {final : Stack K V} {ops : List (Op K V)}
    (ran : runEvents stackStep stack ops = some final) :
    Represents final (ops.foldl Logical.step logical) := by
  induction ops generalizing stack logical with
  | nil =>
    cases ran
    exact represents
  | cons op rest ih =>
    obtain ⟨next, stepped, ranRest⟩ := bind_eq_some_iff.mp ran
    exact ih (represents.step stepped) ranRest

end Represents

/-- After any operations the top shows the overlay that they define, to reads and to iterations,
and writing all layers down leaves it in the base. -/
theorem stack_shows_overlay (base : ExtTreeMap K V) (ops : List (Op K V)) (final : Stack K V)
    (ran : runEvents stackStep ⟨base, []⟩ ops = some final) :
    let logical := ops.foldl Logical.step ⟨fun key => base[key]?, []⟩
    (∀ key, (final.get key).1 = logical.view key) ∧
    (∀ key, (final.has key).1 = (logical.view key).isSome) ∧
    (∀ start stop ascending, Enumerates (iterCompare ascending) logical.view
      (fun key => inDomain start stop key = true) (final.iterator start stop ascending).1) ∧
    ∀ key, final.write.base[key]? = logical.view key := by
  have initial : Represents ⟨base, []⟩ ⟨fun key => base[key]?, []⟩ := ⟨trivial, fun _ => rfl, .nil⟩
  have represents := initial.run ran
  dsimp only
  rw [← represents.view]
  refine ⟨fun key => (get_spec represents.valid key).1, fun key => ?_,
    fun start stop ascending => ?_, write_spec represents.valid⟩
  · exact congrArg Option.isSome (get_spec represents.valid key).1
  · exact (iterateFrom_spec final.base start stop ascending represents.valid (.self final.layers)).1

/-- A delete, a frozen layer without writes that reads skip, and a reverted set. -/
theorem stack_shows_overlay_reverted :
    ∃ final, runEvents stackStep ⟨ExtTreeMap.ofList [(1, 10), (2, 20)] compare, []⟩
        [.snapshot, .delete 1, .snapshot, .snapshot, .get 2, .set 1 11, .revertToSnapshot 2,
          .get 1] = some final ∧
      (final.get 1).1 = none ∧ final.write.base[2]? = some 20 := by
  refine ⟨_, rfl, ?_⟩
  obtain ⟨gets, _, _, written⟩ := stack_shows_overlay
    (ExtTreeMap.ofList [(1, 10), (2, 20)] compare)
    [.snapshot, .delete 1, .snapshot, .snapshot, .get 2, .set 1 11, .revertToSnapshot 2, .get 1]
    _ rfl
  exact ⟨(gets 1).trans (by decide +kernel), (written 2).trans (by decide +kernel)⟩

end SeiChain.CacheKV
