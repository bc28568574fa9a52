/-
This file proves that a stack of cache stores shows one map: the base, and over
it the writes of each layer from the oldest to the newest. Reads and iterations
may skip layers and change what the layers remember, but they skip only layers
without writes, so they always answer from that map. The memo of a layer stays
right because it only concerns older layers, and these are not written until the
layers over them are gone or flushed.
-/

import SeiChain.CacheKV.Layers
import SeiChain.Library.StoreProgram
import SeiChain.Library.Transition
import SeiChain.Library.WriteLog

namespace SeiChain.CacheKV

open Std List Layer ExtTreeMap

variable {K V : Type} [Ord K] [TransOrd K] [LawfulEqOrd K] [Inhabited V]

/-! ### The map that the layers show -/

def viewFrom (base : ExtTreeMap K V) : List (Layer K V) → K → Option V
  | [], key => base[key]?
  | layer :: below, key =>
    match layer.cache[key]? with
    | some cacheValue => cacheValue.value
    | none => viewFrom base below key

def Stack.view (stack : Stack K V) : K → Option V := viewFrom stack.base stack.layers

/-- The store with `target` layers from it down is reached over layers without writes. -/
def Skips (layers : List (Layer K V)) (target : Nat) : Prop :=
  target ≤ layers.length ∧ ∀ layer ∈ layers.take (layers.length - target), layer.dirty = false

/-- Every layer is coherent, and what it remembers skips only layers without writes. -/
def WellFormed : List (Layer K V) → Prop
  | [] => True
  | layer :: below => Coherent layer ∧
    (∀ memo, layer.readParent = some memo → Skips below memo) ∧ WellFormed below

/-- The writes of a layer, and whether it has some. -/
def Layer.writes (layer : Layer K V) : ExtTreeMap K (CValue V) × Bool := (layer.cache, layer.dirty)

/-- Two stacks of layers with the same writes. -/
def SameWrites (before after : List (Layer K V)) : Prop := after.map writes = before.map writes

variable {base : ExtTreeMap K V} {layer : Layer K V} {below layers layers' : List (Layer K V)}
  {target : Nat}

omit [TransOrd K] [LawfulEqOrd K] [Inhabited V] in
theorem Skips.self (layers : List (Layer K V)) : Skips layers layers.length := by
  refine ⟨le_rfl, fun layer member => ?_⟩
  rw [Nat.sub_self] at member
  cases member

omit [TransOrd K] [LawfulEqOrd K] [Inhabited V] in
theorem skips_cons (short : target ≤ below.length) :
    Skips (layer :: below) target ↔ layer.dirty = false ∧ Skips below target := by
  unfold Skips
  have taken : (layer :: below).length - target = (below.length - target) + 1 := by
    rw [length_cons]
    lia
  rw [taken, take_succ_cons, forall_mem_cons]
  constructor
  · rintro ⟨-, clean, rest⟩
    exact ⟨clean, short, rest⟩
  · rintro ⟨clean, -, rest⟩
    exact ⟨Nat.le_succ_of_le short, clean, rest⟩

omit [TransOrd K] [LawfulEqOrd K] [Inhabited V] in
theorem Skips.congr (same : SameWrites layers layers') (skips : Skips layers target) :
    Skips layers' target := by
  have sameLength : layers'.length = layers.length := by
    simpa using congrArg List.length same
  refine ⟨sameLength ▸ skips.1, fun layer member => ?_⟩
  have inWrites := mem_map_of_mem (f := writes) member
  rw [map_take, same, ← map_take, sameLength] at inWrites
  obtain ⟨original, isOriginal, sameLayer⟩ := mem_map.mp inWrites
  have clean := skips.2 original isOriginal
  rwa [← (Prod.mk.inj sameLayer).2]

omit [LawfulEqOrd K] [Inhabited V] in
theorem viewFrom_congr (same : SameWrites layers layers') (key : K) :
    viewFrom base layers' key = viewFrom base layers key := by
  induction layers generalizing layers' with
  | nil =>
    rw [SameWrites, map_nil, map_eq_nil_iff] at same
    rw [same]
  | cons layer below ih =>
    obtain ⟨layer', below', rfl, sameLayer, sameBelow⟩ := map_eq_cons_iff.mp same
    rw [viewFrom, viewFrom, (Prod.mk.inj sameLayer).1, ih sameBelow]

omit [LawfulEqOrd K] in
/-- A layer without writes shows what is below it. -/
theorem viewFrom_clean (coherent : Coherent layer) (clean : layer.dirty = false) (key : K) :
    viewFrom base (layer :: below) key = viewFrom base below key := by
  rw [viewFrom, coherent.clean clean]

omit [TransOrd K] [LawfulEqOrd K] [Inhabited V] in
theorem skips_skipFrozen (layers : List (Layer K V)) :
    Skips layers (skipFrozen layers) ∧ skipFrozen layers ≤ layers.length := by
  induction layers with
  | nil => exact ⟨.self [], le_rfl⟩
  | cons layer below ih =>
    unfold skipFrozen
    split
    · next skippable =>
      have clean : layer.dirty = false := by
        simp only [Layer.skippable, Bool.and_eq_true, Bool.not_eq_true'] at skippable
        exact skippable.2
      exact ⟨(skips_cons ih.2).mpr ⟨clean, ih.1⟩, Nat.le_succ_of_le ih.2⟩
    · exact ⟨.self (layer :: below), le_rfl⟩

omit [LawfulEqOrd K] in
/-- A read falls through to a store that is reached over layers without writes. -/
theorem readThroughParent_spec (wellFormed : WellFormed (layer :: below)) :
    Skips below (layer.readThroughParent below).1 ∧
      ∃ memo, (layer.readThroughParent below).2 = { layer with readParent := memo } ∧
        ∀ found, memo = some found → Skips below found := by
  obtain ⟨-, memoRight, -⟩ := wellFormed
  cases below with
  | nil => exact ⟨.self [], layer.readParent, rfl, memoRight⟩
  | cons parent below =>
    unfold readThroughParent
    dsimp only
    split
    · split
      · next memo remembered => exact ⟨memoRight memo remembered, layer.readParent, rfl, memoRight⟩
      · have found := (skips_skipFrozen (parent :: below)).1
        exact ⟨found, some (skipFrozen (parent :: below)), rfl, fun _ isFound =>
          Option.some.inj isFound ▸ found⟩
    · exact ⟨.self (parent :: below), layer.readParent, rfl, memoRight⟩

/-! ### Reads -/

omit [LawfulEqOrd K] in
theorem getFrom_spec (base : ExtTreeMap K V) (key : K) (wellFormed : WellFormed layers)
    (skips : Skips layers target) :
    (getFrom base key layers target).1 = viewFrom base layers key ∧
      SameWrites layers (getFrom base key layers target).2 ∧
      WellFormed (getFrom base key layers target).2 := by
  induction layers generalizing target with
  | nil => exact ⟨rfl, rfl, trivial⟩
  | cons layer below ih =>
    have ⟨coherent, memoRight, belowWellFormed⟩ := wellFormed
    unfold getFrom
    split
    · next above =>
      obtain ⟨clean, belowSkips⟩ := (skips_cons (Nat.le_of_lt_succ above)).mp skips
      obtain ⟨value, same, kept⟩ := ih belowWellFormed belowSkips
      refine ⟨value.trans (viewFrom_clean coherent clean key).symm, ?_, coherent, ?_, kept⟩
      · exact congrArg (layer.writes :: ·) same
      · exact fun memo remembered => (memoRight memo remembered).congr same
    · cases found : layer.cache[key]? with
      | some =>
        exact ⟨by rw [viewFrom, found], rfl, wellFormed⟩
      | none =>
        obtain ⟨belowSkips, memo, isLayer, memoSkips⟩ := readThroughParent_spec wellFormed
        obtain ⟨value, same, kept⟩ := ih belowWellFormed belowSkips
        dsimp only
        rw [isLayer]
        refine ⟨by rw [viewFrom, found]; exact value, ?_, ?_, ?_, kept⟩
        · exact congrArg (layer.writes :: ·) same
        · exact coherent.withMarks layer.frozen memo
        · exact fun other remembered => (memoSkips other remembered).congr same

/-! ### Iteration -/

theorem iterateFrom_spec (base : ExtTreeMap K V) (start stop : Option K) (ascending : Bool)
    (wellFormed : WellFormed layers) (skips : Skips layers target) :
    Enumerates (iterCompare ascending) (viewFrom base layers)
        (fun key => inDomain start stop key = true)
        (iterateFrom base start stop ascending layers target).1 ∧
      SameWrites layers (iterateFrom base start stop ascending layers target).2 ∧
      WellFormed (iterateFrom base start stop ascending layers target).2 := by
  induction layers generalizing target with
  | nil =>
    exact ⟨⟨rangeItems_sorted base start stop ascending,
      mem_rangeItems base start stop ascending⟩, rfl, trivial⟩
  | cons layer below ih =>
    have ⟨coherent, memoRight, belowWellFormed⟩ := wellFormed
    unfold iterateFrom
    split
    · next above =>
      obtain ⟨clean, belowSkips⟩ := (skips_cons (Nat.le_of_lt_succ above)).mp skips
      obtain ⟨items, same, kept⟩ := ih belowWellFormed belowSkips
      refine ⟨⟨items.sorted, fun key value => ?_⟩, ?_, coherent, ?_, kept⟩
      · rw [viewFrom_clean coherent clean]
        exact items.mem key value
      · exact congrArg (layer.writes :: ·) same
      · exact fun memo remembered => (memoRight memo remembered).congr same
    · obtain ⟨belowSkips, memo, isLayer, memoSkips⟩ := readThroughParent_spec wellFormed
      obtain ⟨items, same, kept⟩ := ih belowWellFormed belowSkips
      dsimp only
      rw [isLayer]
      generalize iterateFrom base start stop ascending below (layer.readThroughParent below).1 =
        parent at items same kept ⊢
      have marked := coherent.withMarks layer.frozen memo
      let dirty := ({ layer with readParent := memo }).dirtyItems start stop
      have sameLayer : dirty.writes = layer.writes ∧ dirty.readParent = memo := by
        unfold dirty dirtyItems
        split <;> exact ⟨rfl, rfl⟩
      have resultKept : SameWrites (layer :: below) (dirty :: parent.2) ∧
          WellFormed (dirty :: parent.2) := by
        refine ⟨?_, marked.dirtyItems start stop, ?_, kept⟩
        · unfold SameWrites
          rw [map_cons, sameLayer.1, same]
          rfl
        · rw [sameLayer.2]
          exact fun other remembered => (memoSkips other remembered).congr same
      have cacheMem : ∀ key value, (key, value) ∈ dirty.memItems start stop ascending ↔
          inDomain start stop key = true ∧ layer.cache[key]?.map CValue.value = some value :=
        marked.mem_memItems start stop ascending
      have cacheSorted := Coherent.memItems_sorted dirty start stop ascending
      split
      · next noItems =>
        refine ⟨⟨items.sorted, fun key value => ?_⟩, resultKept⟩
        rw [List.isEmpty_iff] at noItems
        rw [items.mem]
        refine and_congr_right fun inside => ?_
        cases cached : layer.cache[key]? with
        | none => rw [viewFrom, cached]
        | some cacheValue =>
          have member := (cacheMem key cacheValue.value).mpr ⟨inside, by rw [cached]; rfl⟩
          rw [noItems] at member
          cases member
      · obtain ⟨drained, members⟩ := drain_spec _ _ items.sorted cacheSorted
        refine ⟨⟨drained, fun key value => ?_⟩, resultKept⟩
        rw [members]
        unfold Shows
        simp only [cacheMem, items.mem]
        rw [viewFrom]
        cases layer.cache[key]? with
        | none => simp
        | some cacheValue =>
          simp only [Option.map_some, Option.some.injEq, not_and]
          refine ⟨fun shown => shown.resolve_right ?_, .inl⟩
          rintro ⟨⟨inside, -⟩, hidden⟩
          exact hidden _ inside rfl

/-! ### Writes -/

/-- What a layer has at a key: a value, a deletion, or nothing. -/
def Layer.written (layer : Layer K V) (key : K) : Option (Option V) :=
  layer.cache[key]?.map CValue.value

omit [LawfulEqOrd K] [Inhabited V] in
theorem viewFrom_cons (key : K) :
    viewFrom base (layer :: below) key = (layer.written key).getD (viewFrom base below key) := by
  rw [viewFrom, written]
  cases layer.cache[key]? <;> rfl

omit [Inhabited V] in
theorem written_setCacheValue (layer : Layer K V) (key : K) (value : Option V) (deleted : Bool)
    (other : K) :
    (layer.setCacheValue key value deleted true).written other = some value ∧ key = other ∨
      (layer.setCacheValue key value deleted true).written other = layer.written other ∧
        key ≠ other := by
  classical
  unfold written
  rw [getElem?_setCacheValue]
  by_cases same : key = other
  · exact .inl ⟨by rw [if_pos same]; rfl, same⟩
  · exact .inr ⟨by rw [if_neg same], same⟩

theorem Coherent.writeTo {parent : Layer K V} (layer : Layer K V) (coherent : Coherent parent) :
    Coherent (layer.writeTo Layer.set Layer.delete parent) := by
  unfold Layer.writeTo
  generalize layer.dirtyKeys = keys
  induction keys generalizing parent with
  | nil => exact coherent
  | cons key rest ih =>
    refine ih ?_
    unfold writeKey
    split
    · exact coherent.delete key
    · split
      · exact coherent.set key _
      · exact coherent

theorem written_writeTo {parent : Layer K V} (coherent : Coherent layer) (key : K) :
    (layer.writeTo Layer.set Layer.delete parent).written key =
      (layer.written key).or (parent.written key) := by
  have observed := coherent.observe_writeTo set delete written some
    (fun layer key value => written_setCacheValue layer key (some value) false)
    (fun layer key => written_setCacheValue layer key none true) parent key
  rw [observed]
  unfold written
  cases layer.cache[key]? <;> rfl

theorem getElem?_writeTo (coherent : Coherent layer) (key : K) :
    (layer.writeTo insert erase base)[key]? = (layer.written key).getD base[key]? := by
  have observed := coherent.observe_writeTo insert erase
    (fun base key => base[key]?) id
    (fun parent key value other => by
      by_cases same : key = other
      · exact .inl ⟨by simp [same], same⟩
      · exact .inr ⟨by simp [ExtTreeMap.getElem?_insert, same], same⟩)
    (fun parent key other => by
      by_cases same : key = other
      · exact .inl ⟨by simp [same], same⟩
      · exact .inr ⟨by simp [getElem?_erase, same], same⟩) base key
  rw [observed]
  unfold written
  cases layer.cache[key]? <;> rfl

/-- One `Write` moves the writes of a layer down and leaves the map as it was. -/
theorem writeAt_spec {above : Nat} (coherent : ∀ layer ∈ layers, Coherent layer)
    (short : above < layers.length)
    (clean : ∀ layer ∈ layers.take above, layer.dirty = false) :
    (Stack.writeAt base above layers).layers.length = layers.length ∧
      (∀ layer ∈ (Stack.writeAt base above layers).layers, Coherent layer) ∧
      (∀ layer ∈ (Stack.writeAt base above layers).layers.take (above + 1), layer.dirty = false) ∧
      ∀ key, (Stack.writeAt base above layers).view key = viewFrom base layers key := by
  induction layers generalizing above with
  | nil => cases short
  | cons layer below ih =>
    have layerCoherent := coherent layer mem_cons_self
    have belowCoherent : ∀ other ∈ below, Coherent other :=
      fun other member => coherent other (.tail _ member)
    cases above with
    | zero =>
      cases below with
      | nil =>
        refine ⟨rfl, ?_, ?_, fun key => ?_⟩
        · simpa [Stack.writeAt] using Coherent.cleared layer
        · simp [Stack.writeAt, cleared]
        · rw [Stack.view, Stack.writeAt, viewFrom_cons, viewFrom_cons]
          exact getElem?_writeTo layerCoherent key
      | cons parent below =>
        have parentCoherent := (belowCoherent parent mem_cons_self).writeTo layer
        refine ⟨rfl, ?_, ?_, fun key => ?_⟩
        · intro other member
          rcases mem_cons.mp member with rfl | inRest
          · exact Coherent.cleared layer
          · rcases mem_cons.mp inRest with rfl | inBelow
            · exact parentCoherent
            · exact belowCoherent other (.tail _ inBelow)
        · simp [Stack.writeAt, cleared]
        · rw [Stack.view, Stack.writeAt, viewFrom_cons, viewFrom_cons,
            viewFrom_cons, viewFrom_cons, written_writeTo layerCoherent]
          cases layer.written key <;> rfl
    | succ above =>
      obtain ⟨sameLength, kept, cleaned, view⟩ := ih belowCoherent
        (Nat.lt_of_succ_lt_succ short) (fun other member => clean other (.tail _ member))
      rw [Stack.writeAt]
      refine ⟨congrArg (· + 1) sameLength, ?_, ?_, fun key => ?_⟩
      · exact forall_mem_cons.mpr ⟨layerCoherent, kept⟩
      · exact forall_mem_cons.mpr ⟨clean layer mem_cons_self, cleaned⟩
      · rw [Stack.view, viewFrom_cons, viewFrom_cons]
        exact congrArg _ (view key)

omit [LawfulEqOrd K] in
theorem WellFormed.coherent (wellFormed : WellFormed layers) :
    ∀ layer ∈ layers, Coherent layer := by
  induction layers with
  | nil => simp
  | cons layer below ih =>
    exact forall_mem_cons.mpr ⟨wellFormed.1, ih wellFormed.2.2⟩

omit [LawfulEqOrd K] in
theorem viewFrom_of_clean (coherent : ∀ layer ∈ layers, Coherent layer)
    (clean : ∀ layer ∈ layers, layer.dirty = false) (key : K) :
    viewFrom base layers key = base[key]? := by
  induction layers with
  | nil => rfl
  | cons layer below ih =>
    rw [viewFrom_clean (coherent layer mem_cons_self) (clean layer mem_cons_self)]
    exact ih (fun other member => coherent other (mem_cons_of_mem _ member))
      fun other member => clean other (.tail _ member)

/-- After the `Write`s of all layers the base holds the map that the stack showed. -/
theorem write_spec {stack : Stack K V} (wellFormed : WellFormed stack.layers) (key : K) :
    stack.write.base[key]? = stack.view key := by
  have flushed : ∀ count ≤ stack.layers.length,
      let written := (List.range count).foldl
        (fun stack above => Stack.writeAt stack.base above stack.layers) stack
      written.layers.length = stack.layers.length ∧
        (∀ layer ∈ written.layers, Coherent layer) ∧
        (∀ layer ∈ written.layers.take count, layer.dirty = false) ∧
        ∀ key, written.view key = stack.view key := by
    intro count
    induction count with
    | zero =>
      intro _
      exact ⟨rfl, wellFormed.coherent, by simp, fun _ => rfl⟩
    | succ count ih =>
      intro short
      obtain ⟨sameLength, coherent, clean, view⟩ := ih (Nat.le_of_succ_le short)
      rw [range_succ, foldl_append]
      obtain ⟨nextLength, nextCoherent, nextClean, nextView⟩ :=
        writeAt_spec coherent (sameLength.symm ▸ short) clean
      exact ⟨nextLength.trans sameLength, nextCoherent, nextClean,
        fun key => (nextView key).trans (view key)⟩
  obtain ⟨sameLength, coherent, clean, view⟩ := flushed stack.layers.length le_rfl
  rw [take_of_length_le (Nat.le_of_eq sameLength)] at clean
  rw [← view key]
  exact (viewFrom_of_clean coherent clean key).symm

end SeiChain.CacheKV
