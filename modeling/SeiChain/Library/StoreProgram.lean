/-
This file develops programs over a key-value store. A program is a tree: it ends
with a result or an error, or it asks the store for one operation and goes on
with the answer. What was written before an error stays written, as in code that
returns an error in the middle of its work. A program is run on any store that
offers the operations; the reference store is a plain map. A store whose
operations agree with those of the map, seen through a view of its state, runs
every program as the map does.
-/

import Mathlib.Logic.Function.Basic

namespace SeiChain.Library

open Function

inductive StoreProgram (K V E A : Type) where
  | done (result : A)
  | fail (error : E)
  | get (key : K) (next : Option V → StoreProgram K V E A)
  | set (key : K) (value : V) (next : StoreProgram K V E A)
  | delete (key : K) (next : StoreProgram K V E A)
  | deleteAll (range : K → Bool) (next : StoreProgram K V E A)

variable {K V E A B S : Type}

namespace StoreProgram

def bind (program : StoreProgram K V E A) (next : A → StoreProgram K V E B) :
    StoreProgram K V E B :=
  match program with
  | done result => next result
  | fail error => fail error
  | get key rest => get key fun value => (rest value).bind next
  | set key value rest => set key value (rest.bind next)
  | delete key rest => delete key (rest.bind next)
  | deleteAll range rest => deleteAll range (rest.bind next)

instance : Monad (StoreProgram K V E) where
  pure := done
  bind := bind

/-- Read one key. -/
def read (key : K) : StoreProgram K V E (Option V) := get key done

/-- Write one key. -/
def write (key : K) (value : V) : StoreProgram K V E Unit := set key value (done ())

/-- Remove one key. -/
def erase (key : K) : StoreProgram K V E Unit := delete key (done ())

/-- Remove every key of a range. -/
def eraseAll (range : K → Bool) : StoreProgram K V E Unit := deleteAll range (done ())

end StoreProgram

/-! ### Stores -/

/-- The operations of a store with states `S`. Reading may change the state too, as it does in a
store that remembers where it found something. -/
structure KVStore (S K V : Type) where
  get : S → K → Option V × S
  set : S → K → V → S
  delete : S → K → S
  deleteAll : S → (K → Bool) → S

/-- Run a program on a store. -/
def KVStore.run (store : KVStore S K V) : StoreProgram K V E A → S → Except E A × S
  | .done result, state => (.ok result, state)
  | .fail error, state => (.error error, state)
  | .get key next, state => store.run (next (store.get state key).1) (store.get state key).2
  | .set key value next, state => store.run next (store.set state key value)
  | .delete key next, state => store.run next (store.delete state key)
  | .deleteAll range next, state => store.run next (store.deleteAll state range)

/-- Take one operation of a program; there is none once it has ended. -/
def KVStore.step (store : KVStore S K V) :
    StoreProgram K V E A → S → Option (StoreProgram K V E A × S)
  | .done _, _ => none
  | .fail _, _ => none
  | .get key next, state => some (next (store.get state key).1, (store.get state key).2)
  | .set key value next, state => some (next, store.set state key value)
  | .delete key next, state => some (next, store.delete state key)
  | .deleteAll range next, state => some (next, store.deleteAll state range)

/-- What a program has come to, if it has ended. -/
def StoreProgram.outcome : StoreProgram K V E A → Option (Except E A)
  | done result => some (.ok result)
  | fail error => some (.error error)
  | _ => none

variable {store : KVStore S K V} {program : StoreProgram K V E A}

theorem KVStore.run_of_step {rest : StoreProgram K V E A}
    {state after : S} (stepped : store.step program state = some (rest, after)) :
    store.run program state = store.run rest after := by
  cases program with
  | done => cases stepped
  | fail => cases stepped
  | get | set | delete | deleteAll =>
    cases stepped
    rfl

theorem KVStore.run_of_outcome
    {outcome : Except E A} {state : S} (ended : program.outcome = some outcome) :
    store.run program state = (outcome, state) := by
  cases program with
  | done | fail =>
    cases ended
    rfl
  | get | set | delete | deleteAll => cases ended

/-- The map as a store. -/
def mapStore (K V : Type) [DecidableEq K] : KVStore (K → Option V) K V where
  get map key := (map key, map)
  set map key value := update map key (some value)
  delete map key := update map key none
  deleteAll map range := fun key => if range key then none else map key

theorem KVStore.run_bind (store : KVStore S K V) (program : StoreProgram K V E A)
    (next : A → StoreProgram K V E B) (state : S) :
    store.run (program >>= next) state =
      match store.run program state with
      | (.ok result, after) => store.run (next result) after
      | (.error error, after) => (.error error, after) := by
  change store.run (program.bind next) state = _
  induction program generalizing state with
  | done result => rfl
  | fail error => rfl
  | get key rest ih =>
    exact ih _ _
  | set key value rest ih | delete key rest ih =>
    exact ih _
  | deleteAll range rest ih =>
    exact ih _

/-- What every operation keeps, every program keeps. -/
theorem KVStore.run_keeps (store : KVStore S K V) (keeps : S → Prop)
    (get : ∀ state key, keeps state → keeps (store.get state key).2)
    (set : ∀ state key value, keeps state → keeps (store.set state key value))
    (delete : ∀ state key, keeps state → keeps (store.delete state key))
    (deleteAll : ∀ state range, keeps state → keeps (store.deleteAll state range))
    (program : StoreProgram K V E A) (state : S) (start : keeps state) :
    keeps (store.run program state).2 := by
  induction program generalizing state with
  | done => exact start
  | fail => exact start
  | get key next ih => exact ih _ _ (get state key start)
  | set key value next ih => exact ih _ (set state key value start)
  | delete key next ih => exact ih _ (delete state key start)
  | deleteAll range next ih =>
    exact ih _ (deleteAll state range start)

/-! ### Stores that behave as a map -/

/-- The operations of the store are those of the map that `view` shows, in valid states. -/
structure KVStore.Refines [DecidableEq K] (store : KVStore S K V) (valid : S → Prop)
    (view : S → K → Option V) : Prop where
  get : ∀ state key, valid state → (store.get state key).1 = view state key ∧
    view (store.get state key).2 = view state ∧ valid (store.get state key).2
  set : ∀ state key value, valid state →
    view (store.set state key value) = update (view state) key (some value) ∧
      valid (store.set state key value)
  delete : ∀ state key, valid state →
    view (store.delete state key) = update (view state) key none ∧ valid (store.delete state key)
  deleteAll : ∀ state range, valid state →
    view (store.deleteAll state range) = (fun key => if range key then none else view state key) ∧
      valid (store.deleteAll state range)

/-- A program runs on such a store as on the map. -/
theorem KVStore.Refines.run [DecidableEq K] {valid : S → Prop}
    {view : S → K → Option V} (refines : store.Refines valid view)
    (program : StoreProgram K V E A) (state : S) (isValid : valid state) :
    (store.run program state).1 = ((mapStore K V).run program (view state)).1 ∧
      view (store.run program state).2 = ((mapStore K V).run program (view state)).2 ∧
      valid (store.run program state).2 := by
  induction program generalizing state with
  | done | fail => exact ⟨rfl, rfl, isValid⟩
  | get key next ih =>
    obtain ⟨value, sameView, nextValid⟩ := refines.get state key isValid
    have rest := ih (view state key) (store.get state key).2 nextValid
    rw [KVStore.run, value]
    rwa [sameView] at rest
  | set key value next ih =>
    obtain ⟨written, nextValid⟩ := refines.set state key value isValid
    have rest := ih (store.set state key value) nextValid
    rwa [written] at rest
  | delete key next ih =>
    obtain ⟨written, nextValid⟩ := refines.delete state key isValid
    have rest := ih (store.delete state key) nextValid
    rwa [written] at rest
  | deleteAll range next ih =>
    obtain ⟨written, nextValid⟩ := refines.deleteAll state range isValid
    have rest := ih (store.deleteAll state range) nextValid
    rwa [written] at rest

/-! ### Successful runs on the map -/

section Map

variable [DecidableEq K]

/-- The program ends with `result` and takes the map `before` to `after`. -/
def StoreProgram.Runs (program : StoreProgram K V E A) (before : K → Option V) (result : A)
    (after : K → Option V) : Prop :=
  (mapStore K V).run program before = (.ok result, after)

namespace StoreProgram

variable {before after : K → Option V}

@[simp]
theorem runs_pure (value result : A) :
    Runs (pure value : StoreProgram K V E A) before result after ↔
      result = value ∧ after = before := by
  change (Except.ok value, before) = (Except.ok result, after) ↔ _
  simp [eq_comm]

@[simp]
theorem runs_fail (error : E) (result : A) :
    Runs (fail error : StoreProgram K V E A) before result after ↔ False := by
  simp [Runs, KVStore.run]

@[simp]
theorem runs_read (key : K) (result : Option V) :
    Runs (read key : StoreProgram K V E _) before result after ↔
      result = before key ∧ after = before := by
  change (Except.ok (before key), before) = (Except.ok result, after) ↔ _
  simp [eq_comm]

@[simp]
theorem runs_write (key : K) (value : V) (result : Unit) :
    Runs (write key value : StoreProgram K V E _) before result after ↔
      after = update before key (some value) := by
  exact ⟨fun equal => (Prod.mk.inj equal).2.symm, fun equal => by rw [equal]; rfl⟩

@[simp]
theorem runs_erase (key : K) (result : Unit) :
    Runs (erase key : StoreProgram K V E _) before result after ↔
      after = update before key none := by
  exact ⟨fun equal => (Prod.mk.inj equal).2.symm, fun equal => by rw [equal]; rfl⟩

theorem Runs.parts {next : A → StoreProgram K V E B} {result : B}
    (ran : Runs (program >>= next) before result after) :
    ∃ value middle, Runs program before value middle ∧ Runs (next value) middle result after := by
  unfold Runs at ran ⊢
  rw [KVStore.run_bind] at ran
  generalize (mapStore K V).run program before = ended at ran ⊢
  obtain ⟨_ | value, middle⟩ := ended
  · cases ran
  · exact ⟨value, middle, rfl, ran⟩

/-- What follows a program that gives `value` and leaves the map alone. -/
theorem Runs.next {value : A} {next : A → StoreProgram K V E B} {result : B}
    (ran : Runs (program >>= next) before result after)
    (gives : ∀ {given middle}, Runs program before given middle → given = value ∧ middle = before) :
    Runs (next value) before result after := by
  obtain ⟨given, middle, givenRan, nextRan⟩ := ran.parts
  obtain ⟨rfl, rfl⟩ := gives givenRan
  exact nextRan

/-! ### Programs that leave the map alone -/

/-- The program writes nothing. -/
def ReadOnly (program : StoreProgram K V E A) : Prop :=
  ∀ before, ((mapStore K V).run program before).2 = before

theorem ReadOnly.bind {next : A → StoreProgram K V E B}
    (first : ReadOnly program) (second : ∀ result, ReadOnly (next result)) :
    ReadOnly (program >>= next) := by
  intro before
  have start := first before
  rw [KVStore.run_bind]
  generalize (mapStore K V).run program before = ran at start
  rcases ran with ⟨error | result, middle⟩
  · exact start
  · exact (second result middle).trans start

end StoreProgram

end Map

end SeiChain.Library
