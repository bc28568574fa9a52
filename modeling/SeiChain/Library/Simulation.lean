/-
This file develops simulations between stateful programs. A program takes a
state to a result and a new state, or ends with an error. One program simulates
another one, over other states, if from related states both end with the same
error, or both end with the same result in related states. Simulations compose
along the sequence of a program, so a program is compared with its model step by
step.
-/

import Mathlib.Logic.Basic

namespace SeiChain.Library

variable {S W E A B : Type} {next : A → StateT S (Except E) B}
  {modelNext : A → StateT W (Except E) B}

/-- A sequence that succeeds does so in both of its parts. -/
theorem exceptBind_eq_ok {first : Except E A} {next : A → Except E B} {result : B} :
    (first >>= next) = .ok result ↔ ∃ value, first = .ok value ∧ next value = .ok result := by
  cases first <;> simp [bind, Except.bind]

theorem get_bind (next : S → StateT S (Except E) A) (state : S) :
    (get >>= next) state = next state state := rfl

/-- Two outcomes with the same result and related states, or with the same error. -/
inductive SameOutcome (related : S → W → Prop) : Except E (A × S) → Except E (A × W) → Prop
  | ok {result : A} {state : S} {model : W} (isRelated : related state model) :
      SameOutcome related (.ok (result, state)) (.ok (result, model))
  | error (cause : E) : SameOutcome related (.error cause) (.error cause)

/-- The program ends as the model does, from all related states. -/
def Simulates (related : S → W → Prop) (program : StateT S (Except E) A)
    (model : StateT W (Except E) A) : Prop :=
  ∀ state modelState, related state modelState →
    SameOutcome related (program state) (model modelState)

/-- Going on after the same outcome. -/
theorem SameOutcome.bind {related : S → W → Prop} {outcome : Except E (A × S)}
    {modelOutcome : Except E (A × W)} (ended : SameOutcome related outcome modelOutcome)
    (second : ∀ result, Simulates related (next result) (modelNext result)) :
    SameOutcome related (outcome >>= fun ended => next ended.1 ended.2)
      (modelOutcome >>= fun ended => modelNext ended.1 ended.2) := by
  cases ended with
  | ok isRelated => exact second _ _ _ isRelated
  | error cause => exact .error cause

namespace Simulates

variable {related : S → W → Prop}

theorem pure (result : A) :
    Simulates related (Pure.pure result : StateT S (Except E) A) (Pure.pure result) :=
  fun _ _ isRelated => .ok isRelated

variable {program : StateT S (Except E) A} {model : StateT W (Except E) A}

theorem bind (first : Simulates related program model)
    (second : ∀ result, Simulates related (next result) (modelNext result)) :
    Simulates related (program >>= next) (model >>= modelNext) :=
  fun state modelState isRelated => (first state modelState isRelated).bind second

/-- A program that succeeds does so as its model does. -/
theorem of_ok (simulates : Simulates related program model) {state after : S} {modelState : W}
    (isRelated : related state modelState) {result : A} (ran : program state = .ok (result, after)) :
    ∃ modelAfter, model modelState = .ok (result, modelAfter) ∧ related after modelAfter := by
  have ended := simulates state modelState isRelated
  rw [ran] at ended
  generalize model modelState = modelRan at ended
  cases ended with
  | ok isRelated => exact ⟨_, rfl, isRelated⟩

/-- Programs that look at their states first. -/
theorem look {next : S → StateT S (Except E) A} {modelNext : W → StateT W (Except E) A}
    (both : ∀ state modelState, related state modelState →
      SameOutcome related (next state state) (modelNext modelState modelState)) :
    Simulates related (get >>= next) (get >>= modelNext) :=
  both

/-- A program that looks at its state, where the model does not have to. -/
theorem lookLeft {next : S → StateT S (Except E) A}
    (both : ∀ state modelState, related state modelState →
      SameOutcome related (next state state) (model modelState)) :
    Simulates related (get >>= next) model :=
  both

theorem map (change : A → B) (simulates : Simulates related program model) :
    Simulates related (change <$> program) (change <$> model) :=
  bind simulates fun result => pure (change result)

theorem ite {condition : Prop} [Decidable condition] {other : StateT S (Except E) A}
    {modelOther : StateT W (Except E) A} (holds : condition → Simulates related program model)
    (fails : ¬condition → Simulates related other modelOther) :
    Simulates related (if condition then program else other)
      (if condition then model else modelOther) := by
  by_cases decided : condition
  · rw [if_pos decided, if_pos decided]
    exact holds decided
  · rw [if_neg decided, if_neg decided]
    exact fails decided

end Simulates

end SeiChain.Library
