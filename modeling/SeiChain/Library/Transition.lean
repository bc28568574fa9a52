/-
This file develops runs of a state machine. The machine is a partial step
function on states and events: an event that is not enabled in a state has no
successor. A run condition says which events are admitted in which state, so
that one machine carries both the unrestricted runs of a program and the runs
that keep to an assumption about its environment. Everything about whole runs
goes through one rule: what holds at the start and is kept by every admitted
step holds in every state that is reached.
-/

import Mathlib.Logic.Relation

namespace SeiChain.Library

variable {State Event : Type} (step : State → Event → Option State) (admits : State → Event → Prop)

/-- One admitted step of the machine `step`. -/
def Steps (before after : State) : Prop :=
  ∃ event, admits before event ∧ step before event = some after

/-- The states that admitted steps lead to from `start`. -/
def Reaches (start final : State) : Prop := Relation.ReflTransGen (Steps step admits) start final

namespace Reaches

variable {step admits} {start middle final : State}

theorem refl (state : State) : Reaches step admits state state := Relation.ReflTransGen.refl

theorem next (reached : Reaches step admits start middle) (event : Event)
    (admitted : admits middle event) (taken : step middle event = some final) :
    Reaches step admits start final :=
  Relation.ReflTransGen.tail reached ⟨event, admitted, taken⟩

theorem mono {allows : State → Event → Prop}
    (weaker : ∀ state event, admits state event → allows state event)
    (reached : Reaches step admits start final) : Reaches step allows start final :=
  Relation.ReflTransGen.mono (fun _ _ ⟨event, admitted, taken⟩ =>
    ⟨event, weaker _ event admitted, taken⟩) _ _ reached

/-- The invariant rule: a property of the start that every admitted step keeps holds in every
reached state. -/
theorem invariant {holds : State → Prop} (initially : holds start)
    (kept : ∀ before event after, holds before → admits before event →
      step before event = some after → holds after)
    (reached : Reaches step admits start final) : holds final := by
  induction reached with
  | refl => exact initially
  | tail _ taken ih =>
    obtain ⟨event, admitted, stepped⟩ := taken
    exact kept _ event _ ih admitted stepped

end Reaches

/-- Take the given events one after the other, as long as each is enabled. -/
def runEvents (step : State → Event → Option State) : State → List Event → Option State
  | state, [] => some state
  | state, event :: rest => (step state event).bind fun next => runEvents step next rest

variable {step admits} {start final : State} {events : List Event}

/-- What can be run with a check of each event is reached, if the check is sound. -/
theorem reaches_of_checked (check : State → Event → Bool)
    (sound : ∀ state event, check state event = true → admits state event)
    (ran : runEvents (fun state event => if check state event then step state event else none)
      start events = some final) : Reaches step admits start final := by
  induction events generalizing start with
  | nil =>
    cases ran
    exact .refl _
  | cons event rest ih =>
    obtain ⟨next, stepped, ranRest⟩ := Option.bind_eq_some_iff.mp ran
    obtain ⟨checked, stepped⟩ := Option.ite_none_right_eq_some.mp stepped
    refine Relation.ReflTransGen.head ⟨event, sound start event checked, stepped⟩ ?_
    exact ih ranRest

/-- What is evaluated at the end of a checked run holds in a reached state. -/
theorem exists_reaches_of_checked {holds : State → Prop} (check : State → Event → Bool)
    (sound : ∀ state event, check state event = true → admits state event) (events : List Event)
    (ran : ∃ final ∈ runEvents (fun state event => if check state event then step state event
      else none) start events, holds final) :
    ∃ final, Reaches step admits start final ∧ holds final := by
  obtain ⟨final, ranTo, isFinal⟩ := ran
  exact ⟨final, reaches_of_checked check sound ranTo, isFinal⟩

theorem exists_reaches {holds : State → Prop} [∀ state event, Decidable (admits state event)]
    (events : List Event) (ran : ∃ final ∈ runEvents (fun state event =>
      if decide (admits state event) then step state event else none) start events, holds final) :
    ∃ final, Reaches step admits start final ∧ holds final :=
  exists_reaches_of_checked _ (fun _ _ => of_decide_eq_true) events ran

end SeiChain.Library
