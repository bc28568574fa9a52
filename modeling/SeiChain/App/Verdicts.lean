/-
This file proves on what the verdict on a proposal depends. The gas check reads the
store that the height started from, but the parameters it reads come with the
context of the shared branch, and these are read from that branch when the call
begins. A proposal is judged as the first one of its height as long as no run ahead
has changed the consensus parameters of the branch by then.
-/

import SeiChain.App.OptimisticRuns

namespace SeiChain.App

open Library Option Node

variable {Header Evidence Other Result : Type} (app : Application Header Evidence Other Result)

/-- The verdict on a proposal that is the first of its height. -/
def verdict (base : Store) (request : BlockRequest Header Evidence) : Bool :=
  app.accepts (freshBranch app base request) request

/-- When a proposal comes in, the shared branch has the consensus parameters that the height
started with. -/
def KeepsParams (start node : Node Header Evidence Other Result) : Event Header Evidence → Prop
  | .propose _ => ∀ branch, node.processProposalState = some branch →
    app.consensusParams branch.store = app.consensusParams start.base
  | _ => True

instance [DecidableEq Other] (start node : Node Header Evidence Other Result) :
    ∀ event : Event Header Evidence, Decidable (KeepsParams app start node event)
  | .propose _ => inferInstanceAs (Decidable (∀ branch ∈ node.processProposalState, _))
  | .advance | .goroutine _ | .finalize _ | .commit => .isTrue trivial

/-- What the caller's thread knows of the verdict on its proposal, while there is one. -/
def Phase.Judged (base : Store) (clean : Option (Branch Header Other)) :
    Phase Header Evidence Other Result → Prop
  | validating handling => clean = some (freshBranch app base handling.request)
  | claiming handling => verdict app base handling.request = true
  | launching handling => verdict app base handling.request = true
  | skipping request => verdict app base request = true
  | comparing request => verdict app base request = true
  | aborting request => verdict app base request = true
  | replying request accepted => verdict app base request = accepted
  | _ => True

/-- No proposal is taken any more once `FinalizeBlock` was called. -/
def Phase.isOpen : Phase Header Evidence Other Result → Bool
  | awaiting _ | deciding _ _ | finalized _ _ | failed _ | committed _ => false
  | _ => true

structure Judging (start node : Node Header Evidence Other Result) : Prop where
  before : node.phase.isOpen = true → Before start node
  judged : node.phase.Judged app start.base node.processProposalCleanCtx
  verdicts : ∀ entry ∈ node.verdicts, entry.2 = verdict app start.base entry.1

variable {app : Application Header Evidence Other Result}
  {start node after : Node Header Evidence Other Result}

section

variable (judging : Judging app start node)

include judging

theorem Judging.goroutine_step {index : Nat}
    (stepped : node.step app (.goroutine index) = some after) : Judging app start after := by
  have same := sameCall_of_step stepped
  refine ⟨fun isOpen => ?_, ?_, ?_⟩
  · obtain ⟨cms, deliverState, _⟩ := judging.before (same.phase ▸ isOpen)
    exact
      { cms := same.cms.trans cms
        deliverState := same.deliverState.trans deliverState
        shared := fun missing => absurd missing (isSome_iff_ne_none.mp same.branch) }
  · rw [same.phase, same.clean]
    exact judging.judged
  · rw [same.verdicts]
    exact judging.verdicts

theorem Judging.propose {request : BlockRequest Header Evidence} (keeps : KeepsParams app start node (.propose request))
    (stepped : node.step app (.propose request) = some after) : Judging app start after := by
  rw [step] at stepped
  cases phase : node.phase with
  | idle =>
    have before := judging.before (by rw [phase]; rfl)
    simp only [phase, beginProposal] at stepped
    split at stepped
    · cases stepped
      exact judging
    · cases stepped
      refine ⟨fun _ => ⟨before.cms, before.deliverState, by rintro ⟨⟩⟩, ?_, judging.verdicts⟩
      -- The store of the clean context is the base; the parameters are those of the branch.
      have params : (prepareOr app node.processProposalState node.cms request).ctx =
          (freshBranch app start.base request).ctx := by
        rw [prepareOr_eq]
        cases held : node.processProposalState with
        | none =>
          rw [base, before.shared held, before.cms]
        | some branch =>
          simp only [freshBranch, map_some, getD_some, keeps branch held]
      have clean : (node.deliverState.map Branch.store).getD node.cms = start.base := by
        rw [before.deliverState, before.cms]
        rfl
      simp only [Phase.Judged, params, clean]
      rfl
  | _ => simp [phase] at stepped

theorem Judging.advance
    (stepped : node.step app .advance = some after) : Judging app start after := by
  obtain ⟨before, judged, verdicts⟩ := judging
  cases advances_of_step stepped with
  | accept phase isClean answer | reject phase isClean answer =>
    rw [phase] at judged
    cases judged.symm.trans isClean
    obtain ⟨cms, deliverState, shared⟩ := before (by rw [phase]; rfl)
    exact ⟨fun _ => ⟨cms, deliverState, shared⟩, answer, verdicts⟩
  | claim phase | find phase | skip phase | launch phase | signal phase | agree phase
  | differ phase | abort phase =>
    rw [phase] at judged
    obtain ⟨cms, deliverState, shared⟩ := before (by rw [phase]; rfl)
    exact ⟨fun _ => ⟨cms, deliverState, shared⟩, judged, verdicts⟩
  | reply phase =>
    rw [phase] at judged
    obtain ⟨cms, deliverState, shared⟩ := before (by rw [phase]; rfl)
    refine ⟨fun _ => ⟨cms, deliverState, shared⟩, trivial, fun entry member => ?_⟩
    rcases List.mem_append.mp member with old | new
    · exact verdicts entry old
    · cases List.mem_singleton.mp new
      exact judged.symm
  | receive | takeOver => exact ⟨by rintro ⟨⟩, trivial, verdicts⟩
  | deliver =>
    rw [deliver]
    split <;> exact ⟨by rintro ⟨⟩, trivial, verdicts⟩

theorem Judging.step {event : Event Header Evidence}
    (keeps : KeepsParams app start node event) (stepped : node.step app event = some after) :
    Judging app start after := by
  cases event with
  | propose request => exact judging.propose keeps stepped
  | advance => exact judging.advance stepped
  | goroutine => exact judging.goroutine_step stepped
  | finalize request =>
    simp only [Node.step, Node.beginFinalize] at stepped
    split at stepped
    · split at stepped
      · cases stepped
        exact ⟨by rintro ⟨⟩, trivial, judging.verdicts⟩
      · cases stepped
        split <;> exact ⟨by rintro ⟨⟩, trivial, judging.verdicts⟩
    · cases stepped
  | commit =>
    simp only [Node.step, Node.commit] at stepped
    split at stepped
    · obtain ⟨-, _, rfl⟩ := map_eq_some_iff.mp stepped
      exact ⟨by rintro ⟨⟩, trivial, judging.verdicts⟩
    · cases stepped

end

/-- The verdicts on the proposals of a height are those that each of them gets as the first one,
if the consensus parameters on the shared branch are the committed ones whenever a proposal comes
in. -/
theorem verdicts_independent (app : Application Header Evidence Other Result)
    (start : Node Header Evidence Other Result) (starts : Start start)
    (node : Node Header Evidence Other Result)
    (reached : Reaches (step app) (KeepsParams app start) start node) :
    ∀ entry ∈ node.verdicts, entry.2 = verdict app start.base entry.1 := by
  have initially : Judging app start start := by
    cases starts with
    | resumed => exact ⟨fun _ => ⟨rfl, rfl, fun _ => rfl⟩, trivial, nofun⟩
    | genesis => exact ⟨fun _ => ⟨rfl, rfl, nofun⟩, trivial, nofun⟩
  have judging : Judging app start node :=
    reached.invariant initially fun _ _ _ judging keeps stepped => judging.step keeps stepped
  exact judging.verdicts

/-- A node that committed nothing but the defaults. -/
def toyStart : Node Unit Unit Unit Nat := resumed fun _ => none

/-- A proposal that is processed ahead up to its only write, and another one. -/
def toyRounds (first second : BlockRequest Unit Unit) : List (Event Unit Unit) :=
  [.propose first, .advance, .advance, .advance, .advance, .goroutine 0,
    .propose second, .advance, .advance, .advance, .advance, .advance]

theorem verdicts_independent_toy : ∃ node : Node Unit Unit Unit Nat,
    Reaches (step toyApp) (KeepsParams toyApp toyStart) toyStart node ∧
    node.verdicts = [(toyBlock 100 5, true), (toyBlock 2 5, true)] ∧
    ∀ entry ∈ node.verdicts, entry.2 = verdict toyApp toyStart.base entry.1 := by
  obtain ⟨node, reached, isJudged⟩ : ∃ node,
      Reaches (step toyApp) (KeepsParams toyApp toyStart) toyStart node ∧
      node.verdicts = [(toyBlock 100 5, true), (toyBlock 2 5, true)] :=
    exists_reaches (toyRounds (toyBlock 100 5) (toyBlock 2 5)) (by decide +kernel)
  exact ⟨node, reached, isJudged, verdicts_independent toyApp toyStart (.resumed _) node reached⟩

/-- The first proposal lowers the gas limit when it is processed ahead, and the second one is
rejected that is accepted as the first of its height. -/
theorem verdict_depends_on_earlier_round :
    (runEvents (step toyApp) toyStart
      ((toyRounds (toyBlock 1 5) (toyBlock 2 5)).take 9)).map verdicts =
        some [(toyBlock 1 5, true), (toyBlock 2 5, false)] ∧
    (runEvents (step toyApp) toyStart
      ((toyRounds (toyBlock 2 5) (toyBlock 1 5)).take 5)).map verdicts =
        some [(toyBlock 2 5, true)] :=
  ⟨by decide +kernel, by decide +kernel⟩

end SeiChain.App
