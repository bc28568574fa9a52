/-
This file proves agreement for a two-phase voting protocol with view changes,
on its own terms. Honest replicas cast three kinds of votes: they prepare a
content in a view, commit a content that a quorum prepared, or give a view up
and report the highest view in which they know a content to be prepared. A view
after the first may only prepare what the reports of the view before force.

The object of study is the log of all honest votes in the order they were cast.
A log is lawful if every vote was allowed by the votes before it. Certificates
are quorums of votes, and any two quorums share an honest replica; the votes of
the other replicas are never looked at. In a lawful log two committed contents
are equal, whatever their views. Where replicas have weights and the faulty ones weigh
less than a third, the sets that miss no more than that are such quorums.
-/

import Mathlib.Algebra.Order.BigOperators.Group.Finset

namespace SeiChain.Library

open List

section

variable {Member : Type} [DecidableEq Member] {weight : Member → Nat}
  {everyone first second faulty : Finset Member} {bound : Nat}

theorem weight_inter_add_total_ge (firstWithin : first ⊆ everyone)
    (secondWithin : second ⊆ everyone) :
    first.sum weight + second.sum weight ≤ (first ∩ second).sum weight + everyone.sum weight := by
  have split : (first ∪ second).sum weight + (first ∩ second).sum weight =
      first.sum weight + second.sum weight := Finset.sum_union_inter
  have within : (first ∪ second).sum weight ≤ everyone.sum weight :=
    Finset.sum_le_sum_of_subset (Finset.union_subset firstWithin secondWithin)
  omega

/-- Two quorums share a member that is not faulty. -/
theorem exists_common_nonfaulty (firstWithin : first ⊆ everyone) (secondWithin : second ⊆ everyone)
    (faultyLight : faulty.sum weight ≤ bound) (third : 3 * bound < everyone.sum weight)
    (firstHeavy : everyone.sum weight - bound ≤ first.sum weight)
    (secondHeavy : everyone.sum weight - bound ≤ second.sum weight) :
    ∃ member ∈ first, member ∈ second ∧ member ∉ faulty := by
  by_contra! allFaulty
  have common : first ∩ second ⊆ faulty := by
    intro member shared
    rw [Finset.mem_inter] at shared
    exact allFaulty member shared.1 shared.2
  have commonLight : (first ∩ second).sum weight ≤ faulty.sum weight :=
    Finset.sum_le_sum_of_subset common
  have overlap : first.sum weight + second.sum weight ≤
      (first ∩ second).sum weight + everyone.sum weight :=
    weight_inter_add_total_ge firstWithin secondWithin
  omega

end

/-- A family of quorums of which any two share an honest replica. -/
structure QuorumSystem (Replica : Type) where
  quorum : Finset Replica → Prop
  honest : Replica → Prop
  intersect : ∀ first second, quorum first → quorum second →
    ∃ replica ∈ first, replica ∈ second ∧ honest replica

/-- What an honest replica may vote. `timeout view report` gives up `view` and reports the
highest view in which the replica knows a content to be prepared. -/
inductive LockedVote (Content : Type) where
  | prepare (view : Nat) (content : Content)
  | commit (view : Nat) (content : Content)
  | timeout (view : Nat) (report : Option Nat)

/-- The votes of the honest replicas, newest first. -/
abbrev VoteLog (Replica Content : Type) := List (Replica × LockedVote Content)

namespace QuorumSystem

variable {Replica Content : Type} (system : QuorumSystem Replica)

/-- Every honest replica of some quorum cast this vote. -/
def Certified (log : VoteLog Replica Content) (vote : LockedVote Content) : Prop :=
  ∃ signers, system.quorum signers ∧
    ∀ replica ∈ signers, system.honest replica → (replica, vote) ∈ log

/-- A quorum gave up `view`. The lock is the highest prepared view among the reports, with the
content that was prepared there; it is absent if no report names a view. -/
structure TimeoutCertified (log : VoteLog Replica Content) (view : Nat)
    (lock : Option (Nat × Content)) : Prop where
  reports : ∃ signers, system.quorum signers ∧
    ∀ replica ∈ signers, system.honest replica → ∃ report,
      (replica, .timeout view report) ∈ log ∧
      ∀ number, report = some number → ∃ top content, lock = some (top, content) ∧ number ≤ top
  prepared : ∀ top content, lock = some (top, content) → system.Certified log (.prepare top content)

/-- The votes before allow this replica to cast this vote. -/
inductive Allows (log : VoteLog Replica Content) (replica : Replica) : LockedVote Content → Prop
  | prepare {view : Nat} {content : Content}
    (once : ∀ other, (replica, .prepare view other) ∈ log → other = content)
    (forced : view = 0 ∨ ∃ before lock, view = before + 1 ∧
      system.TimeoutCertified log before lock ∧
      ∀ top other, lock = some (top, other) → content = other) :
    Allows log replica (.prepare view content)
  | commit {view : Nat} {content : Content}
    (once : ∀ other, (replica, .commit view other) ∈ log → other = content)
    (stillOpen : ∀ report, (replica, .timeout view report) ∉ log)
    (prepared : system.Certified log (.prepare view content)) :
    Allows log replica (.commit view content)
  | timeout {view : Nat} {report : Option Nat}
    (committed : ∀ content, (replica, .commit view content) ∈ log → report = some view)
    (inherited : report = some view ∨ (view = 0 ∧ report = none) ∨ ∃ before lock,
      view = before + 1 ∧ system.TimeoutCertified log before lock ∧ report = lock.map Prod.fst) :
    Allows log replica (.timeout view report)

/-- Every vote of the log was allowed by the votes before it. -/
inductive Lawful : VoteLog Replica Content → Prop
  | nil : Lawful []
  | cons {log : VoteLog Replica Content} {replica : Replica} {vote : LockedVote Content}
    (lawful : Lawful log) (allowed : system.Allows log replica vote) :
    Lawful ((replica, vote) :: log)

variable {system} {log larger : VoteLog Replica Content}

/-! ### Certificates -/

variable {vote : LockedVote Content}

theorem Certified.mono (certified : system.Certified log vote)
    (grows : log ⊆ larger) : system.Certified larger vote := by
  obtain ⟨signers, quorum, votes⟩ := certified
  exact ⟨signers, quorum, fun replica member honest => grows (votes replica member honest)⟩

variable {view : Nat} {lock : Option (Nat × Content)}

theorem TimeoutCertified.mono
    (certified : system.TimeoutCertified log view lock) (grows : log ⊆ larger) :
    system.TimeoutCertified larger view lock where
  reports := by
    obtain ⟨signers, quorum, votes⟩ := certified.reports
    refine ⟨signers, quorum, fun replica member honest => ?_⟩
    obtain ⟨report, cast, bounded⟩ := votes replica member honest
    exact ⟨report, grows cast, bounded⟩
  prepared top content locked := (certified.prepared top content locked).mono grows

/-- Two certificates have a common honest voter. -/
theorem Certified.common {first second : LockedVote Content}
    (one : system.Certified log first) (two : system.Certified log second) :
    ∃ replica, (replica, first) ∈ log ∧ (replica, second) ∈ log := by
  obtain ⟨firstSigners, firstQuorum, firstVotes⟩ := one
  obtain ⟨secondSigners, secondQuorum, secondVotes⟩ := two
  obtain ⟨replica, inFirst, inSecond, honest⟩ := system.intersect _ _ firstQuorum secondQuorum
  exact ⟨replica, firstVotes replica inFirst honest, secondVotes replica inSecond honest⟩

/-- A commit certificate and a timeout certificate have a common honest voter, whose report
the lock covers. -/
theorem TimeoutCertified.common (timedOut : system.TimeoutCertified log view lock)
    (certified : system.Certified log vote) :
    ∃ replica report, (replica, vote) ∈ log ∧ (replica, .timeout view report) ∈ log ∧
      ∀ number, report = some number →
        ∃ top content, lock = some (top, content) ∧ number ≤ top := by
  obtain ⟨signers, quorum, votes⟩ := certified
  obtain ⟨timeoutSigners, timeoutQuorum, timeoutVotes⟩ := timedOut.reports
  obtain ⟨replica, inSigners, inTimeout, honest⟩ := system.intersect _ _ quorum timeoutQuorum
  obtain ⟨report, cast, bounded⟩ := timeoutVotes replica inTimeout honest
  exact ⟨replica, report, votes replica inSigners honest, cast, bounded⟩

/-! ### What a lawful log says about its votes -/

variable (lawful : system.Lawful log)

include lawful

variable {replica : Replica}

/-- A vote of a lawful log was allowed by some earlier part of the log. -/
theorem Lawful.allowed (cast : (replica, vote) ∈ log) :
    ∃ older, older ⊆ log ∧ system.Allows older replica vote := by
  induction lawful with
  | nil => simp at cast
  | @cons log newReplica newVote lawful allowed ih =>
    rcases mem_cons.mp cast with new | old
    · cases new
      exact ⟨log, subset_cons_self _ _, allowed⟩
    · obtain ⟨older, within, allowedOlder⟩ := ih old
      exact ⟨older, subset_cons_of_subset _ within, allowedOlder⟩

/-- Of two different votes of a lawful log, one was cast first. -/
theorem Lawful.ordered {other : Replica} {first second : LockedVote Content}
    (one : (replica, first) ∈ log) (two : (other, second) ∈ log) :
    (replica, first) = (other, second) ∨
    (∃ older, (other, second) ∈ older ∧ system.Allows older replica first) ∨
    (∃ older, (replica, first) ∈ older ∧ system.Allows older other second) := by
  induction lawful with
  | nil => simp at one
  | @cons log newReplica newVote lawful allowed ih =>
    rcases mem_cons.mp one with oneNew | oneOld <;> rcases mem_cons.mp two with twoNew | twoOld
    · exact .inl (oneNew.trans twoNew.symm)
    · cases oneNew
      exact .inr (.inl ⟨log, twoOld, allowed⟩)
    · cases twoNew
      exact .inr (.inr ⟨log, oneOld, allowed⟩)
    · exact ih oneOld twoOld

variable {first second : Content}

theorem Lawful.prepare_unique (one : (replica, .prepare view first) ∈ log)
    (two : (replica, .prepare view second) ∈ log) : first = second := by
  rcases lawful.ordered one two with same | ⟨older, cast, allowed⟩ | ⟨older, cast, allowed⟩
  · cases same
    rfl
  · cases allowed with
    | prepare once => exact (once second cast).symm
  · cases allowed with
    | prepare once => exact once first cast

theorem Lawful.commit_unique (one : (replica, .commit view first) ∈ log)
    (two : (replica, .commit view second) ∈ log) : first = second := by
  rcases lawful.ordered one two with same | ⟨older, cast, allowed⟩ | ⟨older, cast, allowed⟩
  · cases same
    rfl
  · cases allowed with
    | commit once => exact (once second cast).symm
  · cases allowed with
    | commit once => exact once first cast

variable {content : Content}

theorem Lawful.prepared_of_commit (cast : (replica, .commit view content) ∈ log) :
    system.Certified log (.prepare view content) := by
  obtain ⟨older, within, allowed⟩ := lawful.allowed cast
  cases allowed with
  | commit _ _ prepared => exact prepared.mono within

/-- Who commits in a view reports that view when giving it up, in whichever order. -/
theorem Lawful.report_of_commit {report : Option Nat}
    (committed : (replica, .commit view content) ∈ log)
    (gaveUp : (replica, .timeout view report) ∈ log) : report = some view := by
  rcases lawful.ordered committed gaveUp with same | ⟨older, cast, allowed⟩ | ⟨older, cast, allowed⟩
  · cases same
  · cases allowed with
    | commit _ stillOpen => exact absurd cast (stillOpen report)
  · cases allowed with
    | timeout reports => exact reports content cast

theorem Lawful.certified_prepare_unique (one : system.Certified log (.prepare view first))
    (two : system.Certified log (.prepare view second)) : first = second := by
  obtain ⟨replica, firstCast, secondCast⟩ := one.common two
  exact lawful.prepare_unique firstCast secondCast

/-! ### Agreement -/

/-- Once a content is committed in a view, every quorum that gives up this or a later view
reports a lock at least as high. -/
theorem Lawful.lock_of_commit {later : Nat}
    (committed : system.Certified log (.commit view content)) (after : view ≤ later)
    (timedOut : system.TimeoutCertified log later lock) :
    ∃ top held, lock = some (top, held) ∧ view ≤ top := by
  -- The voter shared with the commit certificate reports at least `view`: in `view` itself
  -- because it committed there, later because of the certificate it moved on with.
  induction later generalizing lock with
  | zero =>
    obtain rfl : view = 0 := Nat.le_zero.mp after
    obtain ⟨replica, report, commits, gaveUp, covered⟩ := timedOut.common committed
    exact covered 0 (lawful.report_of_commit commits gaveUp)
  | succ later ih =>
    obtain ⟨replica, report, commits, gaveUp, covered⟩ := timedOut.common committed
    rcases eq_or_lt_of_le after with same | before
    · subst same
      exact covered _ (lawful.report_of_commit commits gaveUp)
    · obtain ⟨older, within, allowed⟩ := lawful.allowed gaveUp
      cases allowed with
      | timeout _ inherited =>
        rcases inherited with here | ⟨first, _⟩ | ⟨previous, inheritedLock, next, certified, passes⟩
        · obtain ⟨top, held, locked, above⟩ := covered _ here
          exact ⟨top, held, locked, le_trans after above⟩
        · exact absurd first (Nat.succ_ne_zero later)
        · obtain rfl : later = previous := Nat.succ.inj next
          obtain ⟨top, held, locked, above⟩ := ih (Nat.le_of_lt_succ before) (certified.mono within)
          subst locked
          obtain ⟨highest, final, lockedFinal, higher⟩ := covered top passes
          exact ⟨highest, final, lockedFinal, le_trans above higher⟩

/-- Once a content is committed in a view, every honest vote to prepare in a later view is for
that content. The induction runs over the earlier parts of the log, since the lock that
forces a vote may come from a view above the voter's own. -/
theorem Lawful.prepare_of_commit
    (committed : system.Certified log (.commit view content)) {part : VoteLog Replica Content}
    (lawfulPart : system.Lawful part) (within : part ⊆ log) {later : Nat}
    {other : Content} (cast : (replica, .prepare later other) ∈ part) (after : view < later) :
    other = content := by
  induction lawfulPart generalizing replica later with
  | nil => simp at cast
  | @cons part newReplica newVote lawfulPart allowed ih =>
    have partWithin : part ⊆ log := fun entry member => within (.tail _ member)
    rcases mem_cons.mp cast with new | old
    · cases new
      cases allowed with
      | prepare _ forced =>
        rcases forced with first | ⟨before, lock, next, certified, follows⟩
        · exact absurd after (by omega)
        · obtain ⟨top, held, locked, above⟩ :=
            lawful.lock_of_commit committed (by omega) (certified.mono partWithin)
          obtain rfl := follows top held locked
          have prepared := certified.prepared top other locked
          rcases eq_or_lt_of_le above with same | below
          · subst same
            obtain ⟨voter, commits, _⟩ := committed.common committed
            exact lawful.certified_prepare_unique (prepared.mono partWithin)
              (lawful.prepared_of_commit commits)
          · obtain ⟨voter, voted, _⟩ := prepared.common prepared
            exact ih partWithin voted below
    · exact ih partWithin old after

/-- Agreement: two contents that are committed, in whichever views, are equal. -/
theorem Lawful.agreement {firstView secondView : Nat}
    (one : system.Certified log (.commit firstView first))
    (two : system.Certified log (.commit secondView second)) : first = second := by
  have ordered : ∀ {low high : Nat} {lower higher : Content}, low < high →
      system.Certified log (.commit low lower) → system.Certified log (.commit high higher) →
      higher = lower := by
    intro low high lower higher below lowCommitted highCommitted
    obtain ⟨voter, commits, _⟩ := highCommitted.common highCommitted
    have prepared := lawful.prepared_of_commit commits
    obtain ⟨preparer, prepares, _⟩ := prepared.common prepared
    exact lawful.prepare_of_commit lowCommitted lawful (List.Subset.refl log) prepares below
  rcases lt_trichotomy firstView secondView with below | same | above
  · exact (ordered below one two).symm
  · subst same
    obtain ⟨replica, firstCast, secondCast⟩ := one.common two
    exact lawful.commit_unique firstCast secondCast
  · exact ordered above two one

end QuorumSystem

end SeiChain.Library
