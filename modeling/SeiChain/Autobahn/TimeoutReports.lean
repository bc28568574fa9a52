/-
This file proves which prepare certificate a timeout certificate inherits. The
votes report view numbers in any order, and the verifier keeps the highest one by
comparing each number with the successor of the one it holds. The successor is
taken modulo `2 ^ 64`, so after the number `2 ^ 64 - 1` the loop takes any number.
The certificate inherits the highest reported view exactly if `2 ^ 64 - 1` is not
reported at all or is the last report.
-/

import SeiChain.Autobahn.Certificates

namespace SeiChain.Autobahn

open Library List Option

variable {Digest Sig : Type} {crypto : Crypto Digest Sig} {epoch : Epoch}

/-! ### The loop over the reports -/

/-- The view numbers that timeout votes report, in the order of the votes. -/
def reports (votes : List (Signed TimeoutVote Sig)) : List ViewNumber :=
  votes.filterMap fun vote => vote.msg.latestPrepareQC

/-- What one report does to the number that the loop holds. -/
def raise (highest : Option ViewNumber) (number : ViewNumber) : Option ViewNumber :=
  if number ≥ nextNumberOpt highest then some number else highest

theorem raise_none (number : ViewNumber) : raise none number = some number :=
  if_pos (Nat.zero_le number)

theorem highestReport_eq_ok {view : View} {votes : List (Signed TimeoutVote Sig)}
    {start highest : Option ViewNumber} (found : highestReport view votes start = .ok highest) :
    highest = (reports votes).foldl raise start := by
  induction votes generalizing start with
  | nil =>
    cases found
    rfl
  | cons vote rest ih =>
    rw [highestReport, check_bind_eq_ok] at found
    obtain ⟨_, found⟩ := found
    cases reported : vote.msg.latestPrepareQC with
    | none =>
      rw [reported] at found
      have skipped : reports (vote :: rest) = reports rest := by
        simp only [reports, filterMap_cons, reported]
      rw [skipped]
      exact ih found
    | some number =>
      rw [reported] at found
      have read : reports (vote :: rest) = number :: reports rest := by
        simp only [reports, filterMap_cons, reported]
      rw [read]
      exact ih found

/-- Once the loop holds a number it never lets go of all of them. -/
theorem foldl_raise_some (numbers : List ViewNumber) (held : ViewNumber) :
    (numbers.foldl raise (some held)).isSome := by
  induction numbers generalizing held with
  | nil => rfl
  | cons number rest ih =>
    rw [foldl_cons, raise]
    split
    · exact ih number
    · exact ih held

variable {numbers : List ViewNumber}

theorem foldl_raise_eq_none : numbers.foldl raise none = none ↔ numbers = [] := by
  cases numbers with
  | nil => simp
  | cons number rest =>
    have held := foldl_raise_some rest number
    rw [foldl_cons, raise_none]
    simp [isSome_iff_ne_none.mp held]

/-- What the loop holds is one of the numbers that it read, or what it started with. -/
theorem foldl_raise_mem {start : Option ViewNumber} {held : ViewNumber}
    (holds : numbers.foldl raise start = some held) : held ∈ numbers ∨ start = some held := by
  induction numbers generalizing start with
  | nil => exact .inr holds
  | cons number rest ih =>
    rcases ih holds with member | raised
    · exact .inl (.tail _ member)
    · rw [raise] at raised
      split at raised
      · cases raised
        exact .inl (.head _)
      · exact .inr raised

/-- Below the last number of 64 bits the successor does not wrap around. -/
theorem raise_some {held number : ViewNumber} (small : held < 2 ^ 64 - 1) :
    raise (some held) number = some (max held number) := by
  rw [raise, nextNumberOpt, add64]
  split
  · rw [Nat.max_eq_right (by lia)]
  · rw [Nat.max_eq_left (by lia)]

/-- The last number of 64 bits is held exactly right after it was read: it replaces any other
number, and any number replaces it. -/
theorem raise_eq_last {held : Option ViewNumber} {number : ViewNumber}
    (bounded : ∀ other ∈ held, other < 2 ^ 64) :
    raise held number = some (2 ^ 64 - 1) ↔ number = 2 ^ 64 - 1 := by
  cases held with
  | none => rw [raise_none, some_inj]
  | some held =>
    by_cases last : held = 2 ^ 64 - 1
    · subst last
      have replaced : raise (some (2 ^ 64 - 1)) number = some number := if_pos (Nat.zero_le number)
      rw [replaced, some_inj]
    · have small : held < 2 ^ 64 - 1 :=
        Nat.lt_of_le_of_ne (Nat.le_pred_of_lt (bounded held rfl)) last
      rw [raise_some small, some_inj]
      lia

section

variable (bounded : ∀ number ∈ numbers, number < 2 ^ 64)

include bounded

theorem foldl_raise_eq_last :
    numbers.foldl raise none = some (2 ^ 64 - 1) ↔ numbers.getLast? = some (2 ^ 64 - 1) := by
  rcases eq_nil_or_concat' numbers with rfl | ⟨earlier, number, rfl⟩
  · simp
  · have earlierBounded : ∀ held ∈ earlier.foldl raise none, held < 2 ^ 64 := by
      intro held holds
      rcases foldl_raise_mem holds with member | start
      · exact bounded held (mem_append_left _ member)
      · cases start
    rw [foldl_append, foldl_cons, foldl_nil, raise_eq_last earlierBounded, getLast?_append,
      getLast?_singleton, some_or, some_inj]

omit bounded in
/-- Without the last number of 64 bits the loop ends with the maximum of what it started with and
what it read. -/
theorem foldl_raise {held : ViewNumber} (small : ∀ number ∈ held :: numbers, number < 2 ^ 64 - 1) :
    numbers.foldl raise (some held) = some (numbers.foldl max held) := by
  induction numbers generalizing held with
  | nil => rfl
  | cons number rest ih =>
    simp only [forall_mem_cons] at small
    rw [foldl_cons, raise_some small.1]
    exact ih (forall_mem_cons.mpr ⟨max_lt small.1 small.2.1, small.2.2⟩)

/-- The loop ends with the maximum exactly if the last number of 64 bits is not read, or is read
last. -/
theorem foldl_raise_eq_max : numbers.foldl raise none = numbers.max? ↔
    (2 ^ 64 - 1 ∈ numbers → numbers.getLast? = some (2 ^ 64 - 1)) := by
  by_cases reported : 2 ^ 64 - 1 ∈ numbers
  · have highest : numbers.max? = some (2 ^ 64 - 1) := max?_eq_some_iff.mpr
      ⟨reported, fun number member => Nat.le_pred_of_lt (bounded number member)⟩
    rw [highest, foldl_raise_eq_last bounded]
    exact ⟨fun last _ => last, fun last => last reported⟩
  · refine iff_of_true ?_ fun member => absurd member reported
    cases numbers with
    | nil => rfl
    | cons number rest =>
      have small : ∀ other ∈ number :: rest, other < 2 ^ 64 - 1 := by
        intro other member
        have different : other ≠ 2 ^ 64 - 1 := fun same => reported (same ▸ member)
        exact Nat.lt_of_le_of_ne (Nat.le_pred_of_lt (bounded other member)) different
      rw [foldl_cons, raise_none, foldl_raise small, max?_cons']

end

/-! ### The inherited certificate -/

theorem TimeoutQC.inherited_number {qc : TimeoutQC Sig} {prev : Option (CommitQC Sig)}
    (verified : qc.verify crypto epoch prev = .ok ()) :
    qc.latestPrepareQC.map (fun prepareQC => prepareQC.view.number) =
      (reports qc.votes).foldl raise none := by
  rw [TimeoutQC.verify, check_bind_eq_ok, check_bind_eq_ok, exceptBind_eq_ok] at verified
  obtain ⟨_, _, weight, _, verified⟩ := verified
  rw [check_bind_eq_ok, exceptBind_eq_ok] at verified
  obtain ⟨_, highest, found, verified⟩ := verified
  rw [← highestReport_eq_ok found]
  cases highest <;> cases inherited : qc.latestPrepareQC <;> rw [inherited] at verified
  case none.none => rfl
  case some.some =>
    simp only [check_bind_eq_ok, ensure_eq_ok] at verified
    rw [map_some, verified.1]
  all_goals cases verified

/-- A verified timeout certificate inherits a prepare certificate exactly if a vote reports one,
and it inherits one of the highest reported view number exactly if the last number of 64 bits is
not reported, or is the last report. -/
theorem latestPrepareQC_is_highest (qc : TimeoutQC Sig) (prev : Option (CommitQC Sig))
    (verified : qc.verify crypto epoch prev = .ok ())
    (bounded : ∀ number ∈ reports qc.votes, number < 2 ^ 64) :
    (qc.latestPrepareQC = none ↔ ∀ vote ∈ qc.votes, vote.msg.latestPrepareQC = none) ∧
    (qc.latestPrepareQC.map (fun prepareQC => prepareQC.view.number) = (reports qc.votes).max? ↔
      (2 ^ 64 - 1 ∈ reports qc.votes → (reports qc.votes).getLast? = some (2 ^ 64 - 1))) := by
  have inherits := TimeoutQC.inherited_number verified
  constructor
  · rw [← map_eq_none_iff, inherits, foldl_raise_eq_none, reports, filterMap_eq_nil_iff]
  · rw [inherits, foldl_raise_eq_max bounded]

/-! ### A report that the loop forgets -/

/-- Three of the four replicas sign. -/
def threeSignatures : List (Signature Bool) := [1, 2, 3].map fun key => { key := key, sig := true }

/-- A timeout certificate for the third view of the first road: votes of three replicas with
the given reports, and a prepare certificate of the view that it is to inherit. -/
def fourTimeoutQC (one two three : ViewNumber) (inherited : ViewNumber) : TimeoutQC Bool where
  first := vote 1 one
  rest := [vote 2 two, vote 3 three]
  latestPrepareQC := some { vote := { proposal := prepared }, sigs := threeSignatures }
where
  prepared : Proposal :=
    newProposal { index := 0, number := inherited, epochIndex := 0 } 0
      [{ lane := 1, first := 0, next := 1, lastHash := 1 }] none 0
  vote (key : PublicKey) (number : ViewNumber) : Signed TimeoutVote Bool :=
    sign openCrypto key .timeoutVote
      { view := { index := 0, number := 2, epochIndex := 0 }, latestPrepareQC := some number }

/-- Reports of the last number before and after a lower one make the certificate inherit it. -/
theorem latestPrepareQC_is_highest_four :
    (fourTimeoutQC (2 ^ 64 - 1) 0 (2 ^ 64 - 1) (2 ^ 64 - 1)).verify openCrypto
      (genesisEpoch fourCommittee 0 0) none = .ok () ∧
    some (2 ^ 64 - 1) =
      (reports (fourTimeoutQC (2 ^ 64 - 1) 0 (2 ^ 64 - 1) (2 ^ 64 - 1)).votes).max? := by
  have verified : (fourTimeoutQC (2 ^ 64 - 1) 0 (2 ^ 64 - 1) (2 ^ 64 - 1)).verify openCrypto
      (genesisEpoch fourCommittee 0 0) none = .ok () := by decide +kernel
  exact ⟨verified, (latestPrepareQC_is_highest _ _ verified (by decide)).2.mpr fun _ => by decide⟩

/-- The second replica reports view `2 ^ 64 - 1`, which nobody needs to have reached. The report
of view `0` after it replaces it, and the certificate inherits view `0` although the first
replica reports view `1`. -/
theorem latestPrepareQC_forgets_higher_view :
    (fourTimeoutQC 1 (2 ^ 64 - 1) 0 0).verify openCrypto (genesisEpoch fourCommittee 0 0) none =
      .ok () ∧
    ((fourTimeoutQC 1 (2 ^ 64 - 1) 0 0).latestPrepareQC.map fun qc => qc.view.number) = some 0 ∧
    (fourTimeoutQC 1 (2 ^ 64 - 1) 0 0).votes.map (fun vote => vote.msg.latestPrepareQC) =
      [some 1, some (2 ^ 64 - 1), some 0] :=
  ⟨by decide +kernel, by decide, by decide⟩

end SeiChain.Autobahn
