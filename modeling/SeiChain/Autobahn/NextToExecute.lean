/-
This file proves that `nextToExecute` is exact. The source derives the next block of
a lane from one header, the one of the next global block to execute: a lane before
the header's lane is done with the certificate, a lane after it has not begun. That
is right because a certificate has its headers lane after lane, and because the
certificates of a chain continue each other's lane ranges. The answer depends on the
chain and the execution cursor only, so it never decreases as the state moves on.
-/

import SeiChain.Autobahn.DataRuns
import SeiChain.Autobahn.HeaderRuns
import SeiChain.Library.OwnedRuns

namespace SeiChain.Autobahn

open Library List FullCommitQC Proposal GlobalRange

variable {Digest Sig : Type} {crypto : Crypto Digest Sig} {lane : LaneID}

/-! ### Chains of certificates -/

/-- The headers are labelled lane after lane, with the numbers of the lane's range. -/
def FullCommitQC.InLaneOrder (full : FullCommitQC Sig) (committee : Committee) : Prop :=
  full.headers.map (fun header => (header.lane, header.blockNumber)) =
    committee.lanes.flatMap fun lane =>
      (List.range' (full.qc.laneRange lane).first (full.qc.laneRange lane).len).map (lane, ·)

/-- A certificate that verifies for some epoch, with its headers in the order of the lanes. Its
ranges end below `2 ^ 64`. -/
structure Certified (crypto : Crypto Digest Sig) (full : FullCommitQC Sig) : Prop where
  verified : ∃ epoch, full.verify crypto epoch = .ok () ∧ full.InLaneOrder epoch.committee
  decoded : ∀ lane, (full.qc.laneRange lane).next < 2 ^ 64
  ordered : full.globalRange.first ≤ full.globalRange.next

/-- `next` goes on where `full` ends, in global numbers and in every lane. -/
def Continues (full next : FullCommitQC Sig) : Prop :=
  next.globalRange.first = full.globalRange.next ∧
    ∀ lane, (next.qc.laneRange lane).first = (full.qc.laneRange lane).next

structure Linked (crypto : Crypto Digest Sig) (chain : List (FullCommitQC Sig)) : Prop where
  certified : ∀ full ∈ chain, Certified crypto full
  continues : chain.IsChain Continues

/-- The numbers of the blocks of `lane` in a certificate, from the global number `bound` on. -/
def FullCommitQC.laneBlocksFrom (full : FullCommitQC Sig) (lane : LaneID)
    (bound : GlobalBlockNumber) : List BlockNumber :=
  (full.headers.zipIdx full.globalRange.first).filterMap fun entry =>
    if bound ≤ entry.2 then
      if entry.1.lane = lane then some entry.1.blockNumber else none
    else none

/-- The numbers of the blocks of `lane` in a chain, from the global number `bound` on. -/
def laneBlocksFrom (chain : List (FullCommitQC Sig)) (lane : LaneID) (bound : GlobalBlockNumber) :
    List BlockNumber :=
  chain.flatMap fun full => full.laneBlocksFrom lane bound

/-! ### One certificate -/

variable {epoch : Epoch}

theorem Proposal.laneRange_ordered {proposal : Proposal}
    (verified : proposal.verify epoch = .ok ()) (lane : LaneID) :
    (proposal.laneRange lane).first ≤ (proposal.laneRange lane).next := by
  unfold laneRange
  cases found : proposal.laneRanges.get lane with
  | none => exact le_refl _
  | some => exact (verify_ranges verified (LaneRangeMap.mem_of_get found).1).2.2

theorem Proposal.laneRange_of_notMem {proposal : Proposal}
    (verified : proposal.verify epoch = .ok ()) (absent : lane ∉ epoch.committee.lanes) :
    (proposal.laneRange lane).first = (proposal.laneRange lane).next := by
  unfold laneRange
  cases found : proposal.laneRanges.get lane with
  | none => rfl
  | some =>
    obtain ⟨inRanges, rfl⟩ := LaneRangeMap.mem_of_get found
    exact absurd (verify_ranges verified inRanges).2.1 absent

variable {full : FullCommitQC Sig}

theorem FullCommitQC.verify_proposal
    (verified : full.verify crypto epoch = .ok ()) : full.qc.proposal.verify epoch = .ok () := by
  simp only [verify, CommitQC.verify, check_bind_eq_ok, inPart_eq_ok] at verified
  exact verified.1.1

theorem FullCommitQC.laneBlocksFrom_eq (full : FullCommitQC Sig) (lane : LaneID)
    (bound : GlobalBlockNumber) : full.laneBlocksFrom lane bound =
      numbersOf lane ((full.headers.map fun header => (header.lane, header.blockNumber)).drop
        (bound - full.globalRange.first)) := by
  rw [laneBlocksFrom, filterMap_zipIdx_from (fun header : BlockHeader =>
    if header.lane = lane then some header.blockNumber else none), numbersOf, ← map_drop,
    filterMap_map]
  rfl

variable {bound : GlobalBlockNumber}

namespace Certified

variable (certified : Certified crypto full)

include certified

theorem laneRange_ordered (lane : LaneID) :
    (full.qc.laneRange lane).first ≤ (full.qc.laneRange lane).next := by
  obtain ⟨epoch, verified, _⟩ := certified.verified
  exact Proposal.laneRange_ordered (verify_proposal verified) lane

/-- The labels of the headers are runs of the lanes, in increasing order. -/
theorem exists_ownedRuns : ∃ lanes : List LaneID, lanes.Pairwise (· < ·) ∧
    (∀ lane, lane ∉ lanes → (full.qc.laneRange lane).first = (full.qc.laneRange lane).next) ∧
    full.headers.map (fun header => (header.lane, header.blockNumber)) =
      ownedRuns (fun lane => (full.qc.laneRange lane).first)
        (fun lane => (full.qc.laneRange lane).next) lanes := by
  obtain ⟨epoch, verified, inOrder⟩ := certified.verified
  have proposed := verify_proposal verified
  refine ⟨epoch.committee.lanes, epoch.committee.sorted,
    fun lane absent => laneRange_of_notMem proposed absent, inOrder.trans ?_⟩
  refine flatMap_congr fun lane _ => ?_
  rw [LaneRange.len, sub64_of_le (certified.laneRange_ordered lane) (certified.decoded lane)]

theorem length_headers : full.headers.length = full.globalRange.next - full.globalRange.first := by
  obtain ⟨epoch, verified, _⟩ := certified.verified
  have small : full.globalRange.next < 2 ^ 64 := globalRange_next_lt (verify_finalizes verified)
  rw [FullCommitQC.length_headers verified, len, sub64_of_le certified.ordered small]

/-- Below the range every block of the lane is still to come. -/
theorem laneBlocksFrom_of_le
    (below : bound ≤ full.globalRange.first) : full.laneBlocksFrom lane bound =
      List.range' (full.qc.laneRange lane).first
        ((full.qc.laneRange lane).next - (full.qc.laneRange lane).first) := by
  obtain ⟨lanes, increasing, absent, labels⟩ := certified.exists_ownedRuns
  rw [full.laneBlocksFrom_eq, Nat.sub_eq_zero_of_le below, drop_zero, labels,
    numbersOf_ownedRuns increasing (absent lane)]

/-- Past the range there is none. -/
theorem laneBlocksFrom_of_ge
    (past : full.globalRange.next ≤ bound) : full.laneBlocksFrom lane bound = [] := by
  have length := certified.length_headers
  have all : full.headers.length ≤ bound - full.globalRange.first := by lia
  rw [full.laneBlocksFrom_eq, drop_eq_nil_of_le (by rwa [length_map])]
  rfl

/-- Inside the range the header at the bound tells where the lane goes on. -/
theorem laneBlocksFrom_of_has (lane : LaneID) {header : BlockHeader}
    (covered : full.globalRange.has bound = true) (found : full.headerAt bound = some header) :
    let number := nextFrom (fun lane => (full.qc.laneRange lane).first)
      (fun lane => (full.qc.laneRange lane).next) lane (header.lane, header.blockNumber)
    number ≤ (full.qc.laneRange lane).next ∧ full.laneBlocksFrom lane bound =
      List.range' number ((full.qc.laneRange lane).next - number) := by
  obtain ⟨lanes, increasing, absent, labels⟩ := certified.exists_ownedRuns
  obtain ⟨epoch, verified, _⟩ := certified.verified
  have small : full.globalRange.next < 2 ^ 64 := globalRange_next_lt (verify_finalizes verified)
  rw [has_iff] at covered
  rw [headerAt, sub64_of_le covered.1 (lt_trans covered.2 small)] at found
  have labelled := congrArg (Option.map fun header : BlockHeader =>
    (header.lane, header.blockNumber)) found
  rw [← getElem?_map, labels] at labelled
  rw [full.laneBlocksFrom_eq, labels]
  exact numbersOf_drop increasing certified.laneRange_ordered (absent lane) labelled

end Certified

/-! ### Whole chains -/

/-- In a chain, a certificate ends before the later ones begin. -/
theorem Linked.pairwise {chain : List (FullCommitQC Sig)} (linked : Linked crypto chain) :
    chain.Pairwise fun full later => full.globalRange.next ≤ later.globalRange.first := by
  obtain ⟨certified, continues⟩ := linked
  induction chain with
  | nil => exact .nil
  | cons full rest ih =>
    have restPairwise := ih (fun other member => certified other (.tail _ member)) continues.tail
    refine pairwise_cons.mpr ⟨fun later member => ?_, restPairwise⟩
    cases rest with
    | nil => exact nomatch member
    | cons second =>
      have starts := continues.rel.1
      rcases mem_cons.mp member with rfl | inOthers
      · exact starts.ge
      · have secondOrdered := (certified second (by simp)).ordered
        have apart := rel_of_pairwise_cons restPairwise inOthers
        lia

theorem laneBlocksFrom_cons (full : FullCommitQC Sig) (rest : List (FullCommitQC Sig))
    (lane : LaneID) (bound : GlobalBlockNumber) : laneBlocksFrom (full :: rest) lane bound =
      full.laneBlocksFrom lane bound ++ laneBlocksFrom rest lane bound :=
  flatMap_cons

section

variable {number : BlockNumber} (reached : bound ≤ full.globalRange.next)
  (within : number ≤ (full.qc.laneRange lane).next)
  (inFull : full.laneBlocksFrom lane bound =
    List.range' number ((full.qc.laneRange lane).next - number))

include reached within inFull

/-- The blocks of a lane go on without a gap from one certificate to the next. -/
theorem laneBlocksFrom_run {rest : List (FullCommitQC Sig)} (linked : Linked crypto (full :: rest)) :
    ∃ count, laneBlocksFrom (full :: rest) lane bound = List.range' number count ∧
      ∀ tip ∈ (full :: rest).getLast?, number + count = (tip.qc.laneRange lane).next := by
  induction rest generalizing full number with
  | nil =>
    refine ⟨(full.qc.laneRange lane).next - number, ?_, ?_⟩
    · rw [laneBlocksFrom, flatMap_singleton, inFull]
    · intro tip isTip
      obtain rfl : full = tip := by simpa using isTip
      lia
  | cons second others ih =>
    obtain ⟨certified, continues⟩ := linked
    obtain ⟨starts, laneStarts⟩ := continues.rel
    have secondCertified := certified second (by simp)
    have secondOrdered := secondCertified.ordered
    have inSecond : second.laneBlocksFrom lane bound = _ :=
      secondCertified.laneBlocksFrom_of_le (reached.trans starts.ge)
    obtain ⟨count, blocks, ends⟩ := ih (by lia) (secondCertified.laneRange_ordered lane)
      inSecond ⟨fun other member => certified other (.tail _ member), continues.tail⟩
    rw [laneStarts lane] at blocks ends
    refine ⟨(full.qc.laneRange lane).next - number + count, ?_, fun tip isTip => ?_⟩
    · have resumes : number + ((full.qc.laneRange lane).next - number) =
          (full.qc.laneRange lane).next := by lia
      rw [laneBlocksFrom_cons, inFull, blocks, ← range'_append_1, resumes]
    · have tipNext := ends tip isTip
      lia

/-- The certificate that covers a number, or ends there, in the middle of a chain. -/
theorem laneBlocksFrom_at {chain : List (FullCommitQC Sig)} (linked : Linked crypto chain)
    (member : full ∈ chain) (started : full.globalRange.first ≤ bound) :
    ∃ count, laneBlocksFrom chain lane bound = List.range' number count ∧
      ∀ tip ∈ chain.getLast?, number + count = (tip.qc.laneRange lane).next := by
  obtain ⟨before, after, rfl⟩ := append_of_mem member
  have apart := (pairwise_append.mp linked.pairwise).2.2
  have beforeNone : laneBlocksFrom before lane bound = [] := by
    refine flatMap_eq_nil_iff.mpr fun early inBefore => ?_
    have early_le := apart early inBefore full mem_cons_self
    exact (linked.certified early (mem_append_left _ inBefore)).laneBlocksFrom_of_ge (by lia)
  have linkedFrom : Linked crypto (full :: after) :=
    ⟨fun other inRest => linked.certified other (mem_append_right _ inRest),
      (isChain_append.mp linked.continues).2.1⟩
  obtain ⟨count, blocks, ends⟩ := laneBlocksFrom_run reached within inFull linkedFrom
  refine ⟨count, ?_, fun tip isTip => ends tip ?_⟩
  · exact flatMap_append.trans (congrArg₂ (· ++ ·) beforeNone blocks)
  · simpa using isTip

end

variable (chain : List (FullCommitQC Sig))

/-- The later the bound, the fewer blocks of a lane are left. -/
theorem length_laneBlocksFrom_le (lane : LaneID) {later : GlobalBlockNumber} (moved : bound ≤ later) :
    (laneBlocksFrom chain lane later).length ≤ (laneBlocksFrom chain lane bound).length := by
  induction chain with
  | nil => exact le_refl _
  | cons full =>
    have inFull : (full.laneBlocksFrom lane later).length ≤
        (full.laneBlocksFrom lane bound).length := by
      rw [full.laneBlocksFrom_eq, full.laneBlocksFrom_eq]
      refine List.Sublist.length_le (List.Sublist.filterMap _ ?_)
      exact drop_sublist_drop_left _ (by lia)
    rw [laneBlocksFrom_cons, laneBlocksFrom_cons, length_append, length_append]
    lia

namespace Data

/-! ### States that are built from a chain -/

/-- The window of certificates is a part of the chain, and no certificate is cut at its end. -/
structure Inner.BuiltFrom (inner : Inner Sig) : Prop where
  first_le : inner.first ≤ inner.nextAppProposal
  app_le : inner.nextAppProposal ≤ inner.nextQC
  present : ∀ number, inner.first ≤ number → number < inner.nextQC →
    ∃ full, inner.qcs number = some full
  from_chain : ∀ number full, inner.qcs number = some full →
    full ∈ chain ∧ full.globalRange.has number = true ∧ number < inner.nextQC
  tip : ∀ full, inner.qcs (inner.nextQC - 1) = some full → full.globalRange.next = inner.nextQC

variable {chain : List (FullCommitQC Sig)} {inner : Inner Sig}

/-- The blocks of the lane from the execution cursor on are numbered from `nextToExecute`. -/
theorem Inner.BuiltFrom.nextToExecute (built : inner.BuiltFrom chain) (linked : Linked crypto chain)
    (window : inner.first < inner.nextQC) (lane : LaneID) :
    ∃ number count, inner.nextToExecute lane = .ok number ∧
      laneBlocksFrom chain lane inner.nextAppProposal = List.range' number count ∧
      ∀ tip ∈ chain.getLast?, number + count = (tip.qc.laneRange lane).next := by
  have firstLe := built.first_le
  have appLe := built.app_le
  unfold Inner.nextToExecute
  rw [if_neg (ne_of_lt window)]
  by_cases atTip : inner.nextAppProposal = inner.nextQC
  · obtain ⟨full, found⟩ := built.present (inner.nextQC - 1) (by lia) (by lia)
    obtain ⟨member, covered, _⟩ := built.from_chain _ _ found
    rw [has_iff] at covered
    have ends := built.tip full found
    have certified := linked.certified full member
    have inFull : full.laneBlocksFrom lane inner.nextAppProposal =
        List.range' (full.qc.laneRange lane).next
          ((full.qc.laneRange lane).next - (full.qc.laneRange lane).next) := by
      rw [certified.laneBlocksFrom_of_ge (by lia), Nat.sub_self]
      rfl
    obtain ⟨count, blocks, tip⟩ :=
      laneBlocksFrom_at (by lia) (Nat.le_refl _) inFull linked member (by lia)
    refine ⟨_, count, ?_, blocks, tip⟩
    rw [if_pos atTip, atTip, Inner.qcAt, found]
    rfl
  · obtain ⟨full, found⟩ := built.present inner.nextAppProposal firstLe (by lia)
    obtain ⟨member, covered, _⟩ := built.from_chain _ _ found
    have certified := linked.certified full member
    obtain ⟨epoch, verified, _⟩ := certified.verified
    obtain ⟨header, isHeader⟩ := exists_headerAt verified covered
    obtain ⟨within, inFull⟩ := certified.laneBlocksFrom_of_has lane covered isHeader
    rw [has_iff] at covered
    obtain ⟨count, blocks, tip⟩ :=
      laneBlocksFrom_at (le_of_lt covered.2) within inFull linked member covered.1
    refine ⟨_, count, ?_, blocks, tip⟩
    rw [if_neg atTip, Inner.qcAt, found]
    simp only [ok_bind, isHeader, nextFrom]
    split
    · rfl
    · split <;> rfl

/-! ### Changes of the state -/

/-- The critical sections that move the window and the execution cursor. -/
inductive Change (Sig : Type) where
  | pushQC (call : QCCall Sig)
  | pushBlock (number : GlobalBlockNumber) (block : Block)
  | pushAppHash (number : GlobalBlockNumber) (hash : Bytes)

def changeStep (crypto : Crypto Digest Sig) (inner : Inner Sig) (change : Change Sig) :
    Option (Inner Sig) :=
  Except.toOption <| match change with
    | .pushQC call => finishPushQC crypto inner call
    | .pushBlock number block => finishPushBlock crypto inner number block
    | .pushAppHash number hash => inner.executeThrough crypto number hash

/-- A certificate that is stored is one of the chain, and continues what is stored: the first
critical section of `PushQC` has seen `nextQC` at its start. -/
def FollowsChain (chain : List (FullCommitQC Sig)) (inner : Inner Sig) : Change Sig → Prop
  | .pushQC call => call.needQC = true → call.qc ∈ chain ∧ call.qc.globalRange.first ≤ inner.nextQC
  | _ => True

instance [DecidableEq Sig] (chain : List (FullCommitQC Sig)) (inner : Inner Sig)
    (change : Change Sig) : Decidable (FollowsChain chain inner change) := by
  unfold FollowsChain
  split <;> infer_instance

/-- Where every error is allowed, only the successful part of a sequence matters. -/
theorem Ends.bind_ok {First Second : Type} {first : Except DataError First}
    {next : First → Except DataError Second} {post : Second → Prop}
    (continues : ∀ value, first = .ok value → Ends (fun _ => True) post (next value)) :
    Ends (fun _ => True) post (first >>= next) := by
  cases first with
  | error error => trivial
  | ok value => exact continues value rfl

/-- What the operations on blocks leave as it is. -/
structure SameWindow (before after : Inner Sig) : Prop where
  qcs : after.qcs = before.qcs
  first : after.first = before.first
  app : after.nextAppProposal = before.nextAppProposal
  next : after.nextQC = before.nextQC

theorem SameWindow.refl (inner : Inner Sig) : SameWindow inner inner := ⟨rfl, rfl, rfl, rfl⟩

variable {after : Inner Sig}

theorem SameWindow.trans {before middle : Inner Sig} (one : SameWindow before middle)
    (two : SameWindow middle after) : SameWindow before after :=
  ⟨two.qcs.trans one.qcs, two.first.trans one.first, two.app.trans one.app, two.next.trans one.next⟩

theorem SameWindow.builtFrom {before : Inner Sig} (same : SameWindow before after)
    (built : before.BuiltFrom chain) : after.BuiltFrom chain where
  first_le := by
    rw [same.first, same.app]
    exact built.first_le
  app_le := by
    rw [same.app, same.next]
    exact built.app_le
  present := by
    rw [same.first, same.next, same.qcs]
    exact built.present
  from_chain := by
    rw [same.next, same.qcs]
    exact built.from_chain
  tip := by
    rw [same.next, same.qcs]
    exact built.tip

theorem insertBlock_sameWindow (inner : Inner Sig) (number : GlobalBlockNumber) (block : Block) :
    Ends (fun _ => True) (SameWindow inner) (inner.insertBlock crypto number block) := by
  unfold Inner.insertBlock
  split
  · exact .refl _
  · split
    · exact .refl _
    · refine .bind_ok fun qc _ => .bind_ok fun want _ => ?_
      dsimp only
      split
      · trivial
      · exact ⟨rfl, rfl, rfl, rfl⟩

theorem updateNextBlock_sameWindow (inner : Inner Sig) :
    SameWindow inner inner.updateNextBlock := by
  unfold Inner.updateNextBlock
  generalize inner.nextQC - inner.nextBlock = rounds
  induction rounds generalizing inner with
  | zero => exact .refl _
  | succ rounds ih =>
    rw [Inner.advanceBlocks]
    split
    · exact .refl _
    · have rest := ih { inner with nextBlock := inner.nextBlock + 1 }
      exact { rest with }

theorem insertCalled_sameWindow (inner : Inner Sig) (call : QCCall Sig) :
    Ends (fun _ => True) (SameWindow inner) (insertCalled crypto inner call) := by
  unfold insertCalled
  split
  · exact .refl _
  · refine Ends.bind (Ends.foldlM (SameWindow inner) (fun number _ filled same => ?_)
      (.refl _)) fun filled same => same.trans (updateNextBlock_sameWindow filled)
    refine .bind_ok fun qc _ => .bind_ok fun hash _ => ?_
    split
    · exact same
    · exact (insertBlock_sameWindow filled number _).imp (fun _ _ => trivial)
        fun _ inserted => same.trans inserted

/-! ### The window along the changes -/

/-- The state hashes in the certificates are of blocks before their own, as a proposal is checked
to have it. -/
def AppsBelow (chain : List (FullCommitQC Sig)) : Prop :=
  ∀ full ∈ chain, ∀ app ∈ full.qc.proposal.app, app.globalNumber < full.globalRange.first

/-- What a change of the state gives: it is still built from the chain, execution has not gone
back, and the window is not emptied. -/
structure Moved (chain : List (FullCommitQC Sig)) (before after : Inner Sig) : Prop where
  built : after.BuiltFrom chain
  app_le : before.nextAppProposal ≤ after.nextAppProposal
  window : AppsBelow chain → before.first < before.nextQC → after.first < after.nextQC

theorem Moved.trans {before middle : Inner Sig} (one : Moved chain before middle)
    (two : Moved chain middle after) : Moved chain before after :=
  ⟨two.built, one.app_le.trans two.app_le,
    fun apps window => two.window apps (one.window apps window)⟩

theorem SameWindow.moved {before : Inner Sig} (same : SameWindow before after)
    (built : before.BuiltFrom chain) : Moved chain before after :=
  ⟨same.builtFrom built, same.app.ge, fun _ window => by rwa [same.first, same.next]⟩

theorem Inner.qcs_of_qcAt {number : GlobalBlockNumber} {qc : FullCommitQC Sig}
    (found : inner.qcAt number = .ok qc) : inner.qcs number = some qc := by
  unfold Inner.qcAt at found
  split at found
  · rw [← Except.ok.inj found]
    assumption
  · exact nomatch found

namespace Inner.BuiltFrom

variable (built : inner.BuiltFrom chain)

include built

theorem extendQCs {qc : FullCommitQC Sig} (member : qc ∈ chain)
    (low : qc.globalRange.first ≤ inner.nextQC) : Moved chain inner (inner.extendQCs qc) := by
  have firstLe := built.first_le
  have appLe := built.app_le
  obtain ⟨qcs, same, stored⟩ := Inner.storeQCs_eq qc (qc.globalRange.next - inner.nextQC) inner
  rw [Inner.extendQCs, same]
  refine ⟨?_, le_rfl, fun _ window => window.trans_le (Nat.le_add_right _ _)⟩
  constructor <;> dsimp only
  · exact firstLe
  · lia
  · intro number atLeast below
    rw [stored]
    split_ifs
    · exact ⟨qc, rfl⟩
    · exact built.present number atLeast (by lia)
  · intro number full found
    rw [stored] at found
    split_ifs at found with inside
    · rw [has_iff]
      lia
    · obtain ⟨inChain, covered, below⟩ := built.from_chain number full found
      exact ⟨inChain, covered, by lia⟩
  · intro full found
    rw [stored] at found
    split_ifs at found with inside
    · lia
    · have nothing : qc.globalRange.next - inner.nextQC = 0 := by lia
      rw [nothing] at found ⊢
      exact built.tip full found

/-- What may be forgotten ends below the certificate at the tip. -/
theorem certifiedAppFloor_lt {floor : GlobalBlockNumber} (apps : AppsBelow chain)
    (window : inner.first < inner.nextQC) (isFloor : inner.certifiedAppFloor = .ok floor) :
    floor < inner.nextQC := by
  rw [Inner.certifiedAppFloor, if_neg window.ne, exceptBind_eq_ok] at isFloor
  obtain ⟨tip, found, isFloor⟩ := isFloor
  obtain ⟨member, covered, _⟩ := built.from_chain _ _ (qcs_of_qcAt found)
  rw [has_iff] at covered
  cases isFloor
  cases isApp : tip.qc.proposal.app with
  | none => exact Nat.zero_lt_of_lt window
  | some app =>
    have below := apps tip member app isApp
    simp only [add64]
    lia

theorem evictBelowBound : Ends (fun _ => True) (Moved chain inner)
    (inner.evictBelowBound crypto) := by
  refine .bind_ok fun floor isFloor => ?_
  dsimp only
  split
  · exact (SameWindow.refl inner).moved built
  · have appLe := built.app_le
    obtain ⟨qcs, _, _, _, same, forgotten⟩ := Inner.forgetFrom_eq crypto
      (min inner.nextAppProposal floor - inner.first) inner.first inner
    rw [same]
    have kept : ∀ number full, qcs number = some full → inner.qcs number = some full := by
      intro number full found
      rw [forgotten] at found
      split_ifs at found
      exact found
    refine ⟨?_, le_rfl, fun apps window =>
      (min_le_right _ _).trans_lt (built.certifiedAppFloor_lt apps window isFloor)⟩
    constructor <;> dsimp only
    · exact min_le_left _ _
    · exact appLe
    · intro number atLeast below
      rw [forgotten, if_neg (by lia)]
      exact built.present number (by lia) below
    · exact fun number full found => built.from_chain number full (kept number full found)
    · exact fun full found => built.tip full (kept _ full found)

theorem markExecuted (proposal : AppProposal) (rounds : Nat)
    (within : inner.nextAppProposal + rounds ≤ inner.nextQC) : Ends (fun _ => True)
    (Moved chain inner) (Inner.markExecuted proposal rounds inner) := by
  induction rounds generalizing inner with
  | zero => exact (SameWindow.refl inner).moved built
  | succ rounds ih =>
    refine .bind_ok fun block _ => ?_
    have firstLe := built.first_le
    refine (ih ?_ ?_).imp (fun _ _ => trivial) fun after moved =>
      ⟨moved.built, (Nat.le_succ _).trans moved.app_le, moved.window⟩
    · exact ⟨by lia, by lia, built.present, built.from_chain, built.tip⟩
    · lia

theorem executeThrough (number : GlobalBlockNumber) (hash : Bytes) :
    Ends (fun _ => True) (Moved chain inner) (inner.executeThrough crypto number hash) := by
  refine .bind_ok fun qc found => ?_
  have appLe := built.app_le
  have below := (built.from_chain number qc (qcs_of_qcAt found)).2.2
  refine Ends.bind (built.markExecuted _ _ (by lia)) fun marked moved => ?_
  exact moved.built.evictBelowBound.imp (fun _ _ => trivial) fun after => moved.trans

theorem finishPushQC {call : QCCall Sig} (follows : FollowsChain chain inner (.pushQC call)) :
    Ends (fun _ => True) (Moved chain inner) (finishPushQC crypto inner call) := by
  unfold Data.finishPushQC
  cases needed : call.needQC with
  | true =>
    obtain ⟨member, low⟩ := follows needed
    have extended := built.extendQCs member low
    refine Ends.bind (insertCalled_sameWindow _ call) fun filled same => ?_
    have moved := extended.trans (same.moved extended.built)
    exact moved.built.evictBelowBound.imp (fun _ _ => trivial) fun after => moved.trans
  | false =>
    exact (insertCalled_sameWindow inner call).imp (fun _ _ => trivial) fun after same =>
      same.moved built

/-- Every change keeps the window a part of the chain, and execution goes forward. -/
theorem changeStep {change : Change Sig} (follows : FollowsChain chain inner change)
    (changed : changeStep crypto inner change = some after) : Moved chain inner after := by
  have ends : ∀ result : Except DataError (Inner Sig), result.toOption = some after →
      Ends (fun _ => True) (Moved chain inner) result → Moved chain inner after := by
    intro result isAfter ends
    cases result with
    | error error => exact nomatch isAfter
    | ok =>
      obtain rfl := Option.some.inj isAfter
      exact ends
  cases change with
  | pushQC => exact ends _ changed (built.finishPushQC follows)
  | pushBlock number block =>
    refine ends _ changed (Ends.bind (insertBlock_sameWindow inner number block) ?_)
    intro inserted same
    exact (same.trans (updateNextBlock_sameWindow inserted)).moved built
  | pushAppHash number hash => exact ends _ changed (built.executeThrough number hash)

/-- The same over a whole run. -/
theorem reaches (reached : Reaches (Data.changeStep crypto) (FollowsChain chain) inner after) :
    Moved chain inner after := by
  refine reached.invariant ((SameWindow.refl inner).moved built) ?_
  intro before change after moved follows changed
  exact moved.trans (moved.built.changeStep follows changed)

end Inner.BuiltFrom

/-- In a state with certificates, `nextToExecute` is the number of the first block of the lane
that is not executed: the chain has the numbers from there to its last without a gap, under
global numbers from `nextAppProposal` on. It does not decrease, whatever is received, executed
and evicted, as long as there are certificates, which is always so if their state hashes are of
blocks before their own. -/
theorem nextToExecute_exact (crypto : Crypto Digest Sig) (chain : List (FullCommitQC Sig))
    (linked : Linked crypto chain) (inner : Inner Sig) (built : inner.BuiltFrom chain)
    (window : inner.first < inner.nextQC) (lane : LaneID) :
    ∃ number count, inner.nextToExecute lane = .ok number ∧
      laneBlocksFrom chain lane inner.nextAppProposal = List.range' number count ∧
      (∀ tip ∈ chain.getLast?, number + count = (tip.qc.laneRange lane).next) ∧
      ∀ later, Reaches (changeStep crypto) (FollowsChain chain) inner later →
        later.first < later.nextQC ∨ AppsBelow chain →
        ∃ laterNumber, later.nextToExecute lane = .ok laterNumber ∧ number ≤ laterNumber := by
  obtain ⟨number, count, isNext, blocks, ends⟩ := built.nextToExecute linked window lane
  refine ⟨number, count, isNext, blocks, ends, fun later reached kept => ?_⟩
  have moved := built.reaches reached
  have laterWindow := kept.elim id fun apps => moved.window apps window
  obtain ⟨laterNumber, laterCount, laterNext, laterBlocks, laterEnds⟩ :=
    moved.built.nextToExecute linked laterWindow lane
  refine ⟨laterNumber, laterNext, ?_⟩
  have fewer := length_laneBlocksFrom_le chain lane moved.app_le
  rw [blocks, laterBlocks, length_range', length_range'] at fewer
  obtain ⟨full, stored⟩ := built.present inner.first (le_refl _) window
  have nonempty := ne_nil_of_mem (built.from_chain _ full stored).1
  have tip := ends _ (getLast_mem_getLast? nonempty)
  have laterTip := laterEnds _ (getLast_mem_getLast? nonempty)
  lia

/-- A certificate with the state hash of one of its own blocks. -/
def ownAppQC : FullCommitQC Bool :=
  let app : AppProposal := { globalNumber := 2, roadIndex := 0, appHash := [], epochIndex := 0 }
  { twoLanesQC with qc.vote.proposal.app := some app }

/-- Its blocks are executed, and nothing is left. -/
example : ∃ inner : Inner Bool, Reaches (changeStep openCrypto) (FollowsChain [ownAppQC])
    (newInner 0) inner ∧ inner.first = 3 ∧ inner.nextQC = 3 :=
  exists_reaches [.pushQC ⟨ownAppQC, ownAppQC.headers.map emptyBlock, true⟩, .pushAppHash 2 [7]]
    (by decide +kernel)

/-- A second certificate, which goes on in the first lane and begins the second one. -/
def moreLanesQC : FullCommitQC Bool where
  qc := {
    vote := ⟨newProposal { index := 1, number := 0, epochIndex := 0 } 0
      [{ lane := 1, first := 2, next := 3, lastHash := 3 },
        { lane := 2, first := 0, next := 1, lastHash := 1 },
        { lane := 3, first := 6, next := 6, lastHash := 0 }] none 3⟩
    sigs := threeSignatures }
  headers := [{ lane := 1, blockNumber := 2, parentHash := 2, payloadHash := 0 },
    { lane := 2, blockNumber := 0, parentHash := 0, payloadHash := 0 }]

/-- The first certificate is received with its blocks, and two of them are executed. -/
def executeTwo : List (Change Bool) :=
  [.pushQC { qc := twoLanesQC, blocks := twoLanesQC.headers.map emptyBlock, needQC := true },
    .pushAppHash 1 [7]]

theorem laneRange_beyond {full : FullCommitQC Bool} {lane : LaneID}
    (small : ∀ range ∈ full.qc.proposal.laneRanges.ranges, range.lane < 4) (beyond : 4 ≤ lane) :
    full.qc.laneRange lane = .empty lane 0 := by
  have missing : full.qc.proposal.laneRanges.get lane = none := by
    refine find?_eq_none.mpr fun range member same => ?_
    have below := small range member
    lia
  rw [CommitQC.laneRange, laneRange, missing, Option.getD_none]

theorem linked_lanes : Linked openCrypto [twoLanesQC, moreLanesQC] := by
  have inOrder : ∀ full ∈ [twoLanesQC, moreLanesQC],
      full.verify openCrypto (genesisEpoch fourCommittee 0 0) = .ok () ∧
      full.InLaneOrder fourCommittee ∧ full.globalRange.first ≤ full.globalRange.next := by
    unfold FullCommitQC.InLaneOrder
    decide +kernel
  have small : ∀ full ∈ [twoLanesQC, moreLanesQC],
      ∀ range ∈ full.qc.proposal.laneRanges.ranges, range.lane < 4 := by
    decide
  have decoded : ∀ full ∈ [twoLanesQC, moreLanesQC], ∀ lane < 4,
      (full.qc.laneRange lane).next < 2 ^ 64 := by
    decide +kernel
  have starts : ∀ lane < 4,
      (moreLanesQC.qc.laneRange lane).first = (twoLanesQC.qc.laneRange lane).next := by
    decide +kernel
  refine ⟨fun full member => ⟨⟨_, (inOrder full member).1, (inOrder full member).2.1⟩, ?_,
    (inOrder full member).2.2⟩, .cons_cons ⟨by decide +kernel, ?_⟩ (.singleton _)⟩
  · intro lane
    rcases lt_or_ge lane 4 with below | beyond
    · exact decoded full member lane below
    · rw [laneRange_beyond (small full member) beyond]
      exact Nat.two_pow_pos 64
  · intro lane
    rcases lt_or_ge lane 4 with below | beyond
    · exact starts lane below
    · rw [laneRange_beyond (small _ (by simp)) beyond, laneRange_beyond (small _ (by simp)) beyond]
      rfl

theorem newInner_builtFrom (chain : List (FullCommitQC Sig)) (start : GlobalBlockNumber) :
    (newInner start : Inner Sig).BuiltFrom chain where
  first_le := le_refl _
  app_le := le_refl _
  present _ atLeast below := absurd below (not_lt.mpr atLeast)
  from_chain := nofun
  tip := nofun

theorem nextToExecute_exact_lanes : ∃ inner : Inner Bool, inner.nextAppProposal = 2 ∧
    ∃ number count, inner.nextToExecute 1 = .ok number ∧
      laneBlocksFrom [twoLanesQC, moreLanesQC] 1 2 = List.range' number count ∧
      number + count = 3 := by
  obtain ⟨inner, reached, first, app, next⟩ : ∃ inner, Reaches (changeStep openCrypto)
      (FollowsChain [twoLanesQC, moreLanesQC]) (newInner 0) inner ∧
      inner.first = 0 ∧ inner.nextAppProposal = 2 ∧ inner.nextQC = 3 :=
    exists_reaches executeTwo (by decide +kernel)
  have built := ((newInner_builtFrom _ 0).reaches reached).built
  obtain ⟨number, count, isNext, blocks, ends, _⟩ :=
    nextToExecute_exact openCrypto _ linked_lanes inner built (by lia) 1
  rw [app] at blocks
  exact ⟨inner, app, number, count, isNext, blocks, ends moreLanesQC rfl⟩

end Data

end SeiChain.Autobahn
