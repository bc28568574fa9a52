/-
This file says what the checks of certificates establish. A certificate that
verifies has distinct signers of quorum weight whose signatures are valid. A
timeout certificate that verifies also has votes of one view, and its prepare
certificate is at the highest view that its votes report, as long as no reported
number is the last one of 64 bits. A proposal that verifies after a timeout
repeats the content that the timeout certificate inherited.
-/

import SeiChain.Autobahn.Messages

namespace SeiChain.Autobahn

open Library List TimeoutQC

variable {Digest Sig : Type} {crypto : Crypto Digest Sig} {committee : Committee} {epoch : Epoch}
  {msg : Msg} {duplicate : PublicKey → VerifyError} {quorumWeight : Nat} {view : View}
  {qc : TimeoutQC Sig} {prev : Option (CommitQC Sig)}

/-! ### Signatures -/

theorem verifySig_eq_ok {sig : Signature Sig} :
    verifySig crypto committee msg sig = .ok () ↔ sig.key ∈ committee.replicas ∧
      crypto.verifyWithTag sig.key (crypto.hash msg) sig.sig = true := by
  simp [verifySig, Committee.hasReplica]

/-- The signers of a list of signed messages. -/
def signerKeys (signed : SignedMsgs Sig) : List PublicKey :=
  signed.map fun entry => entry.2.key

theorem signerKeys_cons (entry : Msg × Signature Sig) (rest : SignedMsgs Sig) :
    signerKeys (entry :: rest) = entry.2.key :: signerKeys rest := rfl

/-- What the loop over signatures establishes about the rest of the list. -/
theorem verifySigs_eq_ok {signed : SignedMsgs Sig} {done : List PublicKey}
    {weight total : Nat} (small : weight < 2 ^ 64)
    (verified : verifySigs crypto committee duplicate signed done weight = .ok total) :
    (signerKeys signed).Nodup ∧ (∀ key ∈ signerKeys signed, key ∉ done) ∧
    (∀ entry ∈ signed, verifySig crypto committee entry.1 entry.2 = .ok ()) ∧
    total = (weight + ((signerKeys signed).map committee.weight).sum) % 2 ^ 64 := by
  induction signed generalizing done weight with
  | nil =>
    cases verified
    simpa [signerKeys] using (Nat.mod_eq_of_lt small).symm
  | cons entry rest ih =>
    obtain ⟨msg, sig⟩ := entry
    simp only [verifySigs, check_bind_eq_ok, ensure_eq_ok] at verified
    obtain ⟨fresh, valid, restVerified⟩ := verified
    obtain ⟨nodup, disjoint, allValid, sum⟩ := ih (Nat.mod_lt _ (by decide)) restVerified
    have notLater : sig.key ∉ signerKeys rest := fun later => disjoint sig.key later mem_cons_self
    refine ⟨nodup_cons.mpr ⟨notLater, nodup⟩, ?_, ?_, ?_⟩
    · intro key member
      rcases mem_cons.mp member with rfl | later
      · exact fresh
      · exact fun before => disjoint key later (.tail _ before)
    · intro entry member
      rcases mem_cons.mp member with rfl | later
      · exact valid
      · exact allValid entry later
    · rw [sum, Nat.mod_add_mod, signerKeys_cons, map_cons, sum_cons, add_assoc]

/-- The weights of distinct replicas add up without overflow. -/
theorem Committee.sum_weight_lt (committee : Committee) {keys : List PublicKey}
    (nodup : keys.Nodup) (members : keys.toFinset ⊆ committee.replicas.toFinset) :
    (keys.map committee.weight).sum < 2 ^ 64 := by
  rw [← sum_toFinset _ nodup]
  refine lt_of_le_of_lt (Finset.sum_le_sum_of_subset members) ?_
  rw [← committee.total_eq_sum]
  exact committee.bounded

/-- Distinct replicas of the committee with valid signatures, of at least the given weight. -/
structure SignedByQuorum (crypto : Crypto Digest Sig) (committee : Committee) (quorumWeight : Nat)
    (signed : SignedMsgs Sig) : Prop where
  members : (signerKeys signed).toFinset ⊆ committee.replicas.toFinset
  heavy : quorumWeight ≤ (signerKeys signed).toFinset.sum committee.weight
  valid : ∀ entry ∈ signed,
    crypto.verifyWithTag entry.2.key (crypto.hash entry.1) entry.2.sig = true

/-- The loop's result is the total weight of the signers. -/
theorem signedByQuorum_of_verifySigs {signed : SignedMsgs Sig} {total : Nat}
    (verified : verifySigs crypto committee duplicate signed [] 0 = .ok total)
    (heavy : quorumWeight ≤ total) : SignedByQuorum crypto committee quorumWeight signed := by
  obtain ⟨nodup, _, allValid, sum⟩ := verifySigs_eq_ok (by decide) verified
  have members : (signerKeys signed).toFinset ⊆ committee.replicas.toFinset := by
    intro key member
    rw [mem_toFinset, signerKeys, mem_map] at member
    obtain ⟨entry, isEntry, rfl⟩ := member
    exact mem_toFinset.mpr (verifySig_eq_ok.mp (allValid entry isEntry)).1
  refine ⟨members, ?_, fun entry member => (verifySig_eq_ok.mp (allValid entry member)).2⟩
  rw [zero_add, Nat.mod_eq_of_lt (committee.sum_weight_lt nodup members)] at sum
  rw [sum_toFinset committee.weight nodup, ← sum]
  exact heavy

theorem signedByQuorum_of_verifyQC {sigs : List (Signature Sig)}
    (verified : verifyQC crypto committee quorumWeight msg sigs = .ok ()) :
    SignedByQuorum crypto committee quorumWeight (sigs.map fun sig => (msg, sig)) := by
  obtain ⟨total, summed, heavy⟩ := exceptBind_eq_ok.mp verified
  exact signedByQuorum_of_verifySigs summed (ensure_eq_ok.mp heavy)

/-! ### Prepare and commit certificates -/

/-- The signed messages that a certificate consists of. -/
def PrepareQC.signed (qc : PrepareQC Sig) : SignedMsgs Sig :=
  qc.sigs.map fun sig => (.prepareVote qc.vote, sig)

def CommitQC.signed (qc : CommitQC Sig) : SignedMsgs Sig :=
  qc.sigs.map fun sig => (.commitVote qc.vote, sig)

def TimeoutQC.signed (qc : TimeoutQC Sig) : SignedMsgs Sig :=
  qc.votes.map fun vote => (.timeoutVote vote.msg, vote.sig)

theorem PrepareQC.verify_spec {qc : PrepareQC Sig} (verified : qc.verify crypto epoch = .ok ()) :
    qc.view.verify epoch = .ok () ∧
      SignedByQuorum crypto epoch.committee epoch.committee.commitQuorum qc.signed := by
  obtain ⟨proposal, quorum⟩ := check_bind_eq_ok.mp verified
  exact ⟨Proposal.verify_view proposal, signedByQuorum_of_verifyQC quorum⟩

theorem CommitQC.verify_spec {qc : CommitQC Sig} (verified : qc.verify crypto epoch = .ok ()) :
    qc.proposal.view.verify epoch = .ok () ∧
      SignedByQuorum crypto epoch.committee epoch.committee.commitQuorum qc.signed := by
  obtain ⟨proposal, quorum⟩ := check_bind_eq_ok.mp verified
  exact ⟨Proposal.verify_view proposal, signedByQuorum_of_verifyQC quorum⟩

theorem View.epochIndex_of_verify (verified : view.verify epoch = .ok ()) :
    view.epochIndex = epoch.epochIndex := by
  simp only [View.verify, check_bind_eq_ok, ensure_eq_ok] at verified
  exact verified.1

/-! ### Timeout certificates -/

/-- No number that the votes report is the last one of 64 bits, after which the search for the
highest one starts over. -/
def TimeoutQC.ReportsDoNotWrap (qc : TimeoutQC Sig) : Prop :=
  ∀ vote ∈ qc.votes, ∀ number, vote.msg.latestPrepareQC = some number → number + 1 < 2 ^ 64

/-- The loop finds a number that is at least the given one and every reported one. -/
theorem highestReport_spec {votes : List (Signed TimeoutVote Sig)}
    {start highest : Option ViewNumber}
    (noWrap : ∀ vote ∈ votes, ∀ number,
      vote.msg.latestPrepareQC = some number → number + 1 < 2 ^ 64)
    (found : highestReport view votes start = .ok highest) :
    (∀ vote ∈ votes, vote.msg.view = view) ∧ nextNumberOpt start ≤ nextNumberOpt highest ∧
    ∀ vote ∈ votes, ∀ number, vote.msg.latestPrepareQC = some number →
      number < nextNumberOpt highest := by
  induction votes generalizing start with
  | nil =>
    cases found
    exact ⟨nofun, le_rfl, nofun⟩
  | cons vote rest ih =>
    rw [highestReport, check_bind_eq_ok, ensure_eq_ok] at found
    obtain ⟨sameView, found⟩ := found
    -- Whichever of the two numbers is kept, it is at least both of them.
    obtain ⟨chosen, found, kept, reported⟩ : ∃ chosen, highestReport view rest chosen = .ok highest ∧
        nextNumberOpt start ≤ nextNumberOpt chosen ∧
        ∀ number, vote.msg.latestPrepareQC = some number → number < nextNumberOpt chosen := by
      cases report : vote.msg.latestPrepareQC with
      | none =>
        rw [report] at found
        exact ⟨start, found, le_rfl, nofun⟩
      | some number =>
        rw [report] at found
        have isNext : nextNumberOpt (some number) = number + 1 :=
          Nat.mod_eq_of_lt (noWrap vote mem_cons_self number report)
        refine ⟨_, found, ?_⟩
        split <;> simp only [Option.some.injEq, forall_eq'] <;> lia
    obtain ⟨views, above, reports⟩ := ih (fun later member => noWrap later (.tail _ member)) found
    exact ⟨forall_mem_cons.mpr ⟨sameView, views⟩, kept.trans above, forall_mem_cons.mpr
      ⟨fun number isReport => (reported number isReport).trans_le above, reports⟩⟩

/-- What a verified timeout certificate establishes. -/
structure TimeoutQC.Sound (qc : TimeoutQC Sig) (crypto : Crypto Digest Sig) (epoch : Epoch) :
    Prop where
  epochIndex : qc.view.epochIndex = epoch.epochIndex
  quorum : SignedByQuorum crypto epoch.committee epoch.committee.commitQuorum qc.signed
  views : ∀ vote ∈ qc.votes, vote.msg.view = qc.view
  reports : ∀ vote ∈ qc.votes, ∀ number, vote.msg.latestPrepareQC = some number →
    ∃ prepareQC, qc.latestPrepareQC = some prepareQC ∧ number ≤ prepareQC.view.number
  prepared : ∀ prepareQC, qc.latestPrepareQC = some prepareQC →
    prepareQC.verify crypto epoch = .ok () ∧ prepareQC.view.index = qc.view.index

/-- The certificate that a verified timeout certificate inherits is of its road and verifies. -/
theorem TimeoutQC.prepared_of_verify (verified : qc.verify crypto epoch prev = .ok ())
    {prepareQC : PrepareQC Sig}
    (inherited : qc.latestPrepareQC = some prepareQC) :
    prepareQC.verify crypto epoch = .ok () ∧ prepareQC.view.index = qc.view.index := by
  rw [verify, check_bind_eq_ok, check_bind_eq_ok, exceptBind_eq_ok] at verified
  obtain ⟨_, _, _, _, verified⟩ := verified
  rw [check_bind_eq_ok, exceptBind_eq_ok] at verified
  obtain ⟨_, highest, _, verified⟩ := verified
  rw [inherited] at verified
  cases highest with
  | none => cases verified
  | some =>
    simp only [check_bind_eq_ok, ensure_eq_ok, inPart_eq_ok] at verified
    refine ⟨verified.2, ?_⟩
    rw [verified.1]

theorem TimeoutQC.sound_of_verify (noWrap : qc.ReportsDoNotWrap)
    (verified : qc.verify crypto epoch prev = .ok ()) :
    qc.Sound crypto epoch := by
  have prepared : ∀ prepareQC, qc.latestPrepareQC = some prepareQC →
      prepareQC.verify crypto epoch = .ok () ∧ prepareQC.view.index = qc.view.index :=
    fun _ => prepared_of_verify verified
  rw [verify, check_bind_eq_ok, check_bind_eq_ok, ensure_eq_ok, exceptBind_eq_ok] at verified
  obtain ⟨viewOk, _, weight, summed, verified⟩ := verified
  rw [check_bind_eq_ok, ensure_eq_ok, exceptBind_eq_ok] at verified
  obtain ⟨heavy, highest, found, verified⟩ := verified
  obtain ⟨views, _, reports⟩ := highestReport_spec noWrap found
  refine ⟨View.epochIndex_of_verify viewOk, signedByQuorum_of_verifySigs summed heavy, views, ?_,
    prepared⟩
  intro vote member number reported
  have below := reports vote member number reported
  obtain ⟨top, rfl⟩ : ∃ top, highest = some top := by
    cases highest with
    | none => cases below
    | some top => exact ⟨top, rfl⟩
  rcases inherited : qc.latestPrepareQC with _ | prepareQC <;> rw [inherited] at verified
  · cases verified
  · simp only [check_bind_eq_ok, ensure_eq_ok] at verified
    refine ⟨prepareQC, rfl, ?_⟩
    rw [verified.1]
    exact Nat.lt_succ_iff.mp (below.trans_le (Nat.mod_le _ _))

/-! ### Proposals -/

/-- A verified proposal is for the first view of its road, or it carries a verified timeout
certificate of the view before and, if that inherited a certificate, repeats its content. -/
theorem FullProposal.verify_spec [DecidableEq Digest] {full : FullProposal Sig}
    {spec : ViewSpec Sig}
    (noWrap : ∀ qc, full.timeoutQC = some qc → qc.view.number + 1 < 2 ^ 64)
    (verified : full.verify crypto spec = .ok ()) :
    full.view.number = 0 ∨ ∃ qc, full.timeoutQC = some qc ∧
      qc.verify crypto spec.epoch spec.commitQC = .ok () ∧
      full.view.index = qc.view.index ∧ full.view.number = qc.view.number + 1 ∧
      ∀ prepareQC, qc.latestPrepareQC = some prepareQC →
        full.proposal.msg.content = prepareQC.proposal.content := by
  rw [FullProposal.verify] at verified
  simp only [check_bind_eq_ok, ensure_eq_ok, inPart_eq_ok] at verified
  obtain ⟨sameView, _, _, _, _, consistent, verified⟩ := verified
  cases timedOut : full.timeoutQC with
  | none =>
    refine .inl ?_
    rw [timedOut] at consistent
    have number : full.view.number = spec.view.number := congrArg View.number sameView
    rw [number, ViewSpec.view, consistent]
    split <;> rfl
  | some qc =>
    rw [timedOut] at verified consistent
    simp only [check_bind_eq_ok, inPart_eq_ok] at verified
    obtain ⟨qcVerified, verified⟩ := verified
    have index : qc.view.index = nextIndexOpt spec.commitQC := by
      rw [TimeoutQC.verify, check_bind_eq_ok, check_bind_eq_ok, ensure_eq_ok] at qcVerified
      exact qcVerified.2.1
    have fullView : full.view = { qc.view.next with epochIndex := spec.epoch.epochIndex } := by
      refine sameView.trans ?_
      rw [ViewSpec.view, consistent]
      exact if_pos index
    refine .inr ⟨qc, rfl, qcVerified, ?_, ?_, ?_⟩
    · rw [fullView]
      rfl
    · rw [fullView]
      exact Nat.mod_eq_of_lt (noWrap qc timedOut)
    · intro prepareQC inherited
      rw [reproposal, inherited] at verified
      simp only [Option.map_some, check_bind_eq_ok, ensure_eq_ok] at verified
      have same := Msg.proposal.inj (crypto.hash_injective verified.2)
      rw [← same]
      exact content_newProposal prepareQC.proposal qc.view.next

end SeiChain.Autobahn
