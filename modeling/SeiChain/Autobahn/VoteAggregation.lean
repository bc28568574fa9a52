/-
This file proves what the aggregators of votes keep over any sequence of verified
votes, with repeated, stale and equivocating ones. The vote of a signer that counts is
the first one of its highest view. It is in the set of what it is for and in no other,
and the weight of a set is the exact sum of the weights of its signers. The
certificates that are published have later and later views, and each of them passes
the checks that other replicas make.
-/

import SeiChain.Autobahn.Consensus
import SeiChain.Autobahn.TimeoutReports
import SeiChain.Library.Maps

namespace SeiChain.Autobahn

open Library List Function

variable {Digest Sig : Type} {crypto : Crypto Digest Sig} {committee : Committee}
  {duplicate : PublicKey → VerifyError} {signed : SignedMsgs Sig} {quorum : Nat}

/-- Valid signatures of distinct signers pass the loop, which gives their total weight. -/
theorem verifySigs_of_valid {done : List PublicKey} {weight : Nat}
    (nodup : (signerKeys signed).Nodup) (fresh : ∀ key ∈ signerKeys signed, key ∉ done)
    (valid : ∀ entry ∈ signed, verifySig crypto committee entry.1 entry.2 = .ok ())
    (fits : weight + ((signerKeys signed).map committee.weight).sum < 2 ^ 64) :
    verifySigs crypto committee duplicate signed done weight =
      .ok (weight + ((signerKeys signed).map committee.weight).sum) := by
  induction signed generalizing done weight with
  | nil => rfl
  | cons entry rest ih =>
    obtain ⟨msg, sig⟩ := entry
    rw [signerKeys_cons, nodup_cons] at nodup
    rw [signerKeys_cons, map_cons, sum_cons] at fits ⊢
    have exact64 : add64 weight (committee.weight sig.key) = weight + committee.weight sig.key :=
      Nat.mod_eq_of_lt (by dsimp only at fits; omega)
    simp only [verifySigs, check_bind_eq_ok, ensure_eq_ok, exact64]
    refine ⟨fresh _ mem_cons_self, valid _ mem_cons_self, ?_⟩
    rw [ih nodup.2 ?_ (fun entry member => valid entry (mem_cons_of_mem _ member))
      (by dsimp only at fits; omega), add_assoc]
    intro key later before
    rcases mem_cons.mp before with rfl | older
    · exact nodup.1 later
    · exact fresh key (.tail _ later) older

/-! ### The votes that count -/

namespace VoteBook

variable {Group Vote QC : Type} {kind : VoteKind Group Vote QC} {book : VoteBook Group Vote QC}
  {verified : Vote → Prop} {key : PublicKey} {vote old : Vote}
  {byKey other : PublicKey → Option Vote} {group : Group} {set : VoteSet Vote}

def signers (set : VoteSet Vote) : List PublicKey := set.votes.map Prod.fst

/-- A set of votes for one thing: all of them count, no signer occurs twice, and the weight is
that of the signers. -/
structure SetOk (committee : Committee) (kind : VoteKind Group Vote QC)
    (byKey : PublicKey → Option Vote) (group : Group) (set : VoteSet Vote) : Prop where
  counts : ∀ entry ∈ set.votes, byKey entry.1 = some entry.2 ∧ kind.group entry.2 = group
  nodup : (signers set).Nodup
  weight : set.weight = ((signers set).map committee.weight).sum

/-- Every vote that counts is in the set of what it is for, and the sets have nothing else. -/
structure WellFiled (committee : Committee) (kind : VoteKind Group Vote QC)
    (verified : Vote → Prop) (book : VoteBook Group Vote QC) : Prop where
  known : ∀ key vote, book.byKey key = some vote →
    kind.key vote = key ∧ key ∈ committee.replicas ∧ verified vote
  filed : ∀ key vote, book.byKey key = some vote →
    ∃ set, book.byGroup (kind.group vote) = some set ∧ (key, vote) ∈ set.votes
  used : ∀ group set, book.byGroup group = some set → set.votes ≠ []
  sets : ∀ group set, book.byGroup group = some set → SetOk committee kind book.byKey group set

theorem SetOk.congr (ok : SetOk committee kind byKey group set)
    (same : ∀ entry ∈ set.votes, other entry.1 = byKey entry.1) :
    SetOk committee kind other group set :=
  { ok with counts := fun entry member =>
      ⟨(same entry member).trans (ok.counts entry member).1, (ok.counts entry member).2⟩ }

theorem WellFiled.members (wellFiled : WellFiled committee kind verified book)
    (ok : SetOk committee kind book.byKey group set) :
    (signers set).toFinset ⊆ committee.replicas.toFinset := by
  intro key member
  obtain ⟨entry, inSet, rfl⟩ := mem_map.mp (mem_toFinset.mp member)
  exact mem_toFinset.mpr (wellFiled.known _ _ (ok.counts entry inSet).1).2.1

section

variable (members : (signers set).toFinset ⊆ committee.replicas.toFinset)

include members

/-- A signer is taken out of a set, whose weight is enough for that. -/
theorem SetOk.removeSigner (ok : SetOk committee kind byKey group set) (isSigner : key ∈ signers set) :
    SetOk committee kind (update byKey key none) group
      ⟨sub64 set.weight (committee.weight key), set.votes.filter fun entry => entry.1 ≠ key⟩ := by
  have left : (set.votes.filter fun entry => entry.1 ≠ key).map Prod.fst =
      (signers set).erase key := by
    rw [ok.nodup.erase_eq_filter, signers, filter_map]
    refine congrArg _ (filter_congr fun entry _ => ?_)
    by_cases same : entry.1 = key <;> simp [same]
  refine ⟨fun entry member => ?_, ?_, ?_⟩
  · obtain ⟨inSet, other⟩ := mem_filter.mp member
    obtain ⟨counts, isGroup⟩ := ok.counts entry inSet
    exact ⟨(update_of_ne (of_decide_eq_true other) _ _).trans counts, isGroup⟩
  · rw [signers, left]
    exact ok.nodup.erase key
  · have total := sum_map_erase committee.weight isSigner
    have fits := committee.sum_weight_lt ok.nodup members
    rw [signers, left, ok.weight, sub64_of_le (by omega) fits]
    change _ - _ = _
    omega

/-- The vote of a signer that has none is put into a set. -/
theorem SetOk.addSigner (ok : SetOk committee kind byKey (kind.group vote) set)
    (absent : byKey key = none) (inCommittee : key ∈ committee.replicas) :
    SetOk committee kind (update byKey key (some vote)) (kind.group vote)
      ⟨add64 set.weight (committee.weight key),
        (key, vote) :: set.votes.filter fun entry => entry.1 ≠ key⟩ := by
  have others : ∀ entry ∈ set.votes, entry.1 ≠ key := by
    intro entry member same
    have counts := (ok.counts entry member).1
    rw [same, absent] at counts
    cases counts
  have all : set.votes.filter (fun entry => entry.1 ≠ key) = set.votes :=
    filter_eq_self.mpr fun entry member => decide_eq_true (others entry member)
  have nodup : (key :: signers set).Nodup := by
    refine nodup_cons.mpr ⟨fun isSigner => ?_, ok.nodup⟩
    obtain ⟨entry, member, same⟩ := mem_map.mp isSigner
    exact others entry member same
  have fits : ((key :: signers set).map committee.weight).sum < 2 ^ 64 := by
    refine committee.sum_weight_lt nodup ?_
    rw [toFinset_cons]
    exact Finset.insert_subset (mem_toFinset.mpr inCommittee) members
  rw [all]
  refine ⟨fun entry member => ?_, nodup, ?_⟩
  · rcases mem_cons.mp member with rfl | later
    · exact ⟨update_self .., rfl⟩
    · obtain ⟨counts, isGroup⟩ := ok.counts entry later
      exact ⟨(update_of_ne (others entry later) _ _).trans counts, isGroup⟩
  · rw [map_cons, sum_cons, ← ok.weight, add_comm] at fits
    change add64 set.weight (committee.weight key) = ((key :: signers set).map _).sum
    rw [map_cons, sum_cons, ← ok.weight, add_comm (committee.weight key)]
    exact Nat.mod_eq_of_lt fits

end

variable [DecidableEq Group]

/-- The book without the vote of one key. -/
def forget (book : VoteBook Group Vote QC) (key : PublicKey) : VoteBook Group Vote QC :=
  { book with byKey := update book.byKey key none }

theorem insertVote_forget (book : VoteBook Group Vote QC) (vote : Vote) :
    (book.forget (kind.key vote)).insertVote committee kind vote =
      book.insertVote committee kind vote := by
  simp only [forget, insertVote, update_idem]

section

variable (wellFiled : WellFiled committee kind verified book)

include wellFiled

/-- The old vote of a key is taken out of its set. -/
theorem WellFiled.removeVote (isOld : book.byKey key = some old) :
    WellFiled committee kind verified
      ((book.removeVote committee key (kind.group old)).forget key) := by
  obtain ⟨set, isSet, inSet⟩ := wellFiled.filed key old isOld
  have ok := wellFiled.sets _ set isSet
  have removed := ok.removeSigner (wellFiled.members ok) (mem_map_of_mem inSet)
  simp only [VoteBook.removeVote, isSet, forget]
  generalize votesLeft : set.votes.filter (fun entry => entry.1 ≠ key) = votes at removed ⊢
  generalize sub64 set.weight (committee.weight key) = weight at removed ⊢
  refine ⟨fun other vote isVote => ?_, fun other vote isVote => ?_, fun group other isOther => ?_,
    fun group other isOther => ?_⟩
  · exact wellFiled.known other vote (update_none_eq_some isVote).2
  · obtain ⟨different, counts⟩ := update_none_eq_some isVote
    obtain ⟨otherSet, isOther, inOther⟩ := wellFiled.filed other vote counts
    rcases eq_or_ne (kind.group vote) (kind.group old) with same | apart
    · rw [same] at isOther ⊢
      obtain rfl := Option.some.inj (isSet.symm.trans isOther)
      have stays : (other, vote) ∈ votes :=
        votesLeft ▸ mem_filter.mpr ⟨inOther, decide_eq_true different⟩
      refine ⟨⟨weight, votes⟩, (update_self ..).trans (if_neg fun empty => ?_), stays⟩
      rw [isEmpty_iff.mp empty] at stays
      exact not_mem_nil stays
    · exact ⟨otherSet, (update_of_ne apart _ _).trans isOther, inOther⟩
  · rcases update_eq_some isOther with ⟨_, isLeft⟩ | ⟨_, isSet⟩
    · obtain ⟨notEmpty, ⟨⟩⟩ := Option.ite_none_left_eq_some.mp isLeft
      exact fun empty => notEmpty (isEmpty_iff.mpr empty)
    · exact wellFiled.used group other isSet
  · rcases update_eq_some isOther with ⟨rfl, isLeft⟩ | ⟨different, isSet⟩
    · obtain ⟨_, ⟨⟩⟩ := Option.ite_none_left_eq_some.mp isLeft
      exact removed
    · have otherOk := wellFiled.sets group other isSet
      refine otherOk.congr fun entry member => update_of_ne (fun same => ?_) _ _
      obtain ⟨counts, isGroup⟩ := otherOk.counts entry member
      rw [same, isOld, Option.some.injEq] at counts
      exact different (counts ▸ isGroup.symm)

omit [DecidableEq Group] in
/-- A set that is found or new. -/
theorem WellFiled.setOk (group : Group) :
    SetOk committee kind book.byKey group ((book.byGroup group).getD ⟨0, []⟩) := by
  cases isSet : book.byGroup group with
  | none => exact ⟨nofun, nodup_nil, rfl⟩
  | some set => exact wellFiled.sets group set isSet

/-- The vote of a signer that has none is put into its set. -/
theorem WellFiled.insertVote
    (absent : book.byKey (kind.key vote) = none) (inCommittee : kind.key vote ∈ committee.replicas)
    (isVerified : verified vote) :
    WellFiled committee kind verified (book.insertVote committee kind vote) := by
  have ok := wellFiled.setOk (kind.group vote)
  have added := ok.addSigner (wellFiled.members ok) absent inCommittee
  refine ⟨fun other otherVote isVote => ?_, fun other otherVote isVote => ?_,
    fun group set isSet => ?_, fun group set isSet => ?_⟩
  · rcases update_eq_some isVote with ⟨rfl, ⟨⟩⟩ | ⟨_, counts⟩
    · exact ⟨rfl, inCommittee, isVerified⟩
    · exact wellFiled.known other otherVote counts
  · rcases update_eq_some isVote with ⟨rfl, ⟨⟩⟩ | ⟨different, counts⟩
    · exact ⟨_, update_self .., .head _⟩
    · obtain ⟨set, isSet, inSet⟩ := wellFiled.filed other otherVote counts
      rcases eq_or_ne (kind.group otherVote) (kind.group vote) with same | apart
      · rw [same] at isSet ⊢
        refine ⟨_, update_self .., .tail _ ?_⟩
        rw [isSet]
        exact mem_filter.mpr ⟨inSet, decide_eq_true different⟩
      · exact ⟨set, (update_of_ne apart _ _).trans isSet, inSet⟩
  · rcases update_eq_some isSet with ⟨_, ⟨⟩⟩ | ⟨_, old⟩
    · exact cons_ne_nil _ _
    · exact wellFiled.used group set old
  · rcases update_eq_some isSet with ⟨rfl, ⟨⟩⟩ | ⟨_, old⟩
    · exact added
    · have oldOk := wellFiled.sets group set old
      refine oldOk.congr fun entry member => update_of_ne (fun same => ?_) _ _
      have counts := (oldOk.counts entry member).1
      rw [same, absent] at counts
      cases counts

omit [DecidableEq Group] in
theorem WellFiled.updateQC (vote : Vote) :
    WellFiled committee kind verified (book.updateQC committee kind vote) := by
  unfold VoteBook.updateQC
  split
  · exact wellFiled
  · split
    · exact wellFiled
    · split
      · exact wellFiled
      · exact { wellFiled with }

/-! ### One push -/

/-- A vote that is newer than the one of its key takes its place. -/
theorem WellFiled.accept (newer : ∀ old, book.byKey (kind.key vote) = some old →
      (kind.view old).less (kind.view vote) = true)
    (inCommittee : kind.key vote ∈ committee.replicas) (isVerified : verified vote) :
    ∃ filled : VoteBook Group Vote QC, WellFiled committee kind verified filled ∧
      filled.byKey = update book.byKey (kind.key vote) (some vote) ∧
      filled.qc = book.qc ∧
      book.pushVote committee kind vote = filled.updateQC committee kind vote := by
  rw [VoteBook.pushVote]
  cases isOld : book.byKey (kind.key vote) with
  | none => exact ⟨_, wellFiled.insertVote isOld inCommittee isVerified, rfl, rfl, rfl⟩
  | some old =>
    have removed := (wellFiled.removeVote isOld).insertVote (update_self ..) inCommittee isVerified
    rw [insertVote_forget] at removed
    obtain ⟨set, isSet, _⟩ := wellFiled.filed _ old isOld
    refine ⟨_, removed, ?_, ?_, if_pos (newer old isOld)⟩
    all_goals simp only [VoteBook.removeVote, isSet, VoteBook.insertVote]

end

theorem pushVote_of_stale (isOld : book.byKey (kind.key vote) = some old)
    (stale : (kind.view old).less (kind.view vote) = false) :
    book.pushVote committee kind vote = book := by
  rw [VoteBook.pushVote, isOld]
  exact if_neg (Bool.eq_false_iff.mp stale)

omit [DecidableEq Group] in
theorem byKey_updateQC (book : VoteBook Group Vote QC) (vote : Vote) :
    (book.updateQC committee kind vote).byKey = book.byKey := by
  unfold VoteBook.updateQC
  split
  · rfl
  · split
    · rfl
    · split <;> rfl

/-- Verified votes of distinct signers for one thing, of enough weight, make a certificate of
their view that is accepted. -/
def Certifies (committee : Committee) (kind : VoteKind Group Vote QC) (verified : Vote → Prop)
    (accepts : QC → Prop) : Prop :=
  ∀ votes group, votes ≠ [] → (∀ vote ∈ votes, kind.group vote = group ∧ verified vote) →
    (votes.map kind.key).Nodup →
    kind.quorum committee ≤ ((votes.map kind.key).map committee.weight).sum →
    ∃ qc, kind.newQC votes = some qc ∧ accepts qc ∧ ∀ vote ∈ votes, kind.qcView qc = kind.view vote

variable {accepts : QC → Prop}

omit [DecidableEq Group] in
/-- A certificate is published only if it is accepted and newer than the last one. -/
theorem WellFiled.publish (wellFiled : WellFiled committee kind verified book)
    (certifies : Certifies committee kind verified accepts)
    (counts : book.byKey (kind.key vote) = some vote) :
    (book.updateQC committee kind vote).qc = book.qc ∨
    ∃ qc, (book.updateQC committee kind vote).qc = some qc ∧ accepts qc ∧
      ∀ old, book.qc = some old → (kind.qcView old).less (kind.qcView qc) = true := by
  obtain ⟨set, isSet, inSet⟩ := wellFiled.filed _ vote counts
  have ok := wellFiled.sets _ set isSet
  rw [VoteBook.updateQC, isSet]
  dsimp only
  split
  case isTrue => exact .inl rfl
  case isFalse heavy =>
    split
    case isTrue => exact .inl rfl
    case isFalse newer =>
      have keys : (set.votes.map Prod.snd).map kind.key = signers set := by
        rw [map_map]
        exact map_congr_left fun entry member => (wellFiled.known _ _ (ok.counts entry member).1).1
      obtain ⟨qc, made, accepted, view⟩ := certifies (set.votes.map Prod.snd) (kind.group vote)
        (map_eq_nil_iff.not.mpr (wellFiled.used _ set isSet))
        (by
          intro other member
          obtain ⟨entry, inEntries, rfl⟩ := mem_map.mp member
          obtain ⟨entryCounts, isGroup⟩ := ok.counts entry inEntries
          exact ⟨isGroup, (wellFiled.known _ _ entryCounts).2.2⟩)
        (keys ▸ ok.nodup) (by rw [keys, ← ok.weight]; exact not_lt.mp heavy)
      refine .inr ⟨qc, made, accepted, fun old isOld => ?_⟩
      rw [view vote (mem_map_of_mem inSet)]
      simpa [isOld] using newer

/-! ### A whole sequence -/

def pushVotes (committee : Committee) (kind : VoteKind Group Vote QC) (votes : List Vote) :
    VoteBook Group Vote QC :=
  votes.foldl (fun book vote => book.pushVote committee kind vote) (.empty Group Vote QC)

theorem pushVotes_concat (votes : List Vote) (vote : Vote) :
    pushVotes committee kind (votes ++ [vote]) =
      (pushVotes committee kind votes).pushVote committee kind vote := by
  rw [pushVotes, foldl_append]
  rfl

/-- The first vote of the highest view among those of a key. -/
def Newest (kind : VoteKind Group Vote QC) (votes : List Vote) (key : PublicKey) (vote : Vote) :
    Prop :=
  kind.key vote = key ∧ ∃ front rest, votes = front ++ vote :: rest ∧
    (∀ other ∈ front, kind.key other = key → (kind.view other).less (kind.view vote) = true) ∧
    ∀ other ∈ rest, kind.key other = key → (kind.view vote).less (kind.view other) = false

omit [DecidableEq Group] in
theorem Newest.highest {votes : List Vote} (newest : Newest kind votes key vote) {other : Vote}
    (member : other ∈ votes) (sameKey : kind.key other = key) :
    (kind.view vote).less (kind.view other) = false := by
  obtain ⟨_, front, rest, rfl, before, behind⟩ := newest
  rcases mem_append.mp member with inFront | inRest
  · by_contra less
    rw [Bool.not_eq_false] at less
    have self := View.less_trans less (before other inFront sameKey)
    rw [View.not_less_self] at self
    cases self
  · rcases mem_cons.mp inRest with rfl | later
    · exact View.not_less_self _
    · exact behind other later sameKey

omit [DecidableEq Group] in
theorem Newest.concat {votes : List Vote} (newest : Newest kind votes key old)
    (notNewer : kind.key vote = key → (kind.view old).less (kind.view vote) = false) :
    Newest kind (votes ++ [vote]) key old := by
  obtain ⟨isKey, front, rest, rfl, before, behind⟩ := newest
  refine ⟨isKey, front, rest ++ [vote], append_assoc .., before, fun other member => ?_⟩
  rcases mem_append.mp member with inRest | isLast
  · exact behind other inRest
  · rw [mem_singleton.mp isLast]
    exact notNewer

/-- What holds of the book after the votes. -/
structure Holds (committee : Committee) (kind : VoteKind Group Vote QC) (verified : Vote → Prop)
    (accepts : QC → Prop) (votes : List Vote) (book : VoteBook Group Vote QC) : Prop where
  wellFiled : WellFiled committee kind verified book
  newest : ∀ key vote, book.byKey key = some vote → Newest kind votes key vote
  present : ∀ vote ∈ votes, (book.byKey (kind.key vote)).isSome
  published : ∀ qc, book.qc = some qc → accepts qc

/-- The same, and a certificate stays until one with a later view is published. -/
structure Aggregated (committee : Committee) (kind : VoteKind Group Vote QC)
    (verified : Vote → Prop) (accepts : QC → Prop) (votes : List Vote) : Prop extends
    Holds committee kind verified accepts votes (pushVotes committee kind votes) where
  increasing : ∀ front, front <+: votes → ∀ old, (pushVotes committee kind front).qc = some old →
    ∃ qc, (pushVotes committee kind votes).qc = some qc ∧
      (qc = old ∨ (kind.qcView old).less (kind.qcView qc) = true)

variable {votes : List Vote}

/-- One more vote. -/
theorem Holds.pushVote (holds : Holds committee kind verified accepts votes book)
    (certifies : Certifies committee kind verified accepts)
    (inCommittee : kind.key vote ∈ committee.replicas) (isVerified : verified vote) :
    Holds committee kind verified accepts (votes ++ [vote]) (book.pushVote committee kind vote) ∧
    ((book.pushVote committee kind vote).qc = book.qc ∨
      ∃ qc, (book.pushVote committee kind vote).qc = some qc ∧
        ∀ old, book.qc = some old → (kind.qcView old).less (kind.qcView qc) = true) := by
  by_cases stale : ∃ old, book.byKey (kind.key vote) = some old ∧
      (kind.view old).less (kind.view vote) = false
  · obtain ⟨old, isOld, notNewer⟩ := stale
    rw [pushVote_of_stale isOld notNewer]
    refine ⟨⟨holds.wellFiled, fun key counted isCounted => ?_, fun other member => ?_,
      holds.published⟩, .inl rfl⟩
    · refine (holds.newest key counted isCounted).concat fun sameKey => ?_
      rw [← sameKey, isOld] at isCounted
      exact Option.some.inj isCounted ▸ notNewer
    · rcases mem_append.mp member with before | isLast
      · exact holds.present other before
      · rw [mem_singleton.mp isLast, isOld]
        rfl
  · have newer : ∀ old, book.byKey (kind.key vote) = some old →
        (kind.view old).less (kind.view vote) = true := by
      intro old isOld
      by_contra notNewer
      exact stale ⟨old, isOld, Bool.not_eq_true _ ▸ notNewer⟩
    obtain ⟨filled, wellFiled, byKey, sameQC, pushed⟩ :=
      holds.wellFiled.accept newer inCommittee isVerified
    have counts : filled.byKey (kind.key vote) = some vote := by rw [byKey, update_self]
    have published := wellFiled.publish certifies counts
    rw [pushed, ← sameQC]
    refine ⟨⟨wellFiled.updateQC vote, fun key counted isCounted => ?_, fun other member => ?_,
      fun qc isQC => ?_⟩, ?_⟩
    · rw [byKey_updateQC, byKey] at isCounted
      rcases update_eq_some isCounted with ⟨rfl, ⟨⟩⟩ | ⟨different, isOld⟩
      · refine ⟨rfl, votes, [], rfl, fun other member sameKey => ?_, nofun⟩
        obtain ⟨old, isOld⟩ := Option.isSome_iff_exists.mp (holds.present other member)
        rw [sameKey] at isOld
        exact View.less_of_not_less ((holds.newest _ old isOld).highest member sameKey) (newer old isOld)
      · exact (holds.newest key counted isOld).concat fun sameKey => absurd sameKey.symm different
    · rw [byKey_updateQC, byKey, update_apply]
      split
      · rfl
      case isFalse different =>
        refine holds.present other ((mem_append.mp member).resolve_right fun isLast => ?_)
        exact different (by rw [mem_singleton.mp isLast])
    · rcases published with same | ⟨new, isNew, accepted, _⟩
      · rw [same, sameQC] at isQC
        exact holds.published qc isQC
      · rw [isNew, Option.some.injEq] at isQC
        exact isQC ▸ accepted
    · exact published.imp_right fun ⟨qc, isQC, _, later⟩ => ⟨qc, isQC, later⟩

section Run

variable (certifies : Certifies committee kind verified accepts)
  (members : ∀ vote, verified vote → kind.key vote ∈ committee.replicas)

include certifies members

theorem holds_pushVotes (all : ∀ vote ∈ votes, verified vote) :
    Holds committee kind verified accepts votes (pushVotes committee kind votes) := by
  induction votes using List.reverseRecOn with
  | nil => exact ⟨⟨nofun, nofun, nofun, nofun⟩, nofun, nofun, nofun⟩
  | append_singleton votes vote ih =>
    rw [forall_mem_append, forall_mem_singleton] at all
    rw [pushVotes_concat]
    exact ((ih all.1).pushVote certifies (members vote all.2) all.2).1

theorem qc_pushVotes_append {front rest : List Vote} {old : QC}
    (all : ∀ vote ∈ front ++ rest, verified vote)
    (isOld : (pushVotes committee kind front).qc = some old) :
    ∃ qc, (pushVotes committee kind (front ++ rest)).qc = some qc ∧
      (qc = old ∨ (kind.qcView old).less (kind.qcView qc) = true) := by
  induction rest using List.reverseRecOn with
  | nil => exact ⟨old, by rw [append_nil, isOld], .inl rfl⟩
  | append_singleton rest vote ih =>
    rw [← append_assoc, forall_mem_append, forall_mem_singleton] at all
    obtain ⟨qc, isQC, atLeast⟩ := ih all.1
    rw [← append_assoc, pushVotes_concat]
    rcases ((holds_pushVotes certifies members all.1).pushVote certifies (members vote all.2)
      all.2).2 with same | ⟨new, isNew, later⟩
    · exact ⟨qc, same.trans isQC, atLeast⟩
    · refine ⟨new, isNew, .inr ?_⟩
      rcases atLeast with rfl | less
      · exact later qc isQC
      · exact View.less_trans less (later qc isQC)

theorem aggregated (all : ∀ vote ∈ votes, verified vote) :
    Aggregated committee kind verified accepts votes where
  toHolds := holds_pushVotes certifies members all
  increasing := by
    rintro front ⟨rest, rfl⟩ old isOld
    exact qc_pushVotes_append certifies members all isOld

end Run

end VoteBook

/-! ### The three aggregators -/

/-- Valid signatures of distinct signers pass the loop over them with their total weight. -/
theorem verifySigs_of_quorum (nodup : (signerKeys signed).Nodup)
    (valid : ∀ entry ∈ signed, verifySig crypto committee entry.1 entry.2 = .ok ())
    (heavy : quorum ≤ ((signerKeys signed).map committee.weight).sum) :
    ∃ weight, verifySigs crypto committee duplicate signed [] 0 = .ok weight ∧ quorum ≤ weight := by
  have fits : ((signerKeys signed).map committee.weight).sum < 2 ^ 64 := by
    refine committee.sum_weight_lt nodup fun key member => mem_toFinset.mpr ?_
    obtain ⟨entry, inSigned, rfl⟩ := mem_map.mp (mem_toFinset.mp member)
    exact (verifySig_eq_ok.mp (valid entry inSigned)).1
  refine ⟨_, verifySigs_of_valid nodup (fun _ _ => not_mem_nil) valid ?_, ?_⟩
  · rwa [zero_add]
  · rwa [zero_add]

/-- The votes of one hash verify as a certificate for the message of the first. -/
theorem verifyQC_of_votes {Message : Type} (asMsg : Message → Msg) {group : Digest}
    {first : Signed Message Sig} {votes : List (Signed Message Sig)} (isFirst : first ∈ votes)
    (verified : ∀ vote ∈ votes, crypto.hash (asMsg vote.msg) = group ∧
      verifySig crypto committee (asMsg vote.msg) vote.sig = .ok ())
    (nodup : (votes.map (·.sig.key)).Nodup)
    (heavy : quorum ≤ ((votes.map (·.sig.key)).map committee.weight).sum) :
    (signerKeys ((votes.map (·.sig)).map fun sig => (asMsg first.msg, sig))).Nodup ∧
      verifyQC crypto committee quorum (asMsg first.msg) (votes.map (·.sig)) = .ok () := by
  have signers : signerKeys ((votes.map (·.sig)).map fun sig => (asMsg first.msg, sig)) =
      votes.map (·.sig.key) := by
    rw [signerKeys, map_map, map_map]
    rfl
  rw [← signers] at nodup heavy
  have valid : ∀ entry ∈ (votes.map (·.sig)).map fun sig => (asMsg first.msg, sig),
      verifySig crypto committee entry.1 entry.2 = .ok () := by
    intro entry member
    obtain ⟨sig, isSig, rfl⟩ := mem_map.mp member
    obtain ⟨vote, inVotes, rfl⟩ := mem_map.mp isSig
    obtain ⟨isGroup, isVerified⟩ := verified vote inVotes
    rwa [crypto.hash_injective (isGroup.trans (verified first isFirst).1.symm)] at isVerified
  obtain ⟨weight, summed, enough⟩ := verifySigs_of_quorum nodup valid heavy
  exact ⟨nodup, exceptBind_eq_ok.mpr ⟨weight, summed, ensure_eq_ok.mpr enough⟩⟩

def PrepareQC.Signed (crypto : Crypto Digest Sig) (committee : Committee) (qc : PrepareQC Sig) :
    Prop :=
  (signerKeys qc.signed).Nodup ∧
    verifyQC crypto committee committee.prepareQuorum (.prepareVote qc.vote) qc.sigs = .ok ()

def CommitQC.Signed (crypto : Crypto Digest Sig) (committee : Committee) (qc : CommitQC Sig) :
    Prop :=
  (signerKeys qc.signed).Nodup ∧
    verifyQC crypto committee committee.commitQuorum (.commitVote qc.vote) qc.sigs = .ok ()

/-- The votes of a timeout certificate are of its view and pass the loop over their signatures. -/
def TimeoutQC.Signed (crypto : Crypto Digest Sig) (committee : Committee) (qc : TimeoutQC Sig) :
    Prop :=
  (signerKeys qc.signed).Nodup ∧ (∀ vote ∈ qc.votes, vote.msg.view = qc.view) ∧
    ∃ weight, verifySigs crypto committee .duplicateVote qc.signed [] 0 = .ok weight ∧
      committee.timeoutQuorum ≤ weight

theorem prepareVotes_certify : VoteBook.Certifies committee (prepareVoteKind crypto)
    (fun vote => verifySig crypto committee (.prepareVote vote.msg) vote.sig = .ok ())
    (PrepareQC.Signed crypto committee) := by
  intro votes group some verified nodup heavy
  obtain ⟨first, rest, rfl⟩ := exists_cons_of_ne_nil some
  refine ⟨_, rfl, verifyQC_of_votes .prepareVote mem_cons_self verified nodup heavy,
    fun vote member => ?_⟩
  have same := crypto.hash_injective
    ((verified vote member).1.trans (verified first mem_cons_self).1.symm)
  exact congrArg (·.proposal.view) (Msg.prepareVote.inj same).symm

theorem commitVotes_certify : VoteBook.Certifies committee (commitVoteKind crypto)
    (fun vote => verifySig crypto committee (.commitVote vote.msg) vote.sig = .ok ())
    (CommitQC.Signed crypto committee) := by
  intro votes group some verified nodup heavy
  obtain ⟨first, rest, rfl⟩ := exists_cons_of_ne_nil some
  refine ⟨_, rfl, verifyQC_of_votes .commitVote mem_cons_self verified nodup heavy,
    fun vote member => ?_⟩
  have same := crypto.hash_injective
    ((verified vote member).1.trans (verified first mem_cons_self).1.symm)
  exact congrArg (·.proposal.view) (Msg.commitVote.inj same).symm

theorem timeoutVotes_certify : VoteBook.Certifies committee timeoutVoteKind
    (fun vote => verifySig crypto committee (.timeoutVote vote.vote.msg) vote.vote.sig = .ok ())
    (TimeoutQC.Signed crypto committee) := by
  intro votes group some verified nodup heavy
  obtain ⟨first, rest, rfl⟩ := exists_cons_of_ne_nil some
  have sameView : ∀ vote ∈ first :: rest, first.view = vote.view := fun vote member =>
    (verified first mem_cons_self).1.trans (verified vote member).1.symm
  let qc : TimeoutQC Sig :=
    ⟨first.vote, rest.map (·.vote), (first :: rest).foldl keepLatestPrepareQC none⟩
  have signed : qc.signed =
      (first :: rest).map fun vote => (.timeoutVote vote.vote.msg, vote.vote.sig) := by
    change ((first :: rest).map (·.vote)).map _ = _
    rw [map_map]
    rfl
  have signers : signerKeys qc.signed = (first :: rest).map timeoutVoteKind.key := by
    rw [signed, signerKeys, map_map]
    rfl
  rw [← signers] at nodup heavy
  refine ⟨qc, rfl, ⟨nodup, fun vote member => ?_, verifySigs_of_quorum nodup ?_ heavy⟩, sameView⟩
  · obtain ⟨full, isFull, rfl⟩ := mem_map.mp (show vote ∈ (first :: rest).map (·.vote) from member)
    exact (sameView full isFull).symm
  · intro entry member
    rw [signed] at member
    obtain ⟨vote, inVotes, rfl⟩ := mem_map.mp member
    exact (verified vote inVotes).2

/-- Over any sequence of verified votes the three aggregators count each signer once, with the
first vote of its highest view, and publish accepted certificates of increasing views. -/
theorem votes_aggregated [DecidableEq Digest] (crypto : Crypto Digest Sig) (committee : Committee) :
    (∀ votes : List (Signed PrepareVote Sig),
      (∀ vote ∈ votes, verifySig crypto committee (.prepareVote vote.msg) vote.sig = .ok ()) →
      VoteBook.Aggregated committee (prepareVoteKind crypto)
        (fun vote => verifySig crypto committee (.prepareVote vote.msg) vote.sig = .ok ())
        (PrepareQC.Signed crypto committee) votes) ∧
    (∀ votes : List (Signed CommitVote Sig),
      (∀ vote ∈ votes, verifySig crypto committee (.commitVote vote.msg) vote.sig = .ok ()) →
      VoteBook.Aggregated committee (commitVoteKind crypto)
        (fun vote => verifySig crypto committee (.commitVote vote.msg) vote.sig = .ok ())
        (CommitQC.Signed crypto committee) votes) ∧
    (∀ votes : List (FullTimeoutVote Sig),
      (∀ vote ∈ votes,
        verifySig crypto committee (.timeoutVote vote.vote.msg) vote.vote.sig = .ok ()) →
      VoteBook.Aggregated committee timeoutVoteKind
        (fun vote =>
          verifySig crypto committee (.timeoutVote vote.vote.msg) vote.vote.sig = .ok ())
        (TimeoutQC.Signed crypto committee) votes) := by
  have member {msg : Msg} {sig : Signature Sig}
      (verified : verifySig crypto committee msg sig = .ok ()) : sig.key ∈ committee.replicas :=
    (verifySig_eq_ok.mp verified).1
  exact ⟨fun _ => VoteBook.aggregated prepareVotes_certify fun _ => member,
    fun _ => VoteBook.aggregated commitVotes_certify fun _ => member,
    fun _ => VoteBook.aggregated timeoutVotes_certify fun _ => member⟩

/-- A quorum of four replicas gives a view up, and then one of them gives the next view up. -/
def fourTimeoutVotes : List (FullTimeoutVote Bool) :=
  [(1, 0), (2, 0), (3, 0), (1, 1)].map fun (key, number) =>
    { vote := { msg := { view := ⟨0, number, 0⟩, latestPrepareQC := none }, sig := ⟨key, true⟩ }
      latestPrepareQC := none }

theorem votes_aggregated_four :
    (VoteBook.pushVotes fourCommittee timeoutVoteKind fourTimeoutVotes).qc.isSome ∧
    VoteBook.Aggregated fourCommittee timeoutVoteKind
      (fun vote =>
        verifySig openCrypto fourCommittee (.timeoutVote vote.vote.msg) vote.vote.sig = .ok ())
      (TimeoutQC.Signed openCrypto fourCommittee) fourTimeoutVotes :=
  ⟨by decide, (votes_aggregated openCrypto fourCommittee).2.2 fourTimeoutVotes (by decide)⟩

end SeiChain.Autobahn
