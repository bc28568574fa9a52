/-
This file proves that the check of a certificate with headers is safe and what it
establishes. The loop computes its indices from lengths of ranges that the sender
chooses. The checks made before bound every length and tie their sum to the number of
headers, so no index is out of range, and an accepted certificate has, lane after
lane, one run of headers that are linked by their hashes.
-/

import SeiChain.Autobahn.FullCommitQC
import SeiChain.Autobahn.TimeoutReports

namespace SeiChain.Autobahn

open List Proposal

variable {Digest Sig : Type} {crypto : Crypto Digest Sig}

/-! ### The lengths of the ranges -/

variable {proposal : Proposal} {epoch : Epoch}

theorem Proposal.verify_ranges (verified : proposal.verify epoch = .ok ()) {range : LaneRange}
    (member : range ∈ proposal.laneRanges.ranges) :
    range.len ≤ maxLaneRangeInProposal ∧ range.lane ∈ epoch.committee.lanes ∧
      range.first ≤ range.next := by
  simp only [verify, LaneRange.verify, check_bind_eq_ok, ensure_eq_ok, inPart_eq_ok,
    checkAll_eq_ok] at verified
  obtain ⟨short, isLane, ordered, _⟩ := verified.2.2 range member
  exact ⟨short, of_decide_eq_true isLane, ordered⟩

theorem LaneRangeMap.nodup (map : LaneRangeMap) : (map.ranges.map LaneRange.lane).Nodup :=
  (pairwise_map.mpr map.sorted).imp ne_of_lt

theorem LaneRangeMap.mem_of_get {map : LaneRangeMap} {lane : LaneID} {range : LaneRange}
    (found : map.get lane = some range) : range ∈ map.ranges ∧ range.lane = lane := by
  have sameLane := find?_some found
  rw [decide_eq_true_iff] at sameLane
  exact ⟨mem_of_find?_eq_some found, sameLane⟩

/-- A map has one range for each of its lanes. -/
theorem Proposal.laneRange_of_mem {range : LaneRange}
    (member : range ∈ proposal.laneRanges.ranges) : proposal.laneRange range.lane = range := by
  have found : (proposal.laneRanges.get range.lane).isSome := by
    rw [LaneRangeMap.get, find?_isSome]
    exact ⟨range, member, decide_eq_true rfl⟩
  obtain ⟨other, isOther⟩ := Option.isSome_iff_exists.mp found
  obtain ⟨inRanges, sameLane⟩ := LaneRangeMap.mem_of_get isOther
  rw [laneRange, isOther]
  exact inj_on_of_nodup_map proposal.laneRanges.nodup inRanges member sameLane

theorem Proposal.len_laneRange_of_notMem {lane : LaneID}
    (absent : lane ∉ proposal.laneRanges.ranges.map LaneRange.lane) :
    (proposal.laneRange lane).len = 0 := by
  have missing : proposal.laneRanges.get lane = none := by
    rw [LaneRangeMap.get, find?_eq_none]
    exact fun range member same => absent (of_decide_eq_true same ▸ mem_map_of_mem member)
  simp [laneRange, missing, LaneRange.empty, LaneRange.len, sub64]

section

variable (verified : proposal.verify epoch = .ok ())

include verified

/-- The lanes of the committee have all blocks of a proposal that verifies. -/
theorem Proposal.sum_laneRanges :
    (epoch.committee.lanes.map fun lane => (proposal.laneRange lane).len).sum =
      (proposal.laneRanges.ranges.map LaneRange.len).sum := by
  have byLane : proposal.laneRanges.ranges.map LaneRange.len =
      (proposal.laneRanges.ranges.map LaneRange.lane).map fun lane =>
        (proposal.laneRange lane).len := by
    rw [map_map]
    refine map_congr_left fun range member => ?_
    rw [Function.comp_apply, laneRange_of_mem member]
  rw [byLane, Committee.lanes, ← sum_toFinset _ epoch.committee.nodup,
    ← sum_toFinset _ proposal.laneRanges.nodup]
  refine (Finset.sum_subset (fun lane member => ?_) fun lane _ absent => ?_).symm
  · obtain ⟨range, inRanges, rfl⟩ := mem_map.mp (mem_toFinset.mp member)
    exact mem_toFinset.mpr (verify_ranges verified inRanges).2.1
  · exact len_laneRange_of_notMem fun isLane => absent (mem_toFinset.mpr isLane)

omit verified in
theorem foldl_add64 (ranges : List LaneRange) (start : Nat) :
    ranges.foldl (fun next range => add64 next range.len) start % 2 ^ 64 =
      (start + (ranges.map LaneRange.len).sum) % 2 ^ 64 := by
  induction ranges generalizing start with
  | nil => rfl
  | cons range rest ih =>
    rw [foldl_cons, ih, map_cons, sum_cons, add64, Nat.mod_add_mod, add_assoc]

theorem Proposal.sum_len_le : (proposal.laneRanges.ranges.map LaneRange.len).sum ≤ 1000 := by
  have short : ∀ len ∈ proposal.laneRanges.ranges.map LaneRange.len,
      len ≤ maxLaneRangeInProposal := by
    intro len member
    obtain ⟨range, inRanges, rfl⟩ := mem_map.mp member
    exact (verify_ranges verified inRanges).1
  have few : proposal.laneRanges.ranges.length ≤ epoch.committee.lanes.length := by
    have sub := proposal.laneRanges.nodup.subperm fun lane member => by
      obtain ⟨range, inRanges, rfl⟩ := mem_map.mp member
      exact (verify_ranges verified inRanges).2.1
    simpa using sub.length_le
  have total := sum_le_card_nsmul _ _ short
  rw [length_map, nsmul_eq_mul, Nat.cast_id] at total
  have most : epoch.committee.lanes.length ≤ maxValidators := epoch.committee.few
  simp only [maxLaneRangeInProposal, maxValidators] at total most
  omega

/-- The sum of the lengths does not wrap. -/
theorem Proposal.len_globalRange (decoded : proposal.globalFirst < 2 ^ 64) :
    proposal.globalRange.len = (proposal.laneRanges.ranges.map LaneRange.len).sum := by
  have next := foldl_add64 proposal.laneRanges.ranges proposal.globalFirst
  have few := sum_len_le verified
  rw [GlobalRange.len, globalRange, sub64]
  lia

end

/-! ### The runs of the lanes -/

/-- Headers of which each is the parent of the next one and the last hashes to `lastHash`. -/
def IsRun (crypto : Crypto Digest Sig) (lastHash : BlockHeaderHash) (run : List BlockHeader) :
    Prop :=
  run.IsChain (fun header child => crypto.headerHash header = child.parentHash) ∧
    ∀ header ∈ run.getLast?, crypto.headerHash header = lastHash

theorem IsRun.nil (lastHash : BlockHeaderHash) : IsRun crypto lastHash [] := ⟨.nil, nofun⟩

theorem IsRun.concat {run : List BlockHeader} {header : BlockHeader}
    (isRun : IsRun crypto header.parentHash run) :
    IsRun crypto (crypto.headerHash header) (run ++ [header]) := by
  refine ⟨isChain_append.mpr ⟨isRun.1, .singleton _, ?_⟩, ?_⟩
  · intro before isLast child isHead
    obtain rfl : header = child := by simpa using isHead
    exact isRun.2 before isLast
  · intro last isLast
    obtain rfl : header = last := by simpa using isLast
    rfl

theorem take_drop_concat {α : Type} {items : List α} {count next : Nat} {item : α}
    (few : count + 1 ≤ next) (last : items[next - 1]? = some item) :
    (items.drop (next - (count + 1))).take (count + 1) =
      (items.drop (next - 1 - count)).take count ++ [item] := by
  have start : next - (count + 1) = next - 1 - count := by omega
  have final : next - 1 - count + count = next - 1 := by omega
  rw [start, take_add_one, getElem?_drop, final, last, Option.toList_some]

/-- The loop goes back from the header before `next - i`, stays inside the headers and
accepts only a run. -/
theorem verifyHeaders_spec {headers : List BlockHeader} {next : Nat}
    (inside : next ≤ headers.length) (small : headers.length < 2 ^ 64) (count i : Nat)
    (want : BlockHeaderHash) (few : count + i ≤ next) :
    (∀ index, verifyHeaders crypto headers next (List.range' i count) want ≠
      .error (.headerOutOfRange index)) ∧
    (verifyHeaders crypto headers next (List.range' i count) want = .ok () →
      IsRun crypto want ((headers.drop (next - i - count)).take count)) := by
  induction count generalizing i want with
  | zero => exact ⟨nofun, fun _ => .nil want⟩
  | succ count ih =>
    have back : sub64 next i = next - i := sub64_of_le (by omega) (by omega)
    have index : sub64 (sub64 next i) 1 = next - i - 1 := by
      rw [back, sub64_of_le (by omega) (by omega)]
    have bound : next - i - 1 < headers.length := by lia
    have found := getElem?_eq_getElem bound
    have tail := ih (i + 1) headers[next - i - 1].parentHash (by lia)
    rw [range'_succ, verifyHeaders, index, found]
    dsimp only
    by_cases isWanted : crypto.headerHash headers[next - i - 1] = want
    · rw [isWanted, ensure, if_pos rfl]
      refine ⟨tail.1, fun accepted => ?_⟩
      rw [take_drop_concat (by lia) found, ← isWanted]
      exact (tail.2 accepted).concat
    · rw [ensure, if_neg isWanted]
      exact ⟨nofun, nofun⟩

theorem verifyLanes_spec {full : FullCommitQC Sig} (small : full.headers.length < 2 ^ 64)
    (lanes : List LaneID) (next : Nat)
    (inside : next + (lanes.map fun lane => (full.qc.laneRange lane).len).sum ≤
      full.headers.length) :
    (∀ index, verifyLanes crypto full lanes next ≠ .error (.headerOutOfRange index)) ∧
    (verifyLanes crypto full lanes next = .ok () → ∃ runs : List (List BlockHeader),
      runs.flatten = (full.headers.drop next).take
        (lanes.map fun lane => (full.qc.laneRange lane).len).sum ∧
      List.Forall₂ (fun lane run => run.length = (full.qc.laneRange lane).len ∧
        IsRun crypto (full.qc.laneRange lane).lastHash run) lanes runs) := by
  induction lanes generalizing next with
  | nil => exact ⟨nofun, fun _ => ⟨[], by simp, .nil⟩⟩
  | cons lane rest ih =>
    rw [map_cons, sum_cons] at inside ⊢
    rw [verifyLanes]
    generalize lenEq : (full.qc.laneRange lane).len = len at inside ⊢
    have tail := ih (next + len) (by omega)
    split
    case isTrue empty =>
      subst empty
      refine ⟨tail.1, fun accepted => ?_⟩
      obtain ⟨runs, flat, each⟩ := tail.2 accepted
      refine ⟨[] :: runs, ?_, .cons ⟨lenEq.symm, .nil _⟩ each⟩
      rw [flatten_cons, nil_append, flat, add_zero, zero_add]
    case isFalse =>
      have added : add64 next len = next + len := Nat.mod_eq_of_lt (by omega)
      have run := @verifyHeaders_spec _ _ crypto full.headers (next + len) (by omega) small len 0
        (full.qc.laneRange lane).lastHash (by omega)
      rw [added, range_eq_range']
      cases checked : verifyHeaders crypto full.headers (next + len) (List.range' 0 len)
        (full.qc.laneRange lane).lastHash with
      | error error =>
        exact ⟨fun index failed => run.1 index (checked.trans failed), nofun⟩
      | ok =>
        refine ⟨tail.1, fun accepted => ?_⟩
        obtain ⟨runs, flat, each⟩ := tail.2 accepted
        have isRun := run.2 checked
        rw [Nat.sub_zero, Nat.add_sub_cancel] at isRun
        refine ⟨(full.headers.drop next).take len :: runs, ?_, .cons ⟨?_, isRun⟩ each⟩
        · rw [flatten_cons, flat, ← drop_drop, ← take_add]
        · rw [length_take, length_drop]
          omega

/-! ### Accepted certificates -/

/-- The headers of `full` split into one run for every lane, in the order of the lanes. -/
def HasRuns (crypto : Crypto Digest Sig) (full : FullCommitQC Sig) (lanes : List LaneID) : Prop :=
  ∃ runs : List (List BlockHeader), runs.flatten = full.headers ∧
    List.Forall₂ (fun lane run => run.length = (full.qc.laneRange lane).len ∧
      IsRun crypto (full.qc.laneRange lane).lastHash run) lanes runs

/-- `Verify` reads no header that is absent, for any ranges and any number of headers, and
what it accepts are the runs of the lanes over the whole global range. -/
theorem fullCommitQC_verify_sound (crypto : Crypto Digest Sig) (epoch : Epoch)
    (full : FullCommitQC Sig) (decoded : full.qc.proposal.globalFirst < 2 ^ 64) :
    (∀ index, full.verify crypto epoch ≠ .error (.headerOutOfRange index)) ∧
    (full.verify crypto epoch = .ok () →
      HasRuns crypto full epoch.committee.lanes ∧ full.headers.length = full.globalRange.len) := by
  unfold FullCommitQC.verify
  cases signed : full.qc.verify crypto epoch with
  | error error => exact ⟨nofun, nofun⟩
  | ok =>
    have proposed : full.qc.proposal.verify epoch = .ok () := by
      simp only [CommitQC.verify, check_bind_eq_ok] at signed
      exact signed.1
    by_cases sameLength : wrapInt64 full.globalRange.len = full.headers.length
    · obtain ⟨length, small⟩ := FullCommitQC.length_of_wrapInt64 sameLength
      have total : (epoch.committee.lanes.map fun lane => (full.qc.laneRange lane).len).sum =
          full.headers.length :=
        (sum_laneRanges proposed).trans ((len_globalRange proposed decoded).symm.trans length.symm)
      have lanes := @verifyLanes_spec _ _ crypto full (by omega) epoch.committee.lanes 0 (by omega)
      rw [total, drop_zero, take_length] at lanes
      rw [ensure, if_pos sameLength]
      exact ⟨lanes.1, fun accepted => ⟨lanes.2 accepted, length⟩⟩
    · rw [ensure, if_neg sameLength]
      exact ⟨nofun, nofun⟩

/-- A certificate of the committee of four for two blocks of the first lane and one of the
third. -/
def twoLanesQC : FullCommitQC Bool where
  qc := {
    vote := ⟨newProposal { index := 0, number := 0, epochIndex := 0 } 0
      [{ lane := 1, first := 0, next := 2, lastHash := 2 },
        { lane := 3, first := 5, next := 6, lastHash := 6 }] none 0⟩
    sigs := threeSignatures }
  headers := [{ lane := 1, blockNumber := 0, parentHash := 0, payloadHash := 0 },
    { lane := 1, blockNumber := 1, parentHash := 1, payloadHash := 0 },
    { lane := 3, blockNumber := 5, parentHash := 5, payloadHash := 0 }]

theorem fullCommitQC_verify_sound_twoLanes :
    twoLanesQC.verify openCrypto (genesisEpoch fourCommittee 0 0) = .ok () ∧
    HasRuns openCrypto twoLanesQC [1, 2, 3, 4] ∧ twoLanesQC.globalRange.len = 3 := by
  have verified : twoLanesQC.verify openCrypto (genesisEpoch fourCommittee 0 0) = .ok () := by
    decide +kernel
  obtain ⟨runs, length⟩ := (fullCommitQC_verify_sound openCrypto (genesisEpoch fourCommittee 0 0)
    twoLanesQC (by decide)).2 verified
  exact ⟨verified, runs, length.symm⟩

end SeiChain.Autobahn
