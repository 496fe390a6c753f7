/-
# The commit index of a leader

`advance_commit_locked` sorts what the nodes hold and looks at ONE of the indices: the one that is as far
from the end as a quorum is large. That index is the greatest one that a quorum holds
(`commitCandidate_greatest`), for odd and for even clusters. And one look is enough: the terms of a log
never fall and none is above the leader's, so if the entry there is not of the leader's term, then no
entry below it that is not committed is either (`LeaderLog.termAt_of_le`).
-/
import NebulaKV.Raft.Compaction
import NebulaKV.Raft.RetainedLog

namespace NebulaKV.Raft.RaftNode

open Effects Program Consensus

variable {σ : Type} {node : RaftNode σ}

/-- `advance_commit_locked`: the commit index is set, and whether it was. -/
def advanceCommitLocked : Locked σ Bool := do
  let node ← Program.read
  match node.advanceCommit with
  | none => return false
  | some candidate => do
    Program.update fun node =>
      { node with hardState := { node.hardState with commitIndex := candidate } }
    return true

/-! ## The greatest index that a quorum holds -/

/-- As many nodes as make a quorum hold the index: the leader up to its last one, a peer up to what it
has acknowledged. -/
def OnQuorum (node : RaftNode σ) (index : Nat) : Prop :=
  node.quorumSize ≤ (node.replicated.filter (index ≤ ·)).length

instance (node : RaftNode σ) (index : Nat) : Decidable (node.OnQuorum index) :=
  inferInstanceAs (Decidable (_ ≤ _))

theorem length_replicated (node : RaftNode σ) :
    node.replicated.length = node.options.peers.length + 1 := by
  simp [replicated]

theorem quorumSize_pos (node : RaftNode σ) : 0 < node.quorumSize := Nat.succ_pos _

theorem quorumSize_le (node : RaftNode σ) : node.quorumSize ≤ node.replicated.length := by
  rw [length_replicated]
  unfold quorumSize
  omega

/-- The position is inside the vector. -/
theorem commitCandidate_at (node : RaftNode σ) :
    (node.replicated.insertionSort (· ≤ ·))[node.replicated.length - node.quorumSize]? =
      some node.commitCandidate := by
  have hpos := node.quorumSize_pos
  have hle := node.quorumSize_le
  have hlt : node.replicated.length - node.quorumSize <
      (node.replicated.insertionSort (· ≤ ·)).length := by
    rw [List.length_insertionSort]
    omega
  unfold commitCandidate
  rw [List.getElem?_eq_getElem hlt]
  rfl

theorem commitCandidate_greatest (node : RaftNode σ) :
    IsGreatest {index | node.OnQuorum index} node.commitCandidate := by
  constructor
  · exact le_count_of_sorted node.quorumSize_le node.commitCandidate_at
  · intro index hindex
    by_contra hgreater
    have hfew := count_lt_of_sorted node.quorumSize_pos node.quorumSize_le node.commitCandidate_at
      (not_le.mp hgreater)
    exact absurd hindex (not_le.mpr hfew)

theorem commitCandidate_le (hmatch : ∀ peer ∈ node.options.peers,
    (node.matchIndex.find? peer.id).getD 0 ≤ node.lastLogIndex) :
    node.commitCandidate ≤ node.lastLogIndex := by
  have hmem : node.commitCandidate ∈ node.replicated :=
    (List.mem_insertionSort (· ≤ ·)).mp (List.mem_of_getElem? node.commitCandidate_at)
  rcases List.mem_cons.mp hmem with hown | hpeer
  · exact hown.le
  · obtain ⟨peer, hp, hvalue⟩ := List.mem_map.mp hpeer
    rw [← hvalue]
    exact hmatch peer hp

/-! ## Terms along a log -/

/-- **The log of a leader**: entries behind the snapshot without a gap, the terms never fall, and none
is above the current one. -/
structure LeaderLog (node : RaftNode σ) : Prop where
  retained : Retained (snapshotIndex node.snapshot) node.log
  sorted : node.log.Pairwise fun earlier later => earlier.term ≤ later.term
  behind : ∀ s, node.snapshot = some s → ∀ entry ∈ node.log, s.lastIncludedTerm ≤ entry.term
  current : ∀ entry ∈ node.log, entry.term ≤ node.hardState.currentTerm

theorem termAt_snapshotIndex {index : Nat} (hpos : 0 < index)
    (heq : index = snapshotIndex node.snapshot) :
    ∃ s, node.snapshot = some s ∧ node.termAt index = some s.lastIncludedTerm := by
  cases hs : node.snapshot with
  | none =>
    rw [hs] at heq
    exact absurd heq hpos.ne'
  | some s =>
    rw [hs] at heq
    refine ⟨s, rfl, ?_⟩
    unfold termAt
    rw [if_neg hpos.ne', hs]
    exact if_pos heq

/-- Behind an entry of the current term there are only such entries. -/
theorem LeaderLog.termAt_of_le (h : node.LeaderLog) {index later : Nat} (hpos : 0 < index)
    (hle : index ≤ later) (hlast : later ≤ node.lastLogIndex)
    (hterm : node.termAt index = some node.hardState.currentTerm) :
    node.termAt later = some node.hardState.currentTerm := by
  rcases Nat.eq_or_lt_of_le hle with rfl | hlt
  · exact hterm
  by_cases hswallowed : index < snapshotIndex node.snapshot
  · rw [termAt_covered hpos hswallowed] at hterm
    cases hterm
  have habove : snapshotIndex node.snapshot < later := by omega
  have hlength := h.retained.lastLogIndex_eq
  obtain ⟨entry, hentry⟩ : ∃ entry,
      node.log[later - snapshotIndex node.snapshot - 1]? = some entry :=
    ⟨_, List.getElem?_eq_getElem (by omega)⟩
  have hmem := List.mem_of_getElem? hentry
  rw [h.retained.termAt_above habove, hentry, Option.map_some, Option.some.injEq]
  refine le_antisymm (h.current entry hmem) ?_
  rcases Nat.eq_or_lt_of_le (not_lt.mp hswallowed) with heq | hretained
  · -- the snapshot ends with an entry of the current term
    obtain ⟨s, hs, hsterm⟩ := termAt_snapshotIndex hpos heq.symm
    rw [hsterm, Option.some.injEq] at hterm
    rw [← hterm]
    exact h.behind s hs entry hmem
  · rw [h.retained.termAt_above hretained] at hterm
    obtain ⟨first, hfirst, hcurrent⟩ := Option.map_eq_some_iff.mp hterm
    obtain ⟨hfirstlt, rfl⟩ := List.getElem?_eq_some_iff.mp hfirst
    obtain ⟨hentrylt, rfl⟩ := List.getElem?_eq_some_iff.mp hentry
    rw [← hcurrent]
    exact List.pairwise_iff_getElem.mp h.sorted _ _ hfirstlt hentrylt (by omega)

/-! ## Advancing -/

/-- The index that the leader may commit: the greatest one on a quorum, if it is new and of the leader's
term. -/
def Committable (node : RaftNode σ) (index : Nat) : Prop :=
  IsGreatest {i | node.OnQuorum i} index ∧ node.hardState.commitIndex < index ∧
    node.termAt index = some node.hardState.currentTerm

theorem advanceCommit_eq_some {index : Nat} :
    node.advanceCommit = some index ↔ node.Committable index := by
  unfold advanceCommit Committable
  constructor
  · intro h
    split_ifs at h with hbehind hterm
    obtain rfl := Option.some.inj h
    exact ⟨node.commitCandidate_greatest, not_le.mp hbehind, hterm⟩
  · rintro ⟨hgreatest, hnew, hterm⟩
    obtain rfl := hgreatest.unique node.commitCandidate_greatest
    rw [if_neg (not_le.mpr hnew), if_pos hterm]

theorem advanceCommitLocked_apply (node : RaftNode σ) :
    advanceCommitLocked node = match node.advanceCommit with
      | none => (.ok false, node)
      | some candidate => (.ok true,
          { node with hardState := { node.hardState with commitIndex := candidate } }) := by
  unfold advanceCommitLocked
  rw [read_bind_apply]
  cases node.advanceCommit <;> rfl

/-- **The commit index advances exactly as it may.** -/
theorem advance_commit_exact (hlog : node.LeaderLog)
    (hmatch : ∀ peer ∈ node.options.peers,
      (node.matchIndex.find? peer.id).getD 0 ≤ node.lastLogIndex) :
    (∀ index, advanceCommitLocked node = (.ok true,
        { node with hardState := { node.hardState with commitIndex := index } }) ↔
      node.Committable index) ∧
    ((∀ index, ¬ node.Committable index) →
      advanceCommitLocked node = (.ok false, node) ∧
      ∀ index, node.hardState.commitIndex < index →
        node.termAt index = some node.hardState.currentTerm → ¬ node.OnQuorum index) := by
  constructor
  · intro index
    rw [advanceCommitLocked_apply, ← advanceCommit_eq_some]
    cases hadvance : node.advanceCommit with
    | none =>
      constructor
      · intro h
        cases (Prod.mk.inj h).1
      · intro h
        cases h
    | some candidate =>
      constructor
      · intro h
        have hcommit := congrArg (fun n => n.hardState.commitIndex) (Prod.mk.inj h).2
        exact congrArg some hcommit
      · intro h
        rw [Option.some.inj h]
  · intro hnone
    have hadvance : node.advanceCommit = none := by
      cases hadvance : node.advanceCommit with
      | none => rfl
      | some candidate => exact absurd (advanceCommit_eq_some.mp hadvance) (hnone candidate)
    refine ⟨by rw [advanceCommitLocked_apply, hadvance], ?_⟩
    intro index hnew hterm hquorum
    -- the candidate lies behind the index, so it would have been committable
    have hle := node.commitCandidate_greatest.2 hquorum
    refine hnone node.commitCandidate ⟨node.commitCandidate_greatest, by omega, ?_⟩
    exact hlog.termAt_of_le (by omega) hle (commitCandidate_le hmatch) hterm

/-- The leader of a cluster of three in its second term: one peer has its log, the other has not
answered. -/
def leadingNode : RaftNode Unit :=
  { loaded ⟨[1], [⟨[2], [2]⟩, ⟨[3], [3]⟩], 300, 600, 75, 200, 128, 10000⟩
      ⟨⟨2, [1], 0, 0⟩, [⟨1, 1, {}⟩, ⟨2, 2, {}⟩], none⟩ () with
    role := .Leader
    matchIndex := Containers.OrderedMap.empty.insert [2] 2 }

theorem leadingNode_log : leadingNode.LeaderLog where
  retained := by
    intro i entry hentry
    match i with
    | 0 => cases hentry; decide
    | 1 => cases hentry; decide
    | i + 2 => cases hentry
  sorted := by decide
  behind := fun s hs => by cases hs
  current := by decide

theorem advance_commit_exact_three : leadingNode.LeaderLog ∧
    (∀ peer ∈ leadingNode.options.peers,
      (leadingNode.matchIndex.find? peer.id).getD 0 ≤ leadingNode.lastLogIndex) ∧
    leadingNode.Committable 2 := by
  have hmatch : ∀ peer ∈ leadingNode.options.peers,
      (leadingNode.matchIndex.find? peer.id).getD 0 ≤ leadingNode.lastLogIndex := by decide
  have hexact := advance_commit_exact leadingNode_log hmatch
  exact ⟨leadingNode_log, hmatch, (hexact.1 2).mp rfl⟩

end NebulaKV.Raft.RaftNode
