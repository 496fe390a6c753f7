/-
# Installing a snapshot over applied entries

`handle_install_snapshot` resets the state machine to the snapshot, and then takes the MAXIMUM of the
snapshot's index and the node's own `last_applied`. A follower that had applied more than the snapshot
holds keeps its `last_applied`, so the entries in between are neither in the map any more nor ever
applied again.

Here the machine is the key-value machine and the node's map is the replay of the committed entries it
has applied. The map is again such a replay after the call exactly when the snapshot was not newer than
the node's own, or reached `last_applied`, or held the same map anyway.
-/
import NebulaKV.Raft.Persistence

namespace NebulaKV.Raft.RaftNode

open Containers Effects Program

/-- **Snapshot installation and applied entries.** -/
theorem installed_map_eq_replay_iff {committed : List LogEntry} {node node' : RaftNode Values}
    {request : InstallSnapshotRequest} {response : InstallSnapshotResponse}
    (hterm : node.hardState.currentTerm ≤ request.term)
    (hmap : node.machine = replay (committed.take node.hardState.lastApplied))
    (hpayload : encodeMap (replay (committed.take request.lastIncludedIndex)) = .ok request.payload)
    (hreturns : handleInstallSnapshot keyValueStateMachine request node = (.ok response, node')) :
    node'.machine = replay (committed.take node'.hardState.lastApplied) ↔
      node.HasSnapshot request ∨
        node.hardState.lastApplied ≤ request.lastIncludedIndex ∨
        replay (committed.take request.lastIncludedIndex) =
          replay (committed.take node.hardState.lastApplied) := by
  rw [handleInstallSnapshot_eq, if_neg (not_lt.mpr hterm)] at hreturns
  by_cases hstale : node.HasSnapshot request
  · -- nothing is touched
    rw [if_pos hstale] at hreturns
    obtain ⟨-, rfl⟩ := Prod.mk.inj hreturns
    simp [hstale, hmap]
  rw [if_neg hstale] at hreturns
  have hout := installAccepted_spec keyValueStateMachine
    (node.follow request.term request.leaderId) request
  rw [hreturns] at hout
  obtain ⟨-, hfits, machine, hinstall, -, rfl⟩ := hout
  have hrestored := restoreMap_encodeMap hpayload hfits
  have hrun : restoreMap request.payload OrderedMap.empty = (.ok (), machine) := hinstall
  obtain rfl : machine = replay (committed.take request.lastIncludedIndex) := by
    rw [hrun] at hrestored
    exact hrestored
  have happlied : (((node.follow request.term request.leaderId).installing request).called
      (replay (committed.take request.lastIncludedIndex)) |>.raisedTo
        request.lastIncludedIndex).hardState.lastApplied =
      max node.hardState.lastApplied request.lastIncludedIndex := by
    show max ((node.follow request.term request.leaderId).keepBehind request).hardState.lastApplied _ = _
    rw [keepBehind_eq_log]
    exact congrArg (max · _) (follow_lastApplied node _ _)
  rw [happlied]
  show replay (committed.take request.lastIncludedIndex) = _ ↔ _
  simp only [hstale, false_or]
  rcases Nat.le_total node.hardState.lastApplied request.lastIncludedIndex with hle | hge
  · simp [hle]
  · rw [max_eq_left hge]
    constructor
    · exact fun h => Or.inr h
    · rintro (hle | h)
      · rw [le_antisymm hle hge]
      · exact h

/-- Two committed writes. -/
def twoWrites : List LogEntry := [⟨1, 1, ⟨.Put, [1], [1]⟩⟩, ⟨2, 1, ⟨.Put, [2], [2]⟩⟩]

/-- A follower that has applied both. -/
def aheadFollower : RaftNode Values :=
  (runAll keyValueStateMachine
    [.handleAppendEntries ⟨1, [1], 0, 0, twoWrites, 2⟩]
    (construct keyValueStateMachine ⟨[2], [⟨[1], [1]⟩, ⟨[3], [1]⟩], 300, 600, 75, 200, 128, 10000⟩
      {} OrderedMap.empty).2).getD (loaded ⟨[2], [], 0, 0, 0, 0, 0, 0⟩ {} OrderedMap.empty)

/-- The leader's snapshot of the first write only. -/
def olderSnapshot : InstallSnapshotRequest :=
  ⟨1, [1], 1, 1, [1, 0, 0, 0, 1, 0, 0, 0, 0, 0, 0, 0, 1, 0, 0, 0, 1, 1, 0, 0, 0, 1]⟩

theorem handle_olderSnapshot :
    handleInstallSnapshot keyValueStateMachine olderSnapshot aheadFollower =
      (.ok ⟨1, true, 1⟩,
        (handleInstallSnapshot keyValueStateMachine olderSnapshot aheadFollower).2) :=
  Prod.ext (by decide +kernel) rfl

/-- The follower answers with success, still counts both writes as applied, and has lost the
second. -/
theorem older_snapshot_loses_write :
    aheadFollower.hardState = ⟨1, [], 2, 2⟩ ∧
      aheadFollower.machine = replay (twoWrites.take aheadFollower.hardState.lastApplied) ∧
      (twoWrites[olderSnapshot.lastIncludedIndex - 1]?).map LogEntry.term =
        some olderSnapshot.lastIncludedTerm ∧
      encodeMap (replay (twoWrites.take olderSnapshot.lastIncludedIndex)) =
        .ok olderSnapshot.payload ∧
      ∃ node', handleInstallSnapshot keyValueStateMachine olderSnapshot aheadFollower =
          (.ok ⟨1, true, 1⟩, node') ∧
        node'.hardState.lastApplied = 2 ∧ node'.machine.find? [2] = none ∧
        node'.machine ≠ replay (twoWrites.take node'.hardState.lastApplied) := by
  refine ⟨by decide +kernel, by decide +kernel, by decide, by decide +kernel, _,
    handle_olderSnapshot, by decide +kernel, by decide +kernel, by decide +kernel⟩

theorem installed_map_eq_replay_iff_ahead :
    (handleInstallSnapshot keyValueStateMachine olderSnapshot aheadFollower).2.machine =
        replay (twoWrites.take
          (handleInstallSnapshot keyValueStateMachine olderSnapshot aheadFollower).2.hardState.lastApplied) ↔
      aheadFollower.HasSnapshot olderSnapshot ∨
        aheadFollower.hardState.lastApplied ≤ olderSnapshot.lastIncludedIndex ∨
        replay (twoWrites.take olderSnapshot.lastIncludedIndex) =
          replay (twoWrites.take aheadFollower.hardState.lastApplied) :=
  installed_map_eq_replay_iff (by decide +kernel) (by decide +kernel) (by decide +kernel)
    handle_olderSnapshot

end NebulaKV.Raft.RaftNode
