/-
# Starting again, and snapshots on request

The constructor reads what a crash left behind. Its checks catch EXACTLY the torn state, in which the
snapshot's file was replaced and the log's was not (`checkLog_compacted`, `checkLog_torn`): that process
never comes back. Everything else is a node that follows the history again.
-/
import NebulaKV.Raft.TrackReplicate

namespace NebulaKV.Raft

open Consensus Effects Program Containers RaftNode

variable {σ : Type} {members : Membership} {mode : Mode σ} {n : NodeId} {a a₀ : History}
  {sm : StateMachine σ} {node : RaftNode σ}

/-! ## The checks of the log -/

/-- A log that follows its snapshot passes. -/
theorem checkLog_compacted {L : List LogEntry} (h : Compacted L node.log node.snapshot)
    (hL : Indexed L) : checkLog node = .ok () := checkLog_of_retained (h.retained hL)

/-- A log that was left behind by its snapshot does not. -/
theorem checkLog_torn {L : List LogEntry} (hL : Indexed L)
    (h : Torn L { hardState := node.hardState, log := node.log, snapshot := node.snapshot }) :
    checkLog node ≠ .ok () := by
  obtain ⟨j, hj, hlog, hne⟩ := h
  simp only at hj hlog hne
  unfold checkLog
  cases hl : node.log with
  | nil => exact absurd hl hne
  | cons front rest =>
    have hfront : front.index = j + 0 + 1 := by
      refine (hL.drop j 0 front ?_).1
      rw [← hlog, hl]
      rfl
    have hbehind : front.index ≠ snapshotIndex node.snapshot + 1 := by omega
    simp only [if_pos hbehind]
    exact fun h => by cases h

/-! ## The constructor -/

/-- The loaded members follow the history, unless the disk is torn. -/
theorem Tracks.loaded (hn : n ∈ members.ids) (hs : Sane members a) {disk : PersistentState}
    {machine : σ} (hd : DiskOK mode a n disk) (hm : mode.machineOK a machine)
    (hnot : ¬ Torn (a.log n) disk) :
    Tracks members mode n a a (RaftNode.loaded (members.options n) disk machine) := by
  obtain ⟨hlogs, hdecided⟩ := hd.logs.resolve_right fun ht => hnot ht.2
  exact
    { sane := hs
      moves := Moves.refl a
      memory :=
        { nodeId := members.nodeId_eq n hn
          peers := rfl
          hard := hd.hard
          logs := hlogs
          decided := hdecided
          candidate := fun hr => by cases hr
          leader := fun hr => by cases hr }
      saved := ⟨rfl, rfl⟩
      hard := hd.hard
      machine := hm
      journal := fun d hd => by cases hd }

/-- The process is down again, with a disk that fits the history. -/
structure Failed (members : Membership) (mode : Mode σ) (n : NodeId) (a : History)
    (s : RaftNode σ) : Prop where
  disk : DiskOK mode a n s.disk
  machine : mode.machineOK a s.machine
  journal : JournalOK members mode n a s.journal
  role : s.role = .Follower

theorem Tracks.failed (h : Tracks members mode n a a node) (hrole : node.role = .Follower) :
    Failed members mode n a node :=
  ⟨h.diskOK, h.machine, h.journal, hrole⟩

/-- The entries replayed by a restart are decided ones. -/
theorem Tracks.recovered (h : Tracks members mode n a₀ a node) {e : LogEntry}
    (he : e ∈ node.log.filter fun entry => decide (entry.index ≤ node.hardState.commitIndex)) :
    ∃ i, Decided mode a n (i + 1) ∧ (a.log n)[i]? = some e := by
  obtain ⟨hmem, hle⟩ := List.mem_filter.mp he
  obtain ⟨hpos, hget, _⟩ := h.memory.logs.of_mem h.indexed hmem
  refine ⟨e.index - 1, h.memory.hard.commit.le ?_, hget⟩
  simp only [decide_eq_true_eq] at hle
  omega

theorem construct_tracks (hsound : mode.Sound sm) (hn : n ∈ members.ids) (hs : Sane members a)
    {disk : PersistentState} {machine : σ} (hd : DiskOK mode a n disk)
    (hm : mode.machineOK a machine) :
    Outcome (fun _ s => Tracks members mode n a a s ∧ Settled mode s ∧ s.role = .Follower)
      (Failed members mode n a) (construct sm (members.options n) disk machine) := by
  have hfail : Failed members mode n a (RaftNode.loaded (members.options n) disk machine) :=
    ⟨hd, hm, fun d hd => (by cases hd), rfl⟩
  unfold construct constructBody
  rw [read_bind_apply, show (RaftNode.loaded (members.options n) disk machine).options =
    members.options n from rfl, members.valid n hn, check_ok_bind]
  refine Holds.bind (P := fun s => s = RaftNode.loaded (members.options n) disk machine)
    (M := fun _ s => s = RaftNode.loaded (members.options n) disk machine ∧
      Tracks members mode n a a s)
    (Holds.check ?_ ?_) (fun _ => ?_) _ rfl
  · rintro _ hcheck s rfl
    exact ⟨rfl, Tracks.loaded hn hs hd hm fun ht => checkLog_torn (hs.log_indexed n) ht hcheck⟩
  · rintro s rfl
    exact hfail
  rintro s ⟨rfl, ht⟩
  rw [update_bind_apply, read_bind_apply, raiseCommitToSnapshot_eq]
  have ht' := ht.setCommitIndex (ht.memory.hard.commit.max ht.memory.decided)
    fun hr => by cases hr
  split_ifs with hlast
  · exact ht'.failed rfl
  refine Holds.bind (P := fun s => s = _)
    (M := fun _ s => Tracks members mode n a a s ∧ s.role = .Follower)
    (Holds.callMachine ?_ ?_) (fun _ => Holds.update ?_) _ rfl
  · rintro s rfl _
    exact ⟨ht'.called (hsound.recover _ _ (fun e he => ht'.recovered he) ht'.machine), rfl⟩
  · rintro s e rfl _
    exact (ht'.called (hsound.recover _ _ (fun e he => ht'.recovered he) ht'.machine)).failed rfl
  · rintro s ⟨hts, hr⟩
    have hfinal := hts.setLastApplied hts.memory.hard.commit
    exact ⟨Tracks.persistHardState hfinal.sane hfinal.moves hfinal.memory hfinal.saved
      hfinal.machine hfinal.journal, fun _ => le_rfl, hr⟩

/-! ## Snapshots on request -/

theorem Tracks.setThreshold (h : Tracks members mode n a₀ a node) (threshold : Nat) :
    Tracks members mode n a₀ a
      { node with options := { node.options with snapshotThresholdEntries := threshold } } :=
  { h with
    memory :=
      { h.memory with
        nodeId := h.memory.nodeId
        peers := h.memory.peers
        leader := fun hr => (h.memory.leader hr).same rfl rfl } }

theorem triggerSnapshot_tracks (sm : StateMachine σ) (h : Tracks members mode n a₀ a node) :
    Outcome (fun _ s => Tracks members mode n a₀ a s ∧ SameRole node s)
      (fun s => Tracks members mode n a₀ a s ∧ SameRole node s) (triggerSnapshot sm node) := by
  simp only [triggerSnapshot, read_bind_apply]
  by_cases hz : node.hardState.lastApplied = 0
  · rw [if_pos hz]
    exact ⟨h, rfl, rfl⟩
  rw [if_neg hz, update_bind_apply]
  refine Holds.bind
    (P := fun s => s =
      { node with options := { node.options with snapshotThresholdEntries := 1 } })
    (M := fun _ s => Tracks members mode n a₀ a s ∧ SameRole node s)
    ?_ (fun _ => Holds.update ?_) _ rfl
  · rintro s rfl
    exact (maybeCreateSnapshot_tracks (h.setThreshold 1)).mono
      (fun _ s hs => ⟨hs.1, hs.2.role, hs.2.hardState⟩)
      fun s hs => ⟨hs.1, hs.2.role, hs.2.hardState⟩
  · rintro s ⟨ht, hsame⟩
    exact ⟨ht.setThreshold _, hsame.role, hsame.hardState⟩

end NebulaKV.Raft
