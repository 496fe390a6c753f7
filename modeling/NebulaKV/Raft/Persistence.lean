/-
# Persist before reply

Between any two stretches of locked code the three files hold exactly the members they mirror: the
term, the vote, the commit index, what was applied, the log and the snapshot. A dozen paths change these
members, and each must save what it changed before it lets the lock go.

Inside a stretch one file may lag behind: `LogsSaved` leaves the hard state open, `LogUnsaved` the log.
The only stretch that could return with an unsaved log is the merge of an `AppendEntries`, whose loop
leaves early on a malformed entry; it never does so after a truncation (`termAt_truncateLogFrom`).
-/
import NebulaKV.Raft.Stretches

namespace NebulaKV.Raft.RaftNode

open Containers Effects Program

variable {σ : Type} {sm : StateMachine σ}
variable {node : RaftNode σ}

/-- The storage holds what the members say. -/
def Synced (node : RaftNode σ) : Prop :=
  node.disk = ⟨node.hardState, node.log, node.snapshot⟩

/-- Only the hard state may lag behind. -/
def LogsSaved (node : RaftNode σ) : Prop :=
  node.disk.log = node.log ∧ node.disk.snapshot = node.snapshot

/-- Only the log may lag behind. -/
def LogUnsaved (node : RaftNode σ) : Prop :=
  node.disk.hardState = node.hardState ∧ node.disk.snapshot = node.snapshot

/-! ## The storage calls -/

theorem Synced.logsSaved (h : Synced node) : LogsSaved node := by
  rw [LogsSaved, h]
  exact ⟨rfl, rfl⟩

theorem Synced.logUnsaved (h : Synced node) : LogUnsaved node := by
  rw [LogUnsaved, h]
  exact ⟨rfl, rfl⟩

theorem LogsSaved.persistHardState (h : LogsSaved node) : Synced node.persistHardState := by
  simp only [Synced, RaftNode.persistHardState, store, h.1, h.2]

theorem LogUnsaved.persistLog (h : LogUnsaved node) : Synced node.persistLog := by
  simp only [Synced, RaftNode.persistLog, store, h.1, h.2]

theorem Untouched.synced {node' : RaftNode σ} (hsame : Untouched node node') (h : Synced node) :
    Synced node' := by
  have hhard : node'.disk.hardState = node'.hardState := by
    rcases hsame.saved with hsaved | ⟨hdisk, hhard⟩
    · exact hsaved
    · rw [hdisk, hhard, h.logUnsaved.1]
  have hlog : node'.disk.log = node'.log := by rw [hsame.diskLog, hsame.log, h.logsSaved.1]
  have hsnapshot : node'.disk.snapshot = node'.snapshot := by
    rw [hsame.diskSnapshot, hsame.snapshot, h.logsSaved.2]
  show _ = PersistentState.mk _ _ _
  rw [← hhard, ← hlog, ← hsnapshot]

/-- A new snapshot goes to its file, then the trimmed log; the hard state is not touched. -/
theorem Synced.snapshotted (h : Synced node) (term : Nat) (payload : Bytes) :
    Synced (node.snapshotted term payload) :=
  LogUnsaved.persistLog ⟨h.logUnsaved.1, rfl⟩

/-- **A commit** saves the hard state at its end. -/
theorem commitTo_saves (sm : StateMachine σ) (h : LogsSaved node) (index : Nat) :
    Ends (fun _ => Synced) (fun _ _ => True) (commitTo sm index node) := by
  unfold commitTo applyCommitted
  rw [update_bind_apply]
  refine Ends.bind (M := fun _ => LogsSaved) ?_ fun _ _ hs => LogsSaved.persistHardState hs
  rw [read_bind_apply]
  refine Ends.bind (Ends.repeatWhile (I := LogsSaved) (fun s hs _ => ?_) _ h) fun _ s hs => ?_
  · refine (applyNext_spec sm s).mono (fun _ s' hs' => ?_) fun _ _ _ => trivial
    rcases hs' with ⟨-, rfl⟩ | ⟨-, entry, machine, -, -, rfl⟩
    · exact hs
    · exact hs
  · refine (maybeCreateSnapshot_spec sm s).mono (fun _ s' hs' => ?_) fun _ _ _ => trivial
    rcases hs' with ⟨-, rfl⟩ | ⟨term, payload, -, rfl⟩
    · exact hs
    · exact ⟨rfl, rfl⟩

/-! ## Merging entries -/

/-- After a truncation nothing is held at the truncated index. -/
theorem termAt_truncateLogFrom {index : Nat} (hpos : snapshotIndex node.snapshot < index)
    (hheld : node.termAt index ≠ none) : (node.truncateLogFrom index).termAt index = none := by
  have hretained : ∀ n : RaftNode σ, n.snapshot = node.snapshot →
      n.termAt index = n.retainedTermAt index := by
    intro n hn
    unfold termAt
    rw [if_neg (by omega)]
    cases hs : n.snapshot with
    | none => rfl
    | some s =>
      have : s.lastIncludedIndex < index := by rw [← hn, hs] at hpos; exact hpos
      simp only [if_neg (show index ≠ s.lastIncludedIndex by omega)]
  rw [hretained node rfl] at hheld
  have hrange : ¬ (index < node.firstIndex ∨ index > node.lastLogIndex) := by
    intro hr
    exact hheld (by rw [retainedTermAt, if_pos hr])
  unfold truncateLogFrom
  split_ifs with h₁ h₂
  · rw [hretained { node with log := [] } rfl, retainedTermAt]
    simp
  · exact absurd (Or.inr h₂) hrange
  · rw [hretained { node with log := node.log.take (index - node.firstIndex) } rfl, retainedTermAt]
    simp [firstIndex]

theorem truncateLogFrom_unsaved (h : LogUnsaved node) (index : Nat) :
    LogUnsaved (node.truncateLogFrom index) := by
  unfold truncateLogFrom
  split_ifs <;> exact h

theorem appendEntries_unsaved (entries : List LogEntry) :
    Holds (fun node : RaftNode σ => LogUnsaved node) (appendEntries entries)
      (fun _ node => LogUnsaved node) (fun _ => True) := by
  induction entries with
  | nil => exact Holds.ret fun s hs => hs
  | cons entry rest ih =>
    refine Holds.read_bind fun node h => ?_
    refine Holds.ite (fun _ => Holds.raise fun _ _ => trivial) fun _ => ?_
    refine Holds.update_bind (ih.pre ?_)
    rintro s ⟨s₀, rfl, rfl⟩
    exact h

/-- The merge reports every change it leaves unsaved. -/
theorem mergeEntries_saves (previous : Nat) (entries : List LogEntry) (position : Nat) :
    Holds (fun node : RaftNode σ => Synced node) (mergeEntries previous position entries false)
      (fun result node => if result = some true then LogUnsaved node else Synced node)
      (fun _ => True) := by
  induction entries generalizing position with
  | nil => exact Holds.ret fun s hs => by simpa using hs
  | cons incoming rest ih =>
    refine Holds.read_bind fun node h => ?_
    refine Holds.ite (fun _ => Holds.ret fun s hs => by simpa [hs] using h) fun _ => ?_
    refine Holds.ite (fun _ => (ih _).pre fun s hs => hs ▸ h) fun hsnap => ?_
    have happend : Holds (fun node : RaftNode σ => LogUnsaved node)
        (do appendEntries (incoming :: rest); return some true)
        (fun (result : Option Bool) node =>
          if result = some true then LogUnsaved node else Synced node) (fun _ => True) :=
      Holds.bind (appendEntries_unsaved _) fun _ => Holds.ret fun s hs => by simpa using hs
    by_cases hc : node.conflicts incoming = true
    · -- a conflicting entry is cut off, and then nothing is held at its index
      have hheld : node.termAt incoming.index ≠ none := by
        intro hnone
        simp [conflicts, hnone] at hc
      have hcut := termAt_truncateLogFrom (by omega) hheld
      rw [when_pos hc]
      refine Holds.update_bind (Holds.read_bind ?_)
      rintro n ⟨s₀, rfl, rfl⟩
      rw [if_pos hcut]
      exact happend.pre fun s hs => hs ▸ truncateLogFrom_unsaved h.logUnsaved _
    · rw [when_neg hc, show node.conflicts incoming = false by simpa using hc]
      refine Holds.bind (M := fun _ s => s = node) (Holds.ret fun s hs => hs) fun _ => ?_
      refine Holds.read_bind fun n hn => ?_
      subst hn
      exact Holds.ite (fun _ => happend.pre fun s hs => hs ▸ h.logUnsaved)
        fun _ => (ih _).pre fun s hs => hs ▸ h

theorem acceptEntries_saves (sm : StateMachine σ) (request : AppendEntriesRequest) (h : Synced node) :
    Ends (fun _ => Synced) (fun _ _ => True) (acceptEntries sm request node) := by
  have hcommit : ∀ {n : RaftNode σ}, Synced n →
      Ends (fun _ => Synced) (fun _ _ => True) (acceptCommit sm request n) := fun {n} hn =>
    (acceptCommit_ends sm n (fun _ => hn) fun _ => commitTo_saves sm hn.logsSaved _).mono
      (fun _ _ hs => hs.2.2.2) fun _ _ _ => trivial
  unfold acceptEntries
  refine Ends.bind ((mergeEntries_saves _ _ _ node h).ends_of fun _ _ _ => trivial) fun merged s hs => ?_
  rw [read_bind_apply]
  cases merged with
  | none => exact (by simpa using hs : Synced s)
  | some changed =>
    cases changed with
    | false => exact hcommit (by simpa using hs)
    | true => exact hcommit (LogUnsaved.persistLog (by simpa using hs))

/-! ## Every stretch of locked code -/

theorem installAccepted_saves (sm : StateMachine σ) (request : InstallSnapshotRequest) (node : RaftNode σ) :
    Ends (fun _ => Synced) (fun _ _ => True) (installAccepted sm request node) := by
  refine (installAccepted_spec sm node request).mono (fun _ s hs => ?_) fun _ _ _ => trivial
  obtain ⟨-, -, machine, -, -, rfl⟩ := hs
  exact LogsSaved.persistHardState ⟨rfl, rfl⟩

theorem upheld_synced (sm : StateMachine σ) :
    Upheld sm (fun _ => True) Synced (fun _ _ => True) where
  untouched := Untouched.synced
  denied _ := trivial
  noop := trivial
  append h _ _ := LogUnsaved.persistLog h.logUnsaved
  commit h _ := commitTo_saves sm h.logsSaved _
  threshold h := h
  snapshotted h _ := h.snapshotted _ _
  snapshotFails _ _ := trivial

/-- The constructor saves the hard state it has corrected; it changes neither the term, nor the vote,
nor the log, nor the snapshot it has loaded. -/
theorem construct_ends (sm : StateMachine σ) (options : RaftNodeOptions) (disk : PersistentState)
    (machine : σ) :
    Ends (fun _ node => Synced node ∧ node.hardState.currentTerm = disk.hardState.currentTerm ∧
        node.hardState.votedFor = disk.hardState.votedFor ∧ node.log = disk.log ∧
        node.snapshot = disk.snapshot) (fun _ _ => True) (construct sm options disk machine) := by
  refine (construct_spec sm options disk machine).mono (fun _ s hs => ?_) fun _ _ _ => trivial
  obtain ⟨-, -, -, machine', -, rfl⟩ := hs
  exact ⟨LogsSaved.persistHardState ⟨rfl, rfl⟩, rfl, rfl, rfl, rfl⟩

/-! ## Whole sequences -/

theorem Stretch.run_saves (sm : StateMachine σ) (stretch : Stretch) (h : Synced node) :
    Ends (fun _ => Synced) (fun _ _ => True) (stretch.run sm node) := by
  have hupheld := upheld_synced sm
  refine hupheld.run h (fun request _ => ?_) (fun request _ => ?_) (fun _ _ => trivial)
    fun options _ => ?_
  · exact hupheld.handleAppendEntries h fun _ _ _ hn => acceptEntries_saves sm request hn
  · exact hupheld.handleInstallSnapshot h fun _ n _ _ => installAccepted_saves sm request n
  · exact (construct_ends sm options node.disk node.machine).mono (fun _ _ hs => hs.1) fun _ _ _ => trivial

/-- No sequence of stretches leaves a file behind. -/
theorem runAll_synced {stretches : List Stretch} {node' : RaftNode σ} (h : Synced node)
    (hrun : runAll sm stretches node = some node') : Synced node' :=
  runAll_keeps (fun stretch _ hnode => Stretch.run_saves sm stretch hnode) h hrun

/-- A node that has been constructed has saved what it corrected. -/
theorem construct_saves {options : RaftNodeOptions} {disk : PersistentState} {machine : σ}
    (h : construct sm options disk machine = (.ok (), node)) :
    Synced node ∧ node.hardState.currentTerm = disk.hardState.currentTerm ∧
      node.hardState.votedFor = disk.hardState.votedFor ∧ node.log = disk.log ∧
      node.snapshot = disk.snapshot := by
  have hout := construct_ends sm options disk machine
  rw [h] at hout
  exact hout

end NebulaKV.Raft.RaftNode
