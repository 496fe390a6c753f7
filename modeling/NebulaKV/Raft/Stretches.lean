/-
# What a stretch of locked code can do

A node is the same program under every state machine and in every state, so what a stretch can do is said
once here, for all of them. Most stretches leave the log, the counters and the machine alone
(`Untouched`). For those that do not there is one lemma each, with every way in which they return or throw:
`maybeCreateSnapshot_spec`, `applyNext_spec`, `installAccepted_spec`, `handleAppendEntries_cases`,
`handleInstallSnapshot_eq`.

`Upheld` is what remains to be shown of a property for every stretch to keep it.
-/
import NebulaKV.Raft.Operations

namespace NebulaKV.Raft.RaftNode

open Containers Effects Program

section Untouched

variable {σ : Type}

/-- The term, the vote, the role and what is known of the peers may be others, and the hard state may have
been saved. -/
structure Untouched (node node' : RaftNode σ) : Prop where
  options : node'.options = node.options
  machine : node'.machine = node.machine
  log : node'.log = node.log
  snapshot : node'.snapshot = node.snapshot
  applied : node'.hardState.lastApplied = node.hardState.lastApplied
  commit : node'.hardState.commitIndex = node.hardState.commitIndex
  diskLog : node'.disk.log = node.disk.log
  diskSnapshot : node'.disk.snapshot = node.disk.snapshot
  saved : node'.disk.hardState = node'.hardState ∨
    node'.disk.hardState = node.disk.hardState ∧ node'.hardState = node.hardState

theorem Untouched.refl (node : RaftNode σ) : Untouched node node :=
  ⟨rfl, rfl, rfl, rfl, rfl, rfl, rfl, rfl, Or.inr ⟨rfl, rfl⟩⟩

theorem Untouched.termAt {node node' : RaftNode σ} (h : Untouched node node') (i : Nat) :
    node'.termAt i = node.termAt i := by
  unfold RaftNode.termAt retainedTermAt lastLogIndex firstIndex
  rw [h.log, h.snapshot]

theorem Untouched.lastLogIndex {node node' : RaftNode σ} (h : Untouched node node') :
    node'.lastLogIndex = node.lastLogIndex := by
  unfold RaftNode.lastLogIndex
  rw [h.log, h.snapshot]

variable (node : RaftNode σ) (term : Nat) (leaderId : NodeId)

theorem untouched_becomeFollower : Untouched node (node.becomeFollower term leaderId) := by
  unfold becomeFollower
  split_ifs
  · exact Untouched.refl node
  · exact ⟨rfl, rfl, rfl, rfl, rfl, rfl, rfl, rfl, Or.inl rfl⟩
  · exact ⟨rfl, rfl, rfl, rfl, rfl, rfl, rfl, rfl, Or.inl rfl⟩

theorem untouched_follow : Untouched node (node.follow term leaderId) := by
  unfold follow
  split_ifs
  · exact { untouched_becomeFollower node term leaderId with }
  · exact { Untouched.refl node with }

theorem untouched_becomeLeader : Untouched node node.becomeLeader := { Untouched.refl node with }

@[simp] theorem becomeFollower_commitIndex :
    (node.becomeFollower term leaderId).hardState.commitIndex = node.hardState.commitIndex :=
  (untouched_becomeFollower node term leaderId).commit

@[simp] theorem becomeFollower_lastApplied :
    (node.becomeFollower term leaderId).hardState.lastApplied = node.hardState.lastApplied :=
  (untouched_becomeFollower node term leaderId).applied

@[simp] theorem follow_machine : (node.follow term leaderId).machine = node.machine :=
  (untouched_follow node term leaderId).machine

@[simp] theorem follow_log : (node.follow term leaderId).log = node.log :=
  (untouched_follow node term leaderId).log

@[simp] theorem follow_snapshot : (node.follow term leaderId).snapshot = node.snapshot :=
  (untouched_follow node term leaderId).snapshot

@[simp] theorem follow_commitIndex :
    (node.follow term leaderId).hardState.commitIndex = node.hardState.commitIndex :=
  (untouched_follow node term leaderId).commit

@[simp] theorem follow_lastApplied :
    (node.follow term leaderId).hardState.lastApplied = node.hardState.lastApplied :=
  (untouched_follow node term leaderId).applied

theorem termAt_follow (i : Nat) : (node.follow term leaderId).termAt i = node.termAt i :=
  (untouched_follow node term leaderId).termAt i

/-- A program that returns and leaves the node untouched. -/
def Untouches {α : Type} (program : Locked σ α) : Prop :=
  ∀ node, ∃ a s, program node = (.ok a, s) ∧ Untouched node s

end Untouched

section Light

variable {σ : Type}

theorem handleRequestVote_untouches (request : RequestVoteRequest) :
    Untouches (handleRequestVote request : Locked σ _) := by
  intro node
  unfold handleRequestVote
  rw [read_bind_apply]
  by_cases hstale : request.term < node.hardState.currentTerm
  · rw [if_pos hstale]
    exact ⟨_, _, rfl, Untouched.refl node⟩
  rw [if_neg hstale, bind_apply]
  have hwhen : ∃ s, (Program.when (request.term > node.hardState.currentTerm)
      (Program.update (becomeFollower request.term [])) : Locked σ Unit) node = (.ok (), s) ∧
        Untouched node s := by
    by_cases hnewer : request.term > node.hardState.currentTerm
    · rw [when_pos hnewer]
      exact ⟨_, rfl, untouched_becomeFollower node _ _⟩
    · rw [when_neg hnewer]
      exact ⟨_, rfl, Untouched.refl node⟩
  obtain ⟨s, hrun, hs⟩ := hwhen
  rw [hrun]
  dsimp only
  rw [read_bind_apply]
  split_ifs
  · exact ⟨_, _, rfl, { hs with saved := Or.inl rfl }⟩
  · exact ⟨_, _, rfl, hs⟩

theorem campaignStart_untouches : Untouches (campaignStart : Locked σ _) := by
  intro node
  unfold campaignStart
  rw [read_bind_apply]
  split_ifs
  · exact ⟨_, _, rfl, Untouched.refl node⟩
  · exact ⟨_, _, rfl, { Untouched.refl node with saved := Or.inl rfl }⟩

theorem campaignResponse_untouches (electionTerm : Nat) (response : RequestVoteResponse) :
    Untouches (campaignResponse electionTerm response : Locked σ _) := by
  intro node
  unfold campaignResponse
  rw [read_bind_apply]
  split_ifs
  · exact ⟨_, _, rfl, untouched_becomeFollower node _ _⟩
  · exact ⟨_, _, rfl, Untouched.refl node⟩
  · exact ⟨_, _, rfl, Untouched.refl node⟩

theorem peerRequest_untouches (peer : Peer) (heartbeatOnly : Bool) :
    Untouches (peerRequest peer heartbeatOnly : Locked σ _) := by
  intro node
  unfold peerRequest
  rw [read_bind_apply]
  by_cases hrole : node.role ≠ .Leader
  · rw [if_pos hrole]
    exact ⟨_, _, rfl, Untouched.refl node⟩
  rw [if_neg hrole, update_bind_apply, read_bind_apply]
  have hnext : Untouched node (ensureNext peer node) := { Untouched.refl node with }
  have hrequest : ∀ next, ∃ request s, appendRequest peer heartbeatOnly next (ensureNext peer node) =
      (.ok request, s) ∧ Untouched node s := by
    intro next
    unfold appendRequest
    rw [read_bind_apply]
    cases (ensureNext peer node).termAt (previousOf next) with
    | none => exact ⟨_, _, rfl, { hnext with }⟩
    | some previousTerm => exact ⟨_, _, rfl, hnext⟩
  cases (ensureNext peer node).snapshot with
  | none => exact hrequest _
  | some snapshot =>
    dsimp only
    split_ifs
    · exact ⟨_, _, rfl, hnext⟩
    · exact hrequest _

theorem installResponse_untouches (peer : Peer) (requestTerm : Nat)
    (response : InstallSnapshotResponse) :
    Untouches (installResponse peer requestTerm response : Locked σ _) := by
  intro node
  unfold installResponse
  rw [read_bind_apply]
  split_ifs
  · exact ⟨_, _, rfl, untouched_becomeFollower node _ _⟩
  · exact ⟨_, _, rfl, Untouched.refl node⟩
  · exact ⟨_, _, rfl, { Untouched.refl node with }⟩
  · exact ⟨_, _, rfl, Untouched.refl node⟩

theorem appendResponse_untouches (peer : Peer) (requestTerm : Nat) (response : AppendEntriesResponse) :
    Untouches (appendResponse peer requestTerm response : Locked σ _) := by
  intro node
  unfold appendResponse
  rw [read_bind_apply]
  split_ifs
  · exact ⟨_, _, rfl, untouched_becomeFollower node _ _⟩
  · exact ⟨_, _, rfl, Untouched.refl node⟩
  · exact ⟨_, _, rfl, { Untouched.refl node with }⟩
  · exact ⟨_, _, rfl, { Untouched.refl node with }⟩

theorem submitCheck_untouches (entryIndex entryTerm : Nat) :
    Untouches (submitCheck entryIndex entryTerm : Locked σ _) := by
  intro node
  unfold submitCheck
  rw [read_bind_apply]
  split_ifs <;> exact ⟨_, _, rfl, Untouched.refl node⟩

theorem replicateAllStart_untouches : Untouches (replicateAllStart : Locked σ _) := by
  intro node
  unfold replicateAllStart
  rw [read_bind_apply]
  split_ifs <;> exact ⟨_, _, rfl, Untouched.refl node⟩

theorem confirmCheck_untouches (contactedQuorum : Bool) :
    Untouches (confirmCheck contactedQuorum : Locked σ _) := by
  intro node
  unfold confirmCheck
  rw [read_bind_apply]
  split_ifs <;> exact ⟨_, _, rfl, Untouched.refl node⟩

end Light

/-! ## Applying and snapshotting -/

section Commit

variable {σ : Type} (sm : StateMachine σ) (node : RaftNode σ)

/-- A snapshot falls due. -/
def SnapshotDue (node : RaftNode σ) : Prop :=
  node.options.snapshotThresholdEntries ≠ 0 ∧ node.hardState.lastApplied ≠ 0 ∧
    node.options.snapshotThresholdEntries ≤
      u64Sub node.hardState.lastApplied (snapshotIndex node.snapshot)

theorem SnapshotDue.ne {node : RaftNode σ} (h : node.SnapshotDue) :
    node.hardState.lastApplied ≠ snapshotIndex node.snapshot := by
  intro heq
  have hzero : u64Sub (snapshotIndex node.snapshot) (snapshotIndex node.snapshot) = 0 := by
    rw [u64Sub, Nat.add_sub_cancel_left, Nat.mod_self]
  have hdue := h.2.2
  rw [heq, hzero] at hdue
  exact h.1 (Nat.le_zero.mp hdue)

/-- The node with a new snapshot. -/
def snapshotted (node : RaftNode σ) (term : Nat) (payload : Bytes) : RaftNode σ :=
  persistLog
    { node.store .snapshot
        { node.disk with snapshot := some ⟨node.hardState.lastApplied, term, payload⟩ } with
      snapshot := some ⟨node.hardState.lastApplied, term, payload⟩
      log := eraseThrough node.hardState.lastApplied node.log }

/-- What a snapshot that was made is made of. -/
structure Snapshots (sm : StateMachine σ) (node : RaftNode σ) (term : Nat) (payload : Bytes) : Prop where
  due : node.SnapshotDue
  term_eq : node.termAt node.hardState.lastApplied = some term
  payload_eq : sm.createSnapshot node.machine = .ok payload
  fits : payload.length ≤ uint32Max

/-- Why a snapshot that is due cannot be made. -/
def SnapshotFails (sm : StateMachine σ) (node : RaftNode σ) (e : Error) : Prop :=
  node.SnapshotDue ∧ (node.termAt node.hardState.lastApplied = none ∨
    sm.createSnapshot node.machine = .error e ∨ ∃ payload,
      sm.createSnapshot node.machine = .ok payload ∧ uint32Max < payload.length ∧
        e = .lengthError "encoded string is too large")

/-- A snapshot is not due, is made, or cannot be made. -/
theorem maybeCreateSnapshot_spec :
    Ends (fun _ s => ¬ node.SnapshotDue ∧ s = node ∨
        ∃ term payload, Snapshots sm node term payload ∧ s = node.snapshotted term payload)
      (fun e s => SnapshotFails sm node e ∧ s = node) (maybeCreateSnapshot sm node) := by
  simp only [maybeCreateSnapshot, read_bind_apply]
  by_cases hoff : node.options.snapshotThresholdEntries = 0 ∨ node.hardState.lastApplied = 0
  · rw [if_pos hoff]
    exact Or.inl ⟨fun hdue => hoff.elim hdue.1 hdue.2.1, rfl⟩
  obtain ⟨hon, hpos⟩ := not_or.mp hoff
  by_cases hearly : u64Sub node.hardState.lastApplied (snapshotIndex node.snapshot) <
      node.options.snapshotThresholdEntries
  · rw [if_neg hoff, if_pos hearly]
    exact Or.inl ⟨fun hdue => absurd hdue.2.2 (not_le.mpr hearly), rfl⟩
  have hdue : node.SnapshotDue := ⟨hon, hpos, not_lt.mp hearly⟩
  rw [if_neg hoff, if_neg hearly]
  cases hterm : node.termAt node.hardState.lastApplied with
  | none => exact ⟨⟨hdue, Or.inl hterm⟩, rfl⟩
  | some term =>
    dsimp only
    cases hcreate : sm.createSnapshot node.machine with
    | error e => exact ⟨⟨hdue, Or.inr (Or.inl hcreate)⟩, rfl⟩
    | ok payload =>
      rw [check_ok_bind]
      unfold saveSnapshot
      rw [if_neg hpos]
      by_cases hlarge : payload.length > uint32Max
      · rw [if_pos hlarge]
        exact ⟨⟨hdue, Or.inr (Or.inr ⟨payload, hcreate, hlarge, rfl⟩)⟩, rfl⟩
      · rw [if_neg hlarge]
        exact Or.inr ⟨term, payload, ⟨hdue, hterm, hcreate, not_lt.mp hlarge⟩, rfl⟩

/-- The node with so much applied. -/
def reached (node : RaftNode σ) (applied : Nat) (machine : σ) (journal : List (Mark σ)) : RaftNode σ :=
  { node with
    hardState := { node.hardState with lastApplied := applied }
    machine := machine
    journal := journal }

/-- One entry has been applied. -/
def advanced (node : RaftNode σ) (machine : σ) : RaftNode σ :=
  (node.called machine).reached (node.hardState.lastApplied + 1) machine (node.called machine).journal

/-- What the snapshot covers is passed over. An entry behind it is applied, if the log has it and the machine
takes it. -/
theorem applyNext_spec :
    Ends (fun _ s =>
        node.hardState.lastApplied < snapshotIndex node.snapshot ∧
          s = node.reached (snapshotIndex node.snapshot) node.machine node.journal ∨
        snapshotIndex node.snapshot ≤ node.hardState.lastApplied ∧ ∃ entry machine,
          node.log[node.hardState.lastApplied - snapshotIndex node.snapshot]? = some entry ∧
            sm.apply entry node.machine = (.ok (), machine) ∧ s = node.advanced machine)
      (fun e s => snapshotIndex node.snapshot ≤ node.hardState.lastApplied ∧
        (node.log[node.hardState.lastApplied - snapshotIndex node.snapshot]? = none ∧ s = node ∨
          ∃ entry machine,
            node.log[node.hardState.lastApplied - snapshotIndex node.snapshot]? = some entry ∧
              sm.apply entry node.machine = (.error e, machine) ∧ s = node.called machine))
      (applyNext sm node) := by
  unfold applyNext
  rw [read_bind_apply]
  by_cases hbefore : node.hardState.lastApplied < snapshotIndex node.snapshot
  · have hsome : node.snapshot.isSome := by
      cases hs : node.snapshot with
      | none =>
        rw [hs] at hbefore
        exact absurd hbefore (Nat.not_lt_zero _)
      | some _ => rfl
    rw [if_pos ⟨hsome, hbefore⟩]
    exact Or.inl ⟨hbefore, rfl⟩
  have hbase := not_lt.mp hbefore
  have hoffset : node.hardState.lastApplied + 1 - node.firstIndex =
      node.hardState.lastApplied - snapshotIndex node.snapshot := by
    rw [firstIndex]
    omega
  rw [if_neg fun hjump => hbefore hjump.2, if_neg (by rw [firstIndex]; omega), hoffset]
  cases hentry : node.log[node.hardState.lastApplied - snapshotIndex node.snapshot]? with
  | none => exact ⟨hbase, Or.inl ⟨rfl, rfl⟩⟩
  | some entry =>
    dsimp only
    rw [bind_apply, callMachine]
    rcases hrun : sm.apply entry node.machine with ⟨result, machine⟩
    cases result with
    | error e => exact ⟨hbase, Or.inr ⟨entry, machine, rfl, hrun, rfl⟩⟩
    | ok _ => exact Or.inr ⟨hbase, entry, machine, rfl, hrun, rfl⟩

end Commit

/-! ## The requests -/

section Requests

variable {σ : Type} (sm : StateMachine σ) (node : RaftNode σ)

/-- The request continues the node's log, so its entries are looked at. -/
def Continues (node : RaftNode σ) (request : AppendEntriesRequest) : Prop :=
  node.hardState.currentTerm ≤ request.term ∧
    snapshotIndex node.snapshot ≤ request.previousLogIndex ∧
    node.termAt request.previousLogIndex = some request.previousLogTerm

/-- A request is refused where it stands, or its sender is followed and its entries are refused or looked
at. -/
theorem handleAppendEntries_cases (request : AppendEntriesRequest) :
    (∃ response, response.success = false ∧ ¬ node.Continues request ∧
      (handleAppendEntries sm request node = (.ok response, node) ∨
        node.hardState.currentTerm ≤ request.term ∧ handleAppendEntries sm request node =
          (.ok response, node.follow request.term request.leaderId))) ∨
      node.Continues request ∧ handleAppendEntries sm request node =
        acceptEntries sm request (node.follow request.term request.leaderId) := by
  unfold handleAppendEntries Continues
  rw [read_bind_apply]
  by_cases hterm : request.term < node.hardState.currentTerm
  · rw [if_pos hterm]
    exact Or.inl ⟨_, rfl, fun h => absurd h.1 (not_le.mpr hterm), Or.inl rfl⟩
  rw [if_neg hterm, update_bind_apply, read_bind_apply, follow_snapshot, termAt_follow]
  by_cases hbefore : request.previousLogIndex < snapshotIndex node.snapshot
  · rw [if_pos hbefore]
    exact Or.inl ⟨_, rfl, fun h => absurd h.2.1 (not_le.mpr hbefore), Or.inr ⟨not_lt.mp hterm, rfl⟩⟩
  rw [if_neg hbefore]
  cases hprevious : node.termAt request.previousLogIndex with
  | none =>
    refine Or.inl ⟨_, ?_, ?_, Or.inr ⟨not_lt.mp hterm, rfl⟩⟩
    · rfl
    · rintro ⟨-, -, hterms⟩
      cases hterms
  | some previousTerm =>
    dsimp only
    by_cases hmismatch : previousTerm ≠ request.previousLogTerm
    · rw [if_pos hmismatch]
      exact Or.inl ⟨_, rfl, fun h => hmismatch (Option.some.inj h.2.2), Or.inr ⟨not_lt.mp hterm, rfl⟩⟩
    · rw [if_neg hmismatch]
      exact Or.inr ⟨⟨not_lt.mp hterm, not_lt.mp hbefore, by rw [not_not.mp hmismatch]⟩, rfl⟩

/-- The end of a request that is accepted. -/
theorem acceptCommit_ends {Q : RaftNode σ → Prop} {E : Error → RaftNode σ → Prop}
    {request : AppendEntriesRequest}
    (hskip : ¬ request.leaderCommit > node.hardState.commitIndex → Q node)
    (hcommit : request.leaderCommit > node.hardState.commitIndex →
      Ends (fun _ s => Q s) E (commitTo sm (min request.leaderCommit node.lastLogIndex) node)) :
    Ends (fun response s => response.success = true ∧ response.term = s.hardState.currentTerm ∧
        response.matchIndex ≤ requestEnd request ∧ Q s) E (acceptCommit sm request node) := by
  unfold acceptCommit
  rw [read_bind_apply]
  refine Ends.bind (M := fun _ s => Q s) ?_ fun _ s hs => ⟨rfl, rfl, min_le_left _ _, hs⟩
  by_cases hmore : request.leaderCommit > node.hardState.commitIndex
  · rw [when_pos hmore]
    exact hcommit hmore
  · rw [when_neg hmore]
    exact hskip hmore

/-- The node already has a snapshot that reaches as far. -/
def HasSnapshot (node : RaftNode σ) (request : InstallSnapshotRequest) : Prop :=
  node.snapshot.isSome ∧ request.lastIncludedIndex ≤ snapshotIndex node.snapshot

instance (node : RaftNode σ) (request : InstallSnapshotRequest) : Decidable (node.HasSnapshot request) :=
  inferInstanceAs (Decidable (_ ∧ _))

theorem handleInstallSnapshot_eq (request : InstallSnapshotRequest) :
    handleInstallSnapshot sm request node =
      if request.term < node.hardState.currentTerm then
        (.ok ⟨node.hardState.currentTerm, false, snapshotIndex node.snapshot⟩, node)
      else if node.HasSnapshot request then
        (.ok ⟨(node.follow request.term request.leaderId).hardState.currentTerm, true,
          snapshotIndex node.snapshot⟩, node.follow request.term request.leaderId)
      else installAccepted sm request (node.follow request.term request.leaderId) := by
  unfold handleInstallSnapshot
  rw [read_bind_apply]
  by_cases hterm : request.term < node.hardState.currentTerm
  · rw [if_pos hterm, if_pos hterm]
    rfl
  rw [if_neg hterm, if_neg hterm, update_bind_apply, read_bind_apply, follow_snapshot]
  by_cases hhas : node.HasSnapshot request
  · rw [if_pos hhas]
    exact congrFun (if_pos hhas) _
  · rw [if_neg hhas]
    exact congrFun (if_neg hhas) _

/-- The node with the snapshot of a request, before the machine is asked. -/
def installing (node : RaftNode σ) (request : InstallSnapshotRequest) : RaftNode σ :=
  let installed : Snapshot := ⟨request.lastIncludedIndex, request.lastIncludedTerm, request.payload⟩
  persistLog { (node.keepBehind request).store .snapshot { node.disk with snapshot := some installed } with
    snapshot := some installed }

/-- The counters reach the index at least. -/
def raisedTo (index : Nat) (node : RaftNode σ) : RaftNode σ :=
  persistHardState
    { node with
      hardState :=
        { node.hardState with
          commitIndex := max node.hardState.commitIndex index
          lastApplied := max node.hardState.lastApplied index } }

theorem keepBehind_eq_log (request : InstallSnapshotRequest) :
    node.keepBehind request = { node with log := (node.keepBehind request).log } := by
  unfold keepBehind
  split_ifs <;> rfl

/-- The storage refuses the snapshot, the machine does, or it is installed. -/
theorem installAccepted_spec (request : InstallSnapshotRequest) :
    Ends (fun response s => request.lastIncludedIndex ≠ 0 ∧ request.payload.length ≤ uint32Max ∧
        ∃ machine, sm.installSnapshot request.payload node.machine = (.ok (), machine) ∧
          response = ⟨node.hardState.currentTerm, true, request.lastIncludedIndex⟩ ∧
          s = ((node.installing request).called machine).raisedTo request.lastIncludedIndex)
      (fun e s =>
        (request.lastIncludedIndex = 0 ∨ uint32Max < request.payload.length) ∧
          s = node.keepBehind request ∨
        request.lastIncludedIndex ≠ 0 ∧ request.payload.length ≤ uint32Max ∧ ∃ machine,
          sm.installSnapshot request.payload node.machine = (.error e, machine) ∧
            s = (node.installing request).called machine)
      (installAccepted sm request node) := by
  have hfields := keepBehind_eq_log node request
  have hmachine : (node.keepBehind request).machine = node.machine := by rw [hfields]
  have hdisk : (node.keepBehind request).disk = node.disk := by rw [hfields]
  have hhard : (node.keepBehind request).hardState = node.hardState := by rw [hfields]
  unfold installAccepted saveSnapshot
  rw [update_bind_apply]
  by_cases hindex : request.lastIncludedIndex = 0
  · rw [if_pos hindex]
    exact Or.inl ⟨Or.inl hindex, rfl⟩
  by_cases hlarge : request.payload.length > uint32Max
  · rw [if_neg hindex, if_pos hlarge]
    exact Or.inl ⟨Or.inr hlarge, rfl⟩
  have hfits := not_lt.mp hlarge
  rw [if_neg hindex, if_neg hlarge, update_bind_apply, update_bind_apply, bind_apply, callMachine, hdisk]
  dsimp only
  have hbefore : (persistLog { (node.keepBehind request).store .snapshot { node.disk with
      snapshot := some ⟨request.lastIncludedIndex, request.lastIncludedTerm, request.payload⟩ } with
      snapshot := some ⟨request.lastIncludedIndex, request.lastIncludedTerm, request.payload⟩ }).machine =
        node.machine := hmachine
  rw [hbefore]
  rcases hrun : sm.installSnapshot request.payload node.machine with ⟨result, machine⟩
  cases result with
  | error e => exact Or.inr ⟨hindex, hfits, machine, rfl, rfl⟩
  | ok _ =>
    refine ⟨hindex, hfits, machine, rfl, ?_, rfl⟩
    show InstallSnapshotResponse.mk (node.keepBehind request).hardState.currentTerm _ _ = _
    rw [hhard]

end Requests

/-! ## The constructor -/

section Construct

variable {σ : Type} (sm : StateMachine σ) (options : RaftNodeOptions) (disk : PersistentState)
  (machine : σ)

theorem raiseCommitToSnapshot_eq (node : RaftNode σ) :
    raiseCommitToSnapshot node = { node with
      hardState := { node.hardState with
        commitIndex := max node.hardState.commitIndex (snapshotIndex node.snapshot) } } := by
  unfold raiseCommitToSnapshot
  split_ifs with h
  · rw [max_eq_right h.le]
  · rw [max_eq_left (not_lt.mp h)]

/-- How far the files are committed: a snapshot counts. -/
def committedIn (disk : PersistentState) : Nat :=
  max disk.hardState.commitIndex (snapshotIndex disk.snapshot)

/-- What the machine is to recover from, besides the snapshot. -/
def committedEntries (disk : PersistentState) : List LogEntry :=
  disk.log.filter fun entry => decide (entry.index ≤ committedIn disk)

/-- The node that comes back, with what the machine has recovered. -/
def recovered (options : RaftNodeOptions) (disk : PersistentState) (machine machine' : σ) : RaftNode σ :=
  persistHardState
    { (loaded options disk machine).called machine' with
      hardState :=
        { disk.hardState with commitIndex := committedIn disk, lastApplied := committedIn disk } }

/-- **The constructor** checks the options, the log and the commit index, and asks the machine. -/
theorem construct_spec :
    Ends (fun _ s => validateOptions options = .ok () ∧
        checkLog (loaded options disk machine) = .ok () ∧
        committedIn disk ≤ (loaded options disk machine).lastLogIndex ∧ ∃ machine',
          sm.recover disk.snapshot (committedEntries disk) machine = (.ok (), machine') ∧
            s = recovered options disk machine machine')
      (fun e _ => validateOptions options = .error e ∨
        checkLog (loaded options disk machine) = .error e ∨
        (loaded options disk machine).lastLogIndex < committedIn disk ∧
          e = .runtimeError "persisted Raft commit index exceeds the log" ∨
        ∃ machine',
          sm.recover disk.snapshot (committedEntries disk) machine = (.error e, machine'))
      (construct sm options disk machine) := by
  unfold construct constructBody
  rw [read_bind_apply]
  refine Ends.bind (M := fun _ s => s = loaded options disk machine ∧ validateOptions options = .ok ())
    (Ends.check (fun _ hok => ⟨rfl, hok⟩) fun e he => Or.inl he) fun _ s hs => ?_
  obtain ⟨rfl, hoptions⟩ := hs
  refine Ends.bind (M := fun _ s => s = loaded options disk machine ∧
      checkLog (loaded options disk machine) = .ok ())
    (Ends.check (fun _ hok => ⟨rfl, hok⟩) fun e he => Or.inr (Or.inl he)) fun _ s hs => ?_
  obtain ⟨rfl, hcheck⟩ := hs
  rw [update_bind_apply, read_bind_apply, raiseCommitToSnapshot_eq]
  by_cases hover : committedIn disk > (loaded options disk machine).lastLogIndex
  · exact (congrArg _ (congrFun (if_pos hover) _)).mpr (Or.inr (Or.inr (Or.inl ⟨hover, rfl⟩)))
  refine (congrArg _ (congrFun (if_neg hover) _)).mpr ?_
  rw [bind_apply, callMachine]
  have hcall : ∀ raised : RaftNode σ, raised.machine = machine → raised.snapshot = disk.snapshot →
      raised.log = disk.log → raised.hardState.commitIndex = committedIn disk →
      sm.recover raised.snapshot (raised.log.filter fun entry =>
        decide (entry.index ≤ raised.hardState.commitIndex)) raised.machine =
        sm.recover disk.snapshot (committedEntries disk) machine := by
    intro raised hmachine hsnapshot hlog hcommit
    rw [hmachine, hsnapshot, hlog, hcommit]
    rfl
  rw [hcall _ rfl rfl rfl rfl]
  rcases hrun : sm.recover disk.snapshot (committedEntries disk) machine with ⟨result, machine'⟩
  cases result with
  | error e => exact Or.inr (Or.inr (Or.inr ⟨machine', rfl⟩))
  | ok _ => exact ⟨hoptions, hcheck, not_lt.mp hover, machine', rfl, rfl⟩

end Construct

/-! ## Whole sequences -/

section Sequences

variable {σ : Type}

/-- One stretch of locked code, with the arguments it may get; or a restart. -/
inductive Stretch where
  | handleRequestVote (request : RequestVoteRequest)
  | handleAppendEntries (request : AppendEntriesRequest)
  | handleInstallSnapshot (request : InstallSnapshotRequest)
  | submitAppend (command : Command)
  | submitCheck (entryIndex entryTerm : Nat)
  | campaignStart
  | campaignResponse (electionTerm : Nat) (response : RequestVoteResponse)
  | campaignFinish (electionTerm votes : Nat)
  | replicateAllStart
  | peerRequest (peer : Peer) (heartbeatOnly : Bool)
  | installResponse (peer : Peer) (requestTerm : Nat) (response : InstallSnapshotResponse)
  | appendResponse (peer : Peer) (requestTerm : Nat) (response : AppendEntriesResponse)
  | replicateAllFinish (requestTerm : Nat)
  | confirmCheck (contactedQuorum : Bool)
  | triggerSnapshot
  /-- The process ends and a node is constructed from its directory. -/
  | restart (options : RaftNodeOptions)

/-- Run a program for what it does. -/
def discard {α : Type} (program : Locked σ α) : Locked σ Unit := do
  let _ ← program
  pure ()

def Stretch.run (sm : StateMachine σ) : Stretch → Locked σ Unit
  | .handleRequestVote request => discard (RaftNode.handleRequestVote request)
  | .handleAppendEntries request => discard (RaftNode.handleAppendEntries sm request)
  | .handleInstallSnapshot request => discard (RaftNode.handleInstallSnapshot sm request)
  | .submitAppend command => discard (RaftNode.submitAppend sm command)
  | .submitCheck entryIndex entryTerm => discard (RaftNode.submitCheck entryIndex entryTerm)
  | .campaignStart => discard RaftNode.campaignStart
  | .campaignResponse electionTerm response =>
    discard (RaftNode.campaignResponse electionTerm response)
  | .campaignFinish electionTerm votes => discard (RaftNode.campaignFinish sm electionTerm votes)
  | .replicateAllStart => discard RaftNode.replicateAllStart
  | .peerRequest peer heartbeatOnly => discard (RaftNode.peerRequest peer heartbeatOnly)
  | .installResponse peer requestTerm response =>
    discard (RaftNode.installResponse peer requestTerm response)
  | .appendResponse peer requestTerm response =>
    discard (RaftNode.appendResponse peer requestTerm response)
  | .replicateAllFinish requestTerm => discard (RaftNode.replicateAllFinish sm requestTerm)
  | .confirmCheck contactedQuorum => discard (RaftNode.confirmCheck contactedQuorum)
  | .triggerSnapshot => RaftNode.triggerSnapshot sm
  | .restart options => fun node => construct sm options node.disk node.machine

/-- Run stretches one after the other; `none` as soon as one throws. -/
def runAll (sm : StateMachine σ) : List Stretch → RaftNode σ → Option (RaftNode σ)
  | [], node => some node
  | stretch :: rest, node =>
    match stretch.run sm node with
    | (.ok _, node') => runAll sm rest node'
    | (.error _, _) => none

/-- What every stretch keeps that returns, a run of them keeps. -/
theorem runAll_keeps {sm : StateMachine σ} {I : RaftNode σ → Prop} {E : Error → RaftNode σ → Prop}
    (hrun : ∀ (stretch : Stretch) node, I node → Ends (fun _ => I) E (stretch.run sm node))
    {stretches : List Stretch} {node node' : RaftNode σ} (h : I node)
    (hall : runAll sm stretches node = some node') : I node' := by
  induction stretches generalizing node with
  | nil =>
    obtain rfl := Option.some.inj hall
    exact h
  | cons stretch rest ih =>
    have hout := hrun stretch node h
    unfold runAll at hall
    rcases hs : stretch.run sm node with ⟨result, next⟩
    rw [hs] at hall hout
    cases result with
    | ok _ => exact ih hout hall
    | error e => cases hall

/-- A node with one more entry of its own. -/
def withEntry (node : RaftNode σ) (command : Command) : RaftNode σ :=
  { node with log := node.log ++ [⟨node.lastLogIndex + 1, node.hardState.currentTerm, command⟩] }

theorem lastLogIndex_withEntry (node : RaftNode σ) (command : Command) :
    (node.withEntry command).lastLogIndex = node.lastLogIndex + 1 := by
  unfold withEntry
  rw [lastLogIndex]
  simp

/-- Where a leader may commit. -/
def CommitPoint (node : RaftNode σ) (index : Nat) : Prop :=
  index = node.lastLogIndex ∨ node.advanceCommit = some index

/-- **What remains to be shown** of a property and of what holds behind a throw. -/
structure Upheld (sm : StateMachine σ) (Allowed : Command → Prop) (I : RaftNode σ → Prop)
    (E : Error → RaftNode σ → Prop) : Prop where
  untouched : ∀ {node node'}, Untouched node node' → I node → I node'
  denied : ∀ {node}, I node → E (.logicError "only a leader may append a local Raft entry") node
  noop : Allowed {}
  append : ∀ {node command}, I node → node.hardState.currentTerm ≠ 0 → Allowed command →
    I (node.withEntry command).persistLog
  commit : ∀ {node index}, I node → node.CommitPoint index →
    Ends (fun _ => I) E (commitTo sm index node)
  threshold : ∀ {node n}, I node →
    I { node with options := { node.options with snapshotThresholdEntries := n } }
  snapshotted : ∀ {node term payload}, I node → Snapshots sm node term payload →
    I (node.snapshotted term payload)
  snapshotFails : ∀ {node e}, I node → SnapshotFails sm node e → E e node

variable {sm : StateMachine σ} {Allowed : Command → Prop} {I : RaftNode σ → Prop}
  {E : Error → RaftNode σ → Prop} {node : RaftNode σ}

section

variable (h : Upheld sm Allowed I E)
include h

/-- A leader's own entry is saved, and what follows finds it there. -/
theorem Upheld.appendLocalEntry {α : Type} (hnode : I node) {command : Command}
    (hallowed : Allowed command) {rest : LogEntry → Locked σ α}
    (hrest : I (node.withEntry command).persistLog → Ends (fun _ => I) E
      (rest ⟨node.lastLogIndex + 1, node.hardState.currentTerm, command⟩
        (node.withEntry command).persistLog)) :
    Ends (fun _ => I) E ((RaftNode.appendLocalEntry command >>= fun entry =>
      Program.update persistLog >>= fun _ => rest entry) node) := by
  rw [bind_apply]
  unfold RaftNode.appendLocalEntry
  rw [read_bind_apply]
  by_cases hcannot : node.role ≠ .Leader ∨ node.hardState.currentTerm = 0
  · rw [if_pos hcannot]
    exact h.denied hnode
  · rw [if_neg hcannot]
    exact hrest (h.append hnode (not_or.mp hcannot).2 hallowed)

theorem Upheld.submitAppend (hnode : I node) {command : Command} (hallowed : Allowed command)
    : Ends (fun _ => I) E (RaftNode.submitAppend sm command node) := by
  unfold RaftNode.submitAppend
  rw [read_bind_apply]
  by_cases hrole : node.role ≠ .Leader
  · rw [if_pos hrole]
    exact hnode
  rw [if_neg hrole]
  refine h.appendLocalEntry hnode hallowed fun hsaved => ?_
  rw [read_bind_apply]
  split_ifs
  · exact Ends.bind (h.commit hsaved (Or.inl (lastLogIndex_withEntry node command).symm))
      fun _ _ hs => hs
  · exact hsaved

theorem Upheld.campaignFinish (hnode : I node) (electionTerm votes : Nat) :
    Ends (fun _ => I) E (RaftNode.campaignFinish sm electionTerm votes node) := by
  unfold RaftNode.campaignFinish
  rw [read_bind_apply]
  split_ifs
  · rw [update_bind_apply]
    refine h.appendLocalEntry (h.untouched (untouched_becomeLeader node) hnode) h.noop
      fun hsaved => ?_
    rw [read_bind_apply]
    refine Ends.bind (M := fun _ => I) ?_ fun _ _ hs => hs
    by_cases hquorum : (node.becomeLeader.withEntry {}).persistLog.quorumSize = 1
    · rw [when_pos hquorum]
      exact h.commit hsaved (Or.inl rfl)
    · rw [when_neg hquorum]
      exact hsaved
  · exact hnode

theorem Upheld.replicateAllFinish (hnode : I node) (requestTerm : Nat) :
    Ends (fun _ => I) E (RaftNode.replicateAllFinish sm requestTerm node) := by
  unfold RaftNode.replicateAllFinish
  rw [read_bind_apply]
  split_ifs
  · cases hadvance : node.advanceCommit with
    | none => exact hnode
    | some candidate => exact Ends.bind (h.commit hnode (Or.inr hadvance)) fun _ _ hs => hs
  · exact hnode

theorem Upheld.triggerSnapshot (hnode : I node) :
    Ends (fun _ => I) E (RaftNode.triggerSnapshot sm node) := by
  unfold RaftNode.triggerSnapshot
  rw [read_bind_apply]
  split_ifs
  · exact hnode
  · rw [update_bind_apply]
    have hlowered := h.threshold (n := 1) hnode
    refine Ends.bind (M := fun _ => I) ((maybeCreateSnapshot_spec sm _).mono (fun _ s hs => ?_)
      fun e s hs => hs.2 ▸ h.snapshotFails hlowered hs.1) fun _ _ hs => h.threshold hs
    rcases hs with ⟨-, rfl⟩ | ⟨term, payload, hmade, rfl⟩
    · exact hlowered
    · exact h.snapshotted hlowered hmade

theorem Upheld.handleAppendEntries (hnode : I node) {request : AppendEntriesRequest}
    (haccept : node.Continues request → ∀ n, Untouched node n → I n →
      Ends (fun _ => I) E (acceptEntries sm request n)) :
    Ends (fun _ => I) E (RaftNode.handleAppendEntries sm request node) := by
  have hfollow := untouched_follow node request.term request.leaderId
  rcases handleAppendEntries_cases sm node request with
    ⟨response, -, -, heq | ⟨-, heq⟩⟩ | ⟨hcontinues, heq⟩
  · rw [heq]
    exact hnode
  · rw [heq]
    exact h.untouched hfollow hnode
  · rw [heq]
    exact haccept hcontinues _ hfollow (h.untouched hfollow hnode)

theorem Upheld.handleInstallSnapshot (hnode : I node) {request : InstallSnapshotRequest}
    (hinstall : ¬ node.HasSnapshot request → ∀ n, Untouched node n → I n →
      Ends (fun _ => I) E (installAccepted sm request n)) :
    Ends (fun _ => I) E (RaftNode.handleInstallSnapshot sm request node) := by
  have hfollow := untouched_follow node request.term request.leaderId
  rw [handleInstallSnapshot_eq]
  split_ifs with hstale hhas
  · exact hnode
  · exact h.untouched hfollow hnode
  · exact hinstall hhas _ hfollow (h.untouched hfollow hnode)

/-- **Every stretch**, given what it does with a request and with the files. -/
theorem Upheld.run (hnode : I node) {stretch : Stretch}
    (happend : ∀ request, stretch = .handleAppendEntries request →
      Ends (fun _ => I) E (RaftNode.handleAppendEntries sm request node))
    (hinstall : ∀ request, stretch = .handleInstallSnapshot request →
      Ends (fun _ => I) E (RaftNode.handleInstallSnapshot sm request node))
    (hsubmit : ∀ command, stretch = .submitAppend command → Allowed command)
    (hrestart : ∀ options, stretch = .restart options →
      Ends (fun _ => I) E (construct sm options node.disk node.machine)) :
    Ends (fun _ => I) E (stretch.run sm node) := by
  have hdiscard : ∀ {α : Type} {program : Locked σ α}, Ends (fun _ => I) E (program node) →
      Ends (fun _ => I) E (discard program node) := fun hends => Ends.bind hends fun _ _ hs => hs
  have huntouched : ∀ {α : Type} {program : Locked σ α}, Untouches program →
      Ends (fun _ => I) E (discard program node) := by
    intro α program hprogram
    obtain ⟨a, s, hrun, hs⟩ := hprogram node
    refine hdiscard ?_
    rw [hrun]
    exact h.untouched hs hnode
  cases stretch with
  | handleRequestVote request => exact huntouched (handleRequestVote_untouches request)
  | handleAppendEntries request => exact hdiscard (happend request rfl)
  | handleInstallSnapshot request => exact hdiscard (hinstall request rfl)
  | submitAppend command => exact hdiscard (h.submitAppend hnode (hsubmit command rfl))
  | submitCheck entryIndex entryTerm => exact huntouched (submitCheck_untouches entryIndex entryTerm)
  | campaignStart => exact huntouched campaignStart_untouches
  | campaignResponse electionTerm response =>
    exact huntouched (campaignResponse_untouches electionTerm response)
  | campaignFinish electionTerm votes => exact hdiscard (h.campaignFinish hnode electionTerm votes)
  | replicateAllStart => exact huntouched replicateAllStart_untouches
  | peerRequest peer heartbeatOnly => exact huntouched (peerRequest_untouches peer heartbeatOnly)
  | installResponse peer requestTerm response =>
    exact huntouched (installResponse_untouches peer requestTerm response)
  | appendResponse peer requestTerm response =>
    exact huntouched (appendResponse_untouches peer requestTerm response)
  | replicateAllFinish requestTerm => exact hdiscard (h.replicateAllFinish hnode requestTerm)
  | confirmCheck contactedQuorum => exact huntouched (confirmCheck_untouches contactedQuorum)
  | triggerSnapshot => exact h.triggerSnapshot hnode
  | restart options => exact hrestart options rfl

end

end Sequences

end NebulaKV.Raft.RaftNode
