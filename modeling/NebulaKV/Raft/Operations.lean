/-
# The operations of a Raft node

`submit`, `begin_election`, `replicate_all`, `replicate_peer`, `confirm_leadership` and
`trigger_snapshot` of `raft/node.cpp`, cut at the points where the node's lock is released. What an
operation carries in local variables from one stretch to the next (the election term, the votes, the
term of a replication round) is an argument here: the lock is not held in between, and the node may
have moved on.
-/
import NebulaKV.Raft.Node

namespace NebulaKV.Raft.RaftNode

open Containers Effects

variable {σ : Type} (sm : StateMachine σ)

/-! ## Submitting a command -/

/-- After the first stretch of `submit` the call has its answer, or waits for its entry. -/
inductive SubmitStart where
  | answered (result : SubmitResult)
  | pending (entryIndex entryTerm : Nat)
  deriving DecidableEq

def submitAppend (command : Command) : Locked σ SubmitStart := do
  let node ← Program.read
  if node.role ≠ .Leader then
    return .answered ⟨.NotLeader, 0, node.hardState.currentTerm, node.leaderId,
      "request must be sent to the current leader"⟩
  else do
    let entry ← appendLocalEntry command
    Program.update persistLog
    let node ← Program.read
    if node.quorumSize = 1 then do
      commitTo sm entry.index
      return .answered ⟨.Committed, entry.index, entry.term, node.options.nodeId, ""⟩
    else
      return .pending entry.index entry.term

/-- The check after each replication round: the commit index is looked at FIRST. -/
def submitCheck (entryIndex entryTerm : Nat) : Locked σ (Option SubmitResult) := do
  let node ← Program.read
  if node.hardState.commitIndex ≥ entryIndex then
    return some ⟨.Committed, entryIndex, entryTerm, node.options.nodeId, ""⟩
  else if node.role ≠ .Leader ∨ node.hardState.currentTerm ≠ entryTerm then
    return some ⟨.NotLeader, entryIndex, node.hardState.currentTerm, node.leaderId,
      "leadership changed before the command committed"⟩
  else return none

/-! ## Elections -/

def campaignStart : Locked σ (Option RequestVoteRequest) := do
  let node ← Program.read
  if node.role = .Leader then return none
  else do
    Program.update fun node =>
      persistHardState
        { node with
          role := .Candidate
          leaderId := []
          hardState :=
            { node.hardState with
              currentTerm := node.hardState.currentTerm + 1
              votedFor := node.options.nodeId } }
    let node ← Program.read
    return some ⟨node.hardState.currentTerm, node.options.nodeId, node.lastLogIndex,
      node.lastLogTerm⟩

/-- One answer to a vote request: `none` ends the campaign, otherwise whether it was a vote. -/
def campaignResponse (electionTerm : Nat) (response : RequestVoteResponse) :
    Locked σ (Option Bool) := do
  let node ← Program.read
  if response.term > node.hardState.currentTerm then do
    Program.update (becomeFollower response.term [])
    return none
  else if node.role ≠ .Candidate ∨ node.hardState.currentTerm ≠ electionTerm then return none
  else return some response.voteGranted

def campaignFinish (electionTerm votes : Nat) : Locked σ Bool := do
  let node ← Program.read
  if node.role = .Candidate ∧ node.hardState.currentTerm = electionTerm ∧
      votes ≥ node.quorumSize then do
    Program.update becomeLeader
    let _ ← appendLocalEntry {}
    Program.update persistLog
    let node ← Program.read
    Program.when (node.quorumSize = 1) (commitTo sm node.lastLogIndex)
    return true
  else return false

/-! ## Replication -/

/-- What `replicate_peer` does next for a peer. -/
inductive PeerRequest where
  /-- Not the leader any more: give up. -/
  | stop
  /-- Nothing to send for this `next_index`: it was lowered, try again. -/
  | again
  | snapshot (request : InstallSnapshotRequest)
  | append (request : AppendEntriesRequest)
  deriving DecidableEq

def replicateAllStart : Locked σ (Option Nat) := do
  let node ← Program.read
  if node.role ≠ .Leader then return none
  else return some node.hardState.currentTerm

def installRequest (node : RaftNode σ) (snapshot : Snapshot) : InstallSnapshotRequest :=
  ⟨node.hardState.currentTerm, node.options.nodeId, snapshot.lastIncludedIndex,
    snapshot.lastIncludedTerm, snapshot.payload⟩

/-- The index before the next one to send. -/
def previousOf (next : Nat) : Nat := if next = 0 then 0 else next - 1

def appendRequest (peer : Peer) (heartbeatOnly : Bool) (next : Nat) : Locked σ PeerRequest := do
  let node ← Program.read
  match node.termAt (previousOf next) with
  | none => do
    Program.update fun node =>
      { node with
        nextIndex := node.nextIndex.insert peer.id
          (match node.snapshot with
            | some snapshot => snapshot.lastIncludedIndex
            | none => max 1 (u64Sub next 1)) }
    return .again
  | some previousTerm =>
    return .append ⟨node.hardState.currentTerm, node.options.nodeId, previousOf next, previousTerm,
      if heartbeatOnly then [] else node.entriesFrom next, node.hardState.commitIndex⟩

/-- A peer without a `next_index` gets the index behind the log. -/
def ensureNext (peer : Peer) (node : RaftNode σ) : RaftNode σ :=
  { node with nextIndex := node.nextIndex.emplace peer.id (node.lastLogIndex + 1) }

def nextFor (node : RaftNode σ) (peer : Peer) : Nat := (node.nextIndex.find? peer.id).getD 0

/-- The stretch that builds the next request for a peer. -/
def peerRequest (peer : Peer) (heartbeatOnly : Bool) : Locked σ PeerRequest := do
  let node ← Program.read
  if node.role ≠ .Leader then return .stop
  else do
    Program.update (ensureNext peer)
    let node ← Program.read
    match node.snapshot with
    | some snapshot =>
      if node.nextFor peer ≤ snapshot.lastIncludedIndex then
        return .snapshot (node.installRequest snapshot)
      else appendRequest peer heartbeatOnly (node.nextFor peer)
    | none => appendRequest peer heartbeatOnly (node.nextFor peer)

/-- The peer has everything up to `index`. -/
def recordMatch (peer : Peer) (index : Nat) (node : RaftNode σ) : RaftNode σ :=
  { node with
    matchIndex := node.matchIndex.insert peer.id index
    nextIndex := node.nextIndex.insert peer.id (index + 1) }

/-- The peer refused: go on from the index it named, or one lower if it named none. -/
def backOff (peer : Peer) (conflictIndex : Nat) (node : RaftNode σ) : RaftNode σ :=
  let currentNext := node.nextFor peer
  let fallback := if conflictIndex = 0 then max 1 (u64Sub currentNext 1) else conflictIndex
  { node with nextIndex := node.nextIndex.insert peer.id (min currentNext fallback) }

/-- The answer to an `InstallSnapshot`: whether the peer was reached. -/
def installResponse (peer : Peer) (requestTerm : Nat) (response : InstallSnapshotResponse) :
    Locked σ Bool := do
  let node ← Program.read
  if response.term > node.hardState.currentTerm then do
    Program.update (becomeFollower response.term [])
    return false
  else if node.role ≠ .Leader ∨ node.hardState.currentTerm ≠ requestTerm then return false
  else if response.success then do
    Program.update (recordMatch peer response.installedIndex)
    return true
  else return false

/-- The answer to an `AppendEntries`: `none` asks for another attempt with a lower `next_index`. -/
def appendResponse (peer : Peer) (requestTerm : Nat) (response : AppendEntriesResponse) :
    Locked σ (Option Bool) := do
  let node ← Program.read
  if response.term > node.hardState.currentTerm then do
    Program.update (becomeFollower response.term [])
    return some false
  else if node.role ≠ .Leader ∨ node.hardState.currentTerm ≠ requestTerm then return some false
  else if response.success then do
    Program.update (recordMatch peer response.matchIndex)
    return some true
  else do
    Program.update (backOff peer response.conflictIndex)
    return none

/-- The indices the cluster is known to hold: the node's own last index, then each peer's. -/
def replicated (node : RaftNode σ) : List Nat :=
  node.lastLogIndex :: node.options.peers.map fun peer => (node.matchIndex.find? peer.id).getD 0

/-- The highest index that a quorum holds. -/
def commitCandidate (node : RaftNode σ) : Nat :=
  ((node.replicated.insertionSort (· ≤ ·))[node.replicated.length - node.quorumSize]?).getD 0

/-- The index `advance_commit_locked` moves to, if it moves. -/
def advanceCommit (node : RaftNode σ) : Option Nat :=
  if node.commitCandidate ≤ node.hardState.commitIndex then none
  else if node.termAt node.commitCandidate = some node.hardState.currentTerm then
    some node.commitCandidate
  else none

/-- The end of a replication round. -/
structure RoundEnd where
  commitAdvanced : Bool
  currentLeader : Bool
  deriving DecidableEq

def replicateAllFinish (requestTerm : Nat) : Locked σ RoundEnd := do
  let node ← Program.read
  if node.role = .Leader ∧ node.hardState.currentTerm = requestTerm then
    match node.advanceCommit with
    | some candidate => do
      commitTo sm candidate
      return ⟨true, true⟩
    | none => return ⟨false, true⟩
  else return ⟨false, false⟩

/-! ## Reads and snapshots -/

/-- The check after each round of `confirm_leadership`: `none` asks for another round. -/
def confirmCheck (contactedQuorum : Bool) : Locked σ (Option Bool) := do
  let node ← Program.read
  if node.role ≠ .Leader then return some false
  else if contactedQuorum ∧
      node.termAt node.hardState.commitIndex = some node.hardState.currentTerm then
    return some true
  else return none

/-- `trigger_snapshot` lowers the threshold while the snapshot is made; a throw leaves it lowered. -/
def triggerSnapshot : Locked σ Unit := do
  let node ← Program.read
  if node.hardState.lastApplied = 0 then pure ()
  else do
    Program.update fun node =>
      { node with options := { node.options with snapshotThresholdEntries := 1 } }
    maybeCreateSnapshot sm
    Program.update fun later =>
      { later with
        options :=
          { later.options with
            snapshotThresholdEntries := node.options.snapshotThresholdEntries } }

end NebulaKV.Raft.RaftNode
