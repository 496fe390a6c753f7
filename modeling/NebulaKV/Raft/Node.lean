/-
# A Raft node

`raft/node.cpp`, one definition for each member function. A public operation of the class takes the
node's lock several times, and RPCs and other threads run between: every stretch of code under one
lock is a `Locked` program of its own here, over the members of the class. `RaftNode.disk` is what the
node's `RaftStorage` holds, `RaftNode.machine` the state machine it drives.

Each file of `RaftStorage` is replaced atomically, but an operation replaces two or three of them. The
`journal` lists what the disk and the state machine have been since the lock was taken, one item for
each file replaced and each call made: these are the states a crash can leave behind.

Deadlines, the condition variable and the metrics decide nothing here: which thread runs when, and
whether an RPC is answered in time, is left open by the model of the cluster.
-/
import NebulaKV.Raft.StateMachine

namespace NebulaKV.Raft

open Containers Effects
open Program (check)

/-- What one effect of a stretch has replaced: one of the three files, or the machine's state. -/
inductive Written where
  | hardState
  | log
  | snapshot
  | machine
  deriving DecidableEq

/-- The disk and the machine right after an effect. -/
structure Mark (σ : Type) where
  written : Written
  disk : PersistentState
  machine : σ

/-- The snapshot's file has just been replaced, and the log's file, which is next, holds entries. -/
def Mark.Tears {σ : Type} (mark : Mark σ) : Prop :=
  mark.written = .snapshot ∧ mark.disk.log ≠ []

instance {σ : Type} (mark : Mark σ) : Decidable mark.Tears :=
  inferInstanceAs (Decidable (_ ∧ _))

structure RaftNode (σ : Type) where
  options : RaftNodeOptions
  disk : PersistentState
  machine : σ
  journal : List (Mark σ)
  role : Role
  hardState : HardState
  log : List LogEntry
  snapshot : Option Snapshot
  leaderId : NodeId
  nextIndex : OrderedMap NodeId Nat
  matchIndex : OrderedMap NodeId Nat

/-- Code that runs under the node's lock. -/
abbrev Locked (σ α : Type) := Program (RaftNode σ) Error α

namespace RaftNode

variable {σ : Type}

/-! ## Storage -/

/-- One file of the storage has been replaced. -/
def store (node : RaftNode σ) (written : Written) (disk : PersistentState) : RaftNode σ :=
  { node with disk := disk, journal := node.journal ++ [⟨written, disk, node.machine⟩] }

def persistHardState (node : RaftNode σ) : RaftNode σ :=
  node.store .hardState { node.disk with hardState := node.hardState }

def persistLog (node : RaftNode σ) : RaftNode σ :=
  node.store .log { node.disk with log := node.log }

def saveSnapshot (snapshot : Snapshot) : Locked σ Unit :=
  if snapshot.lastIncludedIndex = 0 then
    Program.raise (.invalidArgument "snapshot index must be greater than zero")
  else if snapshot.payload.length > uint32Max then
    Program.raise (.lengthError "encoded string is too large")
  else
    Program.update fun node => node.store .snapshot { node.disk with snapshot := some snapshot }

/-- The state machine has been left in a new state. -/
def called (node : RaftNode σ) (machine : σ) : RaftNode σ :=
  { node with machine := machine, journal := node.journal ++ [⟨.machine, node.disk, machine⟩] }

/-- Call the state machine. -/
def callMachine (call : Program σ Error Unit) : Locked σ Unit := fun node =>
  ((call node.machine).1, node.called (call node.machine).2)

section Rules

variable {P R : RaftNode σ → Prop} {Q : Unit → RaftNode σ → Prop}

theorem Holds.callMachine {call : Program σ Error Unit}
    (h : ∀ node, P node → (call node.machine).1 = .ok () → Q () (node.called (call node.machine).2))
    (herror : ∀ node e, P node → (call node.machine).1 = .error e →
      R (node.called (call node.machine).2)) : Program.Holds P (callMachine call) Q R := by
  intro node hnode
  unfold RaftNode.callMachine
  cases hr : (call node.machine).1 with
  | ok u => exact h node hnode hr
  | error e => exact herror node e hnode hr

end Rules

/-! ## The log -/

def quorumSize (node : RaftNode σ) : Nat := (node.options.peers.length + 1) / 2 + 1

def lastLogIndex (node : RaftNode σ) : Nat :=
  match node.log.getLast? with
  | some entry => entry.index
  | none => snapshotIndex node.snapshot

def lastLogTerm (node : RaftNode σ) : Nat :=
  match node.log.getLast? with
  | some entry => entry.term
  | none =>
    match node.snapshot with
    | some snapshot => snapshot.lastIncludedTerm
    | none => 0

def firstIndex (node : RaftNode σ) : Nat := snapshotIndex node.snapshot + 1

/-- The term of the entry in the retained log. -/
def retainedTermAt (node : RaftNode σ) (index : Nat) : Option Nat :=
  if index < node.firstIndex ∨ index > node.lastLogIndex then none
  else (node.log[index - node.firstIndex]?).map LogEntry.term

def termAt (node : RaftNode σ) (index : Nat) : Option Nat :=
  if index = 0 then some 0
  else
    match node.snapshot with
    | some snapshot =>
      if index = snapshot.lastIncludedIndex then some snapshot.lastIncludedTerm
      else node.retainedTermAt index
    | none => node.retainedTermAt index

def entriesFrom (node : RaftNode σ) (index : Nat) : List LogEntry :=
  if index > node.lastLogIndex then []
  else if index < node.firstIndex then []
  else (node.log.drop (index - node.firstIndex)).take node.options.maxAppendEntries

def truncateLogFrom (index : Nat) (node : RaftNode σ) : RaftNode σ :=
  if index ≤ node.firstIndex then { node with log := [] }
  else if index > node.lastLogIndex then node
  else { node with log := node.log.take (index - node.firstIndex) }

/-- `upper_bound` on the index, and `erase` of everything before it. -/
def eraseThrough (index : Nat) (log : List LogEntry) : List LogEntry :=
  log.dropWhile fun entry => decide (entry.index ≤ index)

def appendEntries : List LogEntry → Locked σ Unit
  | [] => pure ()
  | entry :: rest => do
    let node ← Program.read
    if entry.index ≠ node.lastLogIndex + 1 ∨ entry.term = 0 then
      Program.raise (.runtimeError "invalid Raft log append")
    else do
      Program.update fun node => { node with log := node.log ++ [entry] }
      appendEntries rest

def appendLocalEntry (command : Command) : Locked σ LogEntry := do
  let node ← Program.read
  if node.role ≠ .Leader ∨ node.hardState.currentTerm = 0 then
    Program.raise (.logicError "only a leader may append a local Raft entry")
  else do
    let entry : LogEntry := ⟨node.lastLogIndex + 1, node.hardState.currentTerm, command⟩
    Program.update fun node => { node with log := node.log ++ [entry] }
    return entry

/-! ## Roles -/

def becomeFollower (term : Nat) (leaderId : NodeId) (node : RaftNode σ) : RaftNode σ :=
  if term < node.hardState.currentTerm then node
  else
    let hardState :=
      if term > node.hardState.currentTerm then
        { node.hardState with currentTerm := term, votedFor := [] }
      else node.hardState
    persistHardState
      { node with
        hardState := hardState
        role := .Follower
        leaderId := leaderId
        nextIndex := OrderedMap.empty
        matchIndex := OrderedMap.empty }

def becomeLeader (node : RaftNode σ) : RaftNode σ :=
  { node with
    role := .Leader
    leaderId := node.options.nodeId
    nextIndex := node.options.peers.foldl
      (fun map peer => map.emplace peer.id (node.lastLogIndex + 1)) OrderedMap.empty
    matchIndex := node.options.peers.foldl
      (fun map peer => map.emplace peer.id 0) OrderedMap.empty }

/-! ## Applying committed entries -/

variable (sm : StateMachine σ)

def maybeCreateSnapshot : Locked σ Unit := do
  let node ← Program.read
  if node.options.snapshotThresholdEntries = 0 ∨ node.hardState.lastApplied = 0 then pure ()
  else if u64Sub node.hardState.lastApplied (snapshotIndex node.snapshot) <
      node.options.snapshotThresholdEntries then pure ()
  else
    match node.termAt node.hardState.lastApplied with
    | none => Program.raise (.runtimeError "cannot determine term for Raft snapshot")
    | some term => do
      let payload ← check (sm.createSnapshot node.machine)
      let created : Snapshot := ⟨node.hardState.lastApplied, term, payload⟩
      saveSnapshot created
      Program.update fun node =>
        { node with
          snapshot := some created
          log := eraseThrough created.lastIncludedIndex node.log }
      Program.update persistLog

/-- The body of the loop in `apply_committed_locked`. -/
def applyNext : Locked σ Unit := do
  let node ← Program.read
  let index := node.hardState.lastApplied + 1
  if node.snapshot.isSome ∧ index ≤ snapshotIndex node.snapshot then
    Program.update fun node =>
      { node with hardState := { node.hardState with lastApplied := snapshotIndex node.snapshot } }
  else if index < node.firstIndex then
    Program.raise (.runtimeError "committed Raft entry is no longer available")
  else
    match node.log[index - node.firstIndex]? with
    | none => Program.raise (.runtimeError "committed Raft entry is missing")
    | some entry => do
      callMachine (sm.apply entry)
      Program.update fun node =>
        { node with hardState := { node.hardState with lastApplied := index } }

def hasUnapplied (node : RaftNode σ) : Bool :=
  decide (node.hardState.lastApplied < node.hardState.commitIndex)

/-- Every round of the loop raises `last_applied`, so the difference bounds the number of rounds. -/
def applyCommitted : Locked σ Unit := do
  let node ← Program.read
  Program.repeatWhile hasUnapplied (applyNext sm)
    (node.hardState.commitIndex - node.hardState.lastApplied)
  maybeCreateSnapshot sm

/-- Set the commit index, apply, persist: the tail that every commit shares. -/
def commitTo (index : Nat) : Locked σ Unit := do
  Program.update fun node =>
    { node with hardState := { node.hardState with commitIndex := index } }
  applyCommitted sm
  Program.update persistHardState

/-! ## Construction -/

def contiguous : List LogEntry → Bool
  | a :: b :: rest => if b.index ≠ a.index + 1 then false else contiguous (b :: rest)
  | _ => true

/-- The members before the constructor's body has run: the loaded state. -/
def loaded (options : RaftNodeOptions) (disk : PersistentState) (machine : σ) : RaftNode σ where
  options := options
  disk := disk
  machine := machine
  journal := []
  role := .Follower
  hardState := disk.hardState
  log := disk.log
  snapshot := disk.snapshot
  leaderId := []
  nextIndex := OrderedMap.empty
  matchIndex := OrderedMap.empty

def checkLog (node : RaftNode σ) : Except Error Unit :=
  match node.log with
  | [] => .ok ()
  | front :: _ =>
    if front.index ≠ snapshotIndex node.snapshot + 1 then
      .error (.runtimeError "persisted Raft log does not follow its snapshot")
    else if contiguous node.log then .ok ()
    else .error (.runtimeError "persisted Raft log indices are not contiguous")

def raiseCommitToSnapshot (node : RaftNode σ) : RaftNode σ :=
  if node.hardState.commitIndex < snapshotIndex node.snapshot then
    { node with
      hardState := { node.hardState with commitIndex := snapshotIndex node.snapshot } }
  else node

def constructBody : Locked σ Unit := do
  let node ← Program.read
  check (validateOptions node.options)
  check (checkLog node)
  Program.update raiseCommitToSnapshot
  let node ← Program.read
  if node.hardState.commitIndex > node.lastLogIndex then
    Program.raise (.runtimeError "persisted Raft commit index exceeds the log")
  else do
    callMachine (sm.recover node.snapshot
      (node.log.filter fun entry => decide (entry.index ≤ node.hardState.commitIndex)))
    Program.update fun node =>
      persistHardState
        { node with
          hardState := { node.hardState with lastApplied := node.hardState.commitIndex } }

/-- The constructor, on a directory that holds `disk` and a state machine left in state `machine`. -/
def construct (options : RaftNodeOptions) (disk : PersistentState) (machine : σ) :
    Except Error Unit × RaftNode σ :=
  constructBody sm (loaded options disk machine)

/-! ## The RPC handlers -/

def handleRequestVote (request : RequestVoteRequest) : Locked σ RequestVoteResponse := do
  let node ← Program.read
  if request.term < node.hardState.currentTerm then
    return ⟨node.hardState.currentTerm, false⟩
  else do
    Program.when (request.term > node.hardState.currentTerm)
      (Program.update (becomeFollower request.term []))
    let node ← Program.read
    let candidateIsCurrent := request.lastLogTerm > node.lastLogTerm ∨
      (request.lastLogTerm = node.lastLogTerm ∧ request.lastLogIndex ≥ node.lastLogIndex)
    let canVote := node.hardState.votedFor = [] ∨ node.hardState.votedFor = request.candidateId
    if canVote ∧ candidateIsCurrent then do
      Program.update fun node =>
        persistHardState
          { node with hardState := { node.hardState with votedFor := request.candidateId } }
      return ⟨node.hardState.currentTerm, true⟩
    else
      return ⟨node.hardState.currentTerm, false⟩

/-- How far the back-off of a rejected `AppendEntries` walks: to the first index of the run of entries
of the conflicting term. -/
def conflictIndex (node : RaftNode σ) (previousTerm : Nat) : Nat → Nat
  | 0 => 0
  | index + 1 =>
    if index + 1 > snapshotIndex node.snapshot + 1 then
      match node.termAt index with
      | some earlier =>
        if earlier = previousTerm then conflictIndex node previousTerm index else index + 1
      | none => index + 1
    else index + 1

/-- The entry held at the index has another term than the one that arrived. -/
def conflicts (node : RaftNode σ) (incoming : LogEntry) : Bool :=
  match node.termAt incoming.index with
  | some existing => decide (existing ≠ incoming.term)
  | none => false

/-- The loop over the entries of a request. `none`: an entry's index is not the one its position
asks for. Otherwise, whether the log has changed. -/
def mergeEntries (previous : Nat) : Nat → List LogEntry → Bool → Locked σ (Option Bool)
  | _, [], changed => pure (some changed)
  | position, incoming :: rest, changed => do
    let node ← Program.read
    if incoming.index ≠ previous + position + 1 then return none
    else if incoming.index ≤ snapshotIndex node.snapshot then
      mergeEntries previous (position + 1) rest changed
    else do
      Program.when (node.conflicts incoming) (Program.update (truncateLogFrom incoming.index))
      let cut ← Program.read
      if cut.termAt incoming.index = none then do
        appendEntries (incoming :: rest)
        return some true
      else
        mergeEntries previous (position + 1) rest (changed || node.conflicts incoming)

/-- The index of the last entry a request carries, or the one before its first. -/
def requestEnd (request : AppendEntriesRequest) : Nat :=
  match request.entries.getLast? with
  | some entry => entry.index
  | none => request.previousLogIndex

/-- The end of an accepted request: the commit index follows the leader's, and the reply. -/
def acceptCommit (request : AppendEntriesRequest) : Locked σ AppendEntriesResponse := do
  let node ← Program.read
  Program.when (request.leaderCommit > node.hardState.commitIndex)
    (commitTo sm (min request.leaderCommit node.lastLogIndex))
  let node ← Program.read
  return ⟨node.hardState.currentTerm, true, min (requestEnd request) node.lastLogIndex, 0⟩

/-- From a request that continues a log held here, to the reply. -/
def acceptEntries (request : AppendEntriesRequest) : Locked σ AppendEntriesResponse := do
  let merged ← mergeEntries request.previousLogIndex 0 request.entries false
  let node ← Program.read
  match merged with
  | none =>
    return ⟨node.hardState.currentTerm, false, node.lastLogIndex, node.lastLogIndex + 1⟩
  | some changed => do
    Program.when changed (Program.update persistLog)
    acceptCommit sm request

/-- A request of a current or later term makes its sender the leader this node follows. -/
def follow (term : Nat) (leaderId : NodeId) (node : RaftNode σ) : RaftNode σ :=
  let node :=
    if term > node.hardState.currentTerm ∨ node.role ≠ .Follower then
      node.becomeFollower term leaderId
    else node
  { node with leaderId := leaderId }

def handleAppendEntries (request : AppendEntriesRequest) : Locked σ AppendEntriesResponse := do
  let node ← Program.read
  if request.term < node.hardState.currentTerm then
    return ⟨node.hardState.currentTerm, false, node.lastLogIndex, node.lastLogIndex + 1⟩
  else do
    Program.update (follow request.term request.leaderId)
    let node ← Program.read
    if request.previousLogIndex < snapshotIndex node.snapshot then
      return ⟨node.hardState.currentTerm, false, snapshotIndex node.snapshot,
        snapshotIndex node.snapshot + 1⟩
    else
      match node.termAt request.previousLogIndex with
      | none =>
        return ⟨node.hardState.currentTerm, false, node.lastLogIndex, node.lastLogIndex + 1⟩
      | some previousTerm =>
        if previousTerm ≠ request.previousLogTerm then
          return ⟨node.hardState.currentTerm, false, 0,
            node.conflictIndex previousTerm request.previousLogIndex⟩
        else acceptEntries sm request

/-- What is kept of the log behind an installed snapshot: everything, if the log held the snapshot's
last entry, and nothing otherwise. -/
def keepBehind (request : InstallSnapshotRequest) (node : RaftNode σ) : RaftNode σ :=
  if node.termAt request.lastIncludedIndex = some request.lastIncludedTerm then
    { node with log := eraseThrough request.lastIncludedIndex node.log }
  else { node with log := [] }

def installAccepted (request : InstallSnapshotRequest) : Locked σ InstallSnapshotResponse := do
  Program.update (keepBehind request)
  let installed : Snapshot :=
    ⟨request.lastIncludedIndex, request.lastIncludedTerm, request.payload⟩
  saveSnapshot installed
  Program.update fun node => persistLog { node with snapshot := some installed }
  callMachine (sm.installSnapshot installed.payload)
  Program.update fun node =>
    persistHardState
      { node with
        hardState :=
          { node.hardState with
            commitIndex := max node.hardState.commitIndex installed.lastIncludedIndex
            lastApplied := max node.hardState.lastApplied installed.lastIncludedIndex } }
  let node ← Program.read
  return ⟨node.hardState.currentTerm, true, installed.lastIncludedIndex⟩

def handleInstallSnapshot (request : InstallSnapshotRequest) :
    Locked σ InstallSnapshotResponse := do
  let node ← Program.read
  if request.term < node.hardState.currentTerm then
    return ⟨node.hardState.currentTerm, false, snapshotIndex node.snapshot⟩
  else do
    Program.update (follow request.term request.leaderId)
    let node ← Program.read
    if node.snapshot.isSome ∧ request.lastIncludedIndex ≤ snapshotIndex node.snapshot then
      return ⟨node.hardState.currentTerm, true, snapshotIndex node.snapshot⟩
    else installAccepted sm request

end RaftNode

end NebulaKV.Raft
