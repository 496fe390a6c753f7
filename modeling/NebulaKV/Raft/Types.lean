/-
# The records of the Raft layer

`raft/types.hpp`: node ids, commands, log entries, the three RPCs with their replies, what is kept on
disk, and the options of a node. Terms and indices are naturals; the code's `std::uint64_t` shows only
where it subtracts (`u64Sub`).

Metrics, node status and the random seed are read by no transition and are not here.
-/
import NebulaKV.Core.Validation
import Mathlib.Data.List.Sort

namespace NebulaKV.Raft

abbrev NodeId := Bytes

structure Peer where
  id : NodeId
  address : Bytes
  deriving DecidableEq

inductive Role where
  | Follower
  | Candidate
  | Leader
  deriving DecidableEq, Repr

inductive CommandType where
  | Noop
  | Put
  | Delete
  deriving DecidableEq, Repr

structure Command where
  type : CommandType := .Noop
  key : Bytes := []
  value : Bytes := []
  deriving DecidableEq

structure LogEntry where
  index : Nat
  term : Nat
  command : Command
  deriving DecidableEq

structure RequestVoteRequest where
  term : Nat
  candidateId : NodeId
  lastLogIndex : Nat
  lastLogTerm : Nat
  deriving DecidableEq

structure RequestVoteResponse where
  term : Nat
  voteGranted : Bool
  deriving DecidableEq

structure AppendEntriesRequest where
  term : Nat
  leaderId : NodeId
  previousLogIndex : Nat
  previousLogTerm : Nat
  entries : List LogEntry
  leaderCommit : Nat
  deriving DecidableEq

structure AppendEntriesResponse where
  term : Nat
  success : Bool
  matchIndex : Nat
  conflictIndex : Nat
  deriving DecidableEq

structure InstallSnapshotRequest where
  term : Nat
  leaderId : NodeId
  lastIncludedIndex : Nat
  lastIncludedTerm : Nat
  payload : Bytes
  deriving DecidableEq

structure InstallSnapshotResponse where
  term : Nat
  success : Bool
  installedIndex : Nat
  deriving DecidableEq

inductive SubmitStatus where
  | Committed
  | NotLeader
  | Timeout
  | Unavailable
  | InvalidCommand
  deriving DecidableEq, Repr

structure SubmitResult where
  status : SubmitStatus
  logIndex : Nat
  term : Nat
  leaderId : NodeId
  message : String
  deriving DecidableEq

structure Snapshot where
  lastIncludedIndex : Nat
  lastIncludedTerm : Nat
  payload : Bytes
  deriving DecidableEq

structure HardState where
  currentTerm : Nat := 0
  votedFor : NodeId := []
  commitIndex : Nat := 0
  lastApplied : Nat := 0
  deriving DecidableEq

/-- What `RaftStorage::load` returns: the contents of the three files. -/
structure PersistentState where
  hardState : HardState := {}
  log : List LogEntry := []
  snapshot : Option Snapshot := none
  deriving DecidableEq

structure RaftNodeOptions where
  nodeId : NodeId
  peers : List Peer
  electionTimeoutMin : Int := 300
  electionTimeoutMax : Int := 600
  heartbeatInterval : Int := 75
  rpcTimeout : Int := 200
  maxAppendEntries : Nat := 128
  snapshotThresholdEntries : Nat := 10000
  deriving DecidableEq

/-- `snapshot ? snapshot->last_included_index : 0`. -/
def snapshotIndex (snapshot : Option Snapshot) : Nat :=
  match snapshot with
  | some s => s.lastIncludedIndex
  | none => 0

@[simp] theorem snapshotIndex_none : snapshotIndex none = 0 := rfl

@[simp] theorem snapshotIndex_some (s : Snapshot) : snapshotIndex (some s) = s.lastIncludedIndex :=
  rfl

/-- The ids are checked pairwise after sorting them: no two neighbours may be equal. -/
def adjacentFind : List NodeId → Bool
  | a :: b :: rest => if a = b then true else adjacentFind (b :: rest)
  | _ => false

/-- The first objection to a peer, in the order of the list. -/
def validatePeers (nodeId : NodeId) : List Peer → Except Error Unit
  | [] => .ok ()
  | peer :: rest =>
    if peer.id = [] ∨ peer.address = [] then
      .error (.invalidArgument "Raft peer id and address must not be empty")
    else if peer.id = nodeId then
      .error (.invalidArgument "Raft peer list must not contain the local node")
    else validatePeers nodeId rest

def validateOptions (options : RaftNodeOptions) : Except Error Unit :=
  if options.nodeId = [] then
    .error (.invalidArgument "Raft node id must not be empty")
  else if options.electionTimeoutMin ≤ 0 ∨ options.electionTimeoutMax < options.electionTimeoutMin then
    .error (.invalidArgument "invalid Raft election timeout range")
  else if options.heartbeatInterval ≤ 0 ∨ options.heartbeatInterval ≥ options.electionTimeoutMin then
    .error (.invalidArgument "heartbeat interval must be positive and below election timeout")
  else if options.rpcTimeout ≤ 0 then
    .error (.invalidArgument "Raft RPC timeout must be positive")
  else if options.maxAppendEntries = 0 then
    .error (.invalidArgument "maximum AppendEntries batch must be positive")
  else
    match validatePeers options.nodeId options.peers with
    | .error e => .error e
    | .ok () =>
      if adjacentFind ((options.peers.map Peer.id).insertionSort (· ≤ ·)) then
        .error (.invalidArgument "Raft peer ids must be unique")
      else .ok ()

/-- A client's command is checked before the node is locked. A no-op is let through unchecked: the
function answers `false` for it, and `submit` ignores the answer. -/
def validClientCommand (command : Command) : Except Error Bool :=
  match command.type with
  | .Noop => .ok false
  | .Put =>
    match validateKey command.key with
    | .error e => .error e
    | .ok () =>
      match validateValue command.value with
      | .error e => .error e
      | .ok () => .ok true
  | .Delete =>
    match validateKey command.key with
    | .error e => .error e
    | .ok () =>
      if command.value ≠ [] then
        .error (.invalidArgument "delete command must not contain a value")
      else .ok true

end NebulaKV.Raft
