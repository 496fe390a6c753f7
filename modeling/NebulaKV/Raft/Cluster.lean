/-
# A cluster of Raft nodes

The system the nodes of `raft/node.cpp` form: one static membership, a process for each member that is
running or down, and a network that may lose, delay, duplicate and reorder every RPC and every reply.

A call that was made stays in `calls` for good, so its destination can handle it now, later, twice or
never; a reply stays in `replies`, and the thread that waits for it takes one of the replies to ITS call,
or gives up (`reply := none`). Each operation of a node that spans several stretches of locked code is a
`Thread`: a program counter with its local variables. The mutexes that keep two campaigns, two rounds or
two submissions of one node apart are not modelled, so every schedule of the code is a schedule here.

A crash falls between two stretches, or inside one, after any number of the file replacements and state
machine calls it makes. A restart constructs the node from what the crash left on the disk.

`trace` records what happened, for the statements about runs: who was elected, what was committed, which
submissions and which reads were answered.
-/
import NebulaKV.Raft.Operations

namespace NebulaKV.Raft

open Effects

/-- One shared, static membership: every member's peers are the other members. -/
structure Membership where
  ids : List NodeId
  nodup : ids.Nodup
  options : NodeId → RaftNodeOptions
  nodeId_eq : ∀ id ∈ ids, (options id).nodeId = id
  peers_perm : ∀ id ∈ ids, ((options id).peers.map Peer.id).Perm (ids.erase id)
  valid : ∀ id ∈ ids, validateOptions (options id) = .ok ()

inductive Request where
  | vote (request : RequestVoteRequest)
  | append (request : AppendEntriesRequest)
  | install (request : InstallSnapshotRequest)
  deriving DecidableEq

inductive Reply where
  | vote (response : RequestVoteResponse)
  | append (response : AppendEntriesResponse)
  | install (response : InstallSnapshotResponse)
  deriving DecidableEq

/-- An RPC that was made. `stamp` is how much of the trace had happened before. -/
structure Call where
  source : NodeId
  destination : NodeId
  request : Request
  stamp : Nat
  deriving DecidableEq

/-- Whom a replication round is run for. -/
inductive Purpose where
  /-- The ticker, `trigger_replication`, or a new leader. -/
  | none
  | submit (entryIndex entryTerm : Nat) (command : Command)
  /-- `confirm_leadership`, with how much of the trace had happened when it was called. -/
  | confirm (begun : Nat)
  deriving DecidableEq

/-- The two loops of `replicate_all` over the peers: the one that counts the peers it reaches, and the
one that tells them of a new commit index. -/
inductive Phase where
  | contact (heartbeatOnly : Bool) (requestTerm successful : Nat)
  | announce (contactedQuorum : Bool)
  deriving DecidableEq

def Phase.heartbeatOnly : Phase → Bool
  | .contact heartbeatOnly _ _ => heartbeatOnly
  | .announce _ => true

/-- A peer has been dealt with. -/
def Phase.reach (reached : Bool) : Phase → Phase
  | .contact heartbeatOnly requestTerm successful =>
    .contact heartbeatOnly requestTerm (if reached then successful + 1 else successful)
  | .announce contactedQuorum => .announce contactedQuorum

/-- An operation between two stretches of locked code. -/
inductive Thread where
  /-- `begin_election`, about to ask the next of the remaining peers. -/
  | campaign (electionTerm : Nat) (request : RequestVoteRequest) (remaining : List Peer)
      (votes : Nat)
  | awaitVote (electionTerm : Nat) (request : RequestVoteRequest) (remaining : List Peer)
      (votes : Nat) (call : Nat)
  /-- About to enter `replicate_all`. -/
  | start (purpose : Purpose) (heartbeatOnly : Bool)
  /-- `replicate_all`, about to make an attempt at the next of the remaining peers. -/
  | round (purpose : Purpose) (phase : Phase) (remaining : List Peer) (attempt : Nat)
  | awaitPeer (purpose : Purpose) (phase : Phase) (peer : Peer) (remaining : List Peer)
      (attempt : Nat) (requestTerm : Nat) (call : Nat)
  /-- Back from `replicate_all`, about to look at the outcome. -/
  | check (purpose : Purpose) (contactedQuorum : Bool)
  deriving DecidableEq

inductive Event (σ : Type) where
  /-- The node became leader; its members right after. -/
  | elected (id : NodeId) (node : RaftNode σ)
  /-- The leader, with its members at that moment, set `commit_index` to `index`. -/
  | committed (id : NodeId) (node : RaftNode σ) (index : Nat)
  /-- `submit(command)` returned `Committed` with this index and term. -/
  | acknowledged (id : NodeId) (index term : Nat) (command : Command)
  /-- `confirm_leadership` returned true; when it was called, and the node's members at the return. -/
  | confirmed (id : NodeId) (node : RaftNode σ) (begun : Nat)

inductive Process (σ : Type) where
  | up (node : RaftNode σ) (threads : List Thread)
  | down (disk : PersistentState) (machine : σ)

structure Cluster (σ : Type) where
  process : NodeId → Process σ
  calls : List Call
  /-- The number of the call that is answered, and the answer. -/
  replies : List (Nat × Reply)
  trace : List (Event σ)

/-- What can happen on one node, as one stretch of locked code. -/
inductive Action where
  /-- `begin_election` is entered. -/
  | elect (id : NodeId)
  /-- `replicate_all` is entered by the ticker or by `trigger_replication`. -/
  | replicate (id : NodeId) (heartbeatOnly : Bool)
  | submit (id : NodeId) (command : Command)
  | confirm (id : NodeId)
  | snapshot (id : NodeId)
  /-- The call with this number is handled by its destination. -/
  | deliver (call : Nat)
  /-- A thread goes on; one that waits for an answer gets the reply with this number, or none. -/
  | resume (id : NodeId) (thread : Nat) (reply : Option Nat)
  /-- A process that is down constructs its node. -/
  | restart (id : NodeId)
  deriving DecidableEq

inductive Label where
  | run (action : Action)
  /-- The process ends inside the action, after `effects` of its file replacements and machine calls. -/
  | crash (action : Action) (effects : Nat)
  /-- The process ends between two stretches. -/
  | halt (id : NodeId)
  deriving DecidableEq

/-! ## Threads -/

/-- What one stretch of a thread does. -/
structure Move (σ : Type) where
  after : RaftNode σ
  /-- The threads that go on in the place of this one. -/
  threads : List Thread := []
  requests : List (NodeId × Request) := []
  /-- Events that precede the first effect of the stretch. -/
  early : List (Event σ) := []
  late : List (Event σ) := []

/-- `replicate_all` returns to its caller. -/
def Purpose.resume (purpose : Purpose) (contactedQuorum : Bool) : List Thread :=
  match purpose with
  | .none => []
  | .submit _ _ _ | .confirm _ => [.check purpose contactedQuorum]

variable {σ : Type} (sm : StateMachine σ)

/-- The loop over the peers of a campaign is done. -/
def finishCampaign (id : NodeId) (electionTerm votes : Nat) (node : RaftNode σ) : Move σ :=
  match RaftNode.campaignFinish sm electionTerm votes node with
  | (.ok true, after) =>
    if after.quorumSize > 1 then { after := after, threads := [.start .none false] }
    else { after := after, late := [.committed id after after.hardState.commitIndex] }
  | (.ok false, after) => { after := after }
  -- thrown by the machine, after the index was set
  | (.error _, after) =>
    { after := after, late := [.committed id after after.hardState.commitIndex] }

/-- The first loop of `replicate_all` is done. -/
def finishRound (id : NodeId) (purpose : Purpose) (requestTerm successful : Nat)
    (node : RaftNode σ) : Move σ :=
  let early :=
    if node.role = .Leader ∧ node.hardState.currentTerm = requestTerm then
      node.advanceCommit.toList.map (Event.committed id node)
    else []
  match RaftNode.replicateAllFinish sm requestTerm node with
  | (.ok roundEnd, after) =>
    let contacted := roundEnd.currentLeader && decide (successful ≥ node.quorumSize)
    if roundEnd.commitAdvanced then
      { after := after, early := early,
        threads := [.round purpose (.announce contacted) node.options.peers 0] }
    else { after := after, early := early, threads := purpose.resume contacted }
  | (.error _, after) => { after := after, early := early }

/-- One attempt of `replicate_peer`, up to the RPC. -/
def contactPeer (purpose : Purpose) (phase : Phase) (peer : Peer) (rest : List Peer)
    (attempt nextCall : Nat) (node : RaftNode σ) : Move σ :=
  if attempt ≥ 256 then { after := node, threads := [.round purpose phase rest 0] }
  else
    match RaftNode.peerRequest peer phase.heartbeatOnly node with
    | (.ok .stop, after) => { after := after, threads := [.round purpose phase rest 0] }
    | (.ok .again, after) =>
      { after := after, threads := [.round purpose phase (peer :: rest) (attempt + 1)] }
    | (.ok (.snapshot request), after) =>
      { after := after
        threads := [.awaitPeer purpose phase peer rest attempt request.term nextCall]
        requests := [(peer.id, .install request)] }
    | (.ok (.append request), after) =>
      { after := after
        threads := [.awaitPeer purpose phase peer rest attempt request.term nextCall]
        requests := [(peer.id, .append request)] }
    | (.error _, after) => { after := after }

/-- `replicate_peer` after the RPC. No reply: the peer was not reached. -/
def peerAnswered (purpose : Purpose) (phase : Phase) (peer : Peer) (rest : List Peer)
    (attempt requestTerm : Nat) (node : RaftNode σ) : Option Reply → Option (Move σ)
  | none => some { after := node, threads := [.round purpose phase rest 0] }
  | some (.install response) =>
    match RaftNode.installResponse peer requestTerm response node with
    | (.ok reached, after) =>
      some { after := after, threads := [.round purpose (phase.reach reached) rest 0] }
    | (.error _, after) => some { after := after }
  | some (.append response) =>
    match RaftNode.appendResponse peer requestTerm response node with
    | (.ok (some reached), after) =>
      some { after := after, threads := [.round purpose (phase.reach reached) rest 0] }
    | (.ok none, after) =>
      some { after := after, threads := [.round purpose phase (peer :: rest) (attempt + 1)] }
    | (.error _, after) => some { after := after }
  | some (.vote _) => none

/-- One answer in a campaign. No reply: the next peer is asked. -/
def voteAnswered (electionTerm : Nat) (request : RequestVoteRequest) (rest : List Peer)
    (votes : Nat) (node : RaftNode σ) : Option Reply → Option (Move σ)
  | none => some { after := node, threads := [.campaign electionTerm request rest votes] }
  | some (.vote response) =>
    match RaftNode.campaignResponse electionTerm response node with
    | (.ok (some granted), after) =>
      some { after := after
             threads := [.campaign electionTerm request rest
               (if granted then votes + 1 else votes)] }
    | (_, after) => some { after := after }
  | some _ => none

/-- `submit` and `confirm_leadership` look at the outcome of a round, and may start another. -/
def checkOutcome (id : NodeId) (contactedQuorum : Bool) (node : RaftNode σ) : Purpose → Move σ
  | .none => { after := node }
  | .submit entryIndex entryTerm command =>
    match RaftNode.submitCheck entryIndex entryTerm node with
    | (.ok (some result), after) =>
      { after := after
        late := if result.status = .Committed then
          [.acknowledged id result.logIndex result.term command] else [] }
    | (.ok none, after) =>
      { after := after, threads := [.start (.submit entryIndex entryTerm command) false] }
    | (.error _, after) => { after := after }
  | .confirm begun =>
    match RaftNode.confirmCheck contactedQuorum node with
    | (.ok (some true), after) => { after := after, late := [.confirmed id after begun] }
    | (.ok none, after) => { after := after, threads := [.start (.confirm begun) false] }
    | (_, after) => { after := after }

/-- The next stretch of a thread. -/
def Thread.resume (id : NodeId) (nextCall : Nat) (reply : Option Reply) (node : RaftNode σ) :
    Thread → Option (Move σ)
  | .campaign electionTerm _ [] votes => some (finishCampaign sm id electionTerm votes node)
  | .campaign electionTerm request (peer :: rest) votes =>
    some { after := node
           threads := [.awaitVote electionTerm request rest votes nextCall]
           requests := [(peer.id, .vote request)] }
  | .awaitVote electionTerm request rest votes _ =>
    voteAnswered electionTerm request rest votes node reply
  | .start purpose heartbeatOnly =>
    match RaftNode.replicateAllStart node with
    | (.ok (some requestTerm), after) =>
      some { after := after
             threads := [.round purpose (.contact heartbeatOnly requestTerm 1)
               node.options.peers 0] }
    | (_, after) => some { after := after, threads := purpose.resume false }
  | .round purpose (.contact _ requestTerm successful) [] _ =>
    some (finishRound sm id purpose requestTerm successful node)
  | .round purpose (.announce contactedQuorum) [] _ =>
    some { after := node, threads := purpose.resume contactedQuorum }
  | .round purpose phase (peer :: rest) attempt =>
    some (contactPeer purpose phase peer rest attempt nextCall node)
  | .awaitPeer purpose phase peer rest attempt requestTerm _ =>
    peerAnswered purpose phase peer rest attempt requestTerm node reply
  | .check purpose contactedQuorum => some (checkOutcome id contactedQuorum node purpose)

/-- The call a thread waits for. -/
def Thread.awaited : Thread → Option Nat
  | .awaitVote _ _ _ _ call | .awaitPeer _ _ _ _ _ _ call => some call
  | _ => none

/-! ## Steps of the cluster -/

/-- What an action does to the cluster, with what the process had before it. -/
structure Effect (σ : Type) where
  id : NodeId
  before : RaftNode σ
  after : RaftNode σ
  /-- The process runs after the action. Only a constructor that throws says no. -/
  running : Bool := true
  threads : List Thread
  calls : List Call := []
  replies : List (Nat × Reply) := []
  early : List (Event σ) := []
  late : List (Event σ) := []

namespace Cluster

variable (members : Membership)

/-- A member's node, at the start of a stretch, with its threads. -/
def running (c : Cluster σ) (id : NodeId) : Option (RaftNode σ × List Thread) :=
  if id ∈ members.ids then
    match c.process id with
    | .up node threads => some ({ node with journal := [] }, threads)
    | .down _ _ => none
  else none

/-- The reply with the given number, if it answers the given call. -/
def replyTo (c : Cluster σ) (awaited : Option Nat) (number : Option Nat) : Option (Option Reply) :=
  match number with
  | none => some none
  | some number =>
    match c.replies[number]?, awaited with
    | some (call, reply), some awaited => if call = awaited then some (some reply) else none
    | _, _ => none

/-- An RPC handler: it replies unless it throws. -/
def handled {α : Type} (id : NodeId) (before : RaftNode σ) (threads : List Thread) (call : Nat)
    (wrap : α → Reply) : Except Error α × RaftNode σ → Effect σ
  | (.ok response, after) =>
    { id := id, before := before, after := after, threads := threads,
      replies := [(call, wrap response)] }
  | (.error _, after) => { id := id, before := before, after := after, threads := threads }

/-- `submit`, up to the first release of the lock. -/
def submitted (id : NodeId) (command : Command) (before : RaftNode σ) (threads : List Thread) :
    Effect σ :=
  match RaftNode.submitAppend sm command before with
  | (.ok (.answered result), after) =>
    { id := id, before := before, after := after, threads := threads
      late := if result.status = .Committed then
        [.committed id after result.logIndex,
          .acknowledged id result.logIndex result.term command] else [] }
  | (.ok (.pending entryIndex entryTerm), after) =>
    { id := id, before := before, after := after,
      threads := threads ++ [.start (.submit entryIndex entryTerm command) false] }
  -- thrown by the machine, after the index was set
  | (.error _, after) =>
    { id := id, before := before, after := after, threads := threads
      late := [.committed id after after.hardState.commitIndex] }

def elected (id : NodeId) (before : RaftNode σ) (threads : List Thread) : Effect σ :=
  match RaftNode.campaignStart before with
  | (.ok (some request), after) =>
    { id := id, before := before, after := after,
      threads := threads ++ [.campaign request.term request before.options.peers 1] }
  | (_, after) => { id := id, before := before, after := after, threads := threads }

def constructed (id : NodeId) (options : RaftNodeOptions) (disk : PersistentState) (machine : σ) :
    Effect σ :=
  let before := RaftNode.loaded options disk machine
  match RaftNode.construct sm options disk machine with
  | (.ok _, after) => { id := id, before := before, after := after, threads := [] }
  | (.error _, after) =>
    { id := id, before := before, after := after, running := false, threads := [] }

def perform (c : Cluster σ) : Action → Option (Effect σ)
  | .elect id => do
    let (node, threads) ← c.running members id
    return elected id node threads
  | .replicate id heartbeatOnly => do
    let (node, threads) ← c.running members id
    return { id := id, before := node, after := node,
             threads := threads ++ [.start .none heartbeatOnly] }
  | .submit id command => do
    let (node, threads) ← c.running members id
    match validClientCommand command with
    | .ok _ => return submitted sm id command node threads
    | .error _ => none
  | .confirm id => do
    let (node, threads) ← c.running members id
    return { id := id, before := node, after := node,
             threads := threads ++ [.start (.confirm c.trace.length) false] }
  | .snapshot id => do
    let (node, threads) ← c.running members id
    return { id := id, before := node, after := (RaftNode.triggerSnapshot sm node).2,
             threads := threads }
  | .deliver number => do
    let call ← c.calls[number]?
    let (node, threads) ← c.running members call.destination
    match call.request with
    | .vote request =>
      return handled call.destination node threads number Reply.vote
        (RaftNode.handleRequestVote request node)
    | .append request =>
      return handled call.destination node threads number Reply.append
        (RaftNode.handleAppendEntries sm request node)
    | .install request =>
      return handled call.destination node threads number Reply.install
        (RaftNode.handleInstallSnapshot sm request node)
  | .resume id number reply => do
    let (node, threads) ← c.running members id
    let thread ← threads[number]?
    let reply ← c.replyTo thread.awaited reply
    let move ← thread.resume sm id c.calls.length reply node
    return { id := id, before := node, after := move.after
             threads := threads.eraseIdx number ++ move.threads
             calls := move.requests.map fun (destination, request) =>
               ⟨id, destination, request, c.trace.length⟩
             early := move.early
             late := move.late }
  | .restart id =>
    if id ∈ members.ids then
      match c.process id with
      | .down disk machine => some (constructed sm id (members.options id) disk machine)
      | .up _ _ => none
    else none

/-- A node that became leader is on record. -/
def newLeader (e : Effect σ) : List (Event σ) :=
  if e.before.role ≠ .Leader ∧ e.after.role = .Leader then [.elected e.id e.after] else []

/-- The action runs to the end of its stretch. -/
def finish (c : Cluster σ) (e : Effect σ) : Cluster σ where
  process := Function.update c.process e.id
    (if e.running then .up e.after e.threads else .down e.after.disk e.after.machine)
  calls := c.calls ++ e.calls
  replies := c.replies ++ e.replies
  trace := c.trace ++ e.early ++ newLeader e ++ e.late

/-- What is left after some of the effects of a stretch. -/
def remains (e : Effect σ) : Nat → Option (PersistentState × σ)
  | 0 => some (e.before.disk, e.before.machine)
  | effects + 1 => (e.after.journal[effects]?).map fun mark => (mark.disk, mark.machine)

/-- The process ends inside the stretch. -/
def crashed (c : Cluster σ) (e : Effect σ) (left : PersistentState × σ) : Cluster σ :=
  { c with
    process := Function.update c.process e.id (.down left.1 left.2)
    trace := c.trace ++ e.early }

/-- One step of the cluster; `none` if the label does not apply. -/
def step (c : Cluster σ) : Label → Option (Cluster σ)
  | .run action => do
    let e ← c.perform sm members action
    return c.finish e
  | .crash action effects => do
    let e ← c.perform sm members action
    let left ← remains e effects
    return c.crashed e left
  | .halt id =>
    match c.process id with
    | .up node _ =>
      some { c with process := Function.update c.process id (.down node.disk node.machine) }
    | .down _ _ => none

/-- Every process is down, with an empty storage directory. -/
def initial (machine : NodeId → σ) : Cluster σ where
  process id := .down {} (machine id)
  calls := []
  replies := []
  trace := []

/-- The runs whose every step meets a condition on the cluster before it and the step's label. -/
inductive Reaches (Allowed : Cluster σ → Label → Prop) : Cluster σ → Cluster σ → Prop
  | refl (c : Cluster σ) : Reaches Allowed c c
  | tail {c c' c'' : Cluster σ} {label : Label} : Reaches Allowed c c' → Allowed c' label →
      c'.step sm members label = some c'' → Reaches Allowed c c''

/-- Take the steps of a schedule, as long as they apply and meet the condition. -/
def run (Allowed : Cluster σ → Label → Prop) [∀ c label, Decidable (Allowed c label)]
    (c : Cluster σ) : List Label → Option (Cluster σ)
  | [] => some c
  | label :: rest =>
    if Allowed c label then do
      let next ← c.step sm members label
      run Allowed next rest
    else none

variable {sm members} {Allowed : Cluster σ → Label → Prop}

theorem run_append [∀ c label, Decidable (Allowed c label)] (c : Cluster σ)
    (first second : List Label) :
    run sm members Allowed c (first ++ second) =
      (run sm members Allowed c first).bind fun next => run sm members Allowed next second := by
  induction first generalizing c with
  | nil => rfl
  | cons label rest ih =>
    simp only [List.cons_append, run]
    split_ifs with hallowed
    · cases c.step sm members label with
      | none => rfl
      | some next => exact ih next
    · rfl

theorem Reaches.trans {c c' c'' : Cluster σ} (h : Reaches sm members Allowed c c')
    (h' : Reaches sm members Allowed c' c'') : Reaches sm members Allowed c c'' := by
  induction h' with
  | refl => exact h
  | tail _ hallowed hstep ih => exact ih.tail hallowed hstep

/-- A schedule that can be taken is a run. -/
theorem Reaches.of_run [∀ c label, Decidable (Allowed c label)] {labels : List Label}
    {c c' : Cluster σ} (h : run sm members Allowed c labels = some c') :
    Reaches sm members Allowed c c' := by
  induction labels generalizing c with
  | nil =>
    cases h
    exact .refl _
  | cons label rest ih =>
    rw [run] at h
    split_ifs at h with hallowed
    obtain ⟨next, hstep, hrest⟩ := Option.bind_eq_some_iff.mp h
    exact Reaches.trans ((Reaches.refl c).tail hallowed hstep) (ih hrest)

end Cluster

end NebulaKV.Raft
