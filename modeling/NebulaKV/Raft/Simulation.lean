/-
# The cluster follows a history

`Sim c a`: the whole cluster `c`, with its processes, threads, calls in flight, replies and trace, fits
the abstract history `a`. Everything that is said of anything OTHER than the node that is taking a step
only ever refers to parts of the history that never go away (terms reached, votes cast, logs of leaders,
acknowledgements, commits), so it survives whatever the others do; that is what the `mono` lemmas are.

A count that an operation carries from one stretch to the next, votes or peers reached, is justified by
a list of the peers behind it (`Counted`). `Seen` is what a reached peer contributes to a read barrier:
whatever was committed with its help before the barrier began was committed in a term it had reached.
-/
import NebulaKV.Raft.TrackRestart

namespace NebulaKV.Raft

open Consensus Effects Program Containers RaftNode

variable {σ : Type} {members : Membership} {mode : Mode σ} {n m : NodeId} {a a' a₀ : History}
  {sm : StateMachine σ} {node : RaftNode σ}
variable {call : Call}
variable {trace more : List (Event σ)}

/-! ## What other nodes leave alone -/

theorem Decided.frame {c : Nat} (h : Decided mode a m c) (hs : Sane members a)
    (ht : Touches n a a') (hm : m ≠ n) : Decided mode a' m c :=
  h.grow hs ht.toExtends (by rw [ht.logOf hm])

theorem HardOK.frame {hard : HardState} (h : HardOK mode a m hard) (hs : Sane members a)
    (ht : Touches n a a') (hm : m ≠ n) : HardOK mode a' m hard where
  term := by rw [ht.termOf hm]; exact h.term
  vote := by rw [ht.termOf hm, ht.voteOf hm]; exact h.vote
  commit := h.commit.frame hs ht hm
  applied := h.applied.frame hs ht hm

theorem DiskOK.frame {disk : PersistentState} (h : DiskOK mode a m disk) (hs : Sane members a)
    (ht : Touches n a a') (hm : m ≠ n) : DiskOK mode a' m disk where
  hard := h.hard.frame hs ht hm
  logs := by
    rw [ht.logOf hm]
    exact h.logs.imp_left fun hl => ⟨hl.1, hl.2.frame hs ht hm⟩

theorem LeaderOK.frame (h : LeaderOK a m node) (ht : Touches n a a') (hm : m ≠ n) :
    LeaderOK a' m node := by
  obtain ⟨L, hL⟩ := h.chosen
  have hterm := ht.termOf hm
  refine ⟨⟨L, ?_⟩, ?_, fun p v hv => ?_, fun c hc => ?_⟩
  · rw [hterm]
    exact ht.chosen hL
  · rw [hterm, ht.leaderLogOf hm hL, ht.logOf hm]
    exact h.log
  · rw [hterm]
    exact (h.matched p v hv).imp (fun hv => hv.trans (ht.ack p _))
      fun hb => hb.mono ht.toExtends le_rfl le_rfl
  · rw [hterm] at hc
    exact h.commits c (ht.committedOf hm hL hc)

theorem Tracks.frame (h : Tracks members mode m a a node) (hs : Sane members a')
    (ht : Touches n a a') (hm : m ≠ n) (hjournal : node.journal = []) :
    Tracks members mode m a' a' node where
  sane := hs
  moves := Moves.refl a'
  memory :=
    { nodeId := h.memory.nodeId
      peers := h.memory.peers
      hard := h.memory.hard.frame h.sane ht hm
      logs := by rw [ht.logOf hm]; exact h.memory.logs
      decided := h.memory.decided.frame h.sane ht hm
      candidate := fun hr => by
        obtain ⟨hstood, hnot⟩ := h.memory.candidate hr
        rw [ht.termOf hm, ht.logOf hm]
        exact ⟨ht.stood hstood, fun L hL => hnot L (ht.chosenOf hm hL)⟩
      leader := fun hr => (h.memory.leader hr).frame ht hm }
  saved := h.saved
  hard := h.hard.frame h.sane ht hm
  machine := mode.mono h.machine ht.toExtends
  journal := fun d hd => by rw [hjournal] at hd; cases hd

/-- A stretch starts with an empty journal, wherever the one before has started. -/
theorem Tracks.rebase (h : Tracks members mode n a₀ a node) :
    Tracks members mode n a a { node with journal := [] } where
  sane := h.sane
  moves := Moves.refl a
  memory :=
    { h.memory with
      leader := fun hr => (h.memory.leader hr).same rfl rfl }
  saved := h.saved
  hard := h.hard
  machine := h.machine
  journal := fun d hd => by cases hd

/-! ## What is known of calls and replies -/

theorem VoteOK.mono {request : RequestVoteRequest} (h : VoteOK a request) (hext : Extends a a') :
    VoteOK a' request := by
  obtain ⟨hne, L, hstood, hrest⟩ := h
  exact ⟨hne, L, hext.stood hstood, hrest⟩

theorem AppendOK.mono {request : AppendEntriesRequest} (h : AppendOK a request)
    (hext : Extends a a') : AppendOK a' request := by
  obtain ⟨⟨x, hx⟩, hbounded, A, hA, hrest⟩ := h
  exact ⟨⟨x, hext.chosen hx⟩, hbounded.mono hext le_rfl le_rfl, A, hA.trans (hext.leaderLog _), hrest⟩

theorem InstallOK.mono {request : InstallSnapshotRequest} (h : InstallOK a request)
    (hext : Extends a a') : InstallOK a' request := by
  obtain ⟨⟨x, hx⟩, hbounded, hpos, hfits, A, hA, hrest⟩ := h
  exact ⟨⟨x, hext.chosen hx⟩, hbounded.mono hext le_rfl le_rfl, hpos, hfits, A,
    hA.trans (hext.leaderLog _), hrest⟩

theorem Matched.mono {p : NodeId} {t v : Nat} (h : Matched a p t v) (hext : Extends a a') :
    Matched a' p t v :=
  h.imp (fun hv => hv.trans (hext.ack p t)) fun hb => hb.mono hext le_rfl le_rfl

/-- Everything committed by then with the help of `p` was committed in a term up to `t`. -/
def Seen (trace : List (Event σ)) (begun : Nat) (p : NodeId) (t : Nat) : Prop :=
  ∀ id node index, Event.committed id node index ∈ trace.take begun → p ∈ node.holders index →
    node.hardState.currentTerm ≤ t

/-- Everything committed by then was committed in a term up to `t`. -/
def Caught (trace : List (Event σ)) (begun t : Nat) : Prop :=
  ∀ id node index, Event.committed id node index ∈ trace.take begun → node.hardState.currentTerm ≤ t

section Trace

variable {trace more : List (Event σ)} {begun : Nat}
variable {t : Nat}

theorem take_grow (h : begun ≤ trace.length) : (trace ++ more).take begun = trace.take begun :=
  List.take_append_of_le_length h

theorem Seen.mono {p : NodeId} {t' earlier : Nat} (h : Seen trace begun p t) (ht : t ≤ t')
    (he : earlier ≤ begun) : Seen trace earlier p t' := fun id node index hev hp =>
  (h id node index ((List.take_prefix_take_left he).subset hev) hp).trans ht

theorem Caught.mono {t' : Nat} (h : Caught trace begun t) (ht : t ≤ t') : Caught trace begun t' :=
  fun id node index hev => (h id node index hev).trans ht

theorem Seen.grow {p : NodeId} (h : Seen trace begun p t) (hb : begun ≤ trace.length) :
    Seen (trace ++ more) begun p t := by
  rw [Seen, take_grow hb]
  exact h

theorem Caught.grow (h : Caught trace begun t) (hb : begun ≤ trace.length) :
    Caught (trace ++ more) begun t := by
  rw [Caught, take_grow hb]
  exact h

end Trace

def Request.term : Request → Nat
  | .vote request => request.term
  | .append request => request.term
  | .install request => request.term

structure CallOK (members : Membership) (a : History) (trace : List (Event σ)) (call : Call) :
    Prop where
  source : call.source ∈ members.ids
  stamp : call.stamp ≤ trace.length
  request : match call.request with
    | .vote request => VoteOK a request
    | .append request => AppendOK a request
    | .install request => InstallOK a request

/-- The peer that answered holds the entries up to the index, and had reached the request's term. -/
structure Reached (a : History) (trace : List (Event σ)) (call : Call) (v : Nat) : Prop where
  matched : Matched a call.destination call.request.term v
  seen : Seen trace call.stamp call.destination call.request.term

/-- A reply that says yes means what it says. -/
def ReplyOK (a : History) (trace : List (Event σ)) (call : Call) (reply : Reply) : Prop :=
  match call.request, reply with
  | .vote request, .vote response =>
    response.voteGranted = true → a.vote call.destination request.term = some request.candidateId
  | .append _, .append response =>
    response.success = true → Reached a trace call response.matchIndex
  | .install _, .install response =>
    response.success = true → Reached a trace call response.installedIndex
  | _, _ => False

theorem CallOK.mono (h : CallOK members a trace call) (hext : Extends a a') :
    CallOK members a' (trace ++ more) call where
  source := h.source
  stamp := h.stamp.trans (by simp)
  request := by
    have hr := h.request
    cases hreq : call.request with
    | vote request => rw [hreq] at hr; exact hr.mono hext
    | append request => rw [hreq] at hr; exact hr.mono hext
    | install request => rw [hreq] at hr; exact hr.mono hext

theorem Reached.mono {v : Nat} (h : Reached a trace call v) (hext : Extends a a')
    (hstamp : call.stamp ≤ trace.length) : Reached a' (trace ++ more) call v :=
  ⟨h.matched.mono hext, h.seen.grow hstamp⟩

theorem ReplyOK.mono {reply : Reply} (h : ReplyOK a trace call reply) (hext : Extends a a')
    (hstamp : call.stamp ≤ trace.length) : ReplyOK a' (trace ++ more) call reply := by
  unfold ReplyOK at h ⊢
  split
  · next hreq => rw [hreq] at h; exact fun hg => hext.vote (h hg)
  · next hreq => rw [hreq] at h; exact fun hg => (h hg).mono hext hstamp
  · next hreq => rw [hreq] at h; exact fun hg => (h hg).mono hext hstamp
  · next hv ha hi =>
      split at h
      · next hreq => exact hv _ _ hreq rfl
      · next hreq => exact ha _ _ hreq rfl
      · next hreq => exact hi _ _ hreq rfl
      · exact h

/-! ## Counts carried from stretch to stretch -/

/-- Of the peers dealt with so far, all but those `remaining`, at least `count - 1` have the property;
the node itself makes the count full. -/
def Counted (members : Membership) (n : NodeId) (remaining : List Peer) (count : Nat)
    (P : NodeId → Prop) : Prop :=
  ∃ (past : List Peer) (l : List NodeId), (members.options n).peers = past ++ remaining ∧ l.Nodup ∧
    (∀ p ∈ l, p ∈ past.map Peer.id ∧ P p) ∧ count ≤ l.length + 1

section Counted

variable {P P' : NodeId → Prop} {peer : Peer} {remaining : List Peer} {count : Nat}

theorem Counted.start : Counted members n (members.options n).peers 1 P :=
  ⟨[], [], rfl, List.nodup_nil, by simp, by simp⟩

theorem Counted.mono (h : Counted members n remaining count P) (hP : ∀ p, P p → P' p) :
    Counted members n remaining count P' := by
  obtain ⟨past, l, hpeers, hnodup, hl, hcount⟩ := h
  exact ⟨past, l, hpeers, hnodup, fun p hp => ⟨(hl p hp).1, hP p (hl p hp).2⟩, hcount⟩

theorem Counted.skip (h : Counted members n (peer :: remaining) count P) :
    Counted members n remaining count P := by
  obtain ⟨past, l, hpeers, hnodup, hl, hcount⟩ := h
  refine ⟨past ++ [peer], l, by simp [hpeers], hnodup, fun p hp => ⟨?_, (hl p hp).2⟩, hcount⟩
  simpa using Or.inl (by simpa using (hl p hp).1)

theorem Counted.add (hn : n ∈ members.ids) (h : Counted members n (peer :: remaining) count P)
    (hP : P peer.id) : Counted members n remaining (count + 1) P := by
  obtain ⟨past, l, hpeers, hnodup, hl, hcount⟩ := h
  -- no peer comes twice, so the next one is not among those behind it
  have hnew : peer.id ∉ past.map Peer.id := by
    have hids := (List.nodup_cons.mp (members.nodup_peers hn)).2
    rw [hpeers, List.map_append, List.map_cons] at hids
    exact fun hmem => (List.disjoint_of_nodup_append hids) hmem (List.mem_cons_self ..)
  refine ⟨past ++ [peer], peer.id :: l, by simp [hpeers],
    List.nodup_cons.mpr ⟨fun hmem => hnew (hl _ hmem).1, hnodup⟩, fun p hp => ?_, by simp; omega⟩
  rcases List.mem_cons.mp hp with rfl | hp
  · exact ⟨by simp, hP⟩
  · refine ⟨?_, (hl p hp).2⟩
    simpa using Or.inl (by simpa using (hl p hp).1)

theorem Counted.isQuorum (hn : n ∈ members.ids) (h : Counted members n remaining count P)
    (hcount : members.ids.length / 2 + 1 ≤ count) (hself : P n) :
    (majority members.ids).IsQuorum {p | P p} := by
  obtain ⟨past, l, hpeers, hnodup, hl, hlen⟩ := h
  refine isQuorum_of_list hn hnodup (fun p hp => ?_) (hcount.trans hlen) hself
    fun p hp => (hl p hp).2
  rw [hpeers, List.map_append]
  exact List.mem_append_left _ (hl p hp).1

end Counted

/-! ## Threads -/

/-- When the call that a round is run for began; zero if nobody asks. -/
def Purpose.begun : Purpose → Nat
  | .confirm begun => begun
  | .none | .submit _ _ _ => 0

structure PurposeOK (a : History) (trace : List (Event σ)) (purpose : Purpose) : Prop where
  begun : purpose.begun ≤ trace.length
  entry : ∀ i t command, purpose = .submit i t command → EntryOK a i t command

def PhaseOK (members : Membership) (a : History) (trace : List (Event σ)) (n : NodeId)
    (begun : Nat) (remaining : List Peer) : Phase → Prop
  | .contact _ _ successful =>
    Counted members n remaining successful fun p => Seen trace begun p (a.term n)
  | .announce contactedQuorum => contactedQuorum = true → Caught trace begun (a.term n)

/-- The call a thread of a round waits for. -/
def Awaits (calls : List Call) (begun : Nat) (peer : Peer) (requestTerm number : Nat) : Prop :=
  ∃ call, calls[number]? = some call ∧ call.destination = peer.id ∧
    call.request.term = requestTerm ∧ begun ≤ call.stamp

structure CampaignOK (members : Membership) (a : History) (n : NodeId) (electionTerm : Nat)
    (request : RequestVoteRequest) (remaining : List Peer) (votes : Nat) : Prop where
  candidate : request.candidateId = n
  term : request.term = electionTerm
  request : VoteOK a request
  self : a.vote n electionTerm = some n
  counted : Counted members n remaining votes fun p => a.vote p electionTerm = some n

def ThreadOK (members : Membership) (a : History) (trace : List (Event σ)) (calls : List Call)
    (n : NodeId) : Thread → Prop
  | .campaign electionTerm request remaining votes =>
    CampaignOK members a n electionTerm request remaining votes
  | .awaitVote electionTerm request remaining votes number =>
    ∃ peer call, CampaignOK members a n electionTerm request (peer :: remaining) votes ∧
      calls[number]? = some call ∧ call.destination = peer.id ∧ call.request = .vote request
  | .start purpose _ => PurposeOK a trace purpose
  | .round purpose phase remaining _ =>
    PurposeOK a trace purpose ∧ PhaseOK members a trace n purpose.begun remaining phase
  | .awaitPeer purpose phase peer remaining _ requestTerm number =>
    PurposeOK a trace purpose ∧ PhaseOK members a trace n purpose.begun (peer :: remaining) phase ∧
      Awaits calls purpose.begun peer requestTerm number
  | .check purpose contactedQuorum =>
    PurposeOK a trace purpose ∧
      (contactedQuorum = true → Caught trace purpose.begun (a.term n))

theorem EntryOK.mono {i t : Nat} {command : Command} (h : EntryOK a i t command)
    (hext : Extends a a') : EntryOK a' i t command := by
  obtain ⟨C, hC⟩ := hext.leaderLog t
  refine ⟨h.1, ?_⟩
  rw [← hC, List.getElem?_append_left (List.getElem?_eq_some_iff.mp h.2).1]
  exact h.2

section ThreadMono

variable {trace more : List (Event σ)} {calls moreCalls : List Call} {purpose : Purpose}
variable {phase : Phase}
variable {remaining : List Peer}

theorem PurposeOK.mono (h : PurposeOK a trace purpose) (hext : Extends a a') :
    PurposeOK a' (trace ++ more) purpose :=
  ⟨h.begun.trans (by simp), fun i t command hp => (h.entry i t command hp).mono hext⟩

theorem PurposeOK.extends (h : PurposeOK a trace purpose) (hext : Extends a a') :
    PurposeOK a' trace purpose :=
  ⟨h.begun, fun i t command hp => (h.entry i t command hp).mono hext⟩

theorem PhaseOK.extends {begun : Nat} (h : PhaseOK members a trace n begun remaining phase)
    (hext : Extends a a') : PhaseOK members a' trace n begun remaining phase := by
  cases phase with
  | contact heartbeatOnly requestTerm successful =>
    exact Counted.mono h fun p hp => hp.mono (hext.term n) le_rfl
  | announce contactedQuorum => exact fun hc => (h hc).mono (hext.term n)

theorem PhaseOK.mono {begun : Nat} (h : PhaseOK members a trace n begun remaining phase)
    (hb : begun ≤ trace.length) (hext : Extends a a') :
    PhaseOK members a' (trace ++ more) n begun remaining phase := by
  have h' := h.extends hext
  cases phase with
  | contact heartbeatOnly requestTerm successful => exact Counted.mono h' fun p hp => hp.grow hb
  | announce contactedQuorum => exact fun hc => (h' hc).grow hb

/-- The peer whose turn it was is done with. -/
theorem PhaseOK.reach {begun : Nat} {peer : Peer} (hn : n ∈ members.ids)
    (h : PhaseOK members a trace n begun (peer :: remaining) phase) {reached : Bool}
    (hr : reached = true → Seen trace begun peer.id (a.term n)) :
    PhaseOK members a trace n begun remaining (phase.reach reached) := by
  cases phase with
  | announce contactedQuorum => exact h
  | contact heartbeatOnly requestTerm successful =>
    cases reached with
    | true => exact Counted.add hn h (hr rfl)
    | false => exact Counted.skip h

theorem PhaseOK.skip {begun : Nat} {peer : Peer}
    (h : PhaseOK members a trace n begun (peer :: remaining) phase) :
    PhaseOK members a trace n begun remaining phase := by
  cases phase with
  | announce contactedQuorum => exact h
  | contact heartbeatOnly requestTerm successful => exact Counted.skip h

theorem getElem?_grow {α : Type} {l more : List α} {i : Nat} {x : α} (h : l[i]? = some x) :
    (l ++ more)[i]? = some x := by
  rw [List.getElem?_append_left (List.getElem?_eq_some_iff.mp h).1]
  exact h

theorem CampaignOK.mono {electionTerm votes : Nat} {request : RequestVoteRequest}
    (h : CampaignOK members a n electionTerm request remaining votes) (hext : Extends a a') :
    CampaignOK members a' n electionTerm request remaining votes where
  candidate := h.candidate
  term := h.term
  request := h.request.mono hext
  self := hext.vote h.self
  counted := h.counted.mono fun _ hp => hext.vote hp

/-- A thread that was in order stays in order while the history goes on. -/
theorem ThreadOK.mono {thread : Thread} (h : ThreadOK members a trace calls n thread)
    (hext : Extends a a') (more : List (Event σ)) (moreCalls : List Call) :
    ThreadOK members a' (trace ++ more) (calls ++ moreCalls) n thread := by
  cases thread with
  | campaign electionTerm request remaining votes => exact CampaignOK.mono h hext
  | awaitVote electionTerm request remaining votes number =>
    obtain ⟨peer, call, hc, hcall, hrest⟩ := h
    exact ⟨peer, call, hc.mono hext, getElem?_grow hcall, hrest⟩
  | start purpose heartbeatOnly => exact PurposeOK.mono h hext
  | round purpose phase remaining attempt =>
    exact ⟨h.1.mono hext, h.2.mono h.1.begun hext⟩
  | awaitPeer purpose phase peer remaining attempt requestTerm number =>
    obtain ⟨hp, hphase, call, hcall, hrest⟩ := h
    exact ⟨hp.mono hext, hphase.mono hp.begun hext, call, getElem?_grow hcall, hrest⟩
  | check purpose contactedQuorum =>
    exact ⟨h.1.mono hext, fun hc => ((h.2 hc).mono (hext.term n)).grow h.1.begun⟩

end ThreadMono

/-! ## Events -/

/-- The members of a leader on record: its whole log is a part of the log of its term. -/
structure RecordOK (a : History) (id : NodeId) (node : RaftNode σ) (L : List LogEntry) : Prop where
  compacted : Compacted L node.log node.snapshot
  led : ∃ L₀, a.chosen node.hardState.currentTerm = some (id, L₀) ∧ L₀ <+: L
  part : L <+: a.leaderLog node.hardState.currentTerm

structure CommitOK (members : Membership) (a : History) (id : NodeId) (node : RaftNode σ)
    (index : Nat) : Prop where
  record : ∃ L, RecordOK a id node L ∧ index ≤ L.length
  committed : a.committed node.hardState.currentTerm index
  quorum : (majority members.ids).IsQuorum {p | p ∈ node.holders index}
  reached : ∀ p ∈ node.holders index, node.hardState.currentTerm ≤ a.term p

structure ConfirmOK (mode : Mode σ) (a : History) (trace : List (Event σ)) (id : NodeId)
    (node : RaftNode σ) (begun : Nat) : Prop where
  earlier : begun ≤ trace.length
  record : ∃ L, RecordOK a id node L ∧ node.hardState.commitIndex ≤ L.length
  settled : Settled mode node
  caught : ∀ id' node' index, Event.committed id' node' index ∈ trace.take begun →
    node'.hardState.currentTerm ≤ node.hardState.currentTerm ∧ index ≤ node.hardState.commitIndex

def EventOK (members : Membership) (mode : Mode σ) (a : History) (trace : List (Event σ)) :
    Event σ → Prop
  | .elected id node => ∃ L, RecordOK a id node L
  | .committed id node index => CommitOK members a id node index
  | .acknowledged _ index term command =>
    mode.checked → EntryOK a index term command ∧ ∃ C, index ≤ C ∧ a.committed term C
  | .confirmed id node begun => ConfirmOK mode a trace id node begun

theorem RecordOK.mono {id : NodeId} {L : List LogEntry} (h : RecordOK a id node L)
    (hext : Extends a a') : RecordOK a' id node L := by
  obtain ⟨hcompacted, ⟨L₀, hL₀, hp⟩, hpart⟩ := h
  exact ⟨hcompacted, ⟨L₀, hext.chosen hL₀, hp⟩, hpart.trans (hext.leaderLog _)⟩

theorem EventOK.mono {event : Event σ} (h : EventOK members mode a trace event)
    (hext : Extends a a') (more : List (Event σ)) :
    EventOK members mode a' (trace ++ more) event := by
  cases event with
  | elected id node =>
    obtain ⟨L, hL⟩ := h
    exact ⟨L, hL.mono hext⟩
  | committed id node index =>
    obtain ⟨⟨L, hL, hle⟩, hcommitted, hquorum, hreached⟩ := h
    exact ⟨⟨L, hL.mono hext, hle⟩, hext.committed hcommitted, hquorum,
      fun p hp => (hreached p hp).trans (hext.term p)⟩
  | acknowledged id index term command =>
    intro hchecked
    obtain ⟨hentry, C, hle, hC⟩ := h hchecked
    exact ⟨hentry.mono hext, C, hle, hext.committed hC⟩
  | confirmed id node begun =>
    obtain ⟨hb, ⟨L, hL, hle⟩, hsettled, hcaught⟩ := h
    refine ⟨hb.trans (by simp), ⟨L, hL.mono hext, hle⟩, hsettled, ?_⟩
    rw [take_grow hb]
    exact hcaught

/-- A leader's members, as they are, can go on record. -/
theorem Tracks.record (h : Tracks members mode n a₀ a node) (hrole : node.role = .Leader) :
    RecordOK a n node (a.log n) := by
  have hl := h.memory.leader hrole
  obtain ⟨L₀, hL₀⟩ := hl.chosen
  refine ⟨h.memory.logs, ⟨L₀, ?_, ?_⟩, ?_⟩
  · rw [h.memory.hard.term]
    exact hL₀
  · rw [← hl.log]
    exact h.sane.inv.chosen_prefix hL₀
  · rw [h.memory.hard.term, hl.log]

/-! ## The cluster -/

/-- A process that is up, with its threads. -/
structure RunningOK (members : Membership) (mode : Mode σ) (a : History) (trace : List (Event σ))
    (calls : List Call) (id : NodeId) (node : RaftNode σ) (threads : List Thread) : Prop where
  member : id ∈ members.ids
  tracks : Tracks members mode id a a { node with journal := [] }
  settled : Settled mode node
  threads : ∀ thread ∈ threads, ThreadOK members a trace calls id thread

/-- **The cluster fits the history.** -/
structure Sim (members : Membership) (mode : Mode σ) (c : Cluster σ) (a : History) : Prop where
  sane : Sane members a
  up : ∀ {id node threads}, c.process id = .up node threads →
    RunningOK members mode a c.trace c.calls id node threads
  down : ∀ {id disk machine}, c.process id = .down disk machine →
    DiskOK mode a id disk ∧ mode.machineOK a machine
  calls : ∀ call ∈ c.calls, CallOK members a c.trace call
  replies : ∀ {number reply}, (number, reply) ∈ c.replies →
    ∃ call, c.calls[number]? = some call ∧ ReplyOK a c.trace call reply
  trace : ∀ event ∈ c.trace, EventOK members mode a c.trace event

theorem RunningOK.frame {calls moreCalls : List Call} {threads : List Thread}
    (h : RunningOK members mode a trace calls m node threads) (hs : Sane members a')
    (ht : Touches n a a') (hm : m ≠ n) :
    RunningOK members mode a' (trace ++ more) (calls ++ moreCalls) m node threads where
  member := h.member
  tracks := h.tracks.frame hs ht hm rfl
  settled := h.settled
  threads thread hthread := (h.threads thread hthread).mono ht.toExtends more moreCalls

/-! ## What an action does -/

/-- The action comes to its end, at the history `a₂`. -/
structure Finishes (members : Membership) (mode : Mode σ) (c : Cluster σ) (a₁ a₂ : History)
    (e : Effect σ) : Prop where
  moves : Moves members e.id a₁ a₂
  journal : JournalOK members mode e.id a₁ e.after.journal
  up : e.running = true →
    RunningOK members mode a₂ c.trace (c.calls ++ e.calls) e.id e.after e.threads
  down : e.running = false → DiskOK mode a₂ e.id e.after.disk ∧ mode.machineOK a₂ e.after.machine
  leader : e.after.role = .Leader → ∃ L, RecordOK a₂ e.id e.after L
  calls : ∀ call ∈ e.calls, CallOK members a₂ c.trace call
  replies : ∀ {number reply}, (number, reply) ∈ e.replies →
    ∃ call, c.calls[number]? = some call ∧ ReplyOK a₂ c.trace call reply
  late : ∀ event ∈ e.late, EventOK members mode a₂ c.trace event

/-- What an action does fits a continuation of the history, however far it gets. What it puts on record
before its first effect is true from the start: the history has moved to `a₁` by then. -/
structure Performed (members : Membership) (mode : Mode σ) (c : Cluster σ) (a : History)
    (e : Effect σ) : Prop where
  member : e.id ∈ members.ids
  proceeds : ∃ a₁ a₂, Moves members e.id a a₁ ∧ DiskOK mode a₁ e.id e.before.disk ∧
    mode.machineOK a₁ e.before.machine ∧ (∀ event ∈ e.early, EventOK members mode a₁ c.trace event) ∧
    Finishes members mode c a₁ a₂ e

section Effects

variable {c : Cluster σ} {e : Effect σ}
variable {threads : List Thread}

/-- One process has changed, and the records have grown. -/
theorem Sim.update (h : Sim members mode c a) (hm : Moves members n a a') (process : Process σ)
    (moreCalls : List Call) (moreReplies : List (Nat × Reply)) (more : List (Event σ))
    (hup : ∀ {node threads}, process = .up node threads →
      RunningOK members mode a' (c.trace ++ more) (c.calls ++ moreCalls) n node threads)
    (hdown : ∀ {disk machine}, process = .down disk machine →
      DiskOK mode a' n disk ∧ mode.machineOK a' machine)
    (hcalls : ∀ call ∈ moreCalls, CallOK members a' c.trace call)
    (hreplies : ∀ {number reply}, (number, reply) ∈ moreReplies →
      ∃ call, c.calls[number]? = some call ∧ ReplyOK a' c.trace call reply)
    (htrace : ∀ event ∈ more, EventOK members mode a' c.trace event) :
    Sim members mode
      { process := Function.update c.process n process
        calls := c.calls ++ moreCalls
        replies := c.replies ++ moreReplies
        trace := c.trace ++ more } a' := by
  obtain ⟨hsane, htouches⟩ := h.sane.moves hm
  have hext := htouches.toExtends
  have hstamp : ∀ {number : Nat} {call : Call}, c.calls[number]? = some call →
      call.stamp ≤ c.trace.length :=
    fun hc => (h.calls _ (List.mem_of_getElem? hc)).stamp
  refine ⟨hsane, fun {id node threads} hp => ?_, fun {id disk machine} hp => ?_, fun call hc => ?_,
    fun {number reply} hr => ?_, fun event hev => ?_⟩
  · by_cases hid : id = n
    · subst hid
      simp only [Function.update_self] at hp
      exact hup hp
    · simp only [Function.update_of_ne hid] at hp
      exact (h.up hp).frame hsane htouches hid
  · by_cases hid : id = n
    · subst hid
      simp only [Function.update_self] at hp
      exact hdown hp
    · simp only [Function.update_of_ne hid] at hp
      exact ⟨(h.down hp).1.frame h.sane htouches hid, mode.mono (h.down hp).2 hext⟩
  · rcases List.mem_append.mp hc with hc | hc
    · exact (h.calls call hc).mono hext
    · exact (hcalls call hc).mono (Extends.refl a')
  · rcases List.mem_append.mp hr with hr | hr
    · obtain ⟨call, hcall, hok⟩ := h.replies hr
      exact ⟨call, getElem?_grow hcall, hok.mono hext (hstamp hcall)⟩
    · obtain ⟨call, hcall, hok⟩ := hreplies hr
      exact ⟨call, getElem?_grow hcall, hok.mono (Extends.refl a') (hstamp hcall)⟩
  · rcases List.mem_append.mp hev with hev | hev
    · exact (h.trace event hev).mono hext more
    · exact (htrace event hev).mono (Extends.refl a') more

theorem RunningOK.grow {trace more : List (Event σ)} {calls : List Call}
    (h : RunningOK members mode a trace calls n node threads) :
    RunningOK members mode a (trace ++ more) calls n node threads :=
  { h with
    threads := fun thread hthread => by
      have := (h.threads thread hthread).mono (Extends.refl a) more []
      rwa [List.append_nil] at this }

theorem Performed.finish (hsim : Sim members mode c a) (h : Performed members mode c a e) :
    ∃ a', Extends a a' ∧ Sim members mode (c.finish e) a' := by
  obtain ⟨a₁, a₂, hmoves, _, _, hearly, hfin⟩ := h.proceeds
  have hall := hmoves.trans hfin.moves
  obtain ⟨hsane₁, _⟩ := hsim.sane.moves hmoves
  have hext := (hsane₁.moves hfin.moves).2.toExtends
  refine ⟨a₂, (hsim.sane.moves hall).2.toExtends, ?_⟩
  have htrace : ∀ event ∈ e.early ++ (Cluster.newLeader e ++ e.late),
      EventOK members mode a₂ c.trace event := by
    intro event hev
    rcases List.mem_append.mp hev with hev | hev
    · have := (hearly event hev).mono hext []
      rwa [List.append_nil] at this
    · rcases List.mem_append.mp hev with hev | hev
      · unfold Cluster.newLeader at hev
        split_ifs at hev with hrole
        · rw [List.mem_singleton.mp hev]
          exact hfin.leader hrole.2
        · cases hev
      · exact hfin.late event hev
  have hupdate := hsim.update hall
    (if e.running then .up e.after e.threads else .down e.after.disk e.after.machine)
    e.calls e.replies (e.early ++ (Cluster.newLeader e ++ e.late))
    (fun {node threads} hp => ?_) (fun {disk machine} hp => ?_) hfin.calls hfin.replies htrace
  · simpa only [Cluster.finish, List.append_assoc] using hupdate
  · split_ifs at hp with hrun
    cases hp
    exact (hfin.up hrun).grow
  · split_ifs at hp with hrun
    cases hp
    exact hfin.down (by simpa using hrun)

theorem Performed.crashed (hsim : Sim members mode c a) (h : Performed members mode c a e)
    {effects : Nat} {left : PersistentState × σ} (hleft : Cluster.remains e effects = some left)
    (hwhole : mode.whole → ∀ mark ∈ e.after.journal[effects - 1]?, 0 < effects → ¬ mark.Tears) :
    ∃ a', Extends a a' ∧ Sim members mode (c.crashed e left) a' := by
  obtain ⟨a₁, a₂, hmoves, hdisk, hmachine, hearly, hfin⟩ := h.proceeds
  obtain ⟨hsane₁, _⟩ := hsim.sane.moves hmoves
  obtain ⟨a', hmoves', hok⟩ : ∃ a', Moves members e.id a₁ a' ∧
      DiskOK mode a' e.id left.1 ∧ mode.machineOK a' left.2 := by
    cases effects with
    | zero =>
      cases hleft
      exact ⟨a₁, Moves.refl a₁, hdisk, hmachine⟩
    | succ effects =>
      obtain ⟨mark, hmark, rfl⟩ := Option.map_eq_some_iff.mp hleft
      exact hfin.journal mark (List.mem_of_getElem? hmark)
        fun hw => hwhole hw mark hmark (Nat.succ_pos _)
  have hall := hmoves.trans hmoves'
  have hext := (hsane₁.moves hmoves').2.toExtends
  refine ⟨a', (hsim.sane.moves hall).2.toExtends, ?_⟩
  have hupdate := hsim.update hall (.down left.1 left.2) [] [] e.early
    (fun hp => by cases hp) (fun hp => by cases hp; exact hok)
    (fun call hc => by cases hc) (fun hr => by cases hr) fun event hev => by
      have := (hearly event hev).mono hext []
      rwa [List.append_nil] at this
  simpa only [Cluster.crashed, List.append_nil] using hupdate

theorem Sim.halt (hsim : Sim members mode c a) {id : NodeId} (hp : c.process id = .up node threads) :
    Sim members mode
      { c with process := Function.update c.process id (.down node.disk node.machine) } a := by
  have hr := hsim.up hp
  have hupdate := hsim.update (n := id) (Moves.refl a) (.down node.disk node.machine) [] [] []
    (fun hp => by cases hp) (fun hp => by cases hp; exact ⟨hr.tracks.diskOK, hr.tracks.machine⟩)
    (fun call hc => by cases hc) (fun hr => by cases hr) fun event hev => by cases hev
  simpa only [List.append_nil] using hupdate

end Effects

end NebulaKV.Raft
