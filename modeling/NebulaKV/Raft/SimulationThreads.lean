/-
# Threads that go on

Each stretch of a thread, from what its local variables are known to mean to what they mean afterwards:
the votes of a campaign, the peers that a round has reached, the quorum behind a read barrier.
-/
import NebulaKV.Raft.SimulationSteps

namespace NebulaKV.Raft

open Consensus Effects Program Containers RaftNode

variable {σ : Type} {members : Membership} {mode : Mode σ} {n : NodeId} {a a' a₀ : History}
  {sm : StateMachine σ} {node : RaftNode σ} {c : Cluster σ} {e : Effect σ} {threads : List Thread}
variable {purpose : Purpose} {move : Move σ} {peer : Peer} {rest : List Peer} {reply : Option Reply}
  {requestTerm electionTerm votes : Nat} {request : RequestVoteRequest} {call : Call}
variable {number : Option Nat} {trace : List (Event σ)}

/-! ## Threads that go on -/

/-- What one stretch of a thread does is in order. -/
structure MoveOK (members : Membership) (mode : Mode σ) (c : Cluster σ) (a₁ a₂ : History)
    (n : NodeId) (move : Move σ) : Prop where
  tracks : Tracks members mode n a₁ a₂ move.after
  settled : Settled mode move.after
  threads : ∀ thread ∈ move.threads, ThreadOK members a₂ c.trace
    (c.calls ++ move.requests.map fun (destination, request) =>
      ⟨n, destination, request, c.trace.length⟩) n thread
  requests : ∀ destination request, (destination, request) ∈ move.requests →
    CallOK members a₂ c.trace ⟨n, destination, request, c.trace.length⟩
  late : ∀ event ∈ move.late, EventOK members mode a₂ c.trace event

/-- A thread goes on: from where its history has come by the first effect. -/
def Proceeds (members : Membership) (mode : Mode σ) (c : Cluster σ) (a : History) (n : NodeId)
    (node : RaftNode σ) (move : Move σ) : Prop :=
  ∃ a₁ a₂, Moves members n a a₁ ∧ DiskOK mode a₁ n node.disk ∧ mode.machineOK a₁ node.machine ∧
    (∀ event ∈ move.early, EventOK members mode a₁ c.trace event) ∧ MoveOK members mode c a₁ a₂ n move

section

variable (h : Acts members mode c a n node threads)
include h

theorem Acts.proceeds (hearly : move.early = []) (hmove : MoveOK members mode c a a' n move)
    : Proceeds members mode c a n node move :=
  ⟨a, a', Moves.refl a, h.tracks.diskOK, h.tracks.machine, by simp [hearly], hmove⟩

theorem resume_performed {number : Nat}
    (hmove : Proceeds members mode c a n node move) :
    Performed members mode c a
      { id := n, before := node, after := move.after
        threads := threads.eraseIdx number ++ move.threads
        calls := move.requests.map fun (destination, request) =>
          ⟨n, destination, request, c.trace.length⟩
        early := move.early
        late := move.late } := by
  obtain ⟨a₁, a₂, hmoves, hdisk, hmachine, hearly, hm⟩ := hmove
  have hsane₁ := (h.tracks.sane.moves hmoves).1
  have hext := (h.tracks.sane.moves (hmoves.trans hm.tracks.moves)).2.toExtends
  refine ⟨h.member, a₁, a₂, hmoves, hdisk, hmachine, hearly, hm.tracks.moves, hm.tracks.journal,
    fun _ => ⟨h.member, hm.tracks.rebase, hm.settled, fun thread hth => ?_⟩, fun hr => (by cases hr),
    fun hr => ⟨_, hm.tracks.record hr⟩, fun call hc => ?_, fun hr => (by cases hr), hm.late⟩
  · rcases List.mem_append.mp hth with hold | hnew
    · have := (h.threads thread (List.mem_of_mem_eraseIdx hold)).mono hext []
        (move.requests.map fun (destination, request) =>
          ⟨n, destination, request, c.trace.length⟩)
      rwa [List.append_nil] at this
    · exact hm.threads thread hnew
  · obtain ⟨⟨destination, request⟩, hmem, rfl⟩ := List.mem_map.mp hc
    exact hm.requests destination request hmem

/-- A stretch that sends nothing and puts nothing on record. -/
theorem Acts.goes {after : RaftNode σ} {later : List Thread} (ht : Tracks members mode n a a' after)
    (hs : Settled mode after)
    (hthreads : ∀ thread ∈ later, ThreadOK members a' c.trace c.calls n thread) :
    Proceeds members mode c a n node { after := after, threads := later } :=
  h.proceeds rfl ⟨ht, hs, by simpa using hthreads, fun _ _ hr => (by cases hr), fun _ he => by cases he⟩

/-- A stretch that the thread goes on from. -/
theorem Acts.goesOn {after : RaftNode σ} {thread : Thread} (ht : Tracks members mode n a a' after)
    (hs : Settled mode after) (hth : ThreadOK members a' c.trace c.calls n thread) :
    Proceeds members mode c a n node { after := after, threads := [thread] } :=
  h.goes ht hs (List.forall_mem_singleton.mpr hth)

/-- A stretch that ends the thread, with something on record. -/
theorem Acts.reports {after : RaftNode σ} {event : Event σ} (ht : Tracks members mode n a a' after)
    (hs : Settled mode after) (he : EventOK members mode a' c.trace event) :
    Proceeds members mode c a n node { after := after, late := [event] } :=
  h.proceeds rfl ⟨ht, hs, fun _ hth => (by cases hth), fun _ _ hr => (by cases hr),
    List.forall_mem_singleton.mpr he⟩

end

/-! ### Campaigns -/

theorem finishCampaign_proceeds (hsound : mode.Sound sm) (h : Acts members mode c a n node threads)
    (hok : CampaignOK members a n electionTerm request [] votes) :
    Proceeds members mode c a n node (finishCampaign sm n electionTerm votes node) := by
  have hfin := campaignFinish_tracks hsound h.member electionTerm votes h.tracks
    h.settled fun hterm hvotes => by
      have hq := hok.counted.isQuorum h.member (h.tracks.quorumSize_eq h.member ▸ hvotes) hok.self
      rwa [← hterm, h.tracks.memory.hard.term] at hq
  unfold finishCampaign
  cases hres : campaignFinish sm electionTerm votes node with
  | mk result after =>
    rw [hres] at hfin
    cases result with
    | error err =>
      obtain ⟨halone, a', hc⟩ := hfin
      exact h.reports hc.applying.tracks hc.settled (hc.event h.member halone)
    | ok won =>
      obtain ⟨a', ht, hs, hwon⟩ := hfin
      cases won with
      | false => exact h.goes ht hs fun _ hth => by cases hth
      | true =>
        simp only
        split_ifs with hsize
        · exact h.goesOn ht hs ⟨Nat.zero_le _, fun i t command hp => by cases hp⟩
        · have hc := hwon rfl (not_lt.mp hsize)
          exact h.reports ht hs (hc.event h.member (not_lt.mp hsize))

theorem askVote_proceeds (h : Acts members mode c a n node threads)
    (hok : CampaignOK members a n electionTerm request (peer :: rest) votes) :
    Proceeds members mode c a n node
      { after := node
        threads := [.awaitVote electionTerm request rest votes c.calls.length]
        requests := [(peer.id, .vote request)] } := by
  refine h.proceeds rfl ⟨h.tracks, h.settled, fun thread hth => ?_, fun destination r hr => ?_,
    fun _ he => by cases he⟩
  · rw [List.mem_singleton.mp hth]
    exact ⟨peer, ⟨n, peer.id, .vote request, c.trace.length⟩, hok, by simp, rfl, rfl⟩
  · obtain ⟨rfl, rfl⟩ := Prod.mk.inj (List.mem_singleton.mp hr)
    exact ⟨h.member, le_rfl, hok.request⟩

/-- The reply that a thread takes answers the call it waits for. -/
theorem Sim.replyTo (hsim : Sim members mode c a) {awaited : Nat}
    (hr : c.replyTo (some awaited) number = some reply) (hcall : c.calls[awaited]? = some call) :
    ∀ r, reply = some r → ReplyOK a c.trace call r := by
  rintro r rfl
  unfold Cluster.replyTo at hr
  cases number with
  | none => cases hr
  | some number =>
    cases hget : c.replies[number]? with
    | none => simp [hget] at hr
    | some answer =>
      obtain ⟨answered, found⟩ := answer
      simp only [hget] at hr
      split_ifs at hr with heq
      cases hr
      obtain ⟨call', hcall', hok⟩ := hsim.replies (List.mem_of_getElem? hget)
      rw [heq, hcall] at hcall'
      cases hcall'
      exact hok

theorem voteAnswered_proceeds (h : Acts members mode c a n node threads)
    (hok : CampaignOK members a n electionTerm request (peer :: rest) votes)
    (hdest : call.destination = peer.id) (hreq : call.request = .vote request)
    (hreply : ∀ r, reply = some r → ReplyOK a c.trace call r)
    (hmove : voteAnswered electionTerm request rest votes node reply = some move) :
    Proceeds members mode c a n node move := by
  cases reply with
  | none =>
    cases hmove
    exact h.goesOn h.tracks h.settled { hok with counted := hok.counted.skip }
  | some r =>
    cases r with
    | append response => cases hmove
    | install response => cases hmove
    | vote response =>
      have hresponse := campaignResponse_tracks electionTerm response h.tracks h.settled
      have hgranted := hreply _ rfl
      unfold ReplyOK at hgranted
      rw [hreq] at hgranted
      unfold voteAnswered at hmove
      cases hres : campaignResponse electionTerm response node with
      | mk result after =>
        rw [hres] at hresponse
        simp only [hres] at hmove
        cases result with
        | error err => exact hresponse.elim
        | ok granted =>
          obtain ⟨a', ht, hs, hg⟩ := hresponse
          have hext := h.tracks.extends ht
          cases granted with
          | none =>
            cases hmove
            exact h.goes ht hs fun _ hth => by cases hth
          | some granted =>
            cases hmove
            have hok' := hok.mono hext
            refine h.goesOn ht hs { hok' with counted := ?_ }
            rw [hg granted rfl]
            split_ifs with hyes
            · refine hok'.counted.add h.member ?_
              have := hext.vote (hgranted hyes)
              rwa [hdest, hok.term, hok.candidate] at this
            · exact hok'.counted.skip

/-! ### Rounds -/

theorem resume_threadOK {calls : List Call} {contacted : Bool} (hp : PurposeOK a trace purpose)
    (hc : contacted = true → Caught trace purpose.begun (a.term n)) {thread : Thread}
    (hth : thread ∈ purpose.resume contacted) : ThreadOK members a trace calls n thread := by
  cases purpose with
  | none => cases hth
  | submit i t command =>
    rw [List.mem_singleton.mp hth]
    exact ⟨hp, hc⟩
  | confirm begun =>
    rw [List.mem_singleton.mp hth]
    exact ⟨hp, hc⟩

theorem start_proceeds (h : Acts members mode c a n node threads) {heartbeatOnly : Bool}
    (hp : PurposeOK a c.trace purpose)
    (hmove : Thread.resume sm n c.calls.length reply node (.start purpose heartbeatOnly)
      = some move) : Proceeds members mode c a n node move := by
  simp only [Thread.resume, replicateAllStart, read_bind_apply] at hmove
  by_cases hrole : node.role ≠ .Leader
  · rw [if_pos hrole] at hmove
    cases hmove
    exact h.goes h.tracks h.settled fun thread hth =>
      resume_threadOK hp (fun hf => by cases hf) hth
  · rw [if_neg hrole] at hmove
    cases hmove
    refine h.goesOn h.tracks h.settled ⟨hp, ?_⟩
    rw [h.tracks.memory.peers]
    exact Counted.start

/-- A quorum reached in this term: whatever was committed before the call began was committed in a term
up to this one. -/
theorem Sim.caught (hsim : Sim members mode c a) (h : Acts members mode c a n node threads)
    {begun count : Nat} {remaining : List Peer}
    (hcount : Counted members n remaining count fun p => Seen c.trace begun p (a.term n))
    (hq : node.quorumSize ≤ count) : Caught c.trace begun (a.term n) := by
  intro id node' index hev
  have hquorum := hcount.isQuorum h.member (h.tracks.quorumSize_eq h.member ▸ hq) (hsim.seen begun n)
  have hcommit : CommitOK members a id node' index := hsim.trace _ (List.take_subset _ _ hev)
  obtain ⟨p, hp, hseen⟩ := (majority members.ids).meet hcommit.quorum hquorum
  exact hseen id node' index hev hp

/-- The leader commits at the end of a round. The commit is on record before its first effect, so the
history moves first. -/
theorem commitRound_proceeds (hsound : mode.Sound sm) (hsim : Sim members mode c a)
    (h : Acts members mode c a n node threads) {successful : Nat} (hp : PurposeOK a c.trace purpose)
    (hcount : Counted members n [] successful fun p => Seen c.trace purpose.begun p (a.term n))
    (hlead : node.role = .Leader ∧ node.hardState.currentTerm = requestTerm) {index : Nat}
    (hadvance : node.advanceCommit = some index) :
    Proceeds members mode c a n node (finishRound sm n purpose requestTerm successful node) := by
  obtain ⟨hlen, hholders, a₁, hlog, hleaderLog, hterm, hchosen, hcommitted, hreached, ht⟩ :=
    h.tracks.advance h.member hlead.1 hadvance
  have hext := h.tracks.extends ht
  have hterm' := h.tracks.memory.hard.term
  have ht₁ : Tracks members mode n a₁ a₁
      { node with hardState := { node.hardState with commitIndex := index } } := by
    have := ht.rebase
    rw [← h.journal] at this
    exact this
  have htail := commitTo_leader hsound ht₁ hlead.1 (by rw [hlog]; exact hlen)
  have hearly : ∀ event ∈ node.advanceCommit.toList.map (Event.committed n node),
      EventOK members mode a₁ c.trace event := by
    intro event hev
    rw [hadvance] at hev
    rw [List.mem_singleton.mp hev]
    refine ⟨⟨a.log n, (h.tracks.record hlead.1).mono hext, hlen⟩, ?_,
      holders_isQuorum h.member h.tracks hholders fun p hp => hp, fun p hp => ?_⟩
    · rw [hterm', ← hterm]
      exact hcommitted
    · rw [hterm', ← hterm]
      exact hreached p hp
  have hcaught : node.quorumSize ≤ successful → Caught c.trace purpose.begun (a₁.term n) :=
    fun hq => hterm ▸ hsim.caught h hcount hq
  simp only [finishRound, replicateAllFinish, read_bind_apply, if_pos hlead]
  rw [hadvance] at hearly ⊢
  simp only [bind_apply]
  cases hres : commitTo sm index node with
  | mk result after =>
    rw [hres] at htail
    cases result with
    | error err =>
      exact ⟨a₁, a₁, ht.moves, ht.diskOK, ht.machine, hearly, htail.1.tracks, htail.2,
        fun _ hth => (by cases hth), fun _ _ hr => (by cases hr), fun _ he => by cases he⟩
    | ok _ =>
      refine ⟨a₁, a₁, ht.moves, ht.diskOK, ht.machine, hearly, htail.1.tracks, htail.2,
        fun thread hth => ?_, fun _ _ hr => (by cases hr), fun _ he => by cases he⟩
      rw [List.mem_singleton.mp hth]
      exact ⟨hp.extends hext, fun hc => hcaught (by simpa using hc)⟩

theorem finishRound_proceeds (hsound : mode.Sound sm) (hsim : Sim members mode c a)
    (h : Acts members mode c a n node threads) {successful : Nat} (hp : PurposeOK a c.trace purpose)
    (hcount : Counted members n [] successful fun p => Seen c.trace purpose.begun p (a.term n)) :
    Proceeds members mode c a n node (finishRound sm n purpose requestTerm successful node) := by
  by_cases hlead : node.role = .Leader ∧ node.hardState.currentTerm = requestTerm
  · cases hadvance : node.advanceCommit with
    | some index => exact commitRound_proceeds hsound hsim h hp hcount hlead hadvance
    | none =>
      simp only [finishRound, replicateAllFinish, read_bind_apply, if_pos hlead, hadvance]
      exact h.goes h.tracks h.settled fun thread hth =>
        resume_threadOK hp (fun hc => hsim.caught h hcount (by simpa using hc)) hth
  · simp only [finishRound, replicateAllFinish, read_bind_apply, if_neg hlead]
    exact h.goes h.tracks h.settled fun thread hth =>
      resume_threadOK hp (fun hc => by simp at hc) hth

theorem contactPeer_proceeds (h : Acts members mode c a n node threads) {phase : Phase}
    {attempt : Nat} (hp : PurposeOK a c.trace purpose)
    (hphase : PhaseOK members a c.trace n purpose.begun (peer :: rest) phase) :
    Proceeds members mode c a n node
      (contactPeer purpose phase peer rest attempt c.calls.length node) := by
  have hskip : ∀ {after : RaftNode σ}, Tracks members mode n a a after → Settled mode after →
      Proceeds members mode c a n node
        { after := after, threads := [.round purpose phase rest 0] } := by
    intro after ht hs
    exact h.goesOn ht hs ⟨hp, hphase.skip⟩
  have hsend : ∀ {after : RaftNode σ} (request : Request), Tracks members mode n a a after →
      Settled mode after → CallOK members a c.trace ⟨n, peer.id, request, c.trace.length⟩ →
      Proceeds members mode c a n node
        { after := after
          threads := [.awaitPeer purpose phase peer rest attempt request.term c.calls.length]
          requests := [(peer.id, request)] } := by
    intro after request ht hs hcall
    refine h.proceeds rfl ⟨ht, hs, fun thread hth => ?_, fun destination r hr => ?_,
      fun _ he => by cases he⟩
    · rw [List.mem_singleton.mp hth]
      exact ⟨hp, hphase, ⟨n, peer.id, request, c.trace.length⟩, by simp, rfl, rfl, hp.begun⟩
    · obtain ⟨rfl, rfl⟩ := Prod.mk.inj (List.mem_singleton.mp hr)
      exact hcall
  unfold contactPeer
  split_ifs with hattempt
  · exact hskip h.tracks h.settled
  have hrequest := peerRequest_tracks peer phase.heartbeatOnly h.tracks h.settled
  cases hres : peerRequest peer phase.heartbeatOnly node with
  | mk result after =>
    rw [hres] at hrequest
    cases result with
    | error err => exact hrequest.elim
    | ok request =>
      cases request with
      | stop => exact hskip hrequest.tracks hrequest.settled
      | again =>
        exact h.goesOn hrequest.tracks hrequest.settled ⟨hp, hphase⟩
      | snapshot request =>
        exact hsend (.install request) hrequest.tracks hrequest.settled
          ⟨h.member, le_rfl, (hrequest.snapshot request rfl).2⟩
      | append request =>
        exact hsend (.append request) hrequest.tracks hrequest.settled
          ⟨h.member, le_rfl, (hrequest.append request rfl).2⟩

/-- The reply was a success in the term the leader is in: the peer counts. -/
theorem Reached.seen_peer {v begun : Nat} (h : Reached a trace call v)
    (hdest : call.destination = peer.id) (hreq : call.request.term = requestTerm)
    (hbegun : begun ≤ call.stamp) {t : Nat} (ht : t = requestTerm) :
    Seen trace begun peer.id t := by
  have := h.seen
  rw [hdest, hreq] at this
  exact this.mono ht.ge hbegun

theorem peerAnswered_proceeds (h : Acts members mode c a n node threads) {phase : Phase}
    {attempt : Nat} (hp : PurposeOK a c.trace purpose)
    (hphase : PhaseOK members a c.trace n purpose.begun (peer :: rest) phase)
    (hdest : call.destination = peer.id) (hreq : call.request.term = requestTerm)
    (hbegun : purpose.begun ≤ call.stamp) (hreply : ∀ r, reply = some r → ReplyOK a c.trace call r)
    (hmove : peerAnswered purpose phase peer rest attempt requestTerm node reply = some move) :
    Proceeds members mode c a n node move := by
  have hreach : ∀ {a' : History} {after : RaftNode σ} {reached : Bool},
      Tracks members mode n a a' after → Settled mode after →
      (reached = true → Seen c.trace purpose.begun peer.id (a'.term n)) →
      Proceeds members mode c a n node
        { after := after, threads := [.round purpose (phase.reach reached) rest 0] } := by
    intro a' after reached ht hs hseen
    have hext := h.tracks.extends ht
    exact h.goesOn ht hs ⟨hp.extends hext, (hphase.extends hext).reach h.member hseen⟩
  have hmatched : ∀ {v : Nat}, Reached a c.trace call v → Matched a peer.id requestTerm v := by
    intro v hr
    have := hr.matched
    rwa [hdest, hreq] at this
  cases reply with
  | none =>
    cases hmove
    exact h.goesOn h.tracks h.settled ⟨hp, hphase.skip⟩
  | some r =>
    have hr := hreply r rfl
    unfold peerAnswered at hmove
    unfold ReplyOK at hr
    cases r with
    | vote response => cases hmove
    | install response =>
      cases hrequest : call.request with
      | vote request => rw [hrequest] at hr; exact hr.elim
      | append request => rw [hrequest] at hr; exact hr.elim
      | install request =>
        rw [hrequest] at hr
        have hresponse := installResponse_tracks peer requestTerm response h.tracks h.settled
          fun hg => hmatched (hr hg)
        cases hres : installResponse peer requestTerm response node with
        | mk result after =>
          rw [hres] at hresponse
          simp only [hres] at hmove
          cases result with
          | error err => exact hresponse.elim
          | ok reached =>
            obtain ⟨a', ht, hs, hyes⟩ := hresponse
            cases hmove
            exact hreach ht hs fun hy =>
              (hr (hyes hy).1).seen_peer hdest hreq hbegun (hyes hy).2
    | append response =>
      cases hrequest : call.request with
      | vote request => rw [hrequest] at hr; exact hr.elim
      | install request => rw [hrequest] at hr; exact hr.elim
      | append request =>
        rw [hrequest] at hr
        have hresponse := appendResponse_tracks peer requestTerm response h.tracks h.settled
          fun hg => hmatched (hr hg)
        cases hres : appendResponse peer requestTerm response node with
        | mk result after =>
          rw [hres] at hresponse
          simp only [hres] at hmove
          cases result with
          | error err => exact hresponse.elim
          | ok reached =>
            obtain ⟨a', ht, hs, hyes⟩ := hresponse
            cases reached with
            | none =>
              cases hmove
              have hext := h.tracks.extends ht
              exact h.goesOn ht hs ⟨hp.extends hext, hphase.extends hext⟩
            | some reached =>
              cases hmove
              exact hreach ht hs fun hy => (hr (hyes (by rw [hy])).1).seen_peer hdest
                hreq hbegun (hyes (by rw [hy])).2

/-! ### Outcomes -/

/-- The entry of a submission is committed when the leader of its term has a commit index that far. -/
theorem Tracks.committed_own (h : Tracks members mode n a₀ a node) (hrole : node.role = .Leader)
    {i : Nat} {command : Command} (hentry : EntryOK a i (a.term n) command)
    (hi : i ≤ node.hardState.commitIndex) : ∃ C, i ≤ C ∧ a.committed (a.term n) C := by
  obtain ⟨L, hL⟩ := (h.memory.leader hrole).chosen
  have hpos := hentry.1
  rcases h.memory.hard.commit.bounded with hzero | ⟨T, C, hT, hC, hle⟩
  · omega
  rcases Nat.lt_or_eq_of_le hT with hlt | rfl
  · have := h.sane.inv.lt_of_own_term hC hlt hL hentry.2 rfl
    omega
  · exact ⟨C, hi.trans hle, hC⟩

/-- A leader with an entry of its own term at its commit index has committed everything that was
committed in terms up to its own. -/
theorem Tracks.committed_le (h : Tracks members mode n a₀ a node) (hrole : node.role = .Leader)
    (hterm : node.termAt node.hardState.commitIndex = some node.hardState.currentTerm) {T N : Nat}
    (hT : T ≤ a.term n) (hC : a.committed T N) : N ≤ node.hardState.commitIndex := by
  have hl := h.memory.leader hrole
  obtain ⟨L, hL⟩ := hl.chosen
  rcases Nat.lt_or_eq_of_le hT with hlt | rfl
  swap
  · exact hl.commits N hC
  have hpos := h.sane.inv.chosen_pos hL
  have hk : snapshotIndex node.snapshot ≤ node.hardState.commitIndex ∨
      node.hardState.commitIndex = 0 := by
    by_contra hnot
    push Not at hnot
    rw [termAt_covered (by omega) hnot.1] at hterm
    cases hterm
  rw [h.memory.hard.term] at hterm
  rcases Nat.eq_zero_or_pos node.hardState.commitIndex with hzero | hcpos
  · rw [hzero, show node.termAt 0 = some 0 from if_pos rfl] at hterm
    have := Option.some.inj hterm
    omega
  rw [termAt_eq h.memory.logs h.indexed (by omega), termBefore, if_neg (by omega)] at hterm
  obtain ⟨entry, he, het⟩ := Option.map_eq_some_iff.mp hterm
  have := h.sane.inv.lt_of_own_term hC hlt hL (by rw [hl.log]; exact he) het
  omega

theorem checkOutcome_proceeds (hsim : Sim members mode c a)
    (h : Acts members mode c a n node threads) {contacted : Bool} (hp : PurposeOK a c.trace purpose)
    (hcaught : contacted = true → Caught c.trace purpose.begun (a.term n))
    (hanswer : mode.checked → ∀ i t command, purpose = .submit i t command →
      i ≤ node.hardState.commitIndex →
      node.role = .Leader ∧ node.hardState.currentTerm = t) :
    Proceeds members mode c a n node (checkOutcome n contacted node purpose) := by
  have hquiet : Proceeds members mode c a n node { after := node } :=
    h.goes h.tracks h.settled fun _ hth => by cases hth
  have hagain : Proceeds members mode c a n node
      { after := node, threads := [.start purpose false] } :=
    h.goesOn h.tracks h.settled hp
  cases purpose with
  | none => exact hquiet
  | submit i t command =>
    simp only [checkOutcome, submitCheck, read_bind_apply]
    by_cases hi : node.hardState.commitIndex ≥ i
    · rw [if_pos hi]
      refine h.reports h.tracks h.settled fun hchecked => ?_
      obtain ⟨hrole, hterm⟩ := hanswer hchecked i t command rfl hi
      have hentry := hp.entry i t command rfl
      rw [← hterm, h.tracks.memory.hard.term] at hentry ⊢
      exact ⟨hentry, h.tracks.committed_own hrole hentry hi⟩
    · rw [if_neg hi]
      split_ifs with hlead
      · exact hquiet
      · exact hagain
  | confirm begun =>
    simp only [checkOutcome, confirmCheck, read_bind_apply]
    by_cases hrole : node.role ≠ .Leader
    · rw [if_pos hrole]
      exact hquiet
    rw [if_neg hrole]
    replace hrole := not_not.mp hrole
    by_cases hok : contacted ∧
        node.termAt node.hardState.commitIndex = some node.hardState.currentTerm
    · rw [if_pos hok]
      refine h.reports h.tracks h.settled ⟨hp.begun, ⟨_, h.tracks.record hrole,
        h.tracks.commitIndex_le hrole⟩, h.settled, fun id node' index hcommit => ?_⟩
      have hle := hcaught hok.1 id node' index hcommit
      have hC : CommitOK members a id node' index := hsim.trace _ (List.take_subset _ _ hcommit)
      exact ⟨h.tracks.memory.hard.term ▸ hle,
        h.tracks.committed_le hrole hok.2 hle hC.committed⟩
    · rw [if_neg hok]
      exact hagain

/-! ### All of them -/

theorem thread_proceeds (hsound : mode.Sound sm) (hsim : Sim members mode c a)
    (h : Acts members mode c a n node threads) {thread : Thread}
    (hok : ThreadOK members a c.trace c.calls n thread)
    (hanswer : mode.checked → ∀ i t command contacted,
      thread = .check (.submit i t command) contacted → i ≤ node.hardState.commitIndex →
      node.role = .Leader ∧ node.hardState.currentTerm = t)
    (hreply : c.replyTo thread.awaited number = some reply)
    (hmove : thread.resume sm n c.calls.length reply node = some move) :
    Proceeds members mode c a n node move := by
  cases thread with
  | campaign electionTerm request remaining votes =>
    cases remaining with
    | nil =>
      cases hmove
      exact finishCampaign_proceeds hsound h hok
    | cons peer rest =>
      cases hmove
      exact askVote_proceeds h hok
  | awaitVote electionTerm request remaining votes awaited =>
    obtain ⟨peer, call, hcampaign, hcall, hdest, hreq⟩ := hok
    exact voteAnswered_proceeds h hcampaign hdest hreq (hsim.replyTo hreply hcall) hmove
  | start purpose heartbeatOnly => exact start_proceeds h hok hmove
  | round purpose phase remaining attempt =>
    cases remaining with
    | nil =>
      cases phase with
      | contact heartbeatOnly requestTerm successful =>
        cases hmove
        exact finishRound_proceeds hsound hsim h hok.1 hok.2
      | announce contacted =>
        cases hmove
        exact h.goes h.tracks h.settled fun thread hth => resume_threadOK hok.1 hok.2 hth
    | cons peer rest =>
      cases phase with
      | contact heartbeatOnly requestTerm successful =>
        cases hmove
        exact contactPeer_proceeds h hok.1 hok.2
      | announce contacted =>
        cases hmove
        exact contactPeer_proceeds h hok.1 hok.2
  | awaitPeer purpose phase peer remaining attempt requestTerm awaited =>
    obtain ⟨hp, hphase, call, hcall, hdest, hreq, hbegun⟩ := hok
    exact peerAnswered_proceeds h hp hphase hdest hreq hbegun (hsim.replyTo hreply hcall) hmove
  | check purpose contacted =>
    cases hmove
    exact checkOutcome_proceeds hsim h hok.1 hok.2 fun hch i t command hp hi =>
      hanswer hch i t command contacted (by rw [hp]) hi

end NebulaKV.Raft
