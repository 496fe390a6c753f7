/-
# Candidates and leaders

The stretches in which the history really moves: a node stands, is elected, appends to its log, and
commits what a quorum holds.
-/
import NebulaKV.Raft.TrackRpc

namespace NebulaKV.Raft

open Consensus Effects Program Containers RaftNode

/-! ## The membership -/

namespace Membership

variable (members : Membership)
variable {id : NodeId}

theorem ne_nil (h : id ∈ members.ids) : id ≠ [] := by
  have hv := members.valid id h
  rw [← members.nodeId_eq id h]
  intro hnil
  simp [validateOptions, hnil] at hv

theorem perm (h : id ∈ members.ids) :
    (id :: (members.options id).peers.map Peer.id).Perm members.ids :=
  ((members.peers_perm id h).cons id).trans (List.perm_cons_erase h).symm

theorem nodup_peers (h : id ∈ members.ids) : (id :: (members.options id).peers.map Peer.id).Nodup :=
  (members.perm h).nodup_iff.mpr members.nodup

theorem length_peers (h : id ∈ members.ids) :
    (members.options id).peers.length + 1 = members.ids.length := by
  have := (members.perm h).length_eq
  simpa using this

end Membership

variable {σ : Type} {members : Membership} {mode : Mode σ} {n : NodeId} {a a₀ : History}
  {sm : StateMachine σ} {node : RaftNode σ}
variable {command : Command}

theorem Tracks.quorumSize_eq (h : Tracks members mode n a₀ a node) (hn : n ∈ members.ids) :
    node.quorumSize = members.ids.length / 2 + 1 := by
  rw [quorumSize, h.memory.peers, members.length_peers hn]

/-- A duplicate-free list of peers, and the node itself, large enough to count as a quorum. -/
theorem isQuorum_of_list {A : Set NodeId} {l : List NodeId} (hn : n ∈ members.ids)
    (hnodup : l.Nodup) (hl : ∀ p ∈ l, p ∈ (members.options n).peers.map Peer.id)
    (hlen : members.ids.length / 2 + 1 ≤ l.length + 1) (hself : n ∈ A) (hA : ∀ p ∈ l, p ∈ A) :
    (majority members.ids).IsQuorum A := by
  have hnl : n ∉ l := fun hmem =>
    (List.nodup_cons.mp (members.nodup_peers hn)).1 (hl n hmem)
  refine ⟨n :: l, List.nodup_cons.mpr ⟨hnl, hnodup⟩, ?_, by simpa using hlen⟩
  intro p hp
  rcases List.mem_cons.mp hp with rfl | hp
  · exact ⟨hn, hself⟩
  · exact ⟨(members.perm hn).subset (List.mem_cons_of_mem _ (hl p hp)), hA p hp⟩

/-! ## Standing -/

theorem campaignStart_tracks (hn : n ∈ members.ids) (h : Tracks members mode n a₀ a node)
    (hs : Settled mode node) :
    Outcome
      (fun request s => ∃ a', Tracks members mode n a₀ a' s ∧ Settled mode s ∧
        ∀ r, request = some r → r.candidateId = n ∧ VoteOK a' r ∧ a'.vote n r.term = some n)
      (fun _ => False) (campaignStart node) := by
  simp only [campaignStart, read_bind_apply]
  by_cases hl : node.role = .Leader
  · rw [if_pos hl]
    exact ⟨a, h, hs, fun r hr => by cases hr⟩
  rw [if_neg hl, update_bind_apply, read_bind_apply]
  obtain ⟨hsane, hmoves, hext⟩ := h.step Step.stand h.sane.indexed
  have hterm := h.memory.hard.term
  have hne := members.ne_nil hn
  have ht : Tracks members mode n a₀ (a.stand n)
      (RaftNode.persistHardState
        { node with
          role := .Candidate
          leaderId := []
          hardState :=
            { node.hardState with
              currentTerm := node.hardState.currentTerm + 1
              votedFor := node.options.nodeId } }) := by
    refine Tracks.persistHardState hsane hmoves
      { nodeId := h.memory.nodeId
        peers := h.memory.peers
        hard :=
          { term := by simp [hterm]
            vote := Or.inr ⟨by simpa [h.memory.nodeId] using hne, by simp [h.memory.nodeId]⟩
            commit := h.memory.hard.commit.grow h.sane hext (by simp)
            applied := h.memory.hard.applied.grow h.sane hext (by simp) }
        logs := by simpa using h.memory.logs
        decided := h.memory.decided.grow h.sane hext (by simp)
        candidate := fun _ => ⟨by simp, fun L hL => ?_⟩
        leader := fun hr => by cases hr }
      h.saved (mode.mono h.machine hext) h.journal
    -- nobody is elected in a term nobody has reached
    have hstood := (h.sane.inv.stood_le (h.sane.inv.chosen_stood
      (show a.chosen (a.term n + 1) = some (n, L) by simpa using hL))).2
    omega
  refine ⟨_, ht, hs, fun r hr => ?_⟩
  obtain rfl := Option.some.inj hr
  refine ⟨h.memory.nodeId, ⟨?_, a.log n, ?_, ?_, ?_⟩, ?_⟩
  · show node.options.nodeId ≠ []
    rw [h.memory.nodeId]
    exact hne
  · show (a.stand n).stood (node.hardState.currentTerm + 1) node.options.nodeId = _
    rw [hterm, h.memory.nodeId]
    simp
  · exact h.lastLogIndex_eq
  · exact lastLogTerm_eq h.memory.logs
  · show (a.stand n).vote n (node.hardState.currentTerm + 1) = some n
    rw [hterm]
    simp

theorem campaignResponse_tracks (electionTerm : Nat) (response : RequestVoteResponse)
    (h : Tracks members mode n a₀ a node) (hs : Settled mode node) :
    Outcome
      (fun granted s => ∃ a', Tracks members mode n a₀ a' s ∧ Settled mode s ∧
        ∀ b, granted = some b → b = response.voteGranted)
      (fun _ => False) (campaignResponse electionTerm response node) := by
  simp only [campaignResponse, read_bind_apply]
  by_cases hgt : response.term > node.hardState.currentTerm
  · rw [if_pos hgt]
    refine ⟨_, h.becomeFollower (t := response.term) ?_ [], hs.becomeFollower _ _, fun b hb => by cases hb⟩
    have := h.memory.hard.term
    omega
  · rw [if_neg hgt]
    by_cases hc : node.role ≠ .Candidate ∨ node.hardState.currentTerm ≠ electionTerm
    · rw [if_pos hc]
      exact ⟨a, h, hs, fun b hb => by cases hb⟩
    · rw [if_neg hc]
      exact ⟨a, h, hs, fun b hb => (Option.some.inj hb).symm⟩

/-! ## Appending -/

/-- The entry a leader appends next. -/
def nextEntry (node : RaftNode σ) (command : Command) : LogEntry :=
  ⟨node.lastLogIndex + 1, node.hardState.currentTerm, command⟩

theorem appendLocalEntry_eq (hrole : node.role = .Leader) (hterm : node.hardState.currentTerm ≠ 0)
    (command : Command) :
    appendLocalEntry command node =
      (.ok (nextEntry node command), { node with log := node.log ++ [nextEntry node command] }) := by
  simp only [appendLocalEntry, read_bind_apply]
  rw [if_neg (by simp [hrole, hterm])]
  rfl

theorem indexed_extend (h : Tracks members mode n a₀ a node) (hvalid : command.Valid)
    (hpos : 0 < a.term n) : AllIndexed (a.extend n (nextEntry node command)) := by
  intro t
  by_cases ht : t = a.term n
  · subst ht
    simp only [Consensus.State.extend_leaderLog, Function.update_self]
    refine h.indexed.concat ?_ ?_ hvalid
    · show node.lastLogIndex + 1 = _
      rw [h.lastLogIndex_eq]
    · show 0 < node.hardState.currentTerm
      rw [h.memory.hard.term]
      exact hpos
  · simpa [ht] using h.sane.indexed t

/-- The leader's log grows by one entry, in memory and in its file. -/
theorem Tracks.append (h : Tracks members mode n a₀ a node) (hrole : node.role = .Leader)
    (hvalid : command.Valid) :
    Tracks members mode n a₀ (a.extend n (nextEntry node command))
      (RaftNode.persistLog { node with log := node.log ++ [nextEntry node command] }) := by
  have hl := h.memory.leader hrole
  obtain ⟨L, hL⟩ := hl.chosen
  obtain ⟨hsane, hmoves, hext⟩ := h.step
    (Step.append hL hl.log (by simp [nextEntry, h.memory.hard.term]))
    (indexed_extend h hvalid (h.sane.inv.chosen_pos hL))
  have hgrow : a.log n <+: (a.extend n (nextEntry node command)).log n := by simp
  exact Tracks.persistLog hsane hmoves
    { nodeId := h.memory.nodeId
      peers := h.memory.peers
      hard := h.memory.hard.grow h.sane hext hgrow rfl rfl
      logs := by simpa using h.memory.logs.concat _
      decided := h.memory.decided.grow h.sane hext hgrow
      candidate := fun hr => by cases hrole.symm.trans hr
      leader := fun _ =>
        { chosen := ⟨L, hL⟩
          log := by simp
          matched := fun p v hv => hl.matched p v hv
          commits := hl.commits } }
    h.saved.2 (h.hard.grow h.sane hext hgrow rfl rfl) (mode.mono h.machine hext) h.journal

/-! ## Being elected -/

theorem becomeLeader_matchIndex {p : NodeId} {v : Nat}
    (h : node.becomeLeader.matchIndex.find? p = some v) : v = 0 :=
  OrderedMap.find?_foldl_emplace Peer.id 0 node.options.peers OrderedMap.empty
    (fun k w hk => by simp at hk) h

/-- A quorum of votes makes the candidate the leader of its term, and opens the term with a no-op. -/
theorem Tracks.elect (h : Tracks members mode n a₀ a node) (hrole : node.role = .Candidate)
    (hq : (majority members.ids).IsQuorum {p | a.vote p (a.term n) = some n}) :
    Tracks members mode n a₀ (a.crown n (nextEntry node {}))
      (RaftNode.persistLog { node.becomeLeader with log := node.log ++ [nextEntry node {}] }) := by
  obtain ⟨hstood, hnot⟩ := h.memory.candidate hrole
  have hnone := h.sane.inv.chosen_none hnot hq
  have hpos := (h.sane.inv.stood_le hstood).1
  obtain ⟨hsane, hmoves, hext⟩ := h.step
    (Step.elect hstood hnot hq (by simp [nextEntry, h.memory.hard.term]))
    (indexed_extend h (show Command.Valid {} from trivial) hpos)
  have hgrow : a.log n <+: (a.crown n (nextEntry node {})).log n := by simp
  exact Tracks.persistLog hsane hmoves
    { nodeId := h.memory.nodeId
      peers := h.memory.peers
      hard := h.memory.hard.grow h.sane hext hgrow rfl rfl
      logs := by
        simp only [Consensus.State.crown_log, Consensus.State.extend_log, Function.update_self]
        exact h.memory.logs.concat _
      decided := h.memory.decided.grow h.sane hext hgrow
      candidate := fun hr => by cases hr
      leader := fun _ =>
        { chosen := ⟨a.log n, by simp⟩
          log := by simp
          matched := fun p v hv => Or.inr (Or.inl (becomeLeader_matchIndex hv))
          commits := fun c hc => by
            obtain ⟨x, hx⟩ := h.sane.inv.committed_chosen (show a.committed (a.term n) c from hc)
            rw [hnone] at hx
            cases hx } }
    h.saved.2 (h.hard.grow h.sane hext hgrow rfl rfl) (mode.mono h.machine hext) h.journal

/-! ## Committing -/

/-- A leader holds its own log. -/
theorem Tracks.selfAck (h : Tracks members mode n a₀ a node) (hrole : node.role = .Leader) :
    Tracks members mode n a₀ (a.adopt n (a.log n).length (a.log n)) node := by
  have hl := h.memory.leader hrole
  obtain ⟨L, hL⟩ := hl.chosen
  have hadopts : Adopts ((a.leaderLog (a.term n)).take (a.log n).length) (a.log n) (a.log n) := by
    rw [hl.log, List.take_length]
    exact Or.inl ⟨List.prefix_rfl, rfl⟩
  obtain ⟨hsane, hmoves, hext⟩ := h.step (Step.accept hL (by rw [hl.log]) hadopts) h.sane.indexed
  exact
    { sane := hsane
      moves := hmoves
      memory :=
        { nodeId := h.memory.nodeId
          peers := h.memory.peers
          hard := h.memory.hard.adopt h.sane hL hadopts hext
          logs := by simpa using h.memory.logs
          decided := h.memory.decided.adopt h.sane hL hadopts hext
          candidate := fun hr => by cases hrole.symm.trans hr
          leader := fun _ =>
            { chosen := ⟨L, hL⟩
              log := by simpa using hl.log
              matched := fun p v hv => by
                rcases hl.matched p v hv with hack | hbounded
                · exact Or.inl (hack.trans (hext.ack p (a.term n)))
                · exact Or.inr (hbounded.mono hext le_rfl le_rfl)
              commits := hl.commits } }
      saved := h.saved
      hard := h.hard.adopt h.sane hL hadopts hext
      machine := mode.mono h.machine hext
      journal := h.journal }

/-- The leader commits an index that a quorum has acknowledged. -/
theorem Tracks.commit (h : Tracks members mode n a₀ a node) (hrole : node.role = .Leader) {c : Nat}
    (hq : (majority members.ids).IsQuorum {p | c ≤ a.ack p (a.term n)}) (hpos : 0 < c)
    (hentry : termBefore (a.log n) c = some (a.term n)) (hle : node.hardState.commitIndex ≤ c) :
    Tracks members mode n a₀ (a.commit (a.term n) c)
      { node with hardState := { node.hardState with commitIndex := c } } := by
  have hl := h.memory.leader hrole
  obtain ⟨L, hL⟩ := hl.chosen
  rw [termBefore, if_neg (by omega)] at hentry
  obtain ⟨e, he, het⟩ := Option.map_eq_some_iff.mp hentry
  obtain ⟨hsane, hmoves, hext⟩ := h.step
    (Step.commit hL hq (by rw [hl.log]; exact he) hpos het) h.sane.indexed
  have hgrow : a.log n <+: (a.commit (a.term n) c).log n := by simp
  exact
    { sane := hsane
      moves := hmoves
      memory :=
        { nodeId := h.memory.nodeId
          peers := h.memory.peers
          hard :=
            { h.memory.hard.grow h.sane hext hgrow rfl rfl with
              commit := Or.inr ⟨a.term n, c, le_rfl, Or.inr ⟨rfl, rfl⟩, le_rfl, fun _ => by
                show (a.leaderLog (a.term n)).take c <+: a.log n
                rw [hl.log]
                exact List.take_prefix _ _⟩ }
          logs := h.memory.logs
          decided := h.memory.decided.grow h.sane hext hgrow
          candidate := fun hr => by cases hrole.symm.trans hr
          leader := fun _ =>
            { chosen := ⟨L, hL⟩
              log := hl.log
              matched := fun p v hv => (hl.matched p v hv).imp_right
                fun hb => hb.mono hext le_rfl le_rfl
              commits := by
                rintro c' (hc' | ⟨_, rfl⟩)
                · exact (hl.commits c' hc').trans hle
                · exact le_rfl } }
      saved := h.saved
      hard := h.hard.grow h.sane hext hgrow rfl rfl
      machine := mode.mono h.machine hext
      journal := h.journal }

/-- The tail of a commit by the leader. -/
theorem commitTo_leader (hsound : mode.Sound sm) {c : Nat} {a₁ : History}
    (h : Tracks members mode n a₀ a₁
      { node with hardState := { node.hardState with commitIndex := c } })
    (hrole : node.role = .Leader) (hlen : c ≤ (a₁.log n).length) :
    Outcome (fun _ s => Applying mode members n a₀ a₁ .Leader c s ∧ Settled mode s)
      (fun s => Applying mode members n a₀ a₁ .Leader c s ∧ Settled mode s)
      (commitTo sm c node) := by
  have hout := commitTo_tracks hsound (c := c) h h.memory.hard.commit hlen
    fun hr => (h.memory.leader hr).commits
  refine hout.mono (fun _ s hs => ⟨⟨hs.1.tracks, hs.1.role.trans hrole, hs.1.commit⟩, hs.2⟩)
    fun s hs => ⟨⟨hs.1.tracks, hs.1.role.trans hrole, hs.1.commit⟩, hs.2⟩

/-- A leader's commit index lies within its log: its log starts with everything committed before. -/
theorem Tracks.commitIndex_le (h : Tracks members mode n a₀ a node) (hrole : node.role = .Leader) :
    node.hardState.commitIndex ≤ (a.log n).length := by
  have hl := h.memory.leader hrole
  obtain ⟨L, hL⟩ := hl.chosen
  rcases h.memory.hard.commit.bounded with h0 | ⟨T, C, hT, hC, hv⟩
  · omega
  · have := (h.sane.inv.committed_prefix hC hT hL).length_le
    have hlen := h.sane.inv.committed_length hC
    rw [hl.log] at this
    simp only [List.length_take] at this
    omega

/-- The leader has committed up to `c` in its own term. -/
structure CommittedTo (mode : Mode σ) (members : Membership) (n : NodeId) (a₀ a : History) (c : Nat)
    (s : RaftNode σ) : Prop where
  applying : Applying mode members n a₀ a .Leader c s
  settled : Settled mode s
  committed : a.committed (a.term n) c

/-- A node that is a quorum by itself commits its last entry at once. -/
theorem commitTo_alone (hsound : mode.Sound sm) (hn : n ∈ members.ids)
    (h : Tracks members mode n a₀ a node) (hrole : node.role = .Leader)
    (halone : node.quorumSize = 1) (hlast : lastTerm (a.log n) = a.term n) :
    ∃ a', a'.leaderLog = a.leaderLog ∧ a'.term = a.term ∧
      Outcome (fun _ => CommittedTo mode members n a₀ a' (a.log n).length)
        (CommittedTo mode members n a₀ a' (a.log n).length)
        (commitTo sm (a.log n).length node) := by
  obtain ⟨L, hL⟩ := (h.memory.leader hrole).chosen
  have hpos := h.sane.inv.chosen_pos hL
  obtain ⟨e, he, het⟩ := exists_last_of_lastTerm_pos (L := a.log n) (by omega)
  have hlen : 0 < (a.log n).length := by
    have := (List.getElem?_eq_some_iff.mp he).1
    omega
  have hack := h.selfAck hrole
  have hq : (majority members.ids).IsQuorum
      {p | (a.log n).length ≤ (a.adopt n (a.log n).length (a.log n)).ack p (a.term n)} := by
    refine isQuorum_of_list (l := []) hn List.nodup_nil (by simp) ?_ ?_ (by simp)
    · have := h.quorumSize_eq hn
      simp only [List.length_nil]
      omega
    · show (a.log n).length ≤ _
      simp
  have ht := hack.commit hrole (c := (a.log n).length) hq hlen (by
    rw [termBefore, if_neg (by omega)]
    simp only [Consensus.State.adopt_log, Function.update_self, Consensus.State.adopt_term, he]
    rw [← hlast, het]
    rfl) (h.commitIndex_le hrole)
  refine ⟨(a.adopt n (a.log n).length (a.log n)).commit (a.term n) (a.log n).length, rfl, rfl,
    (commitTo_leader hsound ht hrole (by simp)).mono (fun _ s hs => ?_) fun s hs => ?_⟩
  · exact ⟨hs.1, hs.2, Or.inr ⟨rfl, rfl⟩⟩
  · exact ⟨hs.1, hs.2, Or.inr ⟨rfl, rfl⟩⟩

theorem lastTerm_concat (L : List LogEntry) (e : LogEntry) : lastTerm (L ++ [e]) = e.term := by
  simp [lastTerm]

/-- What a new leader does once its no-op is stored. -/
def campaignTail (sm : StateMachine σ) : Locked σ Bool := do
  let node ← Program.read
  Program.when (node.quorumSize = 1) (commitTo sm node.lastLogIndex)
  return true

theorem campaignFinish_tracks (hsound : mode.Sound sm) (hn : n ∈ members.ids)
    (electionTerm votes : Nat) (h : Tracks members mode n a₀ a node) (hs : Settled mode node)
    (hvotes : node.hardState.currentTerm = electionTerm → node.quorumSize ≤ votes →
      (majority members.ids).IsQuorum {p | a.vote p (a.term n) = some n}) :
    Outcome
      (fun won s => ∃ a', Tracks members mode n a₀ a' s ∧ Settled mode s ∧
        (won = true → s.quorumSize ≤ 1 →
          CommittedTo mode members n a₀ a' s.hardState.commitIndex s))
      (fun s => s.quorumSize ≤ 1 ∧
        ∃ a', CommittedTo mode members n a₀ a' s.hardState.commitIndex s)
      (campaignFinish sm electionTerm votes node) := by
  simp only [campaignFinish, read_bind_apply]
  by_cases hwin : node.role = .Candidate ∧ node.hardState.currentTerm = electionTerm ∧
      votes ≥ node.quorumSize
  swap
  · rw [if_neg hwin]
    exact ⟨a, h, hs, fun hw => by cases hw⟩
  rw [if_pos hwin, update_bind_apply, bind_apply]
  have ht := h.elect hwin.1 (hvotes hwin.2.1 hwin.2.2)
  have hterm : node.becomeLeader.hardState.currentTerm ≠ 0 := by
    show node.hardState.currentTerm ≠ 0
    have := (h.sane.inv.stood_le (h.memory.candidate hwin.1).1).1
    have := h.memory.hard.term
    omega
  rw [appendLocalEntry_eq rfl hterm]
  obtain ⟨led, hled⟩ : ∃ led : RaftNode σ, led = RaftNode.persistLog
    { node.becomeLeader with log := node.log ++ [nextEntry node {}] } := ⟨_, rfl⟩
  have hrole : led.role = .Leader := by rw [hled]; rfl
  rw [← hled] at ht
  show Outcome _ _ (campaignTail sm (RaftNode.persistLog { node.becomeLeader with
      log := node.log ++ [nextEntry node {}] }))
  rw [← hled, campaignTail, read_bind_apply]
  by_cases halone : led.quorumSize = 1
  · rw [when_pos halone]
    obtain ⟨a', _, _, hcommit⟩ := commitTo_alone hsound hn ht hrole halone
      (by simp [lastTerm_concat, nextEntry, h.memory.hard.term])
    rw [← ht.lastLogIndex_eq] at hcommit
    refine Holds.bind (P := fun s => s = led)
      (M := fun _ => CommittedTo mode members n a₀ a' led.lastLogIndex)
      ?_ (fun _ => Holds.ret ?_) _ rfl
    · rintro s rfl
      refine hcommit.mono (fun _ _ hs => hs) fun s hc => ⟨?_, a', ?_⟩
      · rw [hc.applying.tracks.quorumSize_eq hn, ← ht.quorumSize_eq hn, halone]
      · rw [hc.applying.commit]
        exact hc
    · intro s hc
      refine ⟨a', hc.applying.tracks, hc.settled, fun _ _ => ?_⟩
      rw [hc.applying.commit]
      exact hc
  · rw [when_neg halone]
    refine ⟨_, ht, by rw [hled]; exact hs, fun _ hone => absurd ?_ halone⟩
    have := ht.quorumSize_eq hn
    omega

/-! ## Submitting -/

/-- The entry a submission waits for is in the leader's log. -/
def EntryOK (a : History) (index term : Nat) (command : Command) : Prop :=
  0 < index ∧ (a.leaderLog term)[index - 1]? = some ⟨index, term, command⟩

theorem nextEntry_ok (h : Tracks members mode n a₀ a node) (command : Command) :
    EntryOK (a.extend n (nextEntry node command)) (nextEntry node command).index
      (nextEntry node command).term command := by
  refine ⟨Nat.succ_pos _, ?_⟩
  show ((a.extend n (nextEntry node command)).leaderLog node.hardState.currentTerm)[
    node.lastLogIndex]? = some (nextEntry node command)
  rw [h.memory.hard.term, h.lastLogIndex_eq]
  simp

theorem submitAppend_tracks (hsound : mode.Sound sm) (hn : n ∈ members.ids) (hvalid : command.Valid)
    (h : Tracks members mode n a₀ a node) (hs : Settled mode node) :
    Outcome
      (fun started s => ∃ a', Tracks members mode n a₀ a' s ∧ Settled mode s ∧
        (∀ i t, started = .pending i t → EntryOK a' i t command) ∧
        (∀ result, started = .answered result → result.status = .Committed →
          s.quorumSize ≤ 1 ∧ CommittedTo mode members n a₀ a' result.logIndex s ∧
            result.term = a'.term n ∧ EntryOK a' result.logIndex result.term command))
      (fun s => s.quorumSize ≤ 1 ∧
        ∃ a', CommittedTo mode members n a₀ a' s.hardState.commitIndex s)
      (submitAppend sm command node) := by
  simp only [submitAppend, read_bind_apply]
  by_cases hrole : node.role ≠ .Leader
  · rw [if_pos hrole]
    refine ⟨a, h, hs, fun i t hp => (by cases hp), fun result hr hst => ?_⟩
    cases hr
    cases hst
  rw [if_neg hrole, bind_apply]
  replace hrole := not_not.mp hrole
  obtain ⟨L, hL⟩ := (h.memory.leader hrole).chosen
  have hpos := h.sane.inv.chosen_pos hL
  have hterm := h.memory.hard.term
  rw [appendLocalEntry_eq hrole (by omega)]
  have ht := h.append hrole hvalid
  have hentry := nextEntry_ok h command
  set e := nextEntry node command with he
  have hlen : ((a.extend n e).log n).length = e.index := by
    show _ = node.lastLogIndex + 1
    rw [h.lastLogIndex_eq]
    simp
  show Outcome _ _ ((if (RaftNode.persistLog { node with log := node.log ++ [e] }).quorumSize = 1
    then _ else _ : Locked σ SubmitStart) (RaftNode.persistLog { node with log := node.log ++ [e] }))
  by_cases halone : (RaftNode.persistLog { node with log := node.log ++ [e] }).quorumSize = 1
  · rw [if_pos halone]
    obtain ⟨a', hleader, hterms, hcommit⟩ := commitTo_alone hsound hn ht hrole halone (by
      rw [show (a.extend n e).log n = a.log n ++ [e] by simp, lastTerm_concat]
      exact hterm)
    rw [hlen] at hcommit
    have hone : ∀ s, CommittedTo mode members n a₀ a' e.index s → s.quorumSize ≤ 1 := fun s hc => by
      rw [hc.applying.tracks.quorumSize_eq hn, ← ht.quorumSize_eq hn, halone]
    refine Holds.bind (P := fun s => s = RaftNode.persistLog { node with log := node.log ++ [e] })
      (M := fun _ => CommittedTo mode members n a₀ a' e.index)
      ?_ (fun _ => Holds.ret ?_) _ rfl
    · rintro s rfl
      refine hcommit.mono (fun _ _ hs => hs) fun s hc => ⟨hone s hc, a', ?_⟩
      rw [hc.applying.commit]
      exact hc
    · intro s hc
      refine ⟨a', hc.applying.tracks, hc.settled, fun i t hp => (by cases hp),
        fun result hres _ => ?_⟩
      cases hres
      refine ⟨hone s hc, hc, ?_, ?_⟩
      · rw [hterms]
        exact hterm
      · rw [EntryOK, hleader]
        exact hentry
  · rw [if_neg halone]
    refine ⟨_, ht, hs, fun i t hp => ?_, fun result hr => by cases hr⟩
    cases hp
    exact hentry

end NebulaKV.Raft
