/-
# Replication rounds

What a leader sends to its peers, what it learns from their answers, and the count behind a commit.

The count deserves care. A leader counts a peer by its `match_index`, and a peer that refuses an old
snapshot answers with the index of its OWN snapshot, which it never acknowledged in this term. Such an
index is bounded by what earlier leaders committed, or by what this leader has committed already; a
candidate index with an entry of the current term above the commit index exceeds both. So every peer
that is counted has really acknowledged (`acked_of_matched`).
-/
import NebulaKV.Raft.TrackLead

namespace NebulaKV.Raft

open Consensus Effects Program Containers RaftNode

variable {σ : Type} {members : Membership} {mode : Mode σ} {n : NodeId} {a a₀ : History}
  {sm : StateMachine σ} {node : RaftNode σ}

/-! ## The count behind a commit -/

/-- The index a peer is known to hold. -/
def RaftNode.matchOf (node : RaftNode σ) (peer : Peer) : Nat :=
  (node.matchIndex.find? peer.id).getD 0

/-- The members that are counted as holders of an index: the node itself, and the peers known to have
it. -/
def RaftNode.holders (node : RaftNode σ) (index : Nat) : List NodeId :=
  node.options.nodeId ::
    (node.options.peers.filter fun peer => decide (index ≤ node.matchOf peer)).map Peer.id

/-- Above the commit index, and with an entry of the leader's own term there, a `match_index` is an
acknowledgement. -/
theorem acked_of_matched (h : Tracks members mode n a₀ a node) (hrole : node.role = .Leader)
    {c : Nat} (hc : node.hardState.commitIndex < c)
    (hentry : termBefore (a.log n) c = some (a.term n)) {p : NodeId} {v : Nat}
    (hv : node.matchIndex.find? p = some v) (hcv : c ≤ v) : c ≤ a.ack p (a.term n) := by
  have hl := h.memory.leader hrole
  obtain ⟨L, hL⟩ := hl.chosen
  rcases hl.matched p v hv with hack | hzero | ⟨T, C, hT, hC, hvC⟩
  · omega
  · omega
  · exfalso
    rw [termBefore, if_neg (by omega)] at hentry
    obtain ⟨e, he, het⟩ := Option.map_eq_some_iff.mp hentry
    rcases Nat.lt_or_eq_of_le hT with hlt | rfl
    · -- an earlier leader has not committed as far as an entry of this term
      have := h.sane.inv.lt_of_own_term hC hlt hL (by rw [hl.log]; exact he) het
      omega
    · have := hl.commits C hC
      omega

theorem advanceCommit_some {c : Nat} (h : node.advanceCommit = some c) :
    c = node.commitCandidate ∧ node.hardState.commitIndex < c ∧
      node.termAt c = some node.hardState.currentTerm := by
  unfold advanceCommit at h
  split_ifs at h with h₁ h₂
  cases h
  exact ⟨rfl, not_le.mp h₁, h₂⟩

/-- The candidate index is held by a quorum, as far as the leader knows. -/
theorem quorumSize_le_holders {c : Nat} (hc : c = node.commitCandidate) (hpos : 0 < c)
    (hlast : c ≤ node.lastLogIndex) : node.quorumSize ≤ (node.holders c).length := by
  have hlen : node.replicated.length = node.options.peers.length + 1 := by simp [replicated]
  have hq : node.quorumSize ≤ node.replicated.length := by
    rw [hlen, quorumSize]
    omega
  have hget : (node.replicated.insertionSort (· ≤ ·))[
      node.replicated.length - node.quorumSize]? = some c := by
    unfold commitCandidate at hc
    cases hx : (node.replicated.insertionSort (· ≤ ·))[
        node.replicated.length - node.quorumSize]? with
    | none =>
      rw [hx, Option.getD_none] at hc
      omega
    | some x =>
      rw [hx, Option.getD_some] at hc
      rw [hc]
  refine (le_count_of_sorted hq hget).trans (le_of_eq ?_)
  unfold replicated holders
  rw [List.filter_cons_of_pos (by simpa using hlast), List.filter_map]
  simp only [List.length_cons, List.length_map]
  rfl

/-- The members counted are a majority. -/
theorem holders_isQuorum (hn : n ∈ members.ids) (h : Tracks members mode n a₀ a node) {c : Nat}
    (hcount : node.quorumSize ≤ (node.holders c).length) {A : Set NodeId}
    (hA : ∀ p ∈ node.holders c, p ∈ A) : (majority members.ids).IsQuorum A := by
  have hperm := members.nodup_peers hn
  refine isQuorum_of_list (l := (node.holders c).tail) hn ?_ ?_ ?_ ?_ ?_
  · refine ((List.nodup_cons.mp hperm).2).sublist ?_
    rw [← h.memory.peers]
    exact (List.filter_sublist).map _
  · intro p hp
    rw [← h.memory.peers]
    exact ((List.filter_sublist).map _).subset hp
  · rw [← h.quorumSize_eq hn]
    simpa [holders] using hcount
  · exact hA n (by simp [holders, h.memory.nodeId])
  · exact fun p hp => hA p (List.mem_of_mem_tail hp)

/-- A leader advances its commit index: the history first records that the leader holds its own log,
then the commit. -/
theorem Tracks.advance (hn : n ∈ members.ids) (h : Tracks members mode n a₀ a node)
    (hrole : node.role = .Leader) {c : Nat} (hc : node.advanceCommit = some c) :
    c ≤ (a.log n).length ∧ node.quorumSize ≤ (node.holders c).length ∧
      ∃ a', a'.log = a.log ∧ a'.leaderLog = a.leaderLog ∧ a'.term = a.term ∧ a'.chosen = a.chosen ∧
        a'.committed (a'.term n) c ∧ (∀ p ∈ node.holders c, a'.term n ≤ a'.term p) ∧
        Tracks members mode n a₀ a'
          { node with hardState := { node.hardState with commitIndex := c } } := by
  obtain ⟨hcand, hgt, hterm⟩ := advanceCommit_some hc
  have hk : snapshotIndex node.snapshot ≤ c := by
    by_contra hlt
    rw [termAt_covered (by omega) (by omega)] at hterm
    cases hterm
  rw [termAt_eq h.memory.logs h.indexed hk, h.memory.hard.term] at hterm
  have hlen := termBefore_isSome hterm
  have hcount := quorumSize_le_holders hcand (by omega) (h.lastLogIndex_eq.symm ▸ hlen)
  have hack := h.selfAck hrole
  have hself : (a.adopt n (a.log n).length (a.log n)).log n = a.log n := by simp
  have hlog : (a.adopt n (a.log n).length (a.log n)).log = a.log := by
    funext p
    by_cases hp : p = n
    · rw [hp, hself]
    · simp [hp]
  have hheld : ∀ p ∈ node.holders c,
      c ≤ (a.adopt n (a.log n).length (a.log n)).ack p (a.term n) := by
    intro p hp
    rcases List.mem_cons.mp hp with rfl | hp
    · rw [h.memory.nodeId]
      simp only [Consensus.State.adopt_ack, Function.update_self]
      omega
    · obtain ⟨peer, hpeer, rfl⟩ := List.mem_map.mp hp
      have hmatch : c ≤ node.matchOf peer := by simpa using (List.mem_filter.mp hpeer).2
      unfold matchOf at hmatch
      cases hv : node.matchIndex.find? peer.id with
      | none =>
        rw [hv, Option.getD_none] at hmatch
        omega
      | some v =>
        rw [hv, Option.getD_some] at hmatch
        exact acked_of_matched hack hrole hgt (by rw [hself]; exact hterm) hv hmatch
  have ht := hack.commit hrole (holders_isQuorum hn hack hcount hheld) (by omega)
    (by rw [hself]; exact hterm) hgt.le
  refine ⟨hlen, hcount, (a.adopt n (a.log n).length (a.log n)).commit (a.term n) c, hlog, rfl, rfl,
    rfl, Or.inr ⟨rfl, rfl⟩, fun p hp => ?_, ht⟩
  exact hack.sane.inv.ack_le (lt_of_lt_of_le (by omega) (hheld p hp))

/-! ## Requests -/

theorem Tracks.setNextIndex (h : Tracks members mode n a₀ a node) (next : OrderedMap NodeId Nat) :
    Tracks members mode n a₀ a { node with nextIndex := next } :=
  { h with
    memory :=
      { h.memory with
        leader := fun hr => (h.memory.leader hr).same rfl rfl } }

theorem termBefore_take {L : List LogEntry} {i k : Nat} (h : i ≤ k) :
    termBefore (L.take k) i = termBefore L i := by
  unfold termBefore
  split_ifs with hz
  · rfl
  · rw [List.getElem?_take_of_lt (by omega)]

/-- What is sent to a peer is a piece of the whole log. -/
theorem entriesFrom_sent (h : Tracks members mode n a₀ a node) {next : Nat}
    (hk : snapshotIndex node.snapshot ≤ previousOf next) :
    ∃ k, node.entriesFrom next = ((a.log n).drop (previousOf next)).take k := by
  by_cases hz : next = 0
  · refine ⟨0, ?_⟩
    rw [hz, List.take_zero, entriesFrom]
    simp [firstIndex]
  · refine ⟨node.options.maxAppendEntries, ?_⟩
    rw [previousOf, if_neg hz] at hk ⊢
    exact entriesFrom_eq h.memory.logs h.indexed (by omega)

/-- Any piece of its log that a leader sends is one that a follower can check. -/
theorem appendOK_of_leader (h : Tracks members mode n a₀ a node) (hrole : node.role = .Leader)
    {previous previousTerm : Nat} {entries : List LogEntry}
    (hprevious : termBefore (a.log n) previous = some previousTerm)
    (hentries : ∃ k, entries = ((a.log n).drop previous).take k) :
    AppendOK a ⟨node.hardState.currentTerm, node.options.nodeId, previous, previousTerm, entries,
      node.hardState.commitIndex⟩ := by
  have hl := h.memory.leader hrole
  obtain ⟨L, hL⟩ := hl.chosen
  obtain ⟨k, rfl⟩ := hentries
  have hlen := termBefore_isSome hprevious
  rw [← h.memory.hard.term] at hL
  refine ⟨⟨_, hL⟩, ?_, (a.log n).take (previous + k), ?_, ?_, ?_, ?_⟩
  · rw [h.memory.hard.term]
    exact h.memory.hard.commit.bounded
  · rw [h.memory.hard.term, hl.log]
    exact List.take_prefix _ _
  · show previous ≤ _
    rw [List.length_take]
    omega
  · show ((a.log n).drop previous).take k = ((a.log n).take (previous + k)).drop previous
    rw [List.drop_take, Nat.add_sub_cancel_left]
  · rw [termBefore_take (Nat.le_add_right _ _)]
    exact hprevious

theorem installOK_of_leader (h : Tracks members mode n a₀ a node) (hrole : node.role = .Leader)
    {snapshot : Snapshot} (hs : node.snapshot = some snapshot) :
    InstallOK a (node.installRequest snapshot) := by
  have hl := h.memory.leader hrole
  obtain ⟨L, hL⟩ := hl.chosen
  have hlogs := h.memory.logs
  have hdecided := h.memory.decided
  rw [hs] at hlogs hdecided
  obtain ⟨hpos, _, hfits⟩ := hlogs.snapshot_eq snapshot rfl
  have hle : snapshot.lastIncludedIndex ≤ (a.log n).length := hlogs.le
  rw [← h.memory.hard.term] at hL
  refine ⟨⟨_, hL⟩, ?_, hpos, hfits, (a.log n).take snapshot.lastIncludedIndex, ?_, ?_, ?_⟩
  · show Bounded a node.hardState.currentTerm snapshot.lastIncludedIndex
    rw [h.memory.hard.term]
    exact hdecided.bounded
  · show _ <+: a.leaderLog node.hardState.currentTerm
    rw [h.memory.hard.term, hl.log]
    exact List.take_prefix _ _
  · rw [List.length_take, min_eq_left hle]
    rfl
  · show termBefore _ snapshot.lastIncludedIndex = some snapshot.lastIncludedTerm
    rw [termBefore_take le_rfl]
    exact termBefore_snapshot hlogs

/-- What the leader sends is in order, and the node stays where it was. -/
structure Sends (mode : Mode σ) (members : Membership) (n : NodeId) (a₀ a : History)
    (request : PeerRequest) (s : RaftNode σ) : Prop where
  tracks : Tracks members mode n a₀ a s
  settled : Settled mode s
  snapshot : ∀ r, request = .snapshot r → r.term = a.term n ∧ InstallOK a r
  append : ∀ r, request = .append r → r.term = a.term n ∧ AppendOK a r

theorem Sends.nothing {request : PeerRequest} (h : Tracks members mode n a₀ a node)
    (hs : Settled mode node) (hreq : request = .stop ∨ request = .again) :
    Sends mode members n a₀ a request node where
  tracks := h
  settled := hs
  snapshot r hr := by rcases hreq with rfl | rfl <;> cases hr
  append r hr := by rcases hreq with rfl | rfl <;> cases hr

theorem appendRequest_tracks {peer : Peer} {heartbeatOnly : Bool} {next : Nat}
    (h : Tracks members mode n a₀ a node) (hs : Settled mode node) (hrole : node.role = .Leader)
    (hk : snapshotIndex node.snapshot ≤ previousOf next) :
    Outcome (Sends mode members n a₀ a) (fun _ => False)
      (appendRequest peer heartbeatOnly next node) := by
  simp only [appendRequest, read_bind_apply]
  cases hprev : node.termAt (previousOf next) with
  | none => exact Sends.nothing (h.setNextIndex _) hs (Or.inr rfl)
  | some previousTerm =>
    rw [termAt_eq h.memory.logs h.indexed hk] at hprev
    refine ⟨h, hs, fun r hr => (by cases hr), fun r hr => ?_⟩
    cases hr
    refine ⟨h.memory.hard.term, appendOK_of_leader h hrole hprev ?_⟩
    cases heartbeatOnly with
    | true => exact ⟨0, by simp⟩
    | false => exact entriesFrom_sent h hk

theorem peerRequest_tracks (peer : Peer) (heartbeatOnly : Bool)
    (h : Tracks members mode n a₀ a node) (hs : Settled mode node) :
    Outcome (Sends mode members n a₀ a) (fun _ => False) (peerRequest peer heartbeatOnly node) := by
  simp only [peerRequest, read_bind_apply]
  by_cases hrole : node.role ≠ .Leader
  · rw [if_pos hrole]
    exact Sends.nothing h hs (Or.inl rfl)
  rw [if_neg hrole, update_bind_apply, read_bind_apply]
  replace hrole := not_not.mp hrole
  have ht : Tracks members mode n a₀ a (node.ensureNext peer) := h.setNextIndex _
  cases hsnap : (node.ensureNext peer).snapshot with
  | none =>
    refine appendRequest_tracks ht hs hrole ?_
    rw [hsnap]
    exact Nat.zero_le _
  | some snapshot =>
    by_cases hle : (node.ensureNext peer).nextFor peer ≤ snapshot.lastIncludedIndex
    · simp only [if_pos hle]
      refine ⟨ht, hs, fun r hr => ?_, fun r hr => by cases hr⟩
      cases hr
      exact ⟨h.memory.hard.term, installOK_of_leader ht hrole hsnap⟩
    · simp only [if_neg hle]
      refine appendRequest_tracks ht hs hrole ?_
      rw [hsnap, snapshotIndex_some, previousOf]
      split_ifs <;> omega

/-! ## Answers -/

/-- The index a peer answered with: it acknowledged it, or it is below what is committed. -/
def Matched (a : History) (p : NodeId) (t v : Nat) : Prop := v ≤ a.ack p t ∨ Bounded a t v

theorem Tracks.recordMatch (h : Tracks members mode n a₀ a node) {peer : Peer} {v : Nat}
    (hv : Matched a peer.id (a.term n) v) : Tracks members mode n a₀ a (node.recordMatch peer v) :=
  { h with
    memory :=
      { h.memory with
        leader := fun hr =>
          have hl := h.memory.leader hr
          ⟨hl.chosen, hl.log, fun p w hw => by
            simp only [RaftNode.recordMatch, OrderedMap.find?_insert] at hw
            split_ifs at hw with hp
            · cases hw
              rw [hp]
              exact hv
            · exact hl.matched p w hw, hl.commits⟩ } }

theorem Tracks.stepDown (h : Tracks members mode n a₀ a node) (hs : Settled mode node) {t : Nat}
    (ht : t > node.hardState.currentTerm) :
    ∃ a', Tracks members mode n a₀ a' (node.becomeFollower t []) ∧
      Settled mode (node.becomeFollower t []) := by
  refine ⟨_, h.becomeFollower (t := t) ?_ [], hs.becomeFollower _ _⟩
  have := h.memory.hard.term
  omega

/-- Both kinds of answer are looked at in one order: a newer term, an older request, the success. -/
theorem Tracks.answered {β : Type} {peer : Peer} {requestTerm term index : Nat} {success : Bool}
    {stop done : β} {refused : Locked σ β} {reached : β → Prop}
    (h : Tracks members mode n a₀ a node) (hs : Settled mode node)
    (hok : success = true → Matched a peer.id requestTerm index) (hstop : ¬ reached stop)
    (hrefused : Outcome (fun again s => Tracks members mode n a₀ a s ∧ Settled mode s ∧ ¬ reached again)
      (fun _ => False) (refused node)) :
    Outcome
      (fun result s => ∃ a', Tracks members mode n a₀ a' s ∧ Settled mode s ∧
        (reached result → success = true ∧ a'.term n = requestTerm))
      (fun _ => False)
      ((if term > node.hardState.currentTerm then do
          Program.update (RaftNode.becomeFollower term [])
          return stop
        else if node.role ≠ .Leader ∨ node.hardState.currentTerm ≠ requestTerm then return stop
        else if success then do
          Program.update (RaftNode.recordMatch peer index)
          return done
        else refused : Locked σ β) node) := by
  split_ifs with hgt hstale hsucc
  · obtain ⟨a', ht, hs'⟩ := h.stepDown hs hgt
    exact ⟨a', ht, hs', fun hr => absurd hr hstop⟩
  · exact ⟨a, h, hs, fun hr => absurd hr hstop⟩
  · push Not at hstale
    have hterm : a.term n = requestTerm := h.memory.hard.term ▸ hstale.2
    exact ⟨a, h.recordMatch (by rw [hterm]; exact hok hsucc), hs, fun _ => ⟨hsucc, hterm⟩⟩
  · exact hrefused.mono (fun _ _ hs' => ⟨a, hs'.1, hs'.2.1, fun hr => absurd hr hs'.2.2⟩) fun _ hf => hf

theorem installResponse_tracks (peer : Peer) (requestTerm : Nat)
    (response : InstallSnapshotResponse) (h : Tracks members mode n a₀ a node)
    (hs : Settled mode node)
    (hok : response.success = true → Matched a peer.id requestTerm response.installedIndex) :
    Outcome
      (fun reached s => ∃ a', Tracks members mode n a₀ a' s ∧ Settled mode s ∧
        (reached = true → response.success = true ∧ a'.term n = requestTerm))
      (fun _ => False) (installResponse peer requestTerm response node) :=
  h.answered hs hok Bool.false_ne_true ⟨h, hs, Bool.false_ne_true⟩

theorem appendResponse_tracks (peer : Peer) (requestTerm : Nat) (response : AppendEntriesResponse)
    (h : Tracks members mode n a₀ a node) (hs : Settled mode node)
    (hok : response.success = true → Matched a peer.id requestTerm response.matchIndex) :
    Outcome
      (fun reached s => ∃ a', Tracks members mode n a₀ a' s ∧ Settled mode s ∧
        (reached = some true → response.success = true ∧ a'.term n = requestTerm))
      (fun _ => False) (appendResponse peer requestTerm response node) :=
  h.answered hs hok (by decide) ⟨h.setNextIndex _, hs, by decide⟩

end NebulaKV.Raft
