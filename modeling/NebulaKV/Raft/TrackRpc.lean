/-
# The RPC handlers

What handling a request does to the history, for requests that say something true of it: a vote request
comes from a candidate that stood with that log; an `AppendEntries` carries the end of a front part of
its leader's log; an `InstallSnapshot` names a position of it. These statements only get truer as the
history grows, so they hold however late a request arrives.

`OverCommits` is the one thing a handler can do wrong: it takes the leader's commit index for an index of
its own log, bounded by its own last index, also where that log was never compared with the leader's. It
is excluded where the mode is strict, and nothing but the agreement of the node's own log with what was
committed depends on it.
-/
import NebulaKV.Raft.TrackCommit

namespace NebulaKV.Raft

open Consensus Effects Program Containers RaftNode

variable {σ : Type} {members : Membership} {mode : Mode σ} {n : NodeId} {a a₀ : History}
  {sm : StateMachine σ} {node : RaftNode σ}
variable {t k : Nat} {x : NodeId × List LogEntry} {new A : List LogEntry}
  {request : AppendEntriesRequest}

/-! ## Learning a term -/

theorem setTerm_self (a : History) (n : NodeId) : a.setTerm n (a.term n) = a := by
  cases a
  simp [Consensus.State.setTerm]

theorem HardOK.setTerm {hs : HardState} (h : HardOK mode a n hs) (hsane : Sane members a)
    (ht : a.term n ≤ t) :
    HardOK mode (a.setTerm n t) n
      (if t > hs.currentTerm then { hs with currentTerm := t, votedFor := [] } else hs) := by
  have hext := (hsane.inv.touches (Step.advance ht)).toExtends
  have hcommit : Decided mode (a.setTerm n t) n hs.commitIndex :=
    h.commit.grow hsane hext (by simp)
  have happlied : Decided mode (a.setTerm n t) n hs.lastApplied :=
    h.applied.grow hsane hext (by simp)
  by_cases hgt : t > hs.currentTerm
  · rw [if_pos hgt]
    refine ⟨by simp, Or.inl ⟨rfl, ?_⟩, hcommit, happlied⟩
    -- a vote in the new term would have been cast in a term not reached yet
    simp only [Consensus.State.setTerm_term, Function.update_self, Consensus.State.setTerm_vote]
    cases hv : a.vote n t with
    | none => rfl
    | some c =>
      have := hsane.inv.vote_le hv
      rw [h.term] at hgt
      omega
  · rw [if_neg hgt]
    obtain rfl : t = a.term n := by
      rw [h.term] at hgt
      omega
    rw [setTerm_self]
    exact h

theorem Tracks.becomeFollower (h : Tracks members mode n a₀ a node) (ht : a.term n ≤ t)
    (leaderId : NodeId) :
    Tracks members mode n a₀ (a.setTerm n t) (node.becomeFollower t leaderId) := by
  obtain ⟨hsane, hmoves, hext⟩ := h.step (Step.advance ht) h.sane.indexed
  unfold RaftNode.becomeFollower
  rw [if_neg (by rw [h.memory.hard.term]; omega)]
  exact Tracks.persistHardState hsane hmoves
    { nodeId := h.memory.nodeId
      peers := h.memory.peers
      hard := h.memory.hard.setTerm h.sane ht
      logs := by simpa using h.memory.logs
      decided := h.memory.decided.grow h.sane hext (by simp)
      candidate := fun hr => by cases hr
      leader := fun hr => by cases hr } h.saved (mode.mono h.machine hext) h.journal

theorem Settled.becomeFollower (h : Settled mode node) (t : Nat) (leaderId : NodeId) :
    Settled mode (node.becomeFollower t leaderId) := by
  simpa [Settled] using h

theorem Tracks.setLeaderId (h : Tracks members mode n a₀ a node) (leaderId : NodeId) :
    Tracks members mode n a₀ a { node with leaderId := leaderId } :=
  { h with
    memory := { h.memory with leader := fun hr => (h.memory.leader hr).same rfl rfl } }

theorem Tracks.follow (h : Tracks members mode n a₀ a node) (ht : a.term n ≤ t) (leaderId : NodeId) :
    Tracks members mode n a₀ (a.setTerm n t) (node.follow t leaderId) := by
  unfold RaftNode.follow
  by_cases hc : t > node.hardState.currentTerm ∨ node.role ≠ .Follower
  · simp only [if_pos hc]
    exact (h.becomeFollower ht leaderId).setLeaderId leaderId
  · simp only [if_neg hc]
    push Not at hc
    obtain rfl : t = a.term n := by
      have := h.memory.hard.term
      omega
    rw [setTerm_self]
    exact h.setLeaderId leaderId

theorem follow_role (ht : node.hardState.currentTerm ≤ t) (leaderId : NodeId) :
    (node.follow t leaderId).role = .Follower := by
  unfold RaftNode.follow RaftNode.becomeFollower
  by_cases hc : t > node.hardState.currentTerm ∨ node.role ≠ .Follower
  · simp only [if_pos hc, if_neg (not_lt.mpr ht)]
    rfl
  · simp only [if_neg hc]
    push Not at hc
    exact hc.2

theorem Settled.follow (h : Settled mode node) (t : Nat) (leaderId : NodeId) :
    Settled mode (node.follow t leaderId) := by
  simpa [Settled] using h

/-! ## Votes -/

/-- The candidate stood with a log of this last index and term. -/
def VoteOK (a : History) (request : RequestVoteRequest) : Prop :=
  request.candidateId ≠ [] ∧ ∃ L, a.stood request.term request.candidateId = some L ∧
    request.lastLogIndex = L.length ∧ request.lastLogTerm = lastTerm L

/-- A vote is written before it is given. -/
theorem Tracks.vote (h : Tracks members mode n a₀ a node) {c : NodeId} {L : List LogEntry}
    (hc : c ≠ []) (hstood : a.stood (a.term n) c = some L)
    (hfree : node.hardState.votedFor = [] ∨ node.hardState.votedFor = c)
    (hup : UpToDate L (a.log n)) :
    Tracks members mode n a₀ (a.castVote n (a.term n) c)
      (RaftNode.persistHardState
        { node with hardState := { node.hardState with votedFor := c } }) := by
  have hvote : a.vote n (a.term n) = none ∨ a.vote n (a.term n) = some c := by
    rcases h.memory.hard.vote with ⟨_, hv⟩ | ⟨hne, hv⟩
    · exact Or.inl hv
    · rcases hfree with hf | hf
      · exact absurd hf hne
      · exact Or.inr (hf ▸ hv)
  obtain ⟨hsane, hmoves, hext⟩ := h.step (Step.grant hvote hstood hup) h.sane.indexed
  exact Tracks.persistHardState hsane hmoves
    { nodeId := h.memory.nodeId
      peers := h.memory.peers
      hard :=
        { term := h.memory.hard.term
          vote := Or.inr ⟨hc, by simp⟩
          commit := h.memory.hard.commit.grow h.sane hext (by simp)
          applied := h.memory.hard.applied.grow h.sane hext (by simp) }
      logs := h.memory.logs
      decided := h.memory.decided.grow h.sane hext (by simp)
      candidate := h.memory.candidate
      leader := fun hr =>
        have hl := h.memory.leader hr
        ⟨hl.chosen, hl.log, fun p v hv => hl.matched p v hv, hl.commits⟩ }
    h.saved (mode.mono h.machine hext) h.journal

theorem handleRequestVote_tracks {request : RequestVoteRequest}
    (h : Tracks members mode n a₀ a node) (hs : Settled mode node) (hok : VoteOK a request) :
    Outcome
      (fun response s => ∃ a', Tracks members mode n a₀ a' s ∧ Settled mode s ∧
        (response.voteGranted = true → a'.vote n request.term = some request.candidateId))
      (fun _ => False) (handleRequestVote request node) := by
  obtain ⟨hne, L, hstood, hlength, hterm⟩ := hok
  simp only [handleRequestVote, read_bind_apply]
  by_cases hlt : request.term < node.hardState.currentTerm
  · rw [if_pos hlt]
    exact ⟨a, h, hs, fun hg => by cases hg⟩
  rw [if_neg hlt]
  have hle : a.term n ≤ request.term := h.memory.hard.term ▸ not_lt.mp hlt
  refine Holds.bind (P := fun s => s = node)
    (M := fun _ s => Tracks members mode n a₀ (a.setTerm n request.term) s ∧ Settled mode s)
    (Holds.when ?_ ?_) (fun _ => Holds.read_bind fun s hs' => ?_) node rfl
  · exact fun _ => Holds.update fun s hs' => hs' ▸ ⟨h.becomeFollower hle [], hs.becomeFollower _ _⟩
  · intro hnot s hs'
    subst hs'
    obtain heq : request.term = a.term n := by
      have := h.memory.hard.term
      omega
    rw [heq, setTerm_self]
    exact ⟨h, hs⟩
  · obtain ⟨ht, hsettled⟩ := hs'
    have hlast := ht.lastLogIndex_eq
    have hlastTerm := lastLogTerm_eq ht.memory.logs
    have ht1 : (a.setTerm n request.term).term n = request.term := by simp
    refine Holds.ite (fun hgrant => ?_) fun _ => Holds.ret ?_
    · refine Holds.update_bind (Holds.ret ?_)
      rintro s' ⟨s₀, rfl, rfl⟩
      have hup : UpToDate L ((a.setTerm n request.term).log n) := by
        rcases hgrant.2 with hgt | ⟨heq, hge⟩
        · exact Or.inl (by rw [← hlastTerm, ← hterm]; exact hgt)
        · exact Or.inr ⟨by rw [← hlastTerm, ← hterm]; exact heq.symm, by omega⟩
      refine ⟨_, ht.vote (c := request.candidateId) (L := L) hne (by rw [ht1]; exact hstood)
        hgrant.1 hup, hsettled, fun _ => ?_⟩
      simp
    · rintro s' rfl
      exact ⟨_, ht, hsettled, fun hg => by cases hg⟩

/-! ## Entries -/

/-- The request carries the end of a front part of its leader's log. -/
def AppendOK (a : History) (request : AppendEntriesRequest) : Prop :=
  (∃ x, a.chosen request.term = some x) ∧ Bounded a request.term request.leaderCommit ∧
    ∃ A, A <+: a.leaderLog request.term ∧ request.previousLogIndex ≤ A.length ∧
      request.entries = A.drop request.previousLogIndex ∧
      termBefore A request.previousLogIndex = some request.previousLogTerm

/-- Everything the request carries is held already, so the log stays as it is; and the handler raises the
commit index to one that lies behind it, in a part of the log that the request says nothing about. -/
def RaftNode.CommitsUnverified (node : RaftNode σ) (request : AppendEntriesRequest) : Prop :=
  node.hardState.commitIndex < min request.leaderCommit node.lastLogIndex ∧
    (∀ entry ∈ request.entries, node.termAt entry.index = some entry.term) ∧
    request.previousLogIndex + request.entries.length < min request.leaderCommit node.lastLogIndex

/-- The handler accepts the request and commits a part of the log that was not compared with the
leader's. -/
def RaftNode.OverCommits (node : RaftNode σ) (request : AppendEntriesRequest) : Prop :=
  node.hardState.currentTerm ≤ request.term ∧
    snapshotIndex node.snapshot ≤ request.previousLogIndex ∧
    node.termAt request.previousLogIndex = some request.previousLogTerm ∧
    node.CommitsUnverified request

instance (node : RaftNode σ) (request : AppendEntriesRequest) :
    Decidable (node.CommitsUnverified request) :=
  inferInstanceAs (Decidable (_ ∧ _ ∧ _))

instance (node : RaftNode σ) (request : AppendEntriesRequest) :
    Decidable (node.OverCommits request) :=
  inferInstanceAs (Decidable (_ ∧ _ ∧ _ ∧ _))

theorem HardOK.adopt {hs : HardState} (h : HardOK mode a n hs) (hsane : Sane members a)
    (hx : a.chosen (a.term n) = some x)
    (hadopts : Adopts ((a.leaderLog (a.term n)).take k) (a.log n) new)
    (hext : Extends a (a.adopt n k new)) : HardOK mode (a.adopt n k new) n hs where
  term := h.term
  vote := h.vote
  commit := h.commit.adopt hsane hx hadopts hext
  applied := h.applied.adopt hsane hx hadopts hext

/-- A node that follows adopts a front part of its leader's log: its members may now be those of the
new log. -/
theorem MemoryOK.adopt (h : MemoryOK members mode a n node) (hsane : Sane members a)
    {log : List LogEntry} {snapshot : Option Snapshot} (hrole : node.role = .Follower)
    (hx : a.chosen (a.term n) = some x)
    (hadopts : Adopts ((a.leaderLog (a.term n)).take k) (a.log n) new)
    (hext : Extends a (a.adopt n k new)) (hlogs : Compacted new log snapshot)
    (hdecided : Decided mode (a.adopt n k new) n (snapshotIndex snapshot)) :
    MemoryOK members mode (a.adopt n k new) n
      { node with log := log, snapshot := snapshot } where
  nodeId := h.nodeId
  peers := h.peers
  hard := h.hard.adopt hsane hx hadopts hext
  logs := by simpa using hlogs
  decided := hdecided
  candidate hr := by cases hrole.symm.trans hr
  leader hr := by cases hrole.symm.trans hr

/-- The adopted part was held already. -/
theorem Tracks.adopt_held (h : Tracks members mode n a₀ a node) (hrole : node.role = .Follower)
    (hx : a.chosen (a.term n) = some x) (hk : k ≤ (a.leaderLog (a.term n)).length)
    (hpre : (a.leaderLog (a.term n)).take k <+: a.log n) :
    Tracks members mode n a₀ (a.adopt n k (a.log n)) node := by
  have hadopts : Adopts ((a.leaderLog (a.term n)).take k) (a.log n) (a.log n) :=
    Or.inl ⟨hpre, rfl⟩
  obtain ⟨hsane, hmoves, hext⟩ := h.step (Step.accept hx hk hadopts) h.sane.indexed
  exact
    { sane := hsane
      moves := hmoves
      memory := h.memory.adopt h.sane hrole hx hadopts hext h.memory.logs
        (h.memory.decided.adopt h.sane hx hadopts hext)
      saved := h.saved
      hard := h.hard.adopt h.sane hx hadopts hext
      machine := mode.mono h.machine hext
      journal := h.journal }

/-- The adopted part replaces the log, which is then written to its file. -/
theorem Tracks.adopt_log (h : Tracks members mode n a₀ a node) (hrole : node.role = .Follower)
    (hx : a.chosen (a.term n) = some x) (hk : k ≤ (a.leaderLog (a.term n)).length)
    (hadopts : Adopts ((a.leaderLog (a.term n)).take k) (a.log n) new)
    (hlogs : Compacted new (new.drop (snapshotIndex node.snapshot)) node.snapshot) :
    Tracks members mode n a₀ (a.adopt n k new)
      (RaftNode.persistLog { node with log := new.drop (snapshotIndex node.snapshot) }) := by
  obtain ⟨hsane, hmoves, hext⟩ := h.step (Step.accept hx hk hadopts) h.sane.indexed
  exact Tracks.persistLog hsane hmoves
    (h.memory.adopt h.sane hrole hx hadopts hext hlogs
      (h.memory.decided.adopt h.sane hx hadopts hext))
    h.saved.2 (h.hard.adopt h.sane hx hadopts hext) (mode.mono h.machine hext) h.journal

/-- The log of the receiver and the request agree up to where the request starts. -/
theorem take_previous_eq (hsane : Sane members a) {p prevTerm : Nat} (hA : A <+: a.leaderLog t)
    (hL : termBefore (a.log n) p = some prevTerm) (hAp : termBefore A p = some prevTerm) :
    (a.log n).take p = A.take p := by
  unfold termBefore at hL hAp
  by_cases hp : p = 0
  · simp [hp]
  rw [if_neg hp] at hL hAp
  obtain ⟨e, he, het⟩ := Option.map_eq_some_iff.mp hL
  obtain ⟨e', he', het'⟩ := Option.map_eq_some_iff.mp hAp
  have := rooted_matching (hsane.inv.log_rooted n) ((hsane.inv.leaderLog_rooted t).of_part hA)
    he he' (het.trans het'.symm)
  rwa [Nat.sub_add_cancel (by omega)] at this

/-- The commit index follows the leader's. -/
theorem acceptCommit_tracks (hsound : mode.Sound sm) (h : Tracks members mode n a₀ a node)
    (hs : Settled mode node) (hrole : node.role = .Follower) (hx : a.chosen (a.term n) = some x)
    (hbounded : Bounded a (a.term n) request.leaderCommit) (hverified : mode.strict →
      node.hardState.commitIndex < min request.leaderCommit (a.log n).length →
      (a.leaderLog (a.term n)).take (min request.leaderCommit (a.log n).length) <+: a.log n) :
    Outcome
      (fun response s => Tracks members mode n a₀ a s ∧ Settled mode s ∧
        response.matchIndex ≤ requestEnd request)
      (fun s => Tracks members mode n a₀ a s ∧ Settled mode s) (acceptCommit sm request node) := by
  simp only [acceptCommit, read_bind_apply]
  refine Holds.bind (P := fun s => s = node)
    (M := fun _ s => Tracks members mode n a₀ a s ∧ Settled mode s) ?_ (fun _ => ?_) node rfl
  · refine Holds.when (fun hgt => ?_) fun _ s hs' => hs' ▸ ⟨h, hs⟩
    rintro s rfl
    rw [h.lastLogIndex_eq]
    have hdecided : Decided mode a n (min request.leaderCommit (a.log n).length) := by
      by_cases hmore : s.hardState.commitIndex < min request.leaderCommit (a.log n).length
      · exact Decided.of_bounded (hbounded.mono (Extends.refl a) le_rfl (min_le_left _ _)) h.sane hx
          fun hst => hverified hst hmore
      · exact h.memory.hard.commit.le (not_lt.mp hmore)
    refine (commitTo_tracks hsound h hdecided (min_le_right _ _) fun hr => ?_).mono
      (fun _ _ hs => ⟨hs.1.tracks, hs.2⟩) fun _ hs => ⟨hs.1.tracks, hs.2⟩
    rw [hrole] at hr
    cases hr
  · refine Holds.read_bind fun s hs' => Holds.ret ?_
    rintro s' rfl
    exact ⟨hs'.1, hs'.2, min_le_left _ _⟩

theorem requestEnd_eq (hA : Indexed A) (hlen : request.previousLogIndex ≤ A.length)
    (hentries : request.entries = A.drop request.previousLogIndex) :
    requestEnd request = A.length := by
  unfold requestEnd
  rw [hentries, List.getLast?_drop]
  by_cases hle : A.length ≤ request.previousLogIndex
  · rw [if_pos hle]
    show request.previousLogIndex = A.length
    omega
  · rw [if_neg hle]
    have hlast : A[A.length - 1]? = some A[A.length - 1] := by simp
    rw [List.getLast?_eq_getElem?, hlast]
    show (A[A.length - 1]).index = A.length
    rw [(hA _ _ hlast).1]
    omega

theorem acceptEntries_tracks (hsound : mode.Sound sm) (h : Tracks members mode n a₀ a node)
    (hs : Settled mode node) (hrole : node.role = .Follower) (hterm : a.term n = request.term)
    (hok : AppendOK a request) (hk : snapshotIndex node.snapshot ≤ request.previousLogIndex)
    (hprev : node.termAt request.previousLogIndex = some request.previousLogTerm)
    (hover : mode.strict → ¬ node.CommitsUnverified request) :
    Outcome
      (fun response s => ∃ a', Tracks members mode n a₀ a' s ∧ Settled mode s ∧
        a'.term n = request.term ∧ response.matchIndex ≤ a'.ack n request.term)
      (fun s => ∃ a', Tracks members mode n a₀ a' s ∧ Settled mode s)
      (acceptEntries sm request node) := by
  obtain ⟨⟨x, hx⟩, hbounded, A, hA, hpA, hentries, hAprev⟩ := hok
  rw [← hterm] at hx hA hbounded
  rw [termAt_eq h.memory.logs h.indexed hk] at hprev
  have hpL := termBefore_isSome hprev
  have hsame := take_previous_eq h.sane hA hprev hAprev
  have hAroot : Rooted a A := (h.sane.inv.leaderLog_rooted _).of_part hA
  have hAindexed := h.sane.rooted_indexed hAroot
  have hAeq : A = (a.log n).take request.previousLogIndex ++ request.entries := by
    rw [hentries, hsame, List.take_append_drop]
  have hAlen : A.length = request.previousLogIndex + request.entries.length := by
    rw [hentries, List.length_drop]
    omega
  have hmerge := mergeEntries_eq h.memory.logs h.indexed hAindexed hk (by omega) hAeq
    (fun i e e' he he' het => rooted_matching (h.sane.inv.log_rooted n) hAroot he he' het) false
  have htakeA : (a.leaderLog (a.term n)).take A.length = A := by
    obtain ⟨C, hC⟩ := hA
    rw [← hC, List.take_left]
  -- the history adopts `A`; the rest is the tail
  have hfinish : ∀ (new : List LogEntry) (node' : RaftNode σ),
      Adopts A (a.log n) new → Tracks members mode n a₀ (a.adopt n A.length new) node' →
      Settled mode node' → node'.role = .Follower →
      (mode.strict → node'.hardState.commitIndex < min request.leaderCommit new.length →
        min request.leaderCommit new.length ≤ A.length) →
      Outcome
        (fun response s => ∃ a', Tracks members mode n a₀ a' s ∧ Settled mode s ∧
          a'.term n = request.term ∧ response.matchIndex ≤ a'.ack n request.term)
        (fun s => ∃ a', Tracks members mode n a₀ a' s ∧ Settled mode s)
        (acceptCommit sm request node') := by
    intro new node' hadopts ht hs' hrole' hle
    refine (acceptCommit_tracks hsound ht hs' hrole' (x := x) hx hbounded ?_).mono ?_
      fun s hs => ⟨_, hs.1, hs.2⟩
    · intro hst hgt
      simp only [Consensus.State.adopt_log, Function.update_self, Consensus.State.adopt_leaderLog,
        Consensus.State.adopt_term] at hgt ⊢
      have hle' := hle hst hgt
      calc (a.leaderLog (a.term n)).take (min request.leaderCommit new.length)
          <+: (a.leaderLog (a.term n)).take A.length := take_prefix_take hle'
        _ = A := htakeA
        _ <+: new := hadopts.has
    · rintro response s ⟨ht', hs'', hmatch⟩
      refine ⟨_, ht', hs'', hterm, hmatch.trans ?_⟩
      rw [requestEnd_eq hAindexed hpA hentries, ← hterm]
      simp
  unfold acceptEntries
  rw [bind_apply, hmerge]
  by_cases hpre : A <+: a.log n
  · -- nothing new: the log stays, and what is committed must lie within the request
    rw [if_pos hpre]
    refine hfinish (a.log n) node (Or.inl ⟨hpre, rfl⟩)
      (h.adopt_held hrole hx hA.length_le (by rw [htakeA]; exact hpre)) hs hrole fun hst hgt => ?_
    by_contra hlt
    refine hover hst ⟨by rwa [h.lastLogIndex_eq], fun entry hentry => ?_,
      by rw [h.lastLogIndex_eq]; omega⟩
    rw [hentries] at hentry
    obtain ⟨i, hi⟩ := List.mem_iff_getElem?.mp hentry
    rw [List.getElem?_drop] at hi
    have hindex := (hAindexed _ _ hi).1
    obtain ⟨C, hC⟩ := hpre
    rw [termAt_eq h.memory.logs h.indexed (by omega), termBefore, if_neg (by omega), hindex, ← hC,
      List.getElem?_append_left (by have := (List.getElem?_eq_some_iff.mp hi).1; omega)]
    simp [hi]
  · rw [if_neg hpre]
    have hlogs : Compacted A (A.drop (snapshotIndex node.snapshot)) node.snapshot := by
      refine ⟨by omega, rfl, fun s hs => ?_⟩
      obtain ⟨hpos, hterm', hfits⟩ := h.memory.logs.snapshot_eq s hs
      rw [hs, snapshotIndex_some] at hk
      refine ⟨hpos, ?_, hfits⟩
      rwa [hAeq, List.getElem?_append_left (by rw [List.length_take]; omega),
        List.getElem?_take_of_lt (by omega)]
    have hadopts : Adopts A (a.log n) A := Or.inr ⟨hpre, rfl⟩
    exact hfinish A _ hadopts
      (h.adopt_log hrole hx hA.length_le (by rw [htakeA]; exact hadopts) hlogs) hs hrole
      fun _ _ => min_le_right _ _

theorem handleAppendEntries_tracks (hsound : mode.Sound sm) (h : Tracks members mode n a₀ a node)
    (hs : Settled mode node) (hok : AppendOK a request)
    (hover : mode.strict → ¬ node.OverCommits request) :
    Outcome
      (fun response s => ∃ a', Tracks members mode n a₀ a' s ∧ Settled mode s ∧
        (response.success = true →
          a'.term n = request.term ∧ response.matchIndex ≤ a'.ack n request.term))
      (fun s => ∃ a', Tracks members mode n a₀ a' s ∧ Settled mode s)
      (handleAppendEntries sm request node) := by
  have hfollow := untouched_follow node request.term request.leaderId
  have ht := fun hge : node.hardState.currentTerm ≤ request.term =>
    h.follow (by have := h.memory.hard.term; omega : a.term n ≤ request.term) request.leaderId
  have hs' := hs.follow request.term request.leaderId
  rcases handleAppendEntries_cases sm node request with
    ⟨response, hrefused, -, heq | ⟨hge, heq⟩⟩ | ⟨hcontinues, heq⟩
  · rw [heq]
    exact ⟨a, h, hs, fun hg => absurd hg (by rw [hrefused]; exact Bool.false_ne_true)⟩
  · rw [heq]
    exact ⟨_, ht hge, hs',
      fun hg => absurd hg (by rw [hrefused]; exact Bool.false_ne_true)⟩
  · obtain ⟨hge, hk, hprev⟩ := hcontinues
    rw [heq]
    refine (acceptEntries_tracks hsound (ht hge) hs' (follow_role hge request.leaderId)
      (by simp) hok (hfollow.snapshot ▸ hk)
      ((hfollow.termAt _).trans hprev) ?_).mono (fun response s hr => ?_) fun _ hr => hr
    · rintro hst ⟨hcommit, hheld, hlast⟩
      rw [hfollow.lastLogIndex] at hcommit hlast
      rw [hfollow.commit] at hcommit
      refine hover hst ⟨hge, hk, hprev, hcommit, fun entry hentry => ?_, hlast⟩
      rw [← hfollow.termAt]
      exact hheld entry hentry
    · obtain ⟨a', hta, hsa, hterm, hmatch⟩ := hr
      exact ⟨a', hta, hsa, fun _ => ⟨hterm, hmatch⟩⟩

/-! ## Snapshots -/

/-- The request names a position of its leader's log that was committed. -/
def InstallOK (a : History) (request : InstallSnapshotRequest) : Prop :=
  (∃ x, a.chosen request.term = some x) ∧ Bounded a request.term request.lastIncludedIndex ∧
    0 < request.lastIncludedIndex ∧ request.payload.length ≤ uint32Max ∧
    ∃ A, A <+: a.leaderLog request.term ∧ A.length = request.lastIncludedIndex ∧
      termBefore A request.lastIncludedIndex = some request.lastIncludedTerm

/-- The log behind the snapshot is kept exactly when the whole log starts with what the snapshot
covers. -/
theorem keepBehind_eq (h : Tracks members mode n a₀ a node) {request : InstallSnapshotRequest}
    (hA : A <+: a.leaderLog (a.term n)) (hlen : A.length = request.lastIncludedIndex)
    (hterm : termBefore A request.lastIncludedIndex = some request.lastIncludedTerm)
    (hk : snapshotIndex node.snapshot < request.lastIncludedIndex) :
    ∃ new, Adopts A (a.log n) new ∧
      node.keepBehind request = { node with log := new.drop request.lastIncludedIndex } := by
  have htermAt := termAt_eq h.memory.logs h.indexed hk.le
  unfold keepBehind
  by_cases hpre : A <+: a.log n
  · refine ⟨a.log n, Or.inl ⟨hpre, rfl⟩, ?_⟩
    have hheld : node.termAt request.lastIncludedIndex = some request.lastIncludedTerm := by
      obtain ⟨C, hC⟩ := hpre
      rw [htermAt, ← hterm, ← hC]
      unfold termBefore
      rw [if_neg (by omega), if_neg (by omega), List.getElem?_append_left (by omega)]
    rw [if_pos hheld, h.memory.logs.log_eq, eraseThrough_drop h.indexed hk.le]
  · refine ⟨A, Or.inr ⟨hpre, rfl⟩, ?_⟩
    rw [if_neg, List.drop_eq_nil_of_le (by omega)]
    intro hheld
    rw [htermAt] at hheld
    have := take_previous_eq h.sane hA hheld hterm
    rw [List.take_of_length_le (show A.length ≤ _ by omega)] at this
    exact hpre (this ▸ List.take_prefix _ _)

/-- The snapshot's file is replaced before the log's. In between, an old log that is not empty still
starts behind the old snapshot; an empty one fits the new snapshot already. -/
theorem Tracks.install (h : Tracks members mode n a₀ a node) (installed : Snapshot)
    (hrole : node.role = .Follower) (hx : a.chosen (a.term n) = some x)
    (hlen : installed.lastIncludedIndex ≤ (a.leaderLog (a.term n)).length)
    (hadopts : Adopts ((a.leaderLog (a.term n)).take installed.lastIncludedIndex) (a.log n) new)
    (hk : snapshotIndex node.snapshot < installed.lastIncludedIndex)
    (hlogs : Compacted new (new.drop installed.lastIncludedIndex) (some installed))
    (hdecided : Decided mode (a.adopt n installed.lastIncludedIndex new) n
      installed.lastIncludedIndex) :
    Tracks members mode n a₀ (a.adopt n installed.lastIncludedIndex new)
      (RaftNode.persistLog
        { ({ node with log := new.drop installed.lastIncludedIndex } : RaftNode σ).store .snapshot
            { node.disk with snapshot := some installed } with
          snapshot := some installed }) := by
  obtain ⟨hsane, hmoves, hext⟩ := h.step (Step.accept hx hlen hadopts) h.sane.indexed
  have hmemory := h.memory.adopt h.sane hrole hx hadopts hext hlogs hdecided
  have hhard := h.hard.adopt h.sane hx hadopts hext
  refine Tracks.persistLog hsane hmoves
    { hmemory with leader := fun hr => (by cases hrole.symm.trans hr) } rfl hhard
    (mode.mono h.machine hext) ?_
  by_cases hempty : node.log = []
  · refine h.journal.append hmoves (fun _ => ⟨hhard, Or.inl ⟨?_, hdecided⟩⟩)
      (mode.mono h.machine hext)
    have hshort : (a.log n).length ≤ snapshotIndex node.snapshot := by
      rw [h.memory.logs.log_eq] at hempty
      exact List.drop_eq_nil_iff.mp hempty
    have hdrop : new.drop installed.lastIncludedIndex = [] := by
      rcases hadopts with ⟨_, rfl⟩ | ⟨_, rfl⟩
      · exact List.drop_eq_nil_of_le (by omega)
      · exact List.drop_eq_nil_of_le (List.length_take_le _ _)
    rw [hdrop] at hlogs
    show Compacted ((a.adopt n installed.lastIncludedIndex new).log n) node.disk.log (some installed)
    rw [h.saved.1, hempty]
    simpa using hlogs
  · have hne : node.disk.log ≠ [] := fun hnil => hempty (h.saved.1 ▸ hnil)
    refine h.journal.append h.moves (fun hwhole => ⟨h.hard, Or.inr ⟨fun hw => ?_,
      snapshotIndex node.snapshot, hk, ?_, hne⟩⟩) h.machine
    · exact hwhole hw ⟨rfl, hne⟩
    · exact h.saved.1.trans h.memory.logs.log_eq

theorem installAccepted_tracks (hsound : mode.Sound sm) {request : InstallSnapshotRequest}
    (h : Tracks members mode n a₀ a node) (hs : Settled mode node)
    (hrole : node.role = .Follower) (hterm : a.term n = request.term) (hok : InstallOK a request)
    (hk : snapshotIndex node.snapshot < request.lastIncludedIndex) :
    Outcome
      (fun response s => ∃ a', Tracks members mode n a₀ a' s ∧ Settled mode s ∧
        a'.term n = request.term ∧ response.installedIndex ≤ a'.ack n request.term)
      (fun s => ∃ a', Tracks members mode n a₀ a' s ∧ Settled mode s)
      (installAccepted sm request node) := by
  obtain ⟨⟨x, hx⟩, hbounded, hpos, hfits, A, hA, hlen, hAterm⟩ := hok
  rw [← hterm] at hx hbounded hA
  obtain ⟨new, hadoptsA, hkeep⟩ := keepBehind_eq h hA hlen hAterm hk
  have htakeA : (a.leaderLog (a.term n)).take request.lastIncludedIndex = A := by
    obtain ⟨C, hC⟩ := hA
    rw [← hC, ← hlen, List.take_left]
  have hadopts : Adopts ((a.leaderLog (a.term n)).take request.lastIncludedIndex) (a.log n) new := by
    rw [htakeA]
    exact hadoptsA
  let installed : Snapshot :=
    ⟨request.lastIncludedIndex, request.lastIncludedTerm, request.payload⟩
  let a₁ := a.adopt n request.lastIncludedIndex new
  have hsane₁ : Sane members a₁ :=
    (h.step (Step.accept hx (hlen ▸ hA.length_le) hadopts) h.sane.indexed).1
  have hnew : A <+: new := hadoptsA.has
  have hlogs : Compacted new (new.drop request.lastIncludedIndex) (some installed) := by
    refine ⟨by have := hnew.length_le; simpa [installed] using by omega, rfl, fun s hs' => ?_⟩
    obtain rfl := Option.some.inj hs'
    refine ⟨hpos, ?_, hfits⟩
    rw [termBefore, if_neg (by omega)] at hAterm
    obtain ⟨C, hC⟩ := hnew
    show (new[request.lastIncludedIndex - 1]?).map LogEntry.term = some request.lastIncludedTerm
    rw [← hC, List.getElem?_append_left (by omega)]
    exact hAterm
  have hdecided : Decided mode a₁ n request.lastIncludedIndex := by
    refine Decided.of_bounded (x := x) hbounded hsane₁ hx fun _ => ?_
    simp only [a₁, Consensus.State.adopt_log, Function.update_self,
      Consensus.State.adopt_leaderLog, Consensus.State.adopt_term]
    rw [htakeA]
    exact hnew
  have ht := h.install installed hrole hx
    (show request.lastIncludedIndex ≤ _ from hlen ▸ hA.length_le) hadopts hk hlogs hdecided
  have hinstalling : node.installing request = RaftNode.persistLog
      { ({ node with log := new.drop installed.lastIncludedIndex } : RaftNode σ).store .snapshot
          { node.disk with snapshot := some installed } with
        snapshot := some installed } := by
    rw [RaftNode.installing, hkeep]
  rw [← hinstalling] at ht
  have hmachine : mode.machineOK a₁ (sm.installSnapshot request.payload node.machine).2 := by
    have hbefore := ht.machine
    rw [hinstalling] at hbefore
    exact hsound.install _ hbefore
  refine ((installAccepted_spec sm node request).mono (fun response s hs' => ?_)
    fun _ _ hs' => hs').outcome ?_
  · obtain ⟨-, -, machine, hcall, rfl, rfl⟩ := hs'
    rw [hcall] at hmachine
    have ht₀ := ht.called hmachine
    have hfollower : ((node.installing request).called machine).role ≠ .Leader := by
      rw [hinstalling]
      exact fun hr => by cases hrole.symm.trans hr
    have ht₁ := (ht₀.setCommitIndex (ht₀.memory.hard.commit.max hdecided)
      fun hr => absurd hr hfollower).setLastApplied (ht₀.memory.hard.applied.max hdecided)
    refine ⟨a₁, Tracks.persistHardState ht₁.sane ht₁.moves ht₁.memory ht₁.saved ht₁.machine
      ht₁.journal, fun htotal => ?_, hterm, ?_⟩
    · rw [hinstalling]
      exact max_le_max (hs htotal) le_rfl
    · show request.lastIncludedIndex ≤ a₁.ack n request.term
      rw [← hterm]
      simp [a₁]
  · -- the request was saved by its leader once, so it can be saved here
    rintro e s (⟨h0 | hlong, -⟩ | ⟨-, -, machine, hcall, rfl⟩)
    · exact absurd h0 hpos.ne'
    · exact absurd hfits (not_le.mpr hlong)
    · rw [hcall] at hmachine
      refine ⟨a₁, ht.called hmachine, ?_⟩
      rw [hinstalling]
      exact hs

theorem handleInstallSnapshot_tracks (hsound : mode.Sound sm) {request : InstallSnapshotRequest}
    (h : Tracks members mode n a₀ a node) (hs : Settled mode node) (hok : InstallOK a request) :
    Outcome
      (fun response s => ∃ a', Tracks members mode n a₀ a' s ∧ Settled mode s ∧
        (response.success = true → a'.term n = request.term ∧
          (response.installedIndex ≤ a'.ack n request.term ∨
            Bounded a' request.term response.installedIndex)))
      (fun s => ∃ a', Tracks members mode n a₀ a' s ∧ Settled mode s)
      (handleInstallSnapshot sm request node) := by
  have hfollow := untouched_follow node request.term request.leaderId
  rw [handleInstallSnapshot_eq]
  by_cases hlt : request.term < node.hardState.currentTerm
  · rw [if_pos hlt]
    exact ⟨a, h, hs, fun hg => by cases hg⟩
  rw [if_neg hlt]
  have hle : a.term n ≤ request.term := h.memory.hard.term ▸ not_lt.mp hlt
  have ht := h.follow hle request.leaderId
  have hs' := hs.follow request.term request.leaderId
  have hterm : (a.setTerm n request.term).term n = request.term := by simp
  by_cases hstale : node.HasSnapshot request
  · -- the node answers with its own snapshot's index, which is committed
    rw [if_pos hstale]
    refine ⟨_, ht, hs', fun _ => ⟨hterm, Or.inr ?_⟩⟩
    have hbounded := ht.memory.decided.bounded
    rwa [hterm, hfollow.snapshot] at hbounded
  · rw [if_neg hstale]
    refine (installAccepted_tracks hsound ht hs' (follow_role (not_lt.mp hlt) _) hterm hok ?_).mono
      (fun response s hr => ?_) fun _ hr => hr
    · rw [hfollow.snapshot]
      cases hsnap : node.snapshot with
      | none => exact hok.2.2.1
      | some snapshot =>
        unfold HasSnapshot at hstale
        rw [hsnap] at hstale
        simpa using hstale
    · obtain ⟨a', hta, hsa, hta', hack⟩ := hr
      exact ⟨a', hta, hsa, fun _ => ⟨hta', Or.inl hack⟩⟩

end NebulaKV.Raft
