/-
# A node and its place in the history

The abstract protocol (`Consensus.State`) is the history of a cluster: whole logs, terms, votes, elected
leaders, acknowledgements, commits. This file says how one node's members and files sit in it.

`Decided` is the reading of a commit index: some leader of a term no later than the node's has committed
at least that far. Whether the node's OWN log also agrees with what was committed there depends on how
followers advance their commit index, so it is a switch (`Mode.strict`): most guarantees need only the
number, and hold without it.

Inside a stretch of locked code the history moves (`Moves`): the node learns a term, votes, stands, is
elected, appends, adopts a leader's entries, commits. `Tracks n a₀ a node` says that the node is at `a`,
having started the stretch at `a₀`, and that EVERY disk state it has passed through since fits some
history in between: that is what a crash falls back on.
-/
import NebulaKV.Raft.Cluster
import NebulaKV.Raft.Compaction
import NebulaKV.Raft.Persistence
import NebulaKV.Raft.SnapshotInstall

namespace NebulaKV.Raft

open Consensus Effects Program Containers

abbrev History := Consensus.State NodeId LogEntry

/-- What a family of runs assumes, and what it observes of the state machines. -/
structure Mode (σ : Type) where
  /-- Commit indices agree with the node's own log. -/
  strict : Prop
  /-- The machine accepts every valid entry. -/
  total : Prop
  /-- A submission is only answered `Committed` by a node that still leads in the entry's term. -/
  checked : Prop
  /-- No process ends between the replacement of the snapshot's file and that of the log's. -/
  whole : Prop
  /-- What is observed of a machine; a statement about the history, which only grows. -/
  machineOK : History → σ → Prop
  mono : ∀ {a a' : History} {m : σ}, machineOK a m → Extends a a' → machineOK a' m

/-! ## The history -/

def AllIndexed (a : History) : Prop := ∀ t, Indexed (a.leaderLog t)

structure Sane (members : Membership) (a : History) : Prop where
  inv : Inv (majority members.ids) a
  indexed : AllIndexed a

/-- What one node may do to the history in one stretch. -/
def Moves (members : Membership) (n : NodeId) : History → History → Prop :=
  Relation.ReflTransGen fun a a' => Step (majority members.ids) n a a' ∧ AllIndexed a'

variable {members : Membership} {n : NodeId} {a a' a₀ : History}

theorem Moves.refl (a : History) : Moves members n a a := Relation.ReflTransGen.refl

theorem Moves.trans {a₁ a₂ a₃ : History} (h : Moves members n a₁ a₂) (h' : Moves members n a₂ a₃) :
    Moves members n a₁ a₃ :=
  Relation.ReflTransGen.trans h h'

theorem Moves.single (h : Step (majority members.ids) n a a') (hi : AllIndexed a') :
    Moves members n a a' :=
  Relation.ReflTransGen.single ⟨h, hi⟩

theorem Sane.moves (h : Sane members a) (hm : Moves members n a a') :
    Sane members a' ∧ Touches n a a' := by
  induction hm with
  | refl => exact ⟨h, Touches.refl n a⟩
  | tail _ hstep ih =>
    exact ⟨⟨ih.1.inv.step hstep.1, hstep.2⟩, ih.2.trans (ih.1.inv.touches hstep.1)⟩

theorem Sane.rooted_indexed (h : Sane members a) {L : List LogEntry} (hL : Rooted a L) :
    Indexed L := by
  intro i e he
  have hp := (hL i e he).2
  refine h.indexed (term e) i e ?_
  obtain ⟨C, hC⟩ := hp
  rw [← hC, List.getElem?_append_left]
  · rw [List.getElem?_take_of_lt (by omega)]
    exact he
  · have := (List.getElem?_eq_some_iff.mp he).1
    simp
    omega

theorem Sane.log_indexed (h : Sane members a) (p : NodeId) : Indexed (a.log p) :=
  h.rooted_indexed (h.inv.log_rooted p)

/-- Two rooted logs that hold an entry of one term at one position agree up to it. -/
theorem rooted_matching {L L' : List LogEntry} (h : Rooted a L) (h' : Rooted a L') {i : Nat}
    {e e' : LogEntry} (he : L[i]? = some e) (he' : L'[i]? = some e') (ht : e.term = e'.term) :
    L.take (i + 1) = L'.take (i + 1) :=
  h.matching h' he he' ht

/-! ## Commit indices -/

/-- The number is zero, or no larger than what a leader of a term up to `t` has committed. -/
def Bounded (a : History) (t v : Nat) : Prop :=
  v = 0 ∨ ∃ T C, T ≤ t ∧ a.committed T C ∧ v ≤ C

theorem Bounded.mono {t t' v v' : Nat} (h : Bounded a t v) (hext : Extends a a') (ht : t ≤ t')
    (hv : v' ≤ v) : Bounded a' t' v' := by
  rcases h with rfl | ⟨T, C, hT, hC, hvC⟩
  · exact Or.inl (by omega)
  · exact Or.inr ⟨T, C, by omega, hext.committed hC, by omega⟩

variable {σ : Type} {mode : Mode σ}
variable {c : Nat} {x : NodeId × List LogEntry}

/-- The node may hold the number as a commit index. -/
def Decided (mode : Mode σ) (a : History) (n : NodeId) (c : Nat) : Prop :=
  c = 0 ∨ ∃ T C, T ≤ a.term n ∧ a.committed T C ∧ c ≤ C ∧
    (mode.strict → (a.leaderLog T).take c <+: a.log n)

theorem Decided.zero (mode : Mode σ) (a : History) (n : NodeId) : Decided mode a n 0 := Or.inl rfl

section

variable (h : Decided mode a n c)
include h

theorem Decided.bounded : Bounded a (a.term n) c := by
  rcases h with rfl | ⟨T, C, hT, hC, hcC, _⟩
  · exact Or.inl rfl
  · exact Or.inr ⟨T, C, hT, hC, hcC⟩

theorem Decided.le {c' : Nat} (hc : c' ≤ c) : Decided mode a n c' := by
  rcases h with rfl | ⟨T, C, hT, hC, hcC, hstrict⟩
  · exact Or.inl (by omega)
  · exact Or.inr ⟨T, C, hT, hC, by omega, fun hs => (take_prefix_take hc).trans (hstrict hs)⟩

theorem Decided.max {c' : Nat} (h' : Decided mode a n c') : Decided mode a n (max c c') := by
  rcases max_choice c c' with hm | hm <;> rw [hm] <;> assumption

/-- The commit index stays decided when the history grows, as long as the node's own log keeps what
was committed. -/
theorem Decided.extends (hs : Sane members a) (hext : Extends a a')
    (hlog : ∀ T, T ≤ a.term n → ∀ C, a.committed T C → c ≤ C →
      (a.leaderLog T).take c <+: a.log n → (a.leaderLog T).take c <+: a'.log n) :
    Decided mode a' n c := by
  rcases h with rfl | ⟨T, C, hT, hC, hcC, hstrict⟩
  · exact Or.inl rfl
  · refine Or.inr ⟨T, C, hT.trans (hext.term n), hext.committed hC, hcC, fun hst => ?_⟩
    rw [take_eq_of_part (hext.leaderLog T) (hcC.trans (hs.inv.committed_length hC))]
    exact hlog T hT C hC hcC (hstrict hst)

/-- Nothing that only lengthens the node's log undoes a decision. -/
theorem Decided.grow (hs : Sane members a) (hext : Extends a a') (hlog : a.log n <+: a'.log n)
    : Decided mode a' n c :=
  h.extends hs hext fun _ _ _ _ _ hp => hp.trans hlog

/-- Adopting the current leader's entries does not undo a decision either: the leader has them. -/
theorem Decided.adopt {k : Nat} {new : List LogEntry} (hs : Sane members a)
    (hx : a.chosen (a.term n) = some x)
    (hadopts : Adopts ((a.leaderLog (a.term n)).take k) (a.log n) new)
    (hext : Extends a (a.adopt n k new)) : Decided mode (a.adopt n k new) n c := by
  refine h.extends hs hext fun T hT C hC hcC hp => ?_
  have hleader : (a.leaderLog T).take c <+: a.leaderLog (a.term n) :=
    (take_prefix_take hcC).trans (hs.inv.committed_prefix hC hT hx)
  have hkept := hadopts.keeps (List.take_prefix _ _) hleader hp
  simpa using hkept

end

/-- A number committed by an earlier leader is decided for a node whose log starts with the current
leader's log up to there. -/
theorem Decided.of_bounded (h : Bounded a (a.term n) c) (hs : Sane members a)
    (hx : a.chosen (a.term n) = some x)
    (hlog : mode.strict → (a.leaderLog (a.term n)).take c <+: a.log n) : Decided mode a n c := by
  rcases h with rfl | ⟨T, C, hT, hC, hcC⟩
  · exact Or.inl rfl
  · refine Or.inr ⟨T, C, hT, hC, hcC, fun hst => ?_⟩
    have hpre := hs.inv.committed_prefix hC hT hx
    have hlen := hs.inv.committed_length hC
    have htake : (a.leaderLog (a.term n)).take c = (a.leaderLog T).take c := by
      have h₁ := take_eq_of_part hpre (k := c) (by simp; omega)
      rw [h₁, List.take_take, min_eq_left hcC]
    rw [← htake]
    exact hlog hst

/-- In strict runs a decided index lies within the node's log. -/
theorem Decided.le_length (h : Decided mode a n c) (hs : Sane members a) (hst : mode.strict) :
    c ≤ (a.log n).length := by
  rcases h with rfl | ⟨T, C, hT, hC, hcC, hstrict⟩
  · omega
  · have := (hstrict hst).length_le
    have hlen := hs.inv.committed_length hC
    simp only [List.length_take] at this
    omega

/-! ## Members and files -/

structure HardOK (mode : Mode σ) (a : History) (n : NodeId) (h : HardState) : Prop where
  term : h.currentTerm = a.term n
  vote : (h.votedFor = [] ∧ a.vote n (a.term n) = none) ∨
    (h.votedFor ≠ [] ∧ a.vote n (a.term n) = some h.votedFor)
  commit : Decided mode a n h.commitIndex
  applied : Decided mode a n h.lastApplied

/-- A history that lengthens the node's log, and leaves its term and its vote, leaves the hard state right. -/
theorem HardOK.grow {hard : HardState} (h : HardOK mode a n hard) (hs : Sane members a)
    (hext : Extends a a') (hlog : a.log n <+: a'.log n) (hterm : a'.term n = a.term n)
    (hvote : a'.vote n (a.term n) = a.vote n (a.term n)) : HardOK mode a' n hard where
  term := h.term.trans hterm.symm
  vote := by rw [hterm, hvote]; exact h.vote
  commit := h.commit.grow hs hext hlog
  applied := h.applied.grow hs hext hlog

/-- The leader of the current term, and what it knows of its peers. A peer's index comes from an
acknowledgement in this term; or it is the index of the peer's own snapshot, and then some leader has
committed that far already. -/
structure LeaderOK (a : History) (n : NodeId) (node : RaftNode σ) : Prop where
  chosen : ∃ L, a.chosen (a.term n) = some (n, L)
  log : a.leaderLog (a.term n) = a.log n
  matched : ∀ p v, node.matchIndex.find? p = some v →
    v ≤ a.ack p (a.term n) ∨ Bounded a (a.term n) v
  commits : ∀ c, a.committed (a.term n) c → c ≤ node.hardState.commitIndex

/-- A leader's account only reads its match indices and its commit index. -/
theorem LeaderOK.same {node node' : RaftNode σ} (h : LeaderOK a n node)
    (hmatch : node'.matchIndex = node.matchIndex)
    (hcommit : node'.hardState.commitIndex = node.hardState.commitIndex) : LeaderOK a n node' where
  chosen := h.chosen
  log := h.log
  matched := by rw [hmatch]; exact h.matched
  commits := by rw [hcommit]; exact h.commits

structure MemoryOK (members : Membership) (mode : Mode σ) (a : History) (n : NodeId)
    (node : RaftNode σ) : Prop where
  nodeId : node.options.nodeId = n
  peers : node.options.peers = (members.options n).peers
  hard : HardOK mode a n node.hardState
  logs : Compacted (a.log n) node.log node.snapshot
  decided : Decided mode a n (snapshotIndex node.snapshot)
  candidate : node.role = .Candidate →
    a.stood (a.term n) n = some (a.log n) ∧ ∀ L, a.chosen (a.term n) ≠ some (n, L)
  leader : node.role = .Leader → LeaderOK a n node

/-- A crash between the replacement of the snapshot and that of the log: the log still starts behind an
older snapshot, and is not empty. -/
def Torn (L : List LogEntry) (disk : PersistentState) : Prop :=
  ∃ j, j < snapshotIndex disk.snapshot ∧ disk.log = L.drop j ∧ disk.log ≠ []

/-- What may be found on the disk of a process that is down. -/
structure DiskOK (mode : Mode σ) (a : History) (n : NodeId) (disk : PersistentState) : Prop where
  hard : HardOK mode a n disk.hardState
  logs : (Compacted (a.log n) disk.log disk.snapshot ∧
    Decided mode a n (snapshotIndex disk.snapshot)) ∨ ¬ mode.whole ∧ Torn (a.log n) disk

/-- Every state of the disk and the machine since the start of the stretch fits a history. -/
def JournalOK (members : Membership) (mode : Mode σ) (n : NodeId) (a₀ : History)
    (journal : List (Mark σ)) : Prop :=
  ∀ mark ∈ journal, (mode.whole → ¬ mark.Tears) →
    ∃ a', Moves members n a₀ a' ∧ DiskOK mode a' n mark.disk ∧ mode.machineOK a' mark.machine

/-- **The node follows the history.** -/
structure Tracks (members : Membership) (mode : Mode σ) (n : NodeId) (a₀ a : History)
    (node : RaftNode σ) : Prop where
  sane : Sane members a
  moves : Moves members n a₀ a
  memory : MemoryOK members mode a n node
  saved : RaftNode.LogsSaved node
  hard : HardOK mode a n node.disk.hardState
  machine : mode.machineOK a node.machine
  journal : JournalOK members mode n a₀ node.journal

/-- Everything committed has been applied, if the machine accepts everything. -/
def Settled (mode : Mode σ) (node : RaftNode σ) : Prop :=
  mode.total → node.hardState.commitIndex ≤ node.hardState.lastApplied

/-- What the state machine must do for the mode's observation to hold throughout. -/
structure Mode.Sound (mode : Mode σ) (sm : StateMachine σ) : Prop where
  apply : ∀ {members : Membership} {a : History} {n : NodeId} {m : σ} {i : Nat} {e : LogEntry},
    Sane members a → Decided mode a n (i + 1) → (a.log n)[i]? = some e → mode.machineOK a m →
    mode.machineOK a (sm.apply e m).2
  accepts : mode.total → ∀ (e : LogEntry) (m : σ), 0 < e.index → 0 < e.term → e.command.Valid →
    (sm.apply e m).1 = .ok ()
  recover : ∀ {a : History} {n : NodeId} {m : σ} (snapshot : Option Snapshot)
    (entries : List LogEntry),
    (∀ e ∈ entries, ∃ i, Decided mode a n (i + 1) ∧ (a.log n)[i]? = some e) →
    mode.machineOK a m → mode.machineOK a (sm.recover snapshot entries m).2
  install : ∀ {a : History} {m : σ} (payload : Bytes),
    mode.machineOK a m → mode.machineOK a (sm.installSnapshot payload m).2

/-! ## Assembling -/

section Tracks

variable {node : RaftNode σ}

section

variable (h : Tracks members mode n a₀ a node)
include h

theorem Tracks.diskOK : DiskOK mode a n node.disk where
  hard := h.hard
  logs := Or.inl (by rw [h.saved.1, h.saved.2]; exact ⟨h.memory.logs, h.memory.decided⟩)

theorem Tracks.indexed : Indexed (a.log n) :=
  h.sane.log_indexed n

theorem Tracks.lastLogIndex_eq : node.lastLogIndex = (a.log n).length :=
  NebulaKV.Raft.lastLogIndex_eq h.memory.logs h.indexed

/-- The history takes a step of the node's. -/
theorem Tracks.step (hstep : Step (majority members.ids) n a a') (hindexed : AllIndexed a') :
    Sane members a' ∧ Moves members n a₀ a' ∧ Extends a a' :=
  have hmove := Moves.single hstep hindexed
  ⟨(h.sane.moves hmove).1, h.moves.trans hmove, (h.sane.inv.touches hstep).toExtends⟩

end

/-- One more state of the disk and the machine. -/
theorem JournalOK.append {journal : List (Mark σ)} {mark : Mark σ}
    (h : JournalOK members mode n a₀ journal) (hm : Moves members n a₀ a)
    (hd : (mode.whole → ¬ mark.Tears) → DiskOK mode a n mark.disk)
    (hmachine : mode.machineOK a mark.machine) :
    JournalOK members mode n a₀ (journal ++ [mark]) := by
  intro mark' hmark hwhole
  rcases List.mem_append.mp hmark with hmark | hmark
  · exact h mark' hmark hwhole
  · rw [List.mem_singleton.mp hmark] at hwhole ⊢
    exact ⟨a, hm, hd hwhole, hmachine⟩

/-- The hard state is written to its file. -/
theorem Tracks.persistHardState (hs : Sane members a) (hm : Moves members n a₀ a)
    (hmemory : MemoryOK members mode a n node) (hsaved : RaftNode.LogsSaved node)
    (hmachine : mode.machineOK a node.machine)
    (hjournal : JournalOK members mode n a₀ node.journal) :
    Tracks members mode n a₀ a node.persistHardState where
  sane := hs
  moves := hm
  memory :=
    { hmemory with
      leader := fun hr => (hmemory.leader hr).same rfl rfl }
  saved := hsaved
  hard := hmemory.hard
  machine := hmachine
  journal := by
    refine hjournal.append hm (fun _ => ⟨hmemory.hard, Or.inl ?_⟩) hmachine
    rw [hsaved.1, hsaved.2]
    exact ⟨hmemory.logs, hmemory.decided⟩

/-- The log is written to its file. -/
theorem Tracks.persistLog (hs : Sane members a) (hm : Moves members n a₀ a)
    (hmemory : MemoryOK members mode a n node) (hsnapshot : node.disk.snapshot = node.snapshot)
    (hhard : HardOK mode a n node.disk.hardState) (hmachine : mode.machineOK a node.machine)
    (hjournal : JournalOK members mode n a₀ node.journal) :
    Tracks members mode n a₀ a node.persistLog where
  sane := hs
  moves := hm
  memory :=
    { hmemory with
      leader := fun hr => (hmemory.leader hr).same rfl rfl }
  saved := ⟨rfl, hsnapshot⟩
  hard := hhard
  machine := hmachine
  journal := by
    refine hjournal.append hm (fun _ => ⟨hhard, Or.inl ?_⟩) hmachine
    rw [hsnapshot]
    exact ⟨hmemory.logs, hmemory.decided⟩

end Tracks

end NebulaKV.Raft
