/-
# Guarantees that need a condition on the run

Three guarantees that some runs of the code break, each with the condition under which runs keep it and a
run that breaks it:

* the nodes apply the same entries, as long as no follower commits a part of its log that the leader's
  request did not compare (`applied_entries_agree`);
* an acknowledged write stays, as long as no `submit` is answered by a node that has stopped leading in
  its entry's term (`acknowledged_write_kept`);
* a process can start again, as long as no follower over-commits and no crash falls between the
  replacement of the snapshot's file and that of the log's (`restart_passes_checks`).
-/
import NebulaKV.Raft.ClusterSafety

namespace NebulaKV.Raft

open Consensus Effects Containers RaftNode Cluster

variable {σ : Type} {members : Membership} {sm : StateMachine σ}
variable {a : History} {entry : LogEntry} {mode : Mode σ}

/-! ## The same entries everywhere -/

/-- The machine, with a record of every entry it was asked to apply. -/
def recording (sm : StateMachine σ) : StateMachine (σ × List LogEntry) where
  recover snapshot entries s :=
    ((sm.recover snapshot entries s.1).1, (sm.recover snapshot entries s.1).2, s.2)
  apply entry s := ((sm.apply entry s.1).1, (sm.apply entry s.1).2, s.2 ++ [entry])
  createSnapshot s := sm.createSnapshot s.1
  installSnapshot payload s :=
    ((sm.installSnapshot payload s.1).1, (sm.installSnapshot payload s.1).2, s.2)

/-- The entry is part of what some leader has committed. -/
def CommittedEntry (a : History) (entry : LogEntry) : Prop :=
  ∃ T C i, a.committed T C ∧ i < C ∧ (a.leaderLog T)[i]? = some entry

theorem CommittedEntry.mono {a' : History} (h : CommittedEntry a entry) (hext : Extends a a') :
    CommittedEntry a' entry := by
  obtain ⟨T, C, i, hC, hi, hget⟩ := h
  obtain ⟨more, hmore⟩ := hext.leaderLog T
  refine ⟨T, C, i, hext.committed hC, hi, ?_⟩
  rw [← hmore, List.getElem?_append_left (List.getElem?_eq_some_iff.mp hget).1]
  exact hget

/-- Commit indices agree with the logs, and every recorded entry was committed. -/
def Mode.recorded (σ : Type) : Mode (σ × List LogEntry) where
  strict := True
  total := False
  checked := False
  whole := False
  machineOK a s := ∀ entry ∈ s.2, CommittedEntry a entry
  mono h hext entry he := (h entry he).mono hext

/-- What a node has decided, in a run without over-commits, is committed. -/
theorem Decided.committedEntry {n : NodeId} {i : Nat} (h : Decided mode a n (i + 1))
    (hsane : Sane members a) (hstrict : mode.strict) (hget : (a.log n)[i]? = some entry) :
    CommittedEntry a entry := by
  rcases h with hzero | ⟨T, C, _, hC, hle, hpart⟩
  · cases hzero
  · have hlen := hsane.inv.committed_length hC
    refine ⟨T, C, i, hC, by omega, ?_⟩
    obtain ⟨more, hmore⟩ := hpart hstrict
    rw [← hmore, List.getElem?_append_left (by simp; omega),
      List.getElem?_take_of_lt (by omega)] at hget
    exact hget

theorem Mode.recorded_sound (sm : StateMachine σ) : (Mode.recorded σ).Sound (recording sm) where
  apply hsane hdecided hget hm entry he := by
    rcases List.mem_append.mp he with he | he
    · exact hm entry he
    · rw [List.mem_singleton.mp he]
      exact hdecided.committedEntry hsane trivial hget
  accepts h := h.elim
  recover _ _ _ hm := hm
  install _ hm := hm

/-- No step over-commits. -/
def NoOverCommit (c : Cluster σ) (label : Label) : Prop := ¬ c.OverCommits label

instance (c : Cluster σ) (label : Label) : Decidable (NoOverCommit c label) :=
  inferInstanceAs (Decidable (¬ _))

/-- The state of a process's machine. -/
def Process.machine : Process σ → σ
  | .up node _ => node.machine
  | .down _ machine => machine

theorem Sim.machineOK {c : Cluster σ} (h : Sim members mode c a) (p : NodeId) :
    mode.machineOK a (c.process p).machine := by
  cases hp : c.process p with
  | up node threads => exact (h.up hp).tracks.machine
  | down disk m => exact (h.down hp).2

/-- **State machine safety.** In every run without over-commits, any two nodes have applied the same
entry at the same index. -/
theorem applied_entries_agree {machine : NodeId → σ} {c : Cluster (σ × List LogEntry)}
    (hrun : Reaches (recording sm) members NoOverCommit
      (Cluster.initial fun id => (machine id, [])) c)
    {p q : NodeId} {x y : LogEntry} (hx : x ∈ (c.process p).machine.2)
    (hy : y ∈ (c.process q).machine.2) (hindex : x.index = y.index) : x = y := by
  obtain ⟨a, hsim⟩ := exists_sim (Mode.recorded σ) (Mode.recorded_sound sm)
    (fun c label h => ⟨fun _ => h, False.elim, False.elim⟩) (fun _ entry he => by cases he) hrun
  obtain ⟨T, C, i, hC, hi, hgetx⟩ := hsim.machineOK p x hx
  obtain ⟨T', C', i', hC', hi', hgety⟩ := hsim.machineOK q y hy
  obtain rfl : i = i' := by
    have h₁ := (hsim.sane.indexed T i x hgetx).1
    have h₂ := (hsim.sane.indexed T' i' y hgety).1
    omega
  rw [hsim.sane.inv.committed_agree hC hC' hi hi', hgety] at hgetx
  exact (Option.some.inj hgetx).symm

/-- A schedule of the three with recording machines, under a condition. -/
def recordedRun (Allowed : Cluster (Values × List LogEntry) → Label → Prop)
    [∀ c label, Decidable (Allowed c label)] (labels : List Label) :
    Option (Cluster (Values × List LogEntry)) :=
  run (recording keyValueStateMachine) trio Allowed
    (Cluster.initial fun _ => (OrderedMap.empty, [])) labels

theorem applied_entries_agree_trio :
    ∃ c, recordedRun NoOverCommit (firstElection ++ firstRound) = some c ∧
      ∃ x ∈ (c.process [1]).machine.2, ∃ y ∈ (c.process [3]).machine.2, x.index = y.index ∧ x = y := by
  have hobserved : (recordedRun NoOverCommit (firstElection ++ firstRound)).map
      (fun c => ((c.process [1]).machine.2, (c.process [3]).machine.2)) =
        some ([⟨1, 1, {}⟩], [⟨1, 1, {}⟩]) := by
    decide +kernel
  obtain ⟨c, hc, hboth⟩ := Option.map_eq_some_iff.mp hobserved
  obtain ⟨h₁, h₃⟩ := Prod.mk.inj hboth
  have hx : (⟨1, 1, {}⟩ : LogEntry) ∈ (c.process [1]).machine.2 := by
    rw [h₁]
    exact List.mem_singleton_self _
  have hy : (⟨1, 1, {}⟩ : LogEntry) ∈ (c.process [3]).machine.2 := by
    rw [h₃]
    exact List.mem_singleton_self _
  have hrun : Reaches (recording keyValueStateMachine) trio NoOverCommit
      (Cluster.initial fun _ => (OrderedMap.empty, [])) c := Reaches.of_run hc
  exact ⟨c, hc, _, hx, _, hy, rfl, applied_entries_agree hrun hx hy rfl⟩

/-- A write that node 1, the leader of term 1, appends and never replicates. -/
def loneWrite : Command := ⟨.Put, [1], [1]⟩

/-- Node 2, the leader of term 2, commits its no-op at index 2 with node 3. Its `AppendEntries` to node 1
is lost, but the heartbeat that announces the commit arrives. -/
def overCommit : List Label :=
  [go [2], go [2], go [2], go [2], deliver 9, answer [2] 7, go [2], go [2], deliver 10]

/-- Node 1 applies its own write at index 2, node 2 the no-op that was committed there. -/
theorem applied_entries_differ :
    ∃ c, recordedRun Anything
        (firstElection ++ firstRound ++ [.run (.submit [1] loneWrite)] ++ secondElection ++
          overCommit) = some c ∧
      ⟨2, 1, loneWrite⟩ ∈ (c.process [1]).machine.2 ∧ ⟨2, 2, {}⟩ ∈ (c.process [2]).machine.2 := by
  have hobserved : (recordedRun Anything
      (firstElection ++ firstRound ++ [.run (.submit [1] loneWrite)] ++ secondElection ++
        overCommit)).map
      (fun c => (decide (⟨2, 1, loneWrite⟩ ∈ (c.process [1]).machine.2),
        decide (⟨2, 2, {}⟩ ∈ (c.process [2]).machine.2))) = some (true, true) := by
    decide +kernel
  obtain ⟨c, hc, hboth⟩ := Option.map_eq_some_iff.mp hobserved
  exact ⟨c, hc, of_decide_eq_true (Prod.mk.inj hboth).1, of_decide_eq_true (Prod.mk.inj hboth).2⟩

/-! ## Acknowledged writes -/

/-- No `submit` is answered by a node that does not lead in the entry's term any more. -/
def NoLateAnswer (c : Cluster σ) (label : Label) : Prop := ¬ c.AnswersLate label

instance (c : Cluster σ) (label : Label) : Decidable (NoLateAnswer c label) :=
  inferInstanceAs (Decidable (¬ _))

def Mode.answering (σ : Type) : Mode σ := { Mode.free σ with checked := True }

theorem Mode.answering_sound (sm : StateMachine σ) : (Mode.answering σ).Sound sm where
  apply _ _ _ _ := trivial
  accepts h := h.elim
  recover _ _ _ _ := trivial
  install _ _ := trivial

/-- The process holds the entry: in the log it retains, or its snapshot covers it. -/
def Process.Holds (entry : LogEntry) : Process σ → Prop
  | .up node _ => entry ∈ node.log ∨ entry.index ≤ snapshotIndex node.snapshot
  | .down disk _ => entry ∈ disk.log ∨ entry.index ≤ snapshotIndex disk.snapshot

instance (entry : LogEntry) (process : Process σ) : Decidable (process.Holds entry) := by
  unfold Process.Holds
  split
  all_goals infer_instance

/-- What is in a process's whole log, the process holds. -/
theorem Sim.holds {c : Cluster σ} (h : Sim members mode c a) {p : NodeId} {i : Nat}
    (hget : (a.log p)[i]? = some entry) : (c.process p).Holds entry := by
  have hindex := (h.sane.log_indexed p i entry hget).1
  cases hp : c.process p with
  | up node threads =>
    refine ((h.up hp).tracks.memory.logs.mem_or_covered hget).symm.imp_right fun hle => ?_
    rw [hindex]
    exact hle
  | down disk m =>
    rcases (h.down hp).1.logs with ⟨hlogs, _⟩ | ⟨_, j, hj, hlog, _⟩
    · refine (hlogs.mem_or_covered hget).symm.imp_right fun hle => ?_
      rw [hindex]
      exact hle
    · rcases Nat.lt_or_ge i (snapshotIndex disk.snapshot) with hi | hi
      · exact Or.inr (by omega)
      · refine Or.inl ?_
        rw [hlog]
        refine List.mem_iff_getElem?.mpr ⟨i - j, ?_⟩
        rw [List.getElem?_drop, show j + (i - j) = i by omega]
        exact hget

/-- **No acknowledged write is lost.** In every run in which no submission is answered late: once
`submit` has returned `Committed`, a majority of the members hold the entry, from that moment on; and
whenever a leader commits that far, before or after, the entry at that index of its whole log is this
one. -/
theorem acknowledged_write_kept {machine : NodeId → σ} {c : Cluster σ}
    (hrun : Reaches sm members NoLateAnswer (Cluster.initial machine) c) {id : NodeId}
    {index term : Nat} {command : Command}
    (hack : Event.acknowledged id index term command ∈ c.trace) :
    IsMajority members.ids {p | (c.process p).Holds ⟨index, term, command⟩} ∧
      ∀ id' node N, Event.committed id' node N ∈ c.trace → index ≤ N →
        ∃ L, Compacted L node.log node.snapshot ∧ L[index - 1]? = some ⟨index, term, command⟩ := by
  obtain ⟨a, hsim⟩ := exists_sim (Mode.answering σ) (Mode.answering_sound sm)
    (fun c label h => ⟨False.elim, fun _ => h, False.elim⟩) (fun _ => trivial) hrun
  obtain ⟨⟨hpos, hentry⟩, C, hle, hC⟩ := (hsim.trace _ hack :
    (Mode.answering σ).checked → EntryOK a index term command ∧
      ∃ C, index ≤ C ∧ a.committed term C) trivial
  constructor
  · refine (majority members.ids).mono (fun p hp => ?_) (hsim.sane.inv.committed_by hC).2.2
    obtain ⟨more, hmore⟩ := hsim.sane.inv.committed_kept hC hp
    refine hsim.holds (i := index - 1) ?_
    have hlt := (List.getElem?_eq_some_iff.mp hentry).1
    rw [← hmore, List.getElem?_append_left (by simp; omega), List.getElem?_take_of_lt (by omega)]
    exact hentry
  · intro id' node N hcommit hN
    have hok : CommitOK members a id' node N := hsim.trace _ hcommit
    obtain ⟨L, hL, hlen⟩ := hok.record
    refine ⟨L, hL.compacted, getElem?_of_part hL.part (by omega) ?_⟩
    rw [hsim.sane.inv.committed_agree hok.committed hC (by omega) (by omega)]
    exact hentry

/-- The event is a submission answered `Committed`. -/
def Event.acknowledges (index term : Nat) (command : Command) : Event σ → Bool
  | .acknowledged _ index' term' command' =>
    decide (index' = index ∧ term' = term ∧ command' = command)
  | _ => false

theorem exists_acknowledged {trace : List (Event σ)} {index term : Nat} {command : Command}
    (h : trace.any (Event.acknowledges index term command) = true) :
    ∃ id, Event.acknowledged id index term command ∈ trace := by
  obtain ⟨event, hmem, hevent⟩ := List.any_eq_true.mp h
  cases event with
  | acknowledged id index' term' command' =>
    simp only [Event.acknowledges, decide_eq_true_eq] at hevent
    obtain ⟨rfl, rfl, rfl⟩ := hevent
    exact ⟨id, hmem⟩
  | _ => cases hevent

/-- Node 1 replicates the write to node 2, commits and acknowledges it. -/
def replicatedWrite : List Label :=
  [.run (.submit [1] loneWrite), go [1], go [1], deliver 6, answer [1] 6, go [1], go [1], go [1],
    go [1], go [1], go [1], go [1], go [1], go [1]]

theorem acknowledged_write_kept_trio :
    ∃ (c : Cluster Values) (id : NodeId),
      run keyValueStateMachine trio NoLateAnswer (Cluster.initial fun _ => OrderedMap.empty)
          (firstElection ++ firstRound ++ replicatedWrite) = some c ∧
        Event.acknowledged id 2 1 loneWrite ∈ c.trace ∧
        IsMajority trio.ids {p | (c.process p).Holds ⟨2, 1, loneWrite⟩} := by
  have hobserved : (run keyValueStateMachine trio NoLateAnswer
      (Cluster.initial fun _ => OrderedMap.empty)
      (firstElection ++ firstRound ++ replicatedWrite)).map
      (fun c => c.trace.any (Event.acknowledges 2 1 loneWrite)) = some true := by
    decide +kernel
  obtain ⟨c, hc, hany⟩ := Option.map_eq_some_iff.mp hobserved
  obtain ⟨id, hack⟩ := exists_acknowledged hany
  exact ⟨c, id, hc, hack, (acknowledged_write_kept (Reaches.of_run hc) hack).1⟩

/-- **Acknowledgements are final.** In such a run there are no two acknowledgements of different entries
at one index, and every node that is elected in a later term holds the entry. -/
theorem acknowledged_writes_final {machine : NodeId → σ} {c : Cluster σ}
    (hrun : Reaches sm members NoLateAnswer (Cluster.initial machine) c) {id : NodeId}
    {index term : Nat} {command : Command}
    (hack : Event.acknowledged id index term command ∈ c.trace) :
    (∀ id' term' command', Event.acknowledged id' index term' command' ∈ c.trace →
      term' = term ∧ command' = command) ∧
    ∀ id' node, Event.elected id' node ∈ c.trace → term < node.hardState.currentTerm →
      index ≤ snapshotIndex node.snapshot ∨ ⟨index, term, command⟩ ∈ node.log := by
  obtain ⟨a, hsim⟩ := exists_sim (Mode.answering σ) (Mode.answering_sound sm)
    (fun c label h => ⟨False.elim, fun _ => h, False.elim⟩) (fun _ => trivial) hrun
  have hfinal : ∀ id term command, Event.acknowledged id index term command ∈ c.trace →
      EntryOK a index term command ∧ ∃ C, index ≤ C ∧ a.committed term C :=
    fun _ _ _ hmem => (hsim.trace _ hmem : (Mode.answering σ).checked → _) trivial
  obtain ⟨⟨hpos, hentry⟩, C, hle, hC⟩ := hfinal id term command hack
  refine ⟨fun id' term' command' hack' => ?_, fun id' node helected hterm => ?_⟩
  · obtain ⟨⟨-, hentry'⟩, C', hle', hC'⟩ := hfinal id' term' command' hack'
    rw [hsim.sane.inv.committed_agree hC' hC (by omega) (by omega), hentry] at hentry'
    obtain ⟨-, hterm, hcommand⟩ := LogEntry.mk.inj (Option.some.inj hentry')
    exact ⟨hterm.symm, hcommand.symm⟩
  · obtain ⟨L, hL⟩ : ∃ L, RecordOK a id' node L := hsim.trace _ helected
    obtain ⟨L₀, hL₀, hpart⟩ := hL.led
    obtain ⟨more, rfl⟩ := (hsim.sane.inv.leader_completeness hC hterm hL₀).trans hpart
    have hget : ((a.leaderLog term).take C ++ more)[index - 1]? = some ⟨index, term, command⟩ := by
      have hlt := (List.getElem?_eq_some_iff.mp hentry).1
      rw [List.getElem?_append_left (by simp; omega), List.getElem?_take_of_lt (by omega)]
      exact hentry
    exact (hL.compacted.mem_or_covered hget).imp_left fun hcovered => by omega

/-- Node 3 elects node 2. -/
def laterElection : List Label :=
  [.run (.elect [2]), go [2], go [2], go [2], deliver 11, answer [2] 7, go [2]]

theorem acknowledged_writes_final_trio : ∃ c : Cluster Values,
    (∃ id, Event.acknowledged id 2 1 loneWrite ∈ c.trace) ∧
    (∀ id term command, Event.acknowledged id 2 term command ∈ c.trace → command = loneWrite) ∧
    ∃ node, Event.elected [2] node ∈ c.trace ∧ node.hardState.currentTerm = 2 ∧
      (2 ≤ snapshotIndex node.snapshot ∨ ⟨2, 1, loneWrite⟩ ∈ node.log) := by
  have hobserved : (run keyValueStateMachine trio NoLateAnswer
      (Cluster.initial fun _ => OrderedMap.empty)
      (firstElection ++ firstRound ++ replicatedWrite ++ laterElection)).map
      (fun c => (c.trace.any (Event.acknowledges 2 1 loneWrite), c.trace.any (Event.elects [2] 2))) =
        some (true, true) := by
    decide +kernel
  obtain ⟨c, hc, hboth⟩ := Option.map_eq_some_iff.mp hobserved
  obtain ⟨id, hack⟩ := exists_acknowledged (Prod.mk.inj hboth).1
  obtain ⟨node, helected, hterm⟩ := exists_elected (Prod.mk.inj hboth).2
  obtain ⟨hsame, hlater⟩ := acknowledged_writes_final (Reaches.of_run hc) hack
  exact ⟨c, ⟨id, hack⟩, fun id' term command hack' => (hsame id' term command hack').2,
    node, helected, hterm, hlater [2] node helected (by omega)⟩

/-- Node 1 has appended its write and released its lock. Node 2, elected meanwhile, replaces the write by
its own no-op, commits it and tells node 1; then the submission looks at the commit index. -/
def lateAnswer : List Label :=
  [go [2], go [2], deliver 8, answer [2] 7, go [2], deliver 9, answer [2] 8, go [2], go [2],
    deliver 10, go [1], go [1]]

/-- The submission is answered `Committed` for a write that nobody holds. -/
theorem acknowledged_write_lost :
    ∃ (c : Cluster Values) (id : NodeId),
      trioRun (firstElection ++ firstRound ++ [.run (.submit [1] loneWrite)] ++ secondElection ++
        lateAnswer) = some c ∧
        Event.acknowledged id 2 1 loneWrite ∈ c.trace ∧
        ∀ p ∈ trio.ids, ¬ (c.process p).Holds ⟨2, 1, loneWrite⟩ := by
  have hobserved : (trioRun (firstElection ++ firstRound ++ [.run (.submit [1] loneWrite)] ++
      secondElection ++ lateAnswer)).map
      (fun c => (c.trace.any (Event.acknowledges 2 1 loneWrite),
        decide (∀ p ∈ trio.ids, ¬ (c.process p).Holds ⟨2, 1, loneWrite⟩))) = some (true, true) := by
    decide +kernel
  obtain ⟨c, hc, hboth⟩ := Option.map_eq_some_iff.mp hobserved
  obtain ⟨id, hack⟩ := exists_acknowledged (Prod.mk.inj hboth).1
  exact ⟨c, id, hc, hack, of_decide_eq_true (Prod.mk.inj hboth).2⟩

/-! ## Starting again -/

/-- No step over-commits, and no crash tears the disk. -/
def KeepsFiles (sm : StateMachine σ) (members : Membership) (c : Cluster σ) (label : Label) : Prop :=
  ¬ c.OverCommits label ∧ ¬ c.Tears sm members label

instance (c : Cluster σ) (label : Label) : Decidable (KeepsFiles sm members c label) :=
  inferInstanceAs (Decidable (_ ∧ _))

def Mode.restarting (σ : Type) : Mode σ := { Mode.free σ with strict := True, whole := True }

theorem Mode.restarting_sound (sm : StateMachine σ) : (Mode.restarting σ).Sound sm where
  apply _ _ _ _ := trivial
  accepts h := h.elim
  recover _ _ _ _ := trivial
  install _ _ := trivial

/-- What the constructor hands to the state machine. -/
def recoverCall (sm : StateMachine σ) (disk : PersistentState) (machine : σ) : Except Error Unit :=
  (sm.recover disk.snapshot
    (disk.log.filter fun entry =>
      decide (entry.index ≤ max disk.hardState.commitIndex (snapshotIndex disk.snapshot)))
    machine).1

theorem callMachine_update (call : Program σ Error Unit) (f : RaftNode σ → RaftNode σ)
    (node : RaftNode σ) :
    ((callMachine call >>= fun _ => Program.update f) node).1 = (call node.machine).1 := by
  rw [Program.bind_apply, callMachine]
  cases (call node.machine).1 with
  | ok _ => rfl
  | error e => rfl

/-- If the checks pass, the constructor's result is the machine's. -/
theorem construct_eq_recoverCall {options : RaftNodeOptions} {disk : PersistentState} {machine : σ}
    (hoptions : validateOptions options = .ok ())
    (hlog : checkLog (loaded options disk machine) = .ok ())
    (hcommit : max disk.hardState.commitIndex (snapshotIndex disk.snapshot) ≤
      (loaded options disk machine).lastLogIndex) :
    (construct sm options disk machine).1 = recoverCall sm disk machine := by
  unfold construct constructBody
  rw [Program.read_bind_apply, show (loaded options disk machine).options = options from rfl,
    hoptions, Program.check_ok_bind, hlog, Program.check_ok_bind, Program.update_bind_apply,
    Program.read_bind_apply, raiseCommitToSnapshot_eq]
  split_ifs with hlast
  · exact absurd hlast (not_lt.mpr hcommit)
  rw [callMachine_update]
  rfl

/-- **A crashed node can start again.** In every run without over-commits and torn disks, none of the
constructor's checks throws on what a process that is down has left, wherever it ended: the only result
a constructor can have is the one the state machine's recovery has. -/
theorem restart_passes_checks {machine : NodeId → σ} {c : Cluster σ}
    (hrun : Reaches sm members (KeepsFiles sm members) (Cluster.initial machine) c) {id : NodeId}
    (hid : id ∈ members.ids) {disk : PersistentState} {m : σ}
    (hdown : c.process id = .down disk m) :
    (construct sm (members.options id) disk m).1 = recoverCall sm disk m := by
  obtain ⟨a, hsim⟩ := exists_sim (Mode.restarting σ) (Mode.restarting_sound sm)
    (fun c label h => ⟨fun _ => h.1, False.elim, fun _ => h.2⟩) (fun _ => trivial) hrun
  have hdisk := (hsim.down hdown).1
  obtain ⟨hlogs, hdecided⟩ := hdisk.logs.resolve_right fun ht => ht.1 trivial
  have hindexed := hsim.sane.log_indexed id
  refine construct_eq_recoverCall (members.valid id hid) (checkLog_compacted hlogs hindexed) ?_
  rw [show (loaded (members.options id) disk m).lastLogIndex = _ from
    lastLogIndex_eq hlogs hindexed]
  exact max_le (hdisk.hard.commit.le_length hsim.sane trivial)
    (hdecided.le_length hsim.sane trivial)

/-- A single member with the default options. -/
def solo : Membership where
  ids := [[1]]
  nodup := by decide
  options id := { nodeId := id, peers := [] }
  nodeId_eq _ _ := rfl
  peers_perm := by decide
  valid := by decide

/-- The member starts, is elected, and commits its no-op. -/
def soloElection : List Label := [.run (.restart [1]), .run (.elect [1]), go [1]]

/-- It ends inside a snapshot, after BOTH files were replaced, and starts again. -/
theorem restart_passes_checks_solo :
    ∃ (c : Cluster Values) (disk : PersistentState) (m : Values),
      run keyValueStateMachine solo (KeepsFiles keyValueStateMachine solo)
          (Cluster.initial fun _ => OrderedMap.empty)
          (soloElection ++ [.crash (.snapshot [1]) 2]) = some c ∧
        c.process [1] = .down disk m ∧
        (construct keyValueStateMachine (solo.options [1]) disk m).1 =
          recoverCall keyValueStateMachine disk m := by
  have hobserved : (run keyValueStateMachine solo (KeepsFiles keyValueStateMachine solo)
      (Cluster.initial fun _ => OrderedMap.empty)
      (soloElection ++ [.crash (.snapshot [1]) 2])).map (fun c => (c.nodeOf [1]).isSome) =
        some false := by
    decide +kernel
  obtain ⟨c, hc, hnone⟩ := Option.map_eq_some_iff.mp hobserved
  cases hp : c.process [1] with
  | up node threads => simp [Cluster.nodeOf, hp] at hnone
  | down disk m =>
    exact ⟨c, disk, m, hc, hp, restart_passes_checks (Reaches.of_run hc) (by decide) hp⟩

/-- What a process that is down could start from. -/
def Cluster.restartResult (sm : StateMachine σ) (members : Membership) (c : Cluster σ) (id : NodeId) :
    Option (Except Error Unit) :=
  match c.process id with
  | .down disk m => some (construct sm (members.options id) disk m).1
  | .up _ _ => none

/-- Node 1 holds two writes of its own term. Node 2 commits at indices 2 and 3 with node 3; its heartbeat
reaches node 1, which commits its own writes. Then an `AppendEntries` of node 2 that was delayed arrives
and cuts the log of node 1 back to index 2. -/
def shortenedLog : List Label :=
  firstElection ++ firstRound ++
    [.run (.submit [1] loneWrite), .run (.submit [1] loneWrite)] ++ secondElection ++
    [go [2], go [2], go [2], go [2], deliver 9, answer [2] 7, go [2], go [2], go [2], go [2], go [2],
      go [2], .run (.submit [2] loneWrite), go [2], go [2], go [2], go [2], deliver 13, answer [2] 8,
      go [2], go [2], deliver 14, deliver 8, .halt [1]]

/-- A crash between the two replacements of a snapshot leaves a directory that no node can be constructed
from; so does a commit index that an over-commit has put behind a log which is then cut. -/
theorem restart_refused :
    ((run keyValueStateMachine solo Anything (Cluster.initial fun _ => OrderedMap.empty)
        (soloElection ++ [.crash (.snapshot [1]) 1])).bind
        (restartResult keyValueStateMachine solo · [1]) =
      some (.error (.runtimeError "persisted Raft log does not follow its snapshot"))) ∧
    ((trioRun shortenedLog).bind (restartResult keyValueStateMachine trio · [1]) =
      some (.error (.runtimeError "persisted Raft commit index exceeds the log"))) := by
  decide +kernel

end NebulaKV.Raft
