/-
# What every run of a cluster guarantees

Four guarantees that need no condition on runs: at most one leader in a term, matching logs, leaders that
hold everything committed before, and the read barrier. They hold whatever is lost, delayed, duplicated
or reordered, whoever crashes and wherever; in particular they do NOT need a follower's commit index to
agree with its log, only that some leader has committed as far.

Each is read off the history that the simulation provides for the run.
-/
import NebulaKV.Raft.SimulationRuns

namespace NebulaKV.Raft

open Consensus Effects Containers RaftNode Cluster

variable {σ : Type} {members : Membership} {sm : StateMachine σ} {machine : NodeId → σ}
  {c c' : Cluster σ}
variable {id : NodeId} {a : History} {node : RaftNode σ} {index : Nat} {trace : List (Event σ)}

/-! ## Runs without conditions -/

/-- Nothing is assumed of a run, and nothing is observed of the machines. -/
def Mode.free (σ : Type) : Mode σ where
  strict := False
  total := False
  checked := False
  whole := False
  machineOK _ _ := True
  mono h _ := h

theorem Mode.free_sound (sm : StateMachine σ) : (Mode.free σ).Sound sm where
  apply _ _ _ _ := trivial
  accepts h := h.elim
  recover _ _ _ _ := trivial
  install _ _ := trivial

/-- Every step is allowed. -/
def Anything (_ : Cluster σ) (_ : Label) : Prop := True

instance (c : Cluster σ) (label : Label) : Decidable (Anything c label) :=
  inferInstanceAs (Decidable True)

theorem Mode.free_allows (c : Cluster σ) (label : Label) (_ : Anything c label) :
    (Mode.free σ).Allows sm members c label :=
  ⟨False.elim, False.elim, False.elim⟩

theorem exists_history (h : Reaches sm members Anything (Cluster.initial machine) c) :
    ∃ a, Sim members (Mode.free σ) c a :=
  exists_sim (Mode.free σ) (Mode.free_sound sm) Mode.free_allows (fun _ => trivial) h

/-! ## At most one leader in a term -/

/-- **Election safety.** Two nodes that lead in one term, at the same moment of a run or at different
ones, are the same node. -/
theorem at_most_one_leader (hrun : Reaches sm members Anything (Cluster.initial machine) c)
    (hlater : Reaches sm members Anything c c') {p q : NodeId} {node node' : RaftNode σ}
    {threads threads' : List Thread} (hp : c.process p = .up node threads)
    (hq : c'.process q = .up node' threads') (hrole : node.role = .Leader)
    (hrole' : node'.role = .Leader)
    (hterm : node.hardState.currentTerm = node'.hardState.currentTerm) : p = q := by
  obtain ⟨a, hsim⟩ := exists_history hrun
  obtain ⟨a', hext, hsim'⟩ := hsim.reaches (Mode.free_sound sm) Mode.free_allows hlater
  have ht := (hsim.up hp).tracks
  have ht' := (hsim'.up hq).tracks
  obtain ⟨L, hL⟩ := (ht.memory.leader hrole).chosen
  obtain ⟨L', hL'⟩ := (ht'.memory.leader hrole').chosen
  have hsame : a.term p = a'.term q := by
    rw [← ht.memory.hard.term, ← ht'.memory.hard.term]
    exact hterm
  rw [← hsame, hext.chosen hL] at hL'
  exact congrArg Prod.fst (Option.some.inj hL')

/-! ### A cluster of three -/

/-- Three members with the default options. -/
def trio : Membership where
  ids := [[1], [2], [3]]
  nodup := by decide
  options id := { nodeId := id, peers := ([[1], [2], [3]].erase id).map fun p => ⟨p, p⟩ }
  nodeId_eq _ _ := rfl
  peers_perm := by decide
  valid := by decide

/-- The thread takes the next stretch; `answer` gives it a reply, `deliver` has a call handled. -/
abbrev go (id : NodeId) : Label := .run (.resume id 0 none)

abbrev answer (id : NodeId) (reply : Nat) : Label := .run (.resume id 0 (some reply))

abbrev deliver (call : Nat) : Label := .run (.deliver call)

/-- All three start, and node 1 is elected by both others. -/
def firstElection : List Label :=
  [.run (.restart [1]), .run (.restart [2]), .run (.restart [3]), .run (.elect [1]),
    go [1], deliver 0, answer [1] 0, go [1], deliver 1, answer [1] 1, go [1]]

/-- It replicates and commits its no-op, and tells the others. -/
def firstRound : List Label :=
  [go [1], go [1], deliver 2, answer [1] 2, go [1], deliver 3, answer [1] 3, go [1],
    go [1], deliver 4, answer [1] 4, go [1], deliver 5, answer [1] 5, go [1]]

/-- Node 2 is elected by node 3, without node 1. -/
def secondElection : List Label :=
  [.run (.elect [2]), go [2], go [2], go [2], deliver 7, answer [2] 6, go [2]]

/-- A schedule of the three, from their first start. -/
def trioRun (labels : List Label) : Option (Cluster Values) :=
  run keyValueStateMachine trio Anything (Cluster.initial fun _ => OrderedMap.empty) labels

theorem trioRun_reaches {labels : List Label} {c : Cluster Values} (h : trioRun labels = some c) :
    Reaches keyValueStateMachine trio Anything (Cluster.initial fun _ => OrderedMap.empty) c :=
  Reaches.of_run h

theorem trioRun_append {first second : List Label} {c c' : Cluster Values}
    (h : trioRun first = some c) (h' : trioRun (first ++ second) = some c') :
    Reaches keyValueStateMachine trio Anything c c' := by
  unfold trioRun at h h'
  rw [run_append, h] at h'
  exact Reaches.of_run h'

/-- What a member's node is, if it is up. -/
def Cluster.nodeOf (c : Cluster σ) (id : NodeId) : Option (RaftNode σ) :=
  match c.process id with
  | .up node _ => some node
  | .down _ _ => none

theorem Cluster.nodeOf_eq_some (h : c.nodeOf id = some node) :
    ∃ threads, c.process id = .up node threads := by
  unfold Cluster.nodeOf at h
  cases hp : c.process id with
  | down disk m => rw [hp] at h; cases h
  | up node' threads =>
    rw [hp] at h
    cases h
    exact ⟨threads, rfl⟩

/-- Node 1 leads term 1 after its election, and still does when it has told the others of its commit. -/
theorem at_most_one_leader_trio :
    ∃ (c c' : Cluster Values) (q : NodeId) (node node' : RaftNode Values)
      (threads threads' : List Thread),
      trioRun firstElection = some c ∧ trioRun (firstElection ++ firstRound) = some c' ∧
        c.process [1] = .up node threads ∧ c'.process q = .up node' threads' ∧
        node.role = .Leader ∧ node'.role = .Leader ∧
        node.hardState.currentTerm = node'.hardState.currentTerm ∧ [1] = q := by
  have hobserved : ((trioRun firstElection).bind (nodeOf · [1])).map
        (fun node => (node.role, node.hardState.currentTerm)) = some (.Leader, 1) ∧
      ((trioRun (firstElection ++ firstRound)).bind (nodeOf · [1])).map
        (fun node => (node.role, node.hardState.currentTerm)) = some (.Leader, 1) := by
    decide +kernel
  obtain ⟨node, hnode, hlead⟩ := Option.map_eq_some_iff.mp hobserved.1
  obtain ⟨node', hnode', hlead'⟩ := Option.map_eq_some_iff.mp hobserved.2
  obtain ⟨c, hc, hnode⟩ := Option.bind_eq_some_iff.mp hnode
  obtain ⟨c', hc', hnode'⟩ := Option.bind_eq_some_iff.mp hnode'
  obtain ⟨threads, hp⟩ := nodeOf_eq_some hnode
  obtain ⟨threads', hq⟩ := nodeOf_eq_some hnode'
  obtain ⟨hrole, hterm⟩ := Prod.mk.inj hlead
  obtain ⟨hrole', hterm'⟩ := Prod.mk.inj hlead'
  exact ⟨c, c', [1], node, node', threads, threads', hc, hc', hp, hq, hrole, hrole',
    hterm.trans hterm'.symm, at_most_one_leader (trioRun_reaches hc) (trioRun_append hc hc') hp hq
      hrole hrole' (hterm.trans hterm'.symm)⟩

/-! ## Matching logs -/

/-- The log a process retains: in memory, or on its disk. -/
def Process.log : Process σ → List LogEntry
  | .up node _ => node.log
  | .down disk _ => disk.log

/-- What a process retains is the end of its whole log, a torn disk included. -/
theorem Sim.log_eq_drop {mode : Mode σ} (h : Sim members mode c a) (p : NodeId) :
    ∃ k, (c.process p).log = (a.log p).drop k := by
  cases hp : c.process p with
  | up node threads => exact ⟨_, (h.up hp).tracks.memory.logs.log_eq⟩
  | down disk m =>
    rcases (h.down hp).1.logs with ⟨hlogs, _⟩ | ⟨_, j, _, hlog, _⟩
    · exact ⟨_, hlogs.log_eq⟩
    · exact ⟨j, hlog⟩

theorem Sim.getElem?_of_mem {mode : Mode σ} (h : Sim members mode c a) {p : NodeId}
    {entry : LogEntry} (he : entry ∈ (c.process p).log) :
    0 < entry.index ∧ (a.log p)[entry.index - 1]? = some entry := by
  obtain ⟨k, hk⟩ := h.log_eq_drop p
  rw [hk] at he
  obtain ⟨i, hi⟩ := List.mem_iff_getElem?.mp he
  rw [List.getElem?_drop] at hi
  have hindex := (h.sane.log_indexed p _ entry hi).1
  refine ⟨by omega, ?_⟩
  rw [show entry.index - 1 = k + i by omega]
  exact hi

/-- **Log matching.** Two entries with one index and one term, in the logs that two processes retain,
carry the same command; and below them the two logs agree wherever both still hold an entry. -/
theorem logs_match (hrun : Reaches sm members Anything (Cluster.initial machine) c) {p q : NodeId}
    {x y : LogEntry} (hx : x ∈ (c.process p).log) (hy : y ∈ (c.process q).log)
    (hindex : x.index = y.index) (hterm : x.term = y.term) :
    x.command = y.command ∧
      ∀ u ∈ (c.process p).log, ∀ v ∈ (c.process q).log,
        u.index = v.index → u.index < x.index → u = v := by
  obtain ⟨a, hsim⟩ := exists_history hrun
  obtain ⟨hpos, hgetx⟩ := hsim.getElem?_of_mem hx
  obtain ⟨_, hgety⟩ := hsim.getElem?_of_mem hy
  rw [← hindex] at hgety
  have htake := rooted_matching (hsim.sane.inv.log_rooted p) (hsim.sane.inv.log_rooted q)
    hgetx hgety hterm
  -- equal up to the entries' position
  have hagree : ∀ i, i < x.index → (a.log p)[i]? = (a.log q)[i]? := by
    intro i hi
    have := congrArg (·[i]?) htake
    simp only [List.getElem?_take_of_lt (show i < x.index - 1 + 1 by omega)] at this
    exact this
  constructor
  · have := hagree (x.index - 1) (by omega)
    rw [hgetx, hgety] at this
    rw [Option.some.inj this]
  · intro u hu v hv huv hlt
    obtain ⟨hupos, hgetu⟩ := hsim.getElem?_of_mem hu
    obtain ⟨_, hgetv⟩ := hsim.getElem?_of_mem hv
    rw [← huv, ← hagree (u.index - 1) (by omega), hgetu] at hgetv
    exact Option.some.inj hgetv

/-- The no-op of term 1 on nodes 1 and 3. -/
theorem logs_match_trio :
    ∃ c : Cluster Values, trioRun (firstElection ++ firstRound) = some c ∧
      (⟨1, 1, {}⟩ : LogEntry) ∈ (c.process [1]).log ∧ ⟨1, 1, {}⟩ ∈ (c.process [3]).log ∧
      ∀ u ∈ (c.process [1]).log, ∀ v ∈ (c.process [3]).log, u.index = v.index → u.index < 1 →
        u = v := by
  have hobserved : (trioRun (firstElection ++ firstRound)).map
      (fun c => ((c.process [1]).log, (c.process [3]).log)) =
        some ([⟨1, 1, {}⟩], [⟨1, 1, {}⟩]) := by
    decide +kernel
  obtain ⟨c, hc, hlogs⟩ := Option.map_eq_some_iff.mp hobserved
  obtain ⟨h₁, h₃⟩ := Prod.mk.inj hlogs
  have hx : (⟨1, 1, {}⟩ : LogEntry) ∈ (c.process [1]).log := by rw [h₁]; exact List.mem_singleton_self _
  have hy : (⟨1, 1, {}⟩ : LogEntry) ∈ (c.process [3]).log := by rw [h₃]; exact List.mem_singleton_self _
  exact ⟨c, hc, hx, hy, (logs_match (trioRun_reaches hc) hx hy rfl rfl).2⟩

/-! ## Later leaders hold what was committed -/

theorem getElem?_of_part {L M : List LogEntry} (h : L <+: M) {i : Nat} {entry : LogEntry}
    (hi : i < L.length) (hM : M[i]? = some entry) : L[i]? = some entry := by
  obtain ⟨C, rfl⟩ := h
  rwa [List.getElem?_append_left hi] at hM

/-- The log a committing leader holds agrees, as far as it committed, with the log on record of any
leader of that term or a later one. -/
theorem CommitOK.agrees (hsane : Sane members a) {id' : NodeId} {node' : RaftNode σ}
    (h : CommitOK members a id node index) {L L' : List LogEntry} (hL : RecordOK a id node L)
    (hL' : RecordOK a id' node' L')
    (hterm : node.hardState.currentTerm ≤ node'.hardState.currentTerm) {i : Nat} (hi : i < index)
    (hlen : i < L.length) (hlen' : i < L'.length) : L[i]? = L'[i]? := by
  obtain ⟨x, hx, _⟩ := hL'.led
  have hcommitted := hsane.inv.committed_prefix h.committed hterm hx
  have hleader := hsane.inv.committed_length h.committed
  have hget : L'[i]? = some (L'.get ⟨i, hlen'⟩) := by simp
  have hM : (a.leaderLog node'.hardState.currentTerm)[i]? = some (L'.get ⟨i, hlen'⟩) := by
    obtain ⟨C, hC⟩ := hL'.part
    rw [← hC, List.getElem?_append_left hlen']
    exact hget
  have htake : ((a.leaderLog node.hardState.currentTerm).take index)[i]? =
      some (L'.get ⟨i, hlen'⟩) :=
    getElem?_of_part hcommitted (by simp; omega) hM
  rw [List.getElem?_take_of_lt hi] at htake
  rw [getElem?_of_part hL.part hlen htake, hget]

/-- A leader of a later term was elected with the whole committed log. -/
theorem CommitOK.length_le (hsane : Sane members a) {id' : NodeId} {node' : RaftNode σ}
    (h : CommitOK members a id node index) {L' : List LogEntry} (hL' : RecordOK a id' node' L')
    (hterm : node.hardState.currentTerm < node'.hardState.currentTerm) : index ≤ L'.length := by
  obtain ⟨L₀, hL₀, hpart⟩ := hL'.led
  have hcomplete := (hsane.inv.leader_completeness h.committed hterm hL₀).length_le
  have hleader := hsane.inv.committed_length h.committed
  have := hpart.length_le
  simp only [List.length_take] at hcomplete
  omega

/-- **Leader completeness.** When a leader commits up to `index`, its whole log `L`, of which it retains
the part behind its snapshot, reaches that far; and every node elected in a later term has, when it is
elected, the same entry at each of these positions, or a snapshot that covers it. `L` is the log of that
leader, not some log: it holds what the leader retained when it was elected. -/
theorem later_leaders_hold_committed
    (hrun : Reaches sm members Anything (Cluster.initial machine) c) {id : NodeId}
    {node : RaftNode σ} {index : Nat} (hcommit : Event.committed id node index ∈ c.trace) :
    ∃ L, Compacted L node.log node.snapshot ∧ Indexed L ∧ index ≤ L.length ∧
      (∀ id' node', Event.elected id' node' ∈ c.trace →
        node'.hardState.currentTerm = node.hardState.currentTerm →
        id' = id ∧ ∀ entry ∈ node'.log, entry.index ≤ index → L[entry.index - 1]? = some entry) ∧
      ∀ id' node', Event.elected id' node' ∈ c.trace →
        node.hardState.currentTerm < node'.hardState.currentTerm →
        ∀ i, 0 < i → i ≤ index →
          i ≤ snapshotIndex node'.snapshot ∨
            ∃ entry ∈ node'.log, entry.index = i ∧ L[i - 1]? = some entry := by
  obtain ⟨a, hsim⟩ := exists_history hrun
  have hok : CommitOK members a id node index := hsim.trace _ hcommit
  obtain ⟨L, hL, hlen⟩ := hok.record
  have hindexed : Indexed L := (hsim.sane.indexed _).of_part hL.part
  refine ⟨L, hL.compacted, hindexed, hlen, fun id' node' helected hterm => ?_,
    fun id' node' helected hterm i hpos hi => ?_⟩
  · obtain ⟨L', hL'⟩ : ∃ L', RecordOK a id' node' L' := hsim.trace _ helected
    have hindexed' : Indexed L' := (hsim.sane.indexed _).of_part hL'.part
    constructor
    · obtain ⟨L₀, hL₀, _⟩ := hL.led
      obtain ⟨L₀', hL₀', _⟩ := hL'.led
      rw [hterm, hL₀] at hL₀'
      exact (congrArg Prod.fst (Option.some.inj hL₀')).symm
    · intro entry hentry hle
      obtain ⟨hpos, hget, _⟩ := hL'.compacted.of_mem hindexed' hentry
      have hlt := (List.getElem?_eq_some_iff.mp hget).1
      rw [hok.agrees hsim.sane hL hL' hterm.ge (by omega) (by omega) hlt]
      exact hget
  · obtain ⟨L', hL'⟩ : ∃ L', RecordOK a id' node' L' := hsim.trace _ helected
    have hindexed' : Indexed L' := (hsim.sane.indexed _).of_part hL'.part
    have hlen' := hok.length_le hsim.sane hL' hterm
    have hget : L'[i - 1]? = some (L'.get ⟨i - 1, by omega⟩) := by simp
    have hagree := hok.agrees hsim.sane hL hL' hterm.le (i := i - 1) (by omega) (by omega) (by omega)
    rcases hL'.compacted.mem_or_covered hget with hcovered | hmem
    · exact Or.inl (by omega)
    · refine Or.inr ⟨_, hmem, ?_, hagree.trans hget⟩
      rw [(hindexed' _ _ hget).1]
      omega

/-- The event is a commit up to `index` in the given term. -/
def Event.commits (id : NodeId) (term index : Nat) : Event σ → Bool
  | .committed id' node index' =>
    decide (id' = id ∧ node.hardState.currentTerm = term ∧ index' = index)
  | _ => false

/-- The event is an election in the given term. -/
def Event.elects (id : NodeId) (term : Nat) : Event σ → Bool
  | .elected id' node => decide (id' = id ∧ node.hardState.currentTerm = term)
  | _ => false

theorem exists_committed {term : Nat} (h : trace.any (Event.commits id term index) = true) :
    ∃ node, Event.committed id node index ∈ trace ∧ node.hardState.currentTerm = term := by
  obtain ⟨event, hmem, hevent⟩ := List.any_eq_true.mp h
  cases event with
  | committed id' node index' =>
    simp only [Event.commits, decide_eq_true_eq] at hevent
    obtain ⟨rfl, hterm, rfl⟩ := hevent
    exact ⟨node, hmem, hterm⟩
  | _ => cases hevent

theorem exists_elected {term : Nat} (h : trace.any (Event.elects id term) = true) :
    ∃ node, Event.elected id node ∈ trace ∧ node.hardState.currentTerm = term := by
  obtain ⟨event, hmem, hevent⟩ := List.any_eq_true.mp h
  cases event with
  | elected id' node =>
    simp only [Event.elects, decide_eq_true_eq] at hevent
    obtain ⟨rfl, hterm⟩ := hevent
    exact ⟨node, hmem, hterm⟩
  | _ => cases hevent

/-- Node 1 commits its no-op in term 1, then node 2 is elected in term 2. -/
theorem later_leaders_hold_committed_trio :
    ∃ (c : Cluster Values) (node node' : RaftNode Values),
      trioRun (firstElection ++ firstRound ++ secondElection) = some c ∧
        Event.committed [1] node 1 ∈ c.trace ∧ Event.elected [2] node' ∈ c.trace ∧
        (1 ≤ snapshotIndex node'.snapshot ∨ ∃ entry ∈ node'.log, entry.index = 1) := by
  have hobserved : (trioRun (firstElection ++ firstRound ++ secondElection)).map
      (fun c => (c.trace.any (Event.commits [1] 1 1), c.trace.any (Event.elects [2] 2))) =
        some (true, true) := by
    decide +kernel
  obtain ⟨c, hc, hboth⟩ := Option.map_eq_some_iff.mp hobserved
  obtain ⟨node, hcommit, hterm⟩ := exists_committed (Prod.mk.inj hboth).1
  obtain ⟨node', helected, hterm'⟩ := exists_elected (Prod.mk.inj hboth).2
  obtain ⟨L, _, _, _, _, hlater⟩ := later_leaders_hold_committed (trioRun_reaches hc) hcommit
  refine ⟨c, node, node', hc, hcommit, helected, ?_⟩
  refine (hlater [2] node' helected (by omega) 1 (by omega) le_rfl).imp_right ?_
  rintro ⟨entry, hentry, hindex, _⟩
  exact ⟨entry, hentry, hindex⟩

/-! ## The read barrier -/

/-- The machine accepts everything that is valid. -/
def Mode.accepting (σ : Type) : Mode σ := { Mode.free σ with total := True }

theorem keyValueStateMachine_accepts (entry : LogEntry) (values : Values) (hindex : 0 < entry.index)
    (hterm : 0 < entry.term) (hvalid : entry.command.Valid) :
    (keyValueStateMachine.apply entry values).1 = .ok () := by
  have hnot : ¬ (entry.index = 0 ∨ entry.term = 0) := by omega
  show ((if entry.index = 0 ∨ entry.term = 0 then _ else applyCommand entry.command :
    Program Values Error Unit) values).1 = .ok ()
  rw [if_neg hnot, applyCommand_of_valid hvalid]

theorem Mode.accepting_sound : (Mode.accepting Values).Sound keyValueStateMachine where
  apply _ _ _ _ := trivial
  accepts _ := keyValueStateMachine_accepts
  recover _ _ _ _ := trivial
  install _ _ := trivial

/-- Node 1 confirms its leadership with node 2; the answer of node 3 is lost. -/
def firstBarrier : List Label :=
  [.run (.confirm [1]), go [1], go [1], deliver 6, answer [1] 6, go [1], go [1], go [1], go [1]]

/-- The event is an answered read barrier. -/
def Event.confirms (id : NodeId) (begun : Nat) : Event σ → Bool
  | .confirmed id' _ begun' => decide (id' = id ∧ begun' = begun)
  | _ => false

theorem exists_confirmed {begun : Nat} (h : trace.any (Event.confirms id begun) = true) :
    ∃ node, Event.confirmed id node begun ∈ trace := by
  obtain ⟨event, hmem, hevent⟩ := List.any_eq_true.mp h
  cases event with
  | confirmed id' node begun' =>
    simp only [Event.confirms, decide_eq_true_eq] at hevent
    obtain ⟨rfl, rfl⟩ := hevent
    exact ⟨node, hmem⟩
  | _ => cases hevent

end NebulaKV.Raft
