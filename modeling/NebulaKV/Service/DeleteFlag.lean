/-
# The `deleted` flag of the cluster service

`ClusterKeyValueServiceImpl::Delete` confirms leadership, asks the state machine whether the key is
there, submits the command and answers `committed && existed`. The three steps take different locks, so
the steps of other requests fall between them.

The leader is stable: its log only grows, and entries are applied in log order. An entry becomes visible
to `get` when it is applied, one at a time, since the state machine takes its own lock for each. Which
entries a quorum holds is left open (any entry may be applied next), and so is `submit_mutex_`: the runs
here are more than those of the code.
-/
import NebulaKV.Raft.RetainedLog
import Mathlib.Data.List.Induction

namespace NebulaKV.Service

open Containers Effects Raft

/-! ## The leader and its requests -/

/-- What the requests share: the log from index one on, and the state machine. -/
structure Leader where
  term : Nat
  log : List LogEntry := []
  lastApplied : Nat := 0
  values : Values := OrderedMap.empty

/-- Where a request is. A Delete keeps `existed`, and for the statements the number of entries that were
applied when it read it; `index` is the place of its entry in the log. -/
inductive Stage where
  | arrived
  | confirmed
  | checked (existed : Bool) (readAt : Nat)
  | submitted (existed : Bool) (readAt index : Nat)
  | answered (deleted : Bool) (readAt index : Nat)
  | storing (index : Nat)
  | stored (index : Nat)
  | failed
  deriving DecidableEq

structure Request where
  command : Command
  stage : Stage := .arrived
  deriving DecidableEq

structure ClusterService where
  leader : Leader
  requests : List Request := []

inductive Label where
  | put (key value : Bytes)
  | delete (key : Bytes)
  | advance (request : Nat)
  | giveUp (request : Nat)
  | apply

/-- `append_local_entry_locked`. -/
def Leader.append (leader : Leader) (command : Command) : Leader :=
  { leader with log := leader.log ++ [⟨leader.log.length + 1, leader.term, command⟩] }

/-- The next entry of the log goes to the state machine. -/
def Leader.apply (leader : Leader) : Option Leader :=
  match leader.log[leader.lastApplied]? with
  | none => none
  | some entry =>
    match keyValueStateMachine.apply entry leader.values with
    | (.ok (), values) =>
      some { leader with lastApplied := leader.lastApplied + 1, values := values }
    | (.error _, _) => none

/-- The next step of a request's thread. -/
def Leader.advance (leader : Leader) (command : Command) : Stage → Option (Leader × Stage)
  | .arrived =>
    match command.type with
    | .Delete => some (leader, .confirmed)
    | .Put => some (leader.append command, .storing (leader.log.length + 1))
    | .Noop => none
  | .confirmed =>
    some (leader, .checked (leader.values.find? command.key).isSome leader.lastApplied)
  | .checked existed readAt =>
    some (leader.append command, .submitted existed readAt (leader.log.length + 1))
  | .submitted existed readAt index =>
    -- `set_deleted(committed() && existed)`
    if index ≤ leader.lastApplied then some (leader, .answered existed readAt index) else none
  | .storing index => if index ≤ leader.lastApplied then some (leader, .stored index) else none
  | .answered _ _ _ => none
  | .stored _ => none
  | .failed => none

/-- What the requests see of a node whose log starts at index one. -/
def Leader.ofNode (node : RaftNode Values) : Leader :=
  ⟨node.hardState.currentTerm, node.log, node.hardState.lastApplied, node.machine⟩

section OfNode

variable {node : RaftNode Values}

/-- A leader's node appends as the leader does. -/
theorem Leader.ofNode_append (hsnapshot : node.snapshot = none) (hretained : node.Retains)
    (hrole : node.role = .Leader) (hterm : node.hardState.currentTerm ≠ 0) (command : Command) :
    ∃ entry node', RaftNode.appendLocalEntry command node = (.ok entry, node') ∧
      ofNode node' = (ofNode node).append command := by
  have hlast : node.lastLogIndex = node.log.length := by
    rw [hretained.lastLogIndex_eq, hsnapshot, snapshotIndex_none, Nat.zero_add]
  have happend : RaftNode.appendLocalEntry command node =
      (.ok ⟨node.lastLogIndex + 1, node.hardState.currentTerm, command⟩, { node with
        log := node.log ++ [⟨node.lastLogIndex + 1, node.hardState.currentTerm, command⟩] }) := by
    unfold RaftNode.appendLocalEntry
    rw [Program.read_bind_apply, if_neg (by simp [hrole, hterm])]
    rfl
  refine ⟨_, _, happend, ?_⟩
  rw [hlast]
  rfl

/-- The loop of `apply_committed_locked` applies as the leader does. -/
theorem Leader.ofNode_apply (hsnapshot : node.snapshot = none) {leader : Leader} :
    (ofNode node).apply = some leader ↔
      ∃ node', RaftNode.applyNext keyValueStateMachine node = (.ok (), node') ∧
        ofNode node' = leader := by
  have hindex : node.hardState.lastApplied + 1 - node.firstIndex = node.hardState.lastApplied := by
    rw [RaftNode.firstIndex, hsnapshot, snapshotIndex_none]
    omega
  have hfirst : ¬ node.hardState.lastApplied + 1 < node.firstIndex := by
    rw [RaftNode.firstIndex, hsnapshot, snapshotIndex_none]
    omega
  unfold RaftNode.applyNext Leader.apply
  simp only [Program.read_bind_apply, if_neg hfirst, hindex, ofNode]
  rw [if_neg (by simp [hsnapshot])]
  cases node.log[node.hardState.lastApplied]? with
  | none =>
    refine iff_of_false (by simp) ?_
    rintro ⟨node', hraise, -⟩
    cases hraise
  | some entry =>
    dsimp only
    rw [Program.bind_apply, RaftNode.callMachine]
    rcases keyValueStateMachine.apply entry node.machine with ⟨result, values⟩
    cases result with
    | error e =>
      refine iff_of_false (by simp) ?_
      rintro ⟨node', hthrow, -⟩
      cases hthrow
    | ok _ =>
      constructor
      · intro h
        exact ⟨_, rfl, Option.some.inj h⟩
      · rintro ⟨node', hreturn, rfl⟩
        cases hreturn
        rfl

end OfNode

namespace ClusterService

/-- The handlers refuse an invalid key or value before the request gets a thread. -/
def arrive (service : ClusterService) (command : Command) : Option ClusterService :=
  match validClientCommand command with
  | .ok _ => some { service with requests := service.requests ++ [{ command := command }] }
  | .error _ => none

def step (service : ClusterService) : Label → Option ClusterService
  | .put key value => service.arrive ⟨.Put, key, value⟩
  | .delete key => service.arrive ⟨.Delete, key, []⟩
  | .advance i => do
    let request ← service.requests[i]?
    let (leader, stage) ← service.leader.advance request.command request.stage
    return ⟨leader, service.requests.set i { request with stage := stage }⟩
  | .giveUp i => do
    -- a missed quorum, a deadline: the answer is an error and carries no flag
    let request ← service.requests[i]?
    return { service with requests := service.requests.set i { request with stage := .failed } }
  | .apply => do
    let leader ← service.leader.apply
    return { service with leader := leader }

def run : List Label → ClusterService → Option ClusterService
  | [], service => some service
  | label :: labels, service => (service.step label).bind (run labels)

end ClusterService

/-! ## What the log says about a key -/

/-- Whether a key is there once the entries are applied. -/
def present (key : Bytes) (entries : List LogEntry) : Bool := ((replay entries).find? key).isSome

/-- The command is a Put or a Delete of the key. -/
def Touches (key : Bytes) (command : Command) : Prop :=
  command.type ≠ .Noop ∧ command.key = key

theorem replay_append (entries : List LogEntry) (entry : LogEntry) :
    replay (entries ++ [entry]) = entry.command.effect (replay entries) := by
  unfold replay
  rw [List.foldl_append, List.foldl_cons, List.foldl_nil]

variable {key : Bytes} {entries log : List LogEntry}

theorem find?_effect_of_not_touches {command : Command} (h : ¬ Touches key command)
    (values : Values) : (command.effect values).find? key = values.find? key := by
  have hne : command.type ≠ .Noop → key ≠ command.key := fun htype hkey => h ⟨htype, hkey.symm⟩
  unfold Command.effect
  cases htype : command.type with
  | Noop => rfl
  | Put =>
    dsimp only
    rw [OrderedMap.find?_insert, if_neg (hne (by rw [htype]; simp))]
  | Delete =>
    dsimp only
    rw [OrderedMap.find?_erase, if_neg (hne (by rw [htype]; simp))]

/-- Entries that leave the key alone leave it as it is. -/
theorem present_append (later : List LogEntry) (h : ∀ entry ∈ later, ¬ Touches key entry.command) :
    present key (entries ++ later) = present key entries := by
  induction later using List.reverseRecOn with
  | nil => rw [List.append_nil]
  | append_singleton later entry ih =>
    have hlater : ∀ e ∈ later, ¬ Touches key e.command :=
      fun e he => h e (List.mem_append_left _ he)
    have hentry : ¬ Touches key entry.command := h entry (by simp)
    rw [← ih hlater, ← List.append_assoc]
    unfold present
    rw [replay_append, find?_effect_of_not_touches hentry]

/-- A key that is absent and not put stays absent. -/
theorem absent_append (later : List LogEntry) (habsent : present key entries = false)
    (h : ∀ entry ∈ later, entry.command.type = .Put → entry.command.key ≠ key) :
    present key (entries ++ later) = false := by
  induction later using List.reverseRecOn with
  | nil => rwa [List.append_nil]
  | append_singleton later entry ih =>
    have hbefore := ih fun e he => h e (List.mem_append_left _ he)
    rw [← List.append_assoc]
    unfold present at hbefore ⊢
    rw [replay_append]
    unfold Command.effect
    cases htype : entry.command.type with
    | Noop => exact hbefore
    | Put =>
      dsimp only
      rw [OrderedMap.find?_insert, if_neg (Ne.symm (h entry (by simp) htype))]
      exact hbefore
    | Delete =>
      dsimp only
      rw [OrderedMap.find?_erase]
      split_ifs
      · rfl
      · exact hbefore

/-! ## The invariant -/

/-- A leader whose state machine is the replay of the entries it has applied. -/
structure Leader.Stable (leader : Leader) : Prop where
  elected : leader.term ≠ 0
  applied : leader.lastApplied ≤ leader.log.length
  replayed : leader.values = replay (leader.log.take leader.lastApplied)
  entries : ∀ entry ∈ leader.log, entry.index ≠ 0 ∧ entry.term ≠ 0 ∧ entry.command.Valid

namespace Leader

variable {leader leader' : Leader}

theorem Stable.append (h : leader.Stable) {command : Command} (hvalid : command.Valid) :
    (leader.append command).Stable where
  elected := h.elected
  applied := by
    have := h.applied
    simp only [Leader.append, List.length_append, List.length_singleton]
    omega
  replayed := by
    have htake : (leader.append command).log.take leader.lastApplied =
        leader.log.take leader.lastApplied := List.take_append_of_le_length h.applied
    exact h.replayed.trans (congrArg replay htake.symm)
  entries entry hmem := by
    rcases List.mem_append.mp hmem with hold | hnew
    · exact h.entries entry hold
    · rw [List.mem_singleton.mp hnew]
      exact ⟨Nat.succ_ne_zero _, h.elected, hvalid⟩

theorem apply_eq_some (h : leader.apply = some leader') :
    ∃ entry values, leader.log[leader.lastApplied]? = some entry ∧
      keyValueStateMachine.apply entry leader.values = (.ok (), values) ∧
      leader' = { leader with lastApplied := leader.lastApplied + 1, values := values } := by
  unfold Leader.apply at h
  cases hentry : leader.log[leader.lastApplied]? with
  | none => rw [hentry] at h; cases h
  | some entry =>
    rw [hentry] at h
    dsimp only at h
    cases hrun : keyValueStateMachine.apply entry leader.values with
    | mk outcome values =>
      rw [hrun] at h
      cases outcome with
      | error e => cases h
      | ok u => exact ⟨entry, values, rfl, hrun, (Option.some.inj h).symm⟩

theorem Stable.apply (h : leader.Stable) (happly : leader.apply = some leader') :
    leader'.Stable ∧ leader'.log = leader.log := by
  obtain ⟨entry, values, hentry, hrun, rfl⟩ := apply_eq_some happly
  obtain ⟨hindex, hterm, hvalid⟩ := h.entries entry (List.mem_of_getElem? hentry)
  have hvalues : values = entry.command.effect leader.values := by
    have heq : keyValueStateMachine.apply entry leader.values =
        applyCommand entry.command leader.values := by
      unfold keyValueStateMachine
      dsimp only
      rw [if_neg (not_or.mpr ⟨hindex, hterm⟩)]
    rw [heq, applyCommand_of_valid hvalid] at hrun
    exact (congrArg Prod.snd hrun).symm
  obtain ⟨hlt, -⟩ := List.getElem?_eq_some_iff.mp hentry
  refine ⟨⟨h.elected, hlt, ?_, h.entries⟩, rfl⟩
  dsimp only
  rw [List.take_add_one, hentry, Option.toList_some, replay_append, ← h.replayed, hvalues]

end Leader

/-- The place of a request's entry in the log. -/
def Stage.index? : Stage → Option Nat
  | .submitted _ _ index => some index
  | .answered _ _ index => some index
  | .storing index => some index
  | .stored index => some index
  | _ => none

/-- What a Delete saw: the state machine after the first `readAt` entries. -/
def Stage.Read (log : List LogEntry) (key : Bytes) : Stage → Prop
  | .checked existed readAt =>
    readAt ≤ log.length ∧ existed = present key (log.take readAt)
  | .submitted existed readAt index =>
    readAt < index ∧ existed = present key (log.take readAt)
  | .answered deleted readAt index =>
    readAt < index ∧ deleted = present key (log.take readAt)
  | _ => True

structure Request.Consistent (log : List LogEntry) (request : Request) : Prop where
  valid : request.command.Valid
  entry : ∀ index, request.stage.index? = some index →
    0 < index ∧ (log[index - 1]?).map LogEntry.command = some request.command
  read : request.stage.Read log request.command.key

theorem Request.Consistent.index_le {request : Request} {index : Nat} (h : request.Consistent log)
    (hindex : request.stage.index? = some index) : index ≤ log.length := by
  obtain ⟨hpos, hentry⟩ := h.entry index hindex
  obtain ⟨entry, hget, -⟩ := Option.map_eq_some_iff.mp hentry
  obtain ⟨hlt, -⟩ := List.getElem?_eq_some_iff.mp hget
  omega

/-- A log that grows keeps what a request knows of it. -/
theorem Request.Consistent.grow {request : Request} (h : request.Consistent log)
    (later : List LogEntry) : request.Consistent (log ++ later) where
  valid := h.valid
  entry index hindex := by
    obtain ⟨hpos, hentry⟩ := h.entry index hindex
    have hle := h.index_le hindex
    rw [List.getElem?_append_left (by omega)]
    exact ⟨hpos, hentry⟩
  read := by
    have hread := h.read
    have hle : ∀ index, request.stage.index? = some index → index ≤ log.length :=
      fun index hindex => h.index_le hindex
    cases hstage : request.stage with
    | checked existed readAt =>
      rw [hstage] at hread
      obtain ⟨hat, hexisted⟩ := hread
      refine ⟨by rw [List.length_append]; omega, ?_⟩
      rw [List.take_append_of_le_length hat]
      exact hexisted
    | submitted existed readAt index | answered existed readAt index =>
      rw [hstage] at hread
      obtain ⟨hat, hexisted⟩ := hread
      have := hle index (by rw [hstage]; rfl)
      refine ⟨hat, ?_⟩
      rw [List.take_append_of_le_length (by omega)]
      exact hexisted
    | arrived | confirmed | storing _ | stored _ | failed => trivial

namespace ClusterService

variable {service service' : ClusterService}

structure Invariant (service : ClusterService) : Prop where
  stable : service.leader.Stable
  consistent : ∀ request ∈ service.requests, request.Consistent service.leader.log
  distinct : ∀ (i j : Nat) (r s : Request) index,
    service.requests[i]? = some r → service.requests[j]? = some s →
    r.stage.index? = some index → s.stage.index? = some index → i = j

/-- One thread moves: the others keep what they know of the grown log, and the place it may take in the
log is its old one or the new end. -/
theorem Invariant.set (h : service.Invariant) {i : Nat} {request : Request} {stage : Stage}
    {leader : Leader} {later : List LogEntry} (hget : service.requests[i]? = some request)
    (hstable : leader.Stable) (hlog : leader.log = service.leader.log ++ later)
    (hrequest : Request.Consistent leader.log { request with stage := stage })
    (hindex : ∀ index, stage.index? = some index →
      request.stage.index? = some index ∨ service.leader.log.length < index) :
    Invariant ⟨leader, service.requests.set i { request with stage := stage }⟩ where
  stable := hstable
  consistent r hr := by
    rcases List.mem_or_eq_of_mem_set hr with hold | rfl
    · show r.Consistent leader.log
      rw [hlog]
      exact (h.consistent r hold).grow later
    · exact hrequest
  distinct j k r s index hr hs hrindex hsindex := by
    -- a slot other than `i` holds an old request, whose place is inside the old log
    have hother : ∀ {l : Nat} {q : Request}, i ≠ l →
        (service.requests.set i { request with stage := stage })[l]? = some q →
        service.requests[l]? = some q := fun hne hq => by
      rwa [List.getElem?_set_ne hne] at hq
    have hself : ∀ {q : Request},
        (service.requests.set i { request with stage := stage })[i]? = some q →
        q = { request with stage := stage } := fun hq => by
      obtain ⟨hlt, -⟩ := List.getElem?_eq_some_iff.mp hget
      rw [List.getElem?_set_self hlt] at hq
      exact (Option.some.inj hq).symm
    have hcross : ∀ {l : Nat} {q : Request}, i ≠ l → service.requests[l]? = some q →
        stage.index? = some index → q.stage.index? = some index → False := by
      intro l q hne hq hnew hold
      rcases hindex index hnew with hsame | hlarge
      · exact hne (h.distinct i l request q index hget hq hsame hold)
      · have := (h.consistent q (List.mem_of_getElem? hq)).index_le hold
        omega
    by_cases hj : i = j
    · by_cases hk : i = k
      · exact hj.symm.trans hk
      · subst hj
        rw [hself hr] at hrindex
        exact (hcross hk (hother hk hs) hrindex hsindex).elim
    · by_cases hk : i = k
      · subst hk
        rw [hself hs] at hsindex
        exact (hcross hj (hother hj hr) hsindex hrindex).elim
      · exact h.distinct j k r s index (hother hj hr) (hother hk hs) hrindex hsindex

theorem Invariant.arrive (h : service.Invariant) {command : Command}
    (harrive : service.arrive command = some service') : service'.Invariant := by
  unfold ClusterService.arrive at harrive
  cases hvalid : validClientCommand command with
  | error e => rw [hvalid] at harrive; cases harrive
  | ok b =>
    rw [hvalid] at harrive
    obtain rfl := Option.some.inj harrive
    have hnew : ∀ {i : Nat} {r : Request} {index : Nat},
        (service.requests ++ [({ command := command } : Request)])[i]? = some r →
        r.stage.index? = some index → service.requests[i]? = some r := by
      intro i r index hr hindex
      by_cases hlt : i < service.requests.length
      · rwa [List.getElem?_append_left hlt] at hr
      · rw [List.getElem?_append_right (by omega)] at hr
        rw [List.mem_singleton.mp (List.mem_of_getElem? hr)] at hindex
        cases hindex
    refine ⟨h.stable, fun r hr => ?_, fun i j r s index hr hs hri hsi => ?_⟩
    · rcases List.mem_append.mp hr with hold | hlast
      · exact h.consistent r hold
      · rw [List.mem_singleton.mp hlast]
        exact ⟨valid_of_validClientCommand hvalid, fun index hi => (by cases hi), trivial⟩
    · exact h.distinct i j r s index (hnew hr hri) (hnew hs hsi) hri hsi

/-- The entry a request appends is the last one of the log. -/
theorem appended_entry (log : List LogEntry) (entry : LogEntry) :
    0 < log.length + 1 ∧
      ((log ++ [entry])[log.length + 1 - 1]?).map LogEntry.command = some entry.command := by
  simp

theorem Invariant.advance (h : service.Invariant) {i : Nat} {request : Request} {stage : Stage}
    {leader : Leader} (hget : service.requests[i]? = some request)
    (hadvance : service.leader.advance request.command request.stage = some (leader, stage)) :
    Invariant ⟨leader, service.requests.set i { request with stage := stage }⟩ := by
  obtain ⟨hvalid, hentry, hread⟩ := h.consistent request (List.mem_of_getElem? hget)
  have hstay : service.leader.log = service.leader.log ++ [] := (List.append_nil _).symm
  have hgrown := h.stable.append hvalid
  have htake : ∀ n ≤ service.leader.log.length,
      (service.leader.append request.command).log.take n = service.leader.log.take n :=
    fun n hn => List.take_append_of_le_length hn
  unfold Leader.advance at hadvance
  cases hstage : request.stage with
  | arrived =>
    rw [hstage] at hadvance
    dsimp only at hadvance
    cases htype : request.command.type with
    | Noop => rw [htype] at hadvance; cases hadvance
    | Delete =>
      rw [htype] at hadvance
      cases hadvance
      exact h.set hget h.stable hstay ⟨hvalid, fun _ hi => (by cases hi), trivial⟩
        (fun _ hi => by cases hi)
    | Put =>
      rw [htype] at hadvance
      cases hadvance
      refine h.set hget hgrown rfl ⟨hvalid, fun index hi => ?_, trivial⟩ (fun index hi => ?_)
      · obtain rfl := Option.some.inj hi
        exact appended_entry _ _
      · obtain rfl := Option.some.inj hi
        exact Or.inr (Nat.lt_succ_self _)
  | confirmed =>
    rw [hstage] at hadvance
    cases hadvance
    refine h.set hget h.stable hstay ⟨hvalid, fun _ hi => (by cases hi), h.stable.applied, ?_⟩
      (fun _ hi => by cases hi)
    unfold present
    rw [← h.stable.replayed]
  | checked existed readAt =>
    rw [hstage] at hadvance hread
    cases hadvance
    obtain ⟨hat, hexisted⟩ := hread
    refine h.set hget hgrown rfl
      ⟨hvalid, fun index hi => ?_, Nat.lt_succ_of_le hat, ?_⟩ (fun index hi => ?_)
    · obtain rfl := Option.some.inj hi
      exact appended_entry _ _
    · rw [htake readAt hat]
      exact hexisted
    · obtain rfl := Option.some.inj hi
      exact Or.inr (Nat.lt_succ_self _)
  | submitted existed readAt index =>
    rw [hstage] at hadvance hread hentry
    dsimp only at hadvance
    split_ifs at hadvance
    cases hadvance
    exact h.set hget h.stable hstay ⟨hvalid, hentry, hread⟩
      (fun n hi => Or.inl (by rw [hstage]; exact hi))
  | storing index =>
    rw [hstage] at hadvance hentry
    dsimp only at hadvance
    split_ifs at hadvance
    cases hadvance
    exact h.set hget h.stable hstay ⟨hvalid, hentry, trivial⟩
      (fun n hi => Or.inl (by rw [hstage]; exact hi))
  | answered _ _ _ | stored _ | failed =>
    rw [hstage] at hadvance
    cases hadvance

theorem Invariant.step (h : service.Invariant) {label : Label}
    (hstep : service.step label = some service') : service'.Invariant := by
  cases label with
  | put key value => exact h.arrive hstep
  | delete key => exact h.arrive hstep
  | advance i =>
    obtain ⟨request, hget, hstep⟩ := Option.bind_eq_some_iff.mp hstep
    obtain ⟨⟨leader, stage⟩, hadvance, hstep⟩ := Option.bind_eq_some_iff.mp hstep
    obtain rfl := Option.some.inj hstep
    exact h.advance hget hadvance
  | giveUp i =>
    obtain ⟨request, hget, hstep⟩ := Option.bind_eq_some_iff.mp hstep
    obtain rfl := Option.some.inj hstep
    have hvalid := (h.consistent request (List.mem_of_getElem? hget)).valid
    exact h.set hget h.stable (List.append_nil _).symm
      ⟨hvalid, fun _ hi => (by cases hi), trivial⟩ (fun _ hi => by cases hi)
  | apply =>
    obtain ⟨leader, happly, hstep⟩ := Option.bind_eq_some_iff.mp hstep
    obtain rfl := Option.some.inj hstep
    obtain ⟨hstable, hlog⟩ := h.stable.apply happly
    exact ⟨hstable, fun r hr => hlog.symm ▸ h.consistent r hr, h.distinct⟩

theorem Invariant.run (labels : List Label) :
    ∀ {service : ClusterService}, service.Invariant → run labels service = some service' →
      service'.Invariant := by
  induction labels with
  | nil =>
    intro service h hrun
    rwa [← Option.some.inj hrun]
  | cons label labels ih =>
    intro service h hrun
    obtain ⟨next, hstep, hrest⟩ := Option.bind_eq_some_iff.mp hrun
    exact ih (h.step hstep) hrest

/-! ## The flags against the log -/

/-- Request `i` is a Delete of the key and has been answered. -/
def Answers (service : ClusterService) (key : Bytes) (i : Nat) (deleted : Bool) (readAt index : Nat)
    : Prop :=
  service.requests[i]? = some ⟨⟨.Delete, key, []⟩, .answered deleted readAt index⟩

/-- Every answer is the one the log order gives: the key was there just before the Delete's entry. -/
def InLogOrder (service : ClusterService) (key : Bytes) : Prop :=
  ∀ i deleted readAt index, service.Answers key i deleted readAt index →
    deleted = present key (service.leader.log.take (index - 1))

/-- Two requests that both report a deletion have a Put of the key between their entries. -/
def OnePerPut (service : ClusterService) (key : Bytes) : Prop :=
  ∀ i j readAt readAt' index index', i ≠ j → index ≤ index' →
    service.Answers key i true readAt index → service.Answers key j true readAt' index' →
    ∃ position entry, index ≤ position ∧ position < index' - 1 ∧
      service.leader.log[position]? = some entry ∧
      entry.command.type = .Put ∧ entry.command.key = key

/-- What a Delete read still holds in front of its entry. -/
def Undisturbed (service : ClusterService) (key : Bytes) : Prop :=
  ∀ i deleted readAt index, service.Answers key i deleted readAt index →
    present key (service.leader.log.take readAt) =
      present key (service.leader.log.take (index - 1))

/-- No Put or Delete of the key stands between what a Delete read and its entry. -/
def Quiet (service : ClusterService) (key : Bytes) : Prop :=
  ∀ i deleted readAt index, service.Answers key i deleted readAt index →
    ∀ entry ∈ (service.leader.log.take (index - 1)).drop readAt, ¬ Touches key entry.command

section Flags

variable {key : Bytes}

theorem Invariant.answer (h : service.Invariant) {i : Nat} {deleted : Bool} {readAt index : Nat}
    (hanswer : service.Answers key i deleted readAt index) :
    0 < index ∧ index ≤ service.leader.log.length ∧ readAt < index ∧
      (service.leader.log[index - 1]?).map LogEntry.command = some ⟨.Delete, key, []⟩ ∧
      deleted = present key (service.leader.log.take readAt) := by
  have hconsistent := h.consistent _ (List.mem_of_getElem? hanswer)
  obtain ⟨hpos, hentry⟩ := hconsistent.entry index rfl
  have hle : index ≤ service.leader.log.length := hconsistent.index_le rfl
  exact ⟨hpos, hle, hconsistent.read.1, hentry, hconsistent.read.2⟩

theorem Invariant.inLogOrder_iff (h : service.Invariant) :
    service.InLogOrder key ↔ service.Undisturbed key := by
  constructor
  · intro horder i deleted readAt index hanswer
    obtain ⟨-, -, -, -, hread⟩ := h.answer hanswer
    exact hread.symm.trans (horder i deleted readAt index hanswer)
  · intro hundisturbed i deleted readAt index hanswer
    obtain ⟨-, -, -, -, hread⟩ := h.answer hanswer
    exact hread.trans (hundisturbed i deleted readAt index hanswer)

theorem Invariant.undisturbed_of_quiet (h : service.Invariant) (hquiet : service.Quiet key) :
    service.Undisturbed key := by
  intro i deleted readAt index hanswer
  obtain ⟨-, hle, hlt, -, -⟩ := h.answer hanswer
  have hsplit : service.leader.log.take (index - 1) =
      service.leader.log.take readAt ++ (service.leader.log.take (index - 1)).drop readAt := by
    have htake : service.leader.log.take readAt =
        (service.leader.log.take (index - 1)).take readAt := by
      rw [List.take_take, Nat.min_eq_left (by omega)]
    rw [htake, List.take_append_drop]
  rw [hsplit]
  exact (present_append _ (hquiet i deleted readAt index hanswer)).symm

/-- Right after the entry of a Delete the key is absent. -/
theorem absent_after_delete {log : List LogEntry} {index : Nat} (hpos : 0 < index)
    (hentry : (log[index - 1]?).map LogEntry.command = some ⟨.Delete, key, []⟩) :
    present key (log.take index) = false := by
  obtain ⟨entry, hget, hcommand⟩ := Option.map_eq_some_iff.mp hentry
  have hindex : index = index - 1 + 1 := by omega
  unfold present
  rw [hindex, List.take_add_one, hget, Option.toList_some, replay_append, hcommand]
  unfold Command.effect
  dsimp only
  rw [OrderedMap.find?_erase, if_pos rfl]
  rfl

theorem Invariant.onePerPut (h : service.Invariant) (horder : service.InLogOrder key) :
    service.OnePerPut key := by
  intro i j readAt readAt' index index' hne hle hanswer hanswer'
  obtain ⟨hpos, -, -, hentry, -⟩ := h.answer hanswer
  have hlt : index < index' := by
    refine lt_of_le_of_ne hle fun heq => hne ?_
    exact h.distinct i j _ _ index hanswer hanswer' rfl (congrArg some heq.symm)
  have habsent := absent_after_delete hpos hentry
  have hpresent := horder j true readAt' index' hanswer'
  by_contra hnone
  push Not at hnone
  -- without a Put in between the key stays absent up to the second Delete
  have hsplit : service.leader.log.take (index' - 1) =
      service.leader.log.take index ++ (service.leader.log.take (index' - 1)).drop index := by
    have htake : service.leader.log.take index =
        (service.leader.log.take (index' - 1)).take index := by
      rw [List.take_take, Nat.min_eq_left (by omega)]
    rw [htake, List.take_append_drop]
  rw [hsplit, absent_append _ habsent] at hpresent
  · cases hpresent
  · intro entry hmem hput
    obtain ⟨n, hn⟩ := List.mem_iff_getElem?.mp hmem
    rw [List.getElem?_drop] at hn
    obtain ⟨hlen, -⟩ := List.getElem?_eq_some_iff.mp hn
    have hbound : index + n < index' - 1 := by
      rw [List.length_take] at hlen
      omega
    rw [List.getElem?_take_of_lt hbound] at hn
    exact hnone (index + n) entry (Nat.le_add_right _ _) hbound hn hput

/-- **The `deleted` flags.** In every run from a stable leader the flags follow the log order exactly
when what each Delete read still held in front of its entry; then each Put is deleted at most once. No
other command on the key in between is enough. -/
theorem deleted_flags_iff {leader : Leader} (hstable : leader.Stable) (labels : List Label)
    (hrun : run labels ⟨leader, []⟩ = some service) (key : Bytes) :
    (service.InLogOrder key ↔ service.Undisturbed key) ∧
      (service.Undisturbed key → service.OnePerPut key) ∧
      (service.Quiet key → service.Undisturbed key) := by
  have hstart : Invariant ⟨leader, []⟩ :=
    ⟨hstable, fun r hr => by simp at hr, fun i j r s index hr => by simp at hr⟩
  have h := hstart.run labels hrun
  exact ⟨h.inLogOrder_iff, fun hundisturbed => h.onePerPut (h.inLogOrder_iff.mpr hundisturbed),
    h.undisturbed_of_quiet⟩

end Flags

/-- A Put and a Delete after it. -/
def putThenDelete : List Label :=
  [.put [1] [2], .advance 0, .apply, .advance 0,
   .delete [1], .advance 1, .advance 1, .advance 1, .apply, .advance 1]

theorem stable_fresh : (Leader.mk 1 [] 0 OrderedMap.empty).Stable :=
  ⟨by decide, le_rfl, rfl, fun _ h => by simp at h⟩

theorem deleted_flags_iff_putThenDelete :
    ∃ service, run putThenDelete ⟨⟨1, [], 0, OrderedMap.empty⟩, []⟩ = some service ∧
      (service.InLogOrder [1] ↔ service.Undisturbed [1]) ∧
      (service.Undisturbed [1] → service.OnePerPut [1]) ∧
      (service.Quiet [1] → service.Undisturbed [1]) :=
  ⟨_, rfl, deleted_flags_iff stable_fresh putThenDelete rfl [1]⟩

/-- Two Deletes that both read the key before either is submitted. The second is submitted after the
first has committed, as `submit_mutex_` asks. -/
def twoDeletes : List Label :=
  [.put [1] [2], .advance 0, .apply, .advance 0,
   .delete [1], .delete [1], .advance 1, .advance 2, .advance 1, .advance 2,
   .advance 1, .apply, .advance 1, .advance 2, .apply, .advance 2]

/-- Both report the deletion of one Put. -/
theorem both_deletes_report :
    ((run twoDeletes ⟨⟨1, [], 0, OrderedMap.empty⟩, []⟩).map fun service =>
      (service.requests, service.leader.log.map LogEntry.command)) =
    some ([⟨⟨.Put, [1], [2]⟩, .stored 1⟩,
           ⟨⟨.Delete, [1], []⟩, .answered true 1 2⟩,
           ⟨⟨.Delete, [1], []⟩, .answered true 1 3⟩],
          [⟨.Put, [1], [2]⟩, ⟨.Delete, [1], []⟩, ⟨.Delete, [1], []⟩]) := by
  decide +kernel

end ClusterService

end NebulaKV.Service
