/-
# How large a snapshot can be

`apply_committed_locked` ends with `maybe_create_snapshot_locked`, and a snapshot is one string behind a
32-bit length: `append_bytes` throws when the encoded map has more than 2^32-1 bytes. Keys and values have
limits, the number of keys has none. So there are two ways for a log of valid commands to stop a node: a
limit of the embedded store, and a snapshot that falls due over too large a map.

There is no third (`applying_completes`): any appends and commits, in any order, with any threshold.
-/
import NebulaKV.Raft.IndexInvariant
import NebulaKV.Raft.RejectedSnapshot

namespace NebulaKV.Raft

open Containers Effects Program Serialization
open Lsm (PersistentKeyValueStore)
open Lsm.PersistentKeyValueStore (Within Spends After)

/-! ## How many bytes a map takes -/

/-- The length of `encode_map_locked`'s string. -/
def encodedSize (values : Values) : Nat :=
  12 + (values.entries.map fun pair => 8 + pair.1.length + pair.2.length).sum

theorem length_encodedPairs (pairs : List (Bytes × Bytes)) :
    (encodedPairs pairs).length = (pairs.map fun pair => 8 + pair.1.length + pair.2.length).sum := by
  induction pairs with
  | nil => rfl
  | cons pair rest ih =>
    simp only [encodedPairs, List.length_append, Codec.length_leBytes, List.map_cons, List.sum_cons, ih]
    omega

theorem length_of_encodeMap {values : Values} {payload : Bytes} (h : encodeMap values = .ok payload) :
    payload.length = encodedSize values := by
  rw [(encodeEntries_eq h).1, List.length_append, length_encodedPairs]
  simp [appendU64, appendU32, encodedSize]

/-! ## A command is one call of the store -/

namespace DurableKeyValueStateMachine

variable {machine : DurableKeyValueStateMachine} {values : Values} {calls : Nat} {entry : LogEntry}

/-- The store has used no more than so many calls can. -/
def Light (calls : Nat) (machine : DurableKeyValueStateMachine) : Prop :=
  ∀ store, machine.store = some store → Within calls store

theorem Light.succ (h : Light calls machine) : Light (calls + 1) machine :=
  fun store hstore => (h store hstore).after (h store hstore).sound (Spends.refl 3 2 store)

theorem Light.mono {calls' : Nat} (h : Light calls machine) (hle : calls ≤ calls') :
    Light calls' machine := by
  induction hle with
  | refl => exact h
  | step _ ih => exact ih.succ

theorem Light.of_atLimit (h : Light calls machine) (hlimit : machine.AtLimit) : 2 ^ 19 ≤ calls := by
  obtain ⟨store, hstore, hlimit⟩ := hlimit
  exact (h store hstore).calls_of_atLimit hlimit

theorem Light.of_store {machine' : DurableKeyValueStateMachine} {store s : PersistentKeyValueStore}
    {reference : Lsm.Reference} (h : Light calls machine) (hstore : machine.store = some store)
    (hafter : After store reference s) (hs : machine'.store = some s) : Light (calls + 1) machine' := by
  intro s' hs'
  obtain rfl := Option.some.inj (hs.symm.trans hs')
  exact (h store hstore).after hafter.refines.sound hafter.spends

theorem Serves.apply_light (h : machine.Serves values) (hlight : Light calls machine)
    (hvalid : (Call.apply entry).Valid) :
    Light (calls + 1) (DurableKeyValueStateMachine.apply entry machine).2 := by
  obtain ⟨store, reference, hstore, hrefines, -⟩ := h.stores
  rw [apply_eq hstore hvalid]
  exact hlight.of_store hstore (write_done hrefines hvalid.2.2).after
    (applyCommand_store hstore hvalid.2.2).2

/-- A store that has just been created. -/
theorem light_created {store : PersistentKeyValueStore} {options : Lsm.PersistentStoreOptions}
    (hcreate : PersistentKeyValueStore.create options OrderedMap.empty {} [] = .ok store)
    (hstore : machine.store = some store) : Light 0 machine := by
  intro s hs
  obtain rfl := Option.some.inj (hstore.symm.trans hs)
  exact (Lsm.PersistentKeyValueStore.create_refines hcreate).2.1

/-- **What an `apply` costs**, whether or not it returns. -/
theorem Ready.apply_light (h : machine.Ready values) (hlight : Light calls machine)
    (hvalid : (Call.apply entry).Valid) :
    Light (calls + 1) (DurableKeyValueStateMachine.apply entry machine).2 := by
  rcases h with h | ⟨hnew, husable, -⟩
  · exact h.apply_light hlight hvalid
  · -- the first `apply` opens the store
    obtain ⟨store, hcreate, hserves, happly⟩ := hnew.apply_opens husable hvalid
    rw [happly]
    exact hserves.apply_light ((light_created hcreate rfl).mono (Nat.zero_le _)) hvalid

/-- A machine is recovered from nothing in one call of the store. -/
theorem recover_nothing (husable : machine.options.Usable) :
    ∃ m, recover none [] machine = (.ok (), m) ∧ m.Ready OrderedMap.empty ∧ Light 1 m := by
  obtain ⟨store, hcreate, hreset⟩ := reset_bind husable _
  set opened : DurableKeyValueStateMachine :=
    { machine with store := some store, directory := {}, values := OrderedMap.empty }
  have hrun : recover none [] machine =
      DurableKeyValueStateMachine.withStore PersistentKeyValueStore.checkpoint opened := hreset
  have hserves : opened.Serves OrderedMap.empty := serves_created husable hcreate rfl rfl
  have hrefines := (Lsm.PersistentKeyValueStore.create_refines hcreate).1
  have houtcome := hserves.checkpoint
  have hopened : Light 0 opened := light_created hcreate rfl
  have hlight : Light 1 (recover none [] machine).2 := by
    rw [hrun]
    exact hopened.of_store rfl hrefines.checkpoint_done.after rfl
  rw [← hrun] at houtcome
  rcases hresult : recover none [] machine with ⟨result, m⟩
  rw [hresult] at houtcome hlight
  cases result with
  | ok u => exact ⟨m, rfl, Or.inl houtcome, hlight⟩
  | error e => exact absurd (hlight.of_atLimit houtcome) (by decide)

end DurableKeyValueStateMachine

open DurableKeyValueStateMachine (durableStateMachine Light Ready)

namespace RaftNode

/-! ## A log that is appended to and committed -/

inductive LogStep where
  | append (term : Nat) (command : Command)
  /-- Commit that many entries more, as far as there are any. -/
  | commit (count : Nat)

def LogStep.perform : LogStep → Locked DurableKeyValueStateMachine Unit
  | .append term command => Program.update fun node =>
    persistLog { node with log := node.log ++ [⟨node.lastLogIndex + 1, term, command⟩] }
  | .commit count => do
    let node ← Program.read
    commitTo durableStateMachine (min (node.hardState.commitIndex + count) node.lastLogIndex)

def LogStep.Valid : LogStep → Prop
  | .append term command => term ≠ 0 ∧ command.Valid
  | .commit _ => True

def LogStep.command? : LogStep → Option Command
  | .append _ command => some command
  | .commit _ => none

/-- The commands that the steps append. -/
def appended (steps : List LogStep) : List Command := steps.filterMap LogStep.command?

/-- The map that the commands make. -/
def replayed (commands : List Command) : Values :=
  commands.foldl (fun values command => command.effect values) OrderedMap.empty

/-- The node holds these commands, in its log and behind its snapshot, and the machine has the first of
them. -/
structure Follows (commands : List Command) (node : RaftNode DurableKeyValueStateMachine) : Prop where
  working : Working node
  ready : node.machine.Ready (replayed (commands.take node.hardState.lastApplied))
  log : node.log.map LogEntry.command = commands.drop (snapshotIndex node.snapshot)
  last : snapshotIndex node.snapshot + node.log.length = commands.length
  light : Light (node.hardState.lastApplied + 1) node.machine

variable {node : RaftNode DurableKeyValueStateMachine} {commands : List Command}

theorem Follows.commit_le (h : Follows commands node) :
    node.hardState.commitIndex ≤ commands.length := by
  have := h.working.commit_le
  rw [h.working.retained.lastLogIndex_eq, h.last] at this
  exact this

theorem Follows.append (h : Follows commands node) {term : Nat} {command : Command} (hterm : term ≠ 0)
    (hvalid : command.Valid) :
    Follows (commands ++ [command])
      (persistLog { node with log := node.log ++ [⟨node.lastLogIndex + 1, term, command⟩] }) := by
  have hlast := h.working.retained.lastLogIndex_eq
  have hretained := h.working.retained.concat
    (show (⟨node.lastLogIndex + 1, term, command⟩ : LogEntry).index = _ by rw [hlast]) hterm
  have happlied := h.working.applied_le
  have hcommit := h.commit_le
  have hentries : ∀ e ∈ node.log ++ [⟨node.lastLogIndex + 1, term, command⟩],
      e.term ≠ 0 ∧ e.command.Valid := by
    intro e he
    rcases List.mem_append.mp he with he | he
    · exact h.working.diskLog_of_log e he
    · obtain rfl := List.mem_singleton.mp he
      exact ⟨hterm, hvalid⟩
  refine ⟨⟨hretained, fun e he => (hentries e he).2, h.working.snapshot_le, h.working.applied_le, ?_,
    h.working.diskSnapshot, hentries⟩, ?_, ?_, ?_, h.light⟩
  · refine le_of_le_of_eq ?_ (Retained.lastLogIndex_eq hretained).symm
    show node.hardState.commitIndex ≤ snapshotIndex node.snapshot + (node.log ++ [_]).length
    have := h.last
    rw [List.length_append]
    omega
  · show node.machine.Ready (replayed ((commands ++ [command]).take node.hardState.lastApplied))
    rw [List.take_append_of_le_length (happlied.trans hcommit)]
    exact h.ready
  · show (node.log ++ [_]).map LogEntry.command =
      (commands ++ [command]).drop (snapshotIndex node.snapshot)
    have := h.last
    rw [List.drop_append_of_le_length (by omega), ← h.log, List.map_append]
    rfl
  · show snapshotIndex node.snapshot + (node.log ++ [_]).length = (commands ++ [command]).length
    have := h.last
    rw [List.length_append, List.length_append, List.length_singleton, List.length_singleton]
    omega

/-! ## Applying -/

/-- A limit of the store, and how many commands it takes to get there. -/
def LimitReached (commands : List Command) (node : RaftNode DurableKeyValueStateMachine) : Prop :=
  node.machine.AtLimit ∧ 2 ^ 19 ≤ commands.length + 1

/-- The fields that applying leaves alone. -/
structure SameBase (node node' : RaftNode DurableKeyValueStateMachine) : Prop where
  commit : node'.hardState.commitIndex = node.hardState.commitIndex
  snapshot : node'.snapshot = node.snapshot
  options : node'.options = node.options

theorem replayed_take_succ {i : Nat} {command : Command} (h : commands[i]? = some command) :
    replayed (commands.take (i + 1)) = command.effect (replayed (commands.take i)) := by
  unfold replayed
  rw [List.take_add_one, h, List.foldl_append]
  rfl

/-- The entry behind what is applied carries the next command of the list. -/
theorem Follows.next (h : Follows commands node) {entry : LogEntry}
    (hentry : node.log[node.hardState.lastApplied - snapshotIndex node.snapshot]? = some entry) :
    commands[node.hardState.lastApplied]? = some entry.command ∧
      (DurableKeyValueStateMachine.Call.apply entry).Valid := by
  obtain ⟨hindex, hterm⟩ := h.working.retained _ entry hentry
  have hmap := congrArg (fun l => l[node.hardState.lastApplied - snapshotIndex node.snapshot]?) h.log
  rw [List.getElem?_map, hentry, List.getElem?_drop, Nat.add_sub_cancel' h.working.snapshot_le] at hmap
  exact ⟨hmap.symm, by omega, hterm, h.working.valid entry (List.mem_of_getElem? hentry)⟩

theorem Follows.apply_outcome (h : Follows commands node) {entry : LogEntry}
    (hentry : node.log[node.hardState.lastApplied - snapshotIndex node.snapshot]? = some entry) :
    Outcome (fun _ machine => machine.Ready (replayed (commands.take (node.hardState.lastApplied + 1))) ∧
        Light (node.hardState.lastApplied + 2) machine)
      (fun machine => machine.AtLimit ∧ 2 ^ 19 ≤ node.hardState.lastApplied + 2)
      (durableStateMachine.apply entry node.machine) := by
  obtain ⟨hcommand, hcall⟩ := h.next hentry
  have hready := h.ready.perform hcall
  have hlight := h.ready.apply_light h.light hcall
  show Outcome _ _ (DurableKeyValueStateMachine.apply entry node.machine)
  change Outcome _ _ (DurableKeyValueStateMachine.apply entry node.machine) at hready
  rcases hrun : DurableKeyValueStateMachine.apply entry node.machine with ⟨result, machine⟩
  rw [hrun] at hready hlight
  cases result with
  | ok u => exact ⟨by rw [replayed_take_succ hcommand]; exact Or.inl hready, hlight⟩
  | error e => exact ⟨hready, hlight.of_atLimit hready⟩

/-- **One round** of the loop in `apply_committed_locked`. -/
theorem Follows.applyNext (h : Follows commands node) (hun : hasUnapplied node = true) :
    Outcome (fun _ s => Follows commands s ∧ SameBase node s ∧
        s.hardState.lastApplied = node.hardState.lastApplied + 1)
      (LimitReached commands) (RaftNode.applyNext durableStateMachine node) := by
  have hlt : node.hardState.lastApplied < node.hardState.commitIndex := by
    simpa [hasUnapplied] using hun
  have hcommit := h.commit_le
  have hsnapshot := h.working.snapshot_le
  have hlast := h.last
  refine ((applyNext_spec durableStateMachine node).mono (fun _ s hs => ?_) fun e s hs => ?_).outcome
    fun _ _ hlimit => hlimit
  · rcases hs with ⟨hbefore, -⟩ | ⟨-, entry, machine, hentry, hrun, rfl⟩
    · omega
    obtain ⟨hready, hlight⟩ := (h.apply_outcome hentry).of_ok (congrArg Prod.fst hrun)
    rw [hrun] at hready hlight
    exact ⟨⟨h.working.advanced hlt machine, hready, h.log, h.last, hlight⟩, ⟨rfl, rfl, rfl⟩, rfl⟩
  · obtain ⟨-, ⟨hnone, -⟩ | ⟨entry, machine, hentry, hrun, rfl⟩⟩ := hs
    · have hout := List.getElem?_eq_none_iff.mp hnone
      omega
    obtain ⟨hatLimit, hmany⟩ := (h.apply_outcome hentry).of_throw hrun
    exact ⟨hatLimit, hmany.trans (by omega)⟩

/-- **The loop.** -/
theorem Follows.applyAll (h : Follows commands node) :
    Outcome (fun _ s => Follows commands s ∧ SameBase node s ∧
        s.hardState.lastApplied = node.hardState.commitIndex)
      (LimitReached commands)
      (repeatWhile hasUnapplied (RaftNode.applyNext durableStateMachine)
        (node.hardState.commitIndex - node.hardState.lastApplied) node) := by
  have hrounds : Outcome (fun _ s => (Follows commands s ∧ SameBase node s) ∧ hasUnapplied s = false)
      (LimitReached commands)
      (repeatWhile hasUnapplied (RaftNode.applyNext durableStateMachine)
        (node.hardState.commitIndex - node.hardState.lastApplied) node) := by
    refine Holds.repeatWhile (μ := fun s => node.hardState.commitIndex - s.hardState.lastApplied) ?_ ?_
      _ node ⟨⟨h, rfl, rfl, rfl⟩, le_rfl⟩
    · rintro s ⟨-, hsame⟩ hun
      have hlt : s.hardState.lastApplied < s.hardState.commitIndex := by simpa [hasUnapplied] using hun
      have := hsame.commit
      omega
    · rintro s ⟨hs, hsame⟩ hun
      have hlt : s.hardState.lastApplied < s.hardState.commitIndex := by simpa [hasUnapplied] using hun
      have hcommit := hsame.commit
      refine (hs.applyNext hun).mono ?_ fun _ hlimit => hlimit
      rintro _ s' ⟨hs', hsame', happlied⟩
      exact ⟨⟨hs', hsame'.commit.trans hcommit, hsame'.snapshot.trans hsame.snapshot,
        hsame'.options.trans hsame.options⟩, by omega⟩
  refine hrounds.mono ?_ fun _ hlimit => hlimit
  rintro _ s ⟨⟨hs, hsame⟩, hdone⟩
  have hle := hs.working.applied_le
  have hge : ¬ s.hardState.lastApplied < s.hardState.commitIndex := by simpa [hasUnapplied] using hdone
  have := hsame.commit
  exact ⟨hs, hsame, by omega⟩

theorem Follows.snapshotted (h : Follows commands node) (term : Nat) (payload : Bytes) :
    Follows commands (node.snapshotted term payload) := by
  have hsnapshot := h.working.snapshot_le
  have happlied := h.working.applied_le
  have hcommit := h.commit_le
  have hlast := h.last
  have hlog := eraseThrough_eq h.working.retained hsnapshot
  refine ⟨h.working.snapshotted term payload, h.ready, ?_, ?_, h.light⟩
  · show (eraseThrough node.hardState.lastApplied node.log).map LogEntry.command =
      commands.drop node.hardState.lastApplied
    rw [hlog, List.map_drop, h.log, List.drop_drop, Nat.add_sub_cancel' hsnapshot]
  · show node.hardState.lastApplied + (eraseThrough node.hardState.lastApplied node.log).length = _
    rw [hlog, List.length_drop]
    omega

/-- What stops a node: a limit of the store, or a snapshot that is due and too large. -/
def Stopped (commands : List Command) (error : Error)
    (node : RaftNode DurableKeyValueStateMachine) : Prop :=
  LimitReached commands node ∨
    node.SnapshotDue ∧ uint32Max < encodedSize node.machine.values ∧
      error = .lengthError "encoded string is too large"

/-- The node keeps up: what is committed is applied, and no snapshot is overdue. -/
structure UpToDate (commands : List Command) (node : RaftNode DurableKeyValueStateMachine) : Prop where
  follows : Follows commands node
  applied : node.hardState.lastApplied = node.hardState.commitIndex
  saved : ¬ node.SnapshotDue

theorem snapshotted_not_due (term : Nat) (payload : Bytes) :
    ¬ (node.snapshotted term payload).SnapshotDue := fun hdue => hdue.ne rfl

/-- A snapshot that is due is made exactly if the map fits behind a 32-bit length. -/
theorem Follows.maybeCreateSnapshot (h : Follows commands node)
    (happlied : node.hardState.lastApplied = node.hardState.commitIndex) :
    Ends (fun _ s => (UpToDate commands s ∧ s.hardState = node.hardState) ∧
        ¬ (node.SnapshotDue ∧ uint32Max < encodedSize node.machine.values)) (Stopped commands)
      (RaftNode.maybeCreateSnapshot durableStateMachine node) := by
  obtain ⟨payload, hpayload, -⟩ := h.ready.createSnapshot
  have hcreate : durableStateMachine.createSnapshot node.machine = .ok payload := hpayload
  have hsize : payload.length = encodedSize node.machine.values := length_of_encodeMap hpayload
  refine (maybeCreateSnapshot_spec durableStateMachine node).mono (fun _ s hs => ?_) fun e s hs => ?_
  · rcases hs with ⟨hidle, rfl⟩ | ⟨term, made, hmade, rfl⟩
    · exact ⟨⟨⟨h, happlied, hidle⟩, rfl⟩, fun hlarge => hidle hlarge.1⟩
    · obtain rfl := Except.ok.inj (hcreate.symm.trans hmade.payload_eq)
      exact ⟨⟨⟨h.snapshotted term payload, happlied, snapshotted_not_due term payload⟩, rfl⟩,
        fun hlarge => absurd hmade.fits (not_le.mpr (hsize ▸ hlarge.2))⟩
  · obtain ⟨⟨hdue, hnone | herror | ⟨made, hmade, hlarge, rfl⟩⟩, rfl⟩ := hs
    · exact absurd hnone (h.working.termAt_applied hdue.2.1)
    · cases hcreate.symm.trans herror
    · obtain rfl := Except.ok.inj (hcreate.symm.trans hmade)
      exact Or.inr ⟨hdue, hsize ▸ hlarge, rfl⟩

theorem UpToDate.persistHardState (h : UpToDate commands node) :
    UpToDate commands node.persistHardState :=
  ⟨⟨h.follows.working.persistHardState.toWorking, h.follows.ready, h.follows.log, h.follows.last,
    h.follows.light⟩, h.applied, h.saved⟩

/-- A snapshot falls due once so much is applied. -/
def DueAt (node : RaftNode DurableKeyValueStateMachine) (index : Nat) : Prop :=
  SnapshotDue { node with hardState := { node.hardState with lastApplied := index } }

theorem Follows.raiseCommit (h : Follows commands node) {index : Nat}
    (hge : node.hardState.commitIndex ≤ index) (hle : index ≤ node.lastLogIndex) :
    Follows commands { node with hardState := { node.hardState with commitIndex := index } } :=
  ⟨⟨h.working.retained, h.working.valid, h.working.snapshot_le, h.working.applied_le.trans hge, hle,
    h.working.diskSnapshot, h.working.diskLog⟩, h.ready, h.log, h.last, h.light⟩

/-- **A commit.** -/
theorem Follows.commitTo (h : Follows commands node) {index : Nat}
    (hge : node.hardState.commitIndex ≤ index) (hle : index ≤ node.lastLogIndex) :
    Ends (fun _ s => UpToDate commands s ∧ s.hardState.commitIndex = index ∧
        (node.DueAt index → encodedSize (replayed (commands.take index)) ≤ uint32Max))
      (Stopped commands) (RaftNode.commitTo durableStateMachine index node) := by
  unfold RaftNode.commitTo applyCommitted
  rw [update_bind_apply]
  refine Ends.bind (M := fun _ s => UpToDate commands s ∧ s.hardState.commitIndex = index ∧
      (node.DueAt index → encodedSize (replayed (commands.take index)) ≤ uint32Max)) ?_
    fun _ s hs => ⟨hs.1.persistHardState, hs.2⟩
  rw [read_bind_apply]
  refine Ends.bind ((h.raiseCommit hge hle).applyAll.ends_of fun _ _ hlimit => Or.inl hlimit) ?_
  rintro _ s ⟨hfollows, hsame, happlied⟩
  have hcommit : s.hardState.commitIndex = index := hsame.commit
  refine (hfollows.maybeCreateSnapshot (happlied.trans hsame.commit.symm)).mono ?_
    fun _ _ hstop => hstop
  rintro _ s' ⟨⟨hs', hstate⟩, hsmall⟩
  refine ⟨hs', hstate ▸ hcommit, fun hfalls => not_lt.mp fun hlarge => hsmall ⟨?_, ?_⟩⟩
  · unfold SnapshotDue
    rw [happlied, hsame.options, hsame.snapshot]
    exact hfalls
  · rw [hfollows.ready.values_eq, happlied]
    exact hlarge

/-! ## Whole runs -/

/-- All steps in turn, up to one that throws. -/
def performSteps (steps : List LogStep) : Locked DurableKeyValueStateMachine Unit :=
  Program.forEach LogStep.perform steps

/-- How many entries are committed, of how many, after one step more. -/
def LogStep.count (counts : Nat × Nat) : LogStep → Nat × Nat
  | .append _ _ => (counts.1, counts.2 + 1)
  | .commit count => (min (counts.1 + count) counts.2, counts.2)

theorem UpToDate.perform (h : UpToDate commands node) {step : LogStep} (hvalid : step.Valid) :
    Ends (fun _ s => UpToDate (commands ++ step.command?.toList) s ∧
        (s.hardState.commitIndex, (commands ++ step.command?.toList).length) =
          step.count (node.hardState.commitIndex, commands.length))
      (Stopped (commands ++ step.command?.toList)) (step.perform node) := by
  cases step with
  | append term command =>
    refine ⟨⟨h.follows.append hvalid.1 hvalid.2, h.applied, h.saved⟩, ?_⟩
    rw [List.length_append]
    rfl
  | commit count =>
    have hlast : node.lastLogIndex = commands.length := by
      rw [h.follows.working.retained.lastLogIndex_eq, h.follows.last]
    show Ends _ _ ((Program.read >>= fun _ => _) node)
    rw [read_bind_apply, show (LogStep.commit count).command?.toList = [] from rfl, List.append_nil]
    refine (h.follows.commitTo (le_min (Nat.le_add_right _ _) h.follows.working.commit_le)
      (min_le_right _ _)).mono ?_ fun _ _ hstop => hstop
    rintro _ s ⟨hs, hcommit, -⟩
    refine ⟨hs, ?_⟩
    rw [hcommit, hlast]
    rfl

theorem Stopped.append {error : Error} (h : Stopped commands error node) (more : List Command) :
    Stopped (commands ++ more) error node := by
  rcases h with ⟨hlimit, hcount⟩ | hlarge
  · exact Or.inl ⟨hlimit, by rw [List.length_append]; omega⟩
  · exact Or.inr hlarge

theorem appended_cons (step : LogStep) (rest : List LogStep) :
    appended (step :: rest) = step.command?.toList ++ appended rest := by
  unfold appended
  cases hcommand : step.command? with
  | none => rw [List.filterMap_cons_none hcommand]; rfl
  | some command => rw [List.filterMap_cons_some hcommand]; rfl

theorem UpToDate.performSteps (h : UpToDate commands node) {steps : List LogStep}
    (hvalid : ∀ step ∈ steps, step.Valid) :
    Ends (fun _ s => UpToDate (commands ++ appended steps) s ∧
        (s.hardState.commitIndex, (commands ++ appended steps).length) =
          steps.foldl LogStep.count (node.hardState.commitIndex, commands.length))
      (Stopped (commands ++ appended steps)) (RaftNode.performSteps steps node) := by
  induction steps generalizing commands node with
  | nil =>
    show UpToDate (commands ++ []) node ∧ _
    rw [show commands ++ appended [] = commands from List.append_nil _, List.append_nil]
    exact ⟨h, rfl⟩
  | cons step rest ih =>
    rw [appended_cons, ← List.append_assoc, List.foldl_cons]
    refine Ends.bind (Ends.mono (h.perform (hvalid step List.mem_cons_self)) (fun _ _ hs => hs)
      fun _ _ hstop => hstop.append _) ?_
    rintro _ s ⟨hs, hcounts⟩
    rw [← hcounts]
    exact ih hs (List.forall_mem_cons.mp hvalid).2

/-- A node over an empty directory. -/
def freshNode (options : RaftNodeOptions) (machine : DurableKeyValueStateMachine) :
    RaftNode DurableKeyValueStateMachine :=
  (construct durableStateMachine options {} machine).2

theorem construct_empty {options : RaftNodeOptions} (hoptions : validateOptions options = .ok ())
    {machine : DurableKeyValueStateMachine} (husable : machine.options.Usable) :
    (construct durableStateMachine options {} machine).1 = .ok () ∧
      UpToDate [] (freshNode options machine) ∧ (freshNode options machine).snapshot = none ∧
      (freshNode options machine).hardState.commitIndex = 0 ∧
      (freshNode options machine).options = options := by
  obtain ⟨m, hrun, hready, hlight⟩ := DurableKeyValueStateMachine.recover_nothing husable
  -- the constructor only hands the empty state to the machine
  have hconstruct : construct durableStateMachine options {} machine =
      (callMachine (DurableKeyValueStateMachine.recover none []) >>= fun _ =>
        Program.update fun node =>
          persistHardState
            { node with
              hardState := { node.hardState with lastApplied := node.hardState.commitIndex } })
        (loaded options {} machine) := by
    have hloaded : validateOptions (loaded options {} machine).options = .ok () := hoptions
    unfold construct constructBody
    rw [read_bind_apply, hloaded, check_ok_bind]
    rfl
  have hmachine : (loaded options {} machine).machine = machine := rfl
  unfold freshNode
  rw [hconstruct, bind_apply]
  unfold callMachine
  rw [hmachine, hrun]
  exact ⟨rfl, ⟨⟨⟨retained_nil 0, fun _ he => (by cases he), le_rfl, le_rfl, le_rfl, rfl,
    fun _ he => (by cases he)⟩, hready, rfl, rfl, hlight⟩, rfl, fun hdue => hdue.2.1 rfl⟩, rfl, rfl, rfl⟩

/-- **Applying completes** but for two things. Take any node over an empty directory, any threshold, and
any valid commands, appended and committed in any portions. All that is committed is applied, and a
snapshot is taken whenever one is due, unless the store is at a limit, for which it takes 2^19 commands,
or a snapshot falls due over a map of more than 2^32-1 bytes: that is a `length_error`. -/
theorem applying_completes {options : RaftNodeOptions} (hoptions : validateOptions options = .ok ())
    {machine : DurableKeyValueStateMachine} (husable : machine.options.Usable) {steps : List LogStep}
    (hvalid : ∀ step ∈ steps, step.Valid) :
    Ends
      (fun _ node => node.hardState.commitIndex = (steps.foldl LogStep.count (0, 0)).1 ∧
        node.hardState.lastApplied = node.hardState.commitIndex ∧
        node.machine.values = replayed ((appended steps).take node.hardState.lastApplied) ∧
        ¬ node.SnapshotDue)
      (fun error node => node.machine.AtLimit ∧ 2 ^ 19 ≤ (appended steps).length + 1 ∨
        node.SnapshotDue ∧ uint32Max < encodedSize node.machine.values ∧
          error = .lengthError "encoded string is too large")
      (performSteps steps (freshNode options machine)) := by
  obtain ⟨-, hfresh, -, hcommit, -⟩ := construct_empty hoptions husable
  have hrun := hfresh.performSteps hvalid
  rw [List.nil_append, hcommit] at hrun
  refine hrun.mono ?_ fun _ _ hstop => hstop
  rintro _ node ⟨hnode, hcounts⟩
  exact ⟨congrArg Prod.fst hcounts, hnode.applied, hnode.follows.ready.values_eq, hnode.saved⟩

/-- A node of its own with the default options. -/
def soleOptions : RaftNodeOptions := { nodeId := [1], peers := [] }

/-- A put and a delete, committed one by one. -/
def shortLog : List LogStep :=
  [.append 1 ⟨.Put, [1], [7]⟩, .commit 1, .append 1 ⟨.Delete, [1], []⟩, .commit 1]

theorem shortLog_valid : ∀ step ∈ shortLog, step.Valid := by
  intro step hstep
  simp only [shortLog, List.mem_cons, List.not_mem_nil, or_false] at hstep
  rcases hstep with rfl | rfl | rfl | rfl
  · exact ⟨by decide, show ValidKey [1] ∧ ValidValue [7] by decide⟩
  · trivial
  · exact ⟨by decide, show ValidKey [1] by decide⟩
  · trivial

/-- With a snapshot after every entry. -/
theorem applying_completes_short :
    (performSteps shortLog (freshNode { soleOptions with snapshotThresholdEntries := 1 }
      DurableKeyValueStateMachine.plainMachine)).1 = .ok () ∧
    (performSteps shortLog (freshNode { soleOptions with snapshotThresholdEntries := 1 }
      DurableKeyValueStateMachine.plainMachine)).2.hardState.lastApplied = 2 := by
  have hoptions : validateOptions { soleOptions with snapshotThresholdEntries := 1 } = .ok () := rfl
  have hrun : (performSteps shortLog (freshNode { soleOptions with snapshotThresholdEntries := 1 }
      DurableKeyValueStateMachine.plainMachine)).1 = .ok () := by decide +kernel
  -- over any machine, so that the run is not evaluated here
  have hdone : ∀ machine : DurableKeyValueStateMachine, machine.options.Usable →
      (performSteps shortLog (freshNode { soleOptions with snapshotThresholdEntries := 1 }
        machine)).1 = .ok () →
      (performSteps shortLog (freshNode { soleOptions with snapshotThresholdEntries := 1 }
        machine)).2.hardState.lastApplied = 2 := by
    intro machine husable hok
    have hends := applying_completes hoptions husable shortLog_valid
    rcases hresult : performSteps shortLog (freshNode { soleOptions with snapshotThresholdEntries := 1 }
      machine) with ⟨result, node⟩
    rw [hresult] at hends hok
    obtain rfl : result = .ok () := hok
    obtain ⟨hcommit, happlied, -⟩ := hends
    rw [happlied, hcommit]
    rfl
  exact ⟨hrun, hdone _ DurableKeyValueStateMachine.plainMachine_usable hrun⟩

/-! ## A state that blocks the node -/

/-- A commit whose snapshot is due over too large a map. -/
theorem Follows.commitTo_large (h : Follows commands node) {index : Nat}
    (hge : node.hardState.commitIndex ≤ index) (hle : index ≤ node.lastLogIndex)
    (hfew : commands.length + 1 < 2 ^ 19) (hfalls : node.DueAt index)
    (hlarge : uint32Max < encodedSize (replayed (commands.take index))) :
    (RaftNode.commitTo durableStateMachine index node).1 =
      .error (.lengthError "encoded string is too large") := by
  have hends := h.commitTo hge hle
  rcases hrun : RaftNode.commitTo durableStateMachine index node with ⟨result, s⟩
  rw [hrun] at hends
  cases result with
  | ok _ => exact absurd (hends.2.2 hfalls) (not_le.mpr hlarge)
  | error e =>
    rcases hends with ⟨-, hmany⟩ | ⟨-, -, rfl⟩
    · omega
    · rfl

/-- The largest value there may be. -/
def largeValue : Bytes := List.replicate kMaxValueSize 0

theorem length_largeValue : largeValue.length = kMaxValueSize := List.length_replicate

def largePut (n : Nat) : Command := ⟨.Put, Codec.leBytes 4 n, largeValue⟩

theorem largePut_valid (n : Nat) : (largePut n).Valid := by
  refine ⟨⟨?_, ?_⟩, length_largeValue.le⟩
  · exact List.ne_nil_of_length_pos (by rw [largePut, Codec.length_leBytes]; decide)
  · rw [largePut, Codec.length_leBytes]
    decide

def largePuts (n : Nat) : List Command := (List.range n).map largePut

theorem largePuts_succ (n : Nat) : largePuts (n + 1) = largePuts n ++ [largePut n] := by
  unfold largePuts
  rw [List.range_succ, List.map_append]
  rfl

theorem length_largePuts (n : Nat) : (largePuts n).length = n := by
  rw [largePuts, List.length_map, List.length_range]

/-- As many keys as puts, each with the large value. -/
theorem replayed_largePuts {n : Nat} (hn : n ≤ 256 ^ 4) :
    (replayed (largePuts n)).size = n ∧
      ∀ pair ∈ (replayed (largePuts n)).entries,
        Codec.leValue pair.1 < n ∧ pair.2 = largeValue := by
  induction n with
  | zero => exact ⟨rfl, fun _ hpair => by cases hpair⟩
  | succ n ih =>
    obtain ⟨hsize, hentries⟩ := ih (by omega)
    have hkey : Codec.leValue (Codec.leBytes 4 n) = n := Codec.leValue_leBytes_of_lt (by omega)
    have hstep : replayed (largePuts (n + 1)) =
        (replayed (largePuts n)).insert (Codec.leBytes 4 n) largeValue := by
      rw [largePuts_succ]
      exact List.foldl_append
    have hfresh : (replayed (largePuts n)).find? (Codec.leBytes 4 n) = none := by
      cases hfind : (replayed (largePuts n)).find? (Codec.leBytes 4 n) with
      | none => rfl
      | some value =>
        have := (hentries _ (OrderedMap.find?_eq_some_iff.mp hfind)).1
        rw [hkey] at this
        exact absurd this (lt_irrefl n)
    rw [hstep]
    refine ⟨?_, fun pair hpair => ?_⟩
    · rw [OrderedMap.size_insert, hfresh, hsize]
      rfl
    · rcases OrderedMap.mem_insert hpair with rfl | hpair
      · exact ⟨hkey.trans_lt (Nat.lt_succ_self n), rfl⟩
      · obtain ⟨hlt, hvalue⟩ := hentries pair hpair
        exact ⟨hlt.trans (Nat.lt_succ_self n), hvalue⟩

theorem encodedSize_largePuts {n : Nat} (hn : n ≤ 256 ^ 4) :
    n * kMaxValueSize ≤ encodedSize (replayed (largePuts n)) := by
  obtain ⟨hsize, hentries⟩ := replayed_largePuts hn
  have hsum := List.card_nsmul_le_sum
    ((replayed (largePuts n)).entries.map fun pair => 8 + pair.1.length + pair.2.length) kMaxValueSize
    fun size hmem => by
      obtain ⟨pair, hpair, rfl⟩ := List.mem_map.mp hmem
      rw [(hentries pair hpair).2, length_largeValue]
      exact Nat.le_add_left _ _
  rw [List.length_map, Nat.nsmul_eq_mul, show (replayed (largePuts n)).entries.length = n from hsize] at hsum
  exact hsum.trans (Nat.le_add_left _ _)

def largeAppends (n : Nat) : List LogStep := (List.range n).map fun i => .append 1 (largePut i)

theorem largeAppends_succ (n : Nat) : largeAppends (n + 1) = largeAppends n ++ [.append 1 (largePut n)] := by
  unfold largeAppends
  rw [List.range_succ, List.map_append]
  rfl

/-- Appending never throws. -/
theorem UpToDate.largeAppends (h : UpToDate [] node) (n : Nat) :
    ∃ node', RaftNode.performSteps (largeAppends n) node = (.ok (), node') ∧
      UpToDate (largePuts n) node' ∧ SameBase node node' := by
  induction n with
  | zero => exact ⟨node, rfl, h, rfl, rfl, rfl⟩
  | succ n ih =>
    obtain ⟨node', hrun, hup, hsame⟩ := ih
    refine ⟨persistLog
      { node' with log := node'.log ++ [⟨node'.lastLogIndex + 1, 1, largePut n⟩] }, ?_, ?_,
      hsame.commit, hsame.snapshot, hsame.options⟩
    · rw [RaftNode.largeAppends_succ]
      exact Program.forEach_append_one hrun _
    · rw [largePuts_succ]
      exact ⟨hup.follows.append Nat.one_ne_zero (largePut_valid n), hup.applied, hup.saved⟩

/-- **A large state blocks the node.** With the default options, after ten thousand puts of one mebibyte
each to different keys the snapshot that is due cannot be saved, and applying throws. -/
theorem large_state_blocks :
    validateOptions soleOptions = .ok () ∧
      DurableKeyValueStateMachine.plainMachine.options.Usable ∧
      (∀ step ∈ largeAppends 10000 ++ [.commit 10000], step.Valid) ∧
      (performSteps (largeAppends 10000 ++ [.commit 10000])
        (freshNode soleOptions DurableKeyValueStateMachine.plainMachine)).1 =
          .error (.lengthError "encoded string is too large") := by
  have hoptions : validateOptions soleOptions = .ok () := rfl
  have husable := DurableKeyValueStateMachine.plainMachine_usable
  refine ⟨hoptions, husable, fun step hstep => ?_, ?_⟩
  · rcases List.mem_append.mp hstep with hstep | hstep
    · obtain ⟨i, -, rfl⟩ := List.mem_map.mp hstep
      exact ⟨Nat.one_ne_zero, largePut_valid i⟩
    · obtain rfl := List.mem_singleton.mp hstep
      trivial
  · obtain ⟨-, hfresh, hsnapshot, hcommit, hdefaults⟩ := construct_empty hoptions husable
    obtain ⟨node, hrun, hup, hsame⟩ := hfresh.largeAppends 10000
    have hlast : node.lastLogIndex = 10000 := by
      rw [hup.follows.working.retained.lastLogIndex_eq, hup.follows.last, length_largePuts]
    have hzero : node.hardState.commitIndex = 0 := hsame.commit.trans hcommit
    have hthreshold : node.options.snapshotThresholdEntries = 10000 := by
      rw [hsame.options, hdefaults]
      rfl
    have hstep : performSteps (largeAppends 10000 ++ [.commit 10000])
        (freshNode soleOptions DurableKeyValueStateMachine.plainMachine) =
        commitTo durableStateMachine 10000 node := by
      refine (Program.forEach_append_one hrun _).trans ?_
      show commitTo durableStateMachine (min (node.hardState.commitIndex + 10000) node.lastLogIndex) node = _
      rw [hzero, hlast]
      rfl
    have hlarge := encodedSize_largePuts (n := 10000) (by decide)
    rw [hstep]
    refine hup.follows.commitTo_large (by rw [hzero]; exact Nat.zero_le _) hlast.ge ?_ ?_ ?_
    · rw [length_largePuts]
      decide
    · unfold DueAt SnapshotDue
      dsimp only
      rw [hthreshold, hsame.snapshot, hsnapshot]
      decide
    · rw [List.take_of_length_le (length_largePuts 10000).le]
      exact lt_of_lt_of_le (by decide) hlarge

end RaftNode

end NebulaKV.Raft
