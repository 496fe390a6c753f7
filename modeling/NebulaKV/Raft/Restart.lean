/-
# What a restart finds

Between two stretches of locked code the storage holds the members (`runAll_synced`), so a crash there
loses nothing. Whether a node can be made of the files again is another question. The constructor checks
the log, compares the commit index with it, and hands the snapshot and the committed entries to the state
machine.

Of that, the log and the snapshot are always in order (`Restorable`): every path that changes one of them
checks what it takes or throws. The commit index is not. `handle_append_entries` cuts off entries that
contradict the request, committed or not, and leaves `commit_index` where it was; then the log may end
before it, or hold entries under it that the state machine has never seen and does not take.
-/
import NebulaKV.Raft.IndexInvariant
import NebulaKV.Raft.Persistence

namespace NebulaKV.Raft.RaftNode

open Containers Effects Program Serialization
open DurableKeyValueStateMachine (Accepted effects restored ValidValues validValues_empty restored_valid
  restoreMap_snapshot)

/-! ## The state machine -/

theorem applyCommands_outcome (entries : List LogEntry) {values : Values} (h : ValidValues values) :
    Outcome (fun _ s => (∀ entry ∈ entries, entry.command.Valid) ∧ ValidValues s)
      (fun _ => ¬ ∀ entry ∈ entries, entry.command.Valid) (applyCommands entries values) := by
  induction entries generalizing values with
  | nil => exact ⟨fun _ he => (by cases he), h⟩
  | cons entry rest ih =>
    have hfirst := applyCommand_outcome entry.command values
    rw [applyCommands, Program.bind_apply]
    rcases hrun : applyCommand entry.command values with ⟨result, next⟩
    rw [hrun] at hfirst
    cases result with
    | error e => exact fun hall => hfirst.1 (hall entry List.mem_cons_self)
    | ok _ =>
      obtain ⟨hvalid, rfl⟩ := hfirst
      exact (ih (h.effect hvalid)).mono
        (fun _ _ hs => ⟨List.forall_mem_cons.mpr ⟨hvalid, hs.1⟩, hs.2⟩)
        fun _ hbad hall => hbad (List.forall_mem_cons.mp hall).2

/-- What the machine can recover from. -/
def Recoverable (snapshot : Option Snapshot) (entries : List LogEntry) : Prop :=
  (∀ s, snapshot = some s → Accepted s.payload) ∧ ∀ entry ∈ entries, entry.command.Valid

theorem recover_outcome (snapshot : Option Snapshot) (entries : List LogEntry) (values : Values) :
    Outcome (fun _ s => Recoverable snapshot entries ∧ ValidValues s)
      (fun _ => ¬ Recoverable snapshot entries)
      (keyValueStateMachine.recover snapshot entries values) := by
  cases snapshot with
  | none =>
    refine (applyCommands_outcome entries validValues_empty).mono (fun _ _ hs => ⟨⟨?_, hs.1⟩, hs.2⟩)
      fun _ hbad hgood => hbad hgood.2
    intro s hs
    cases hs
  | some snapshot =>
    show Outcome _ _ ((restoreMap snapshot.payload >>= fun _ => applyCommands entries)
      OrderedMap.empty)
    rw [Program.bind_apply]
    rcases hrun : restoreMap snapshot.payload OrderedMap.empty with ⟨result, map⟩
    have hresult : (restoreMap snapshot.payload OrderedMap.empty).1 = result := by rw [hrun]
    cases result with
    | error e =>
      intro hgood
      have haccepted : (restoreMap snapshot.payload OrderedMap.empty).1 = .ok () :=
        hgood.1 snapshot rfl
      rw [hresult] at haccepted
      cases haccepted
    | ok _ =>
      have haccepted : Accepted snapshot.payload := hresult
      have hmap : restored snapshot.payload = map := by
        unfold restored
        rw [hrun]
      refine (applyCommands_outcome entries (hmap ▸ restored_valid haccepted)).mono
        (fun _ _ hs => ⟨⟨?_, hs.1⟩, hs.2⟩) fun _ hbad hgood => hbad hgood.2
      intro s hs
      obtain rfl := Option.some.inj hs
      exact haccepted

/-! ## What every stretch keeps -/

/-- The log follows the snapshot, the snapshot can be read, and the map can be saved. -/
structure Restorable (node : RaftNode Values) : Prop where
  retained : Retained (snapshotIndex node.snapshot) node.log
  values : ValidValues node.machine
  accepted : ∀ s, node.snapshot = some s → Accepted s.payload

variable {node : RaftNode Values}

theorem Untouched.restorable {node' : RaftNode Values} (hsame : Untouched node node')
    (h : Restorable node) : Restorable node' := by
  refine ⟨?_, ?_, ?_⟩
  · rw [hsame.log, hsame.snapshot]
    exact h.retained
  · rw [hsame.machine]
    exact h.values
  · rw [hsame.snapshot]
    exact h.accepted

/-- The log behind an index that it reaches. -/
theorem Restorable.eraseThrough (h : Restorable node) {index : Nat}
    (hreach : snapshotIndex node.snapshot ≤ index) :
    Retained index (eraseThrough index node.log) := by
  rw [eraseThrough_eq h.retained hreach]
  have hdrop := h.retained.drop (index - snapshotIndex node.snapshot)
  rwa [Nat.add_sub_cancel' hreach] at hdrop

/-- What the machine saves, it can read. -/
theorem Restorable.snapshotted (h : Restorable node) {term : Nat} {payload : Bytes}
    (hmade : Snapshots keyValueStateMachine node term payload) :
    Restorable (node.snapshotted term payload) := by
  have hencode : encodeMap node.machine = .ok payload := hmade.payload_eq
  have hreach : snapshotIndex node.snapshot ≤ node.hardState.lastApplied := by
    by_contra hbefore
    have hnone := (h.retained.termAt_eq_none_iff hmade.due.2.1).mpr (Or.inl (not_le.mp hbefore))
    cases hnone.symm.trans hmade.term_eq
  -- a payload that fits counts fewer pairs than it has bytes
  have hsize : node.machine.size < u64 := by
    have hlength := length_le_encodedPairs node.machine.entries
    have hpayload := congrArg List.length (encodeEntries_eq hencode).1
    rw [List.length_append] at hpayload
    show node.machine.entries.length < u64
    have hmax : uint32Max < u64 := by decide
    have hfits := hmade.fits
    omega
  obtain ⟨payload', hencode', haccepted, -⟩ := restoreMap_snapshot h.values hsize
  obtain rfl := Except.ok.inj (hencode.symm.trans hencode')
  refine ⟨h.eraseThrough hreach, h.values, fun snapshot hs => ?_⟩
  obtain rfl := Option.some.inj hs
  exact haccepted

theorem validValues_effects {values : Values} (h : ValidValues values) {entries : List LogEntry}
    (hvalid : ∀ entry ∈ entries, entry.command.Valid) : ValidValues (effects entries values) := by
  induction entries generalizing values with
  | nil => exact h
  | cons entry rest ih =>
    obtain ⟨hfirst, hrest⟩ := List.forall_mem_cons.mp hvalid
    exact ih (h.effect hfirst) hrest

theorem Restorable.commitTo (h : Restorable node) {index : Nat} (hle : index ≤ node.lastLogIndex) :
    Ends (fun _ => Restorable) (fun _ _ => True) (commitTo keyValueStateMachine index node) := by
  refine (commitTo_ends h.retained hle rfl).mono (fun _ s hs => ?_) fun _ _ _ => trivial
  obtain ⟨hnot, journal, hend⟩ := hs
  set raised : RaftNode Values := { node with hardState := { node.hardState with commitIndex := index } }
  have hcaught : Restorable { raised.caughtUp with journal := journal } :=
    ⟨h.retained, validValues_effects h.values fun entry hmem =>
      not_not.mp fun hbad => hnot (Or.inl ⟨entry, hmem, hbad⟩),
      h.accepted⟩
  rcases hend with rfl | ⟨term, payload, hmade, rfl⟩
  · exact { hcaught with }
  · exact { hcaught.snapshotted hmade with }

theorem upheld_restorable : Upheld keyValueStateMachine (fun _ => True) Restorable (fun _ _ => True) where
  untouched := Untouched.restorable
  denied _ := trivial
  noop := trivial
  append h hterm _ := ⟨h.retained.concat (by rw [h.retained.lastLogIndex_eq]) hterm, h.values, h.accepted⟩
  commit h hpoint := h.commitTo (hpoint.le h.retained)
  threshold h := { h with }
  snapshotted h hmade := h.snapshotted hmade
  snapshotFails _ _ := trivial

theorem Restorable.acceptEntries (h : Restorable node) {request : AppendEntriesRequest}
    (hprevious : request.previousLogIndex ≤ node.lastLogIndex) :
    Ends (fun _ => Restorable) (fun _ _ => True) (acceptEntries keyValueStateMachine request node) := by
  have hcommit : ∀ {n : RaftNode Values}, Restorable n →
      Ends (fun _ => Restorable) (fun _ _ => True) (acceptCommit keyValueStateMachine request n) :=
    fun {n} hn => (acceptCommit_ends keyValueStateMachine n (fun _ => hn) fun _ =>
      hn.commitTo (min_le_right _ _)).mono (fun _ _ hs => hs.2.2.2) fun _ _ _ => trivial
  rcases acceptEntries_cases keyValueStateMachine h.retained hprevious with
    ⟨-, ⟨-, heq⟩ | ⟨-, heq⟩⟩ | ⟨incoming, rest, -, hnew, -, hle, heq⟩
  · rw [heq]
    exact h
  · rw [heq]
    exact hcommit h
  · rw [heq]
    split_ifs
    · exact hcommit ⟨h.retained.mergedFrom rest hnew hle, h.values, h.accepted⟩
    · trivial

/-- What the machine refuses makes the call throw. -/
theorem Restorable.installAccepted (h : Restorable node) {request : InstallSnapshotRequest}
    (hreach : snapshotIndex node.snapshot ≤ request.lastIncludedIndex) :
    Ends (fun _ => Restorable) (fun _ _ => True) (installAccepted keyValueStateMachine request node) := by
  refine (installAccepted_spec keyValueStateMachine node request).mono (fun _ s hs => ?_) fun _ _ _ => trivial
  obtain ⟨-, -, machine, hinstall, -, rfl⟩ := hs
  have haccepted : Accepted request.payload := congrArg Prod.fst hinstall
  have hmachine : restored request.payload = machine := congrArg Prod.snd hinstall
  have hkept : Retained request.lastIncludedIndex (node.keepBehind request).log := by
    unfold keepBehind
    split_ifs
    · exact h.eraseThrough hreach
    · exact retained_nil _
  refine ⟨hkept, hmachine ▸ restored_valid haccepted, fun snapshot hs => ?_⟩
  obtain rfl := Option.some.inj hs
  exact haccepted

/-! ## The constructor -/

/-- The log reaches the commit index, and what it holds up to there is what the machine takes. -/
def Restartable (node : RaftNode Values) : Prop :=
  node.hardState.commitIndex ≤ node.lastLogIndex ∧
    ∀ entry ∈ node.log, entry.index ≤ node.hardState.commitIndex → entry.command.Valid

/-- Where the constructor returns, it could recover; where it throws with good options and a log in
order, it could not. -/
theorem construct_restorable (options : RaftNodeOptions) (disk : PersistentState) (machine : Values)
    (hterms : ∀ e ∈ disk.log, e.term ≠ 0) :
    Ends (fun _ node => Restorable node ∧ (loaded options disk machine).Restartable)
      (fun _ _ => validateOptions options = .ok () → Restorable (loaded options disk machine) →
        ¬ (loaded options disk machine).Restartable)
      (construct keyValueStateMachine options disk machine) := by
  have hentries : ∀ entry, entry ∈ committedEntries disk ↔
      entry ∈ disk.log ∧ entry.index ≤ committedIn disk := fun entry => by
    rw [committedEntries, List.mem_filter, decide_eq_true_iff]
  have hrecover := recover_outcome disk.snapshot (committedEntries disk) machine
  refine (construct_spec keyValueStateMachine options disk machine).mono (fun _ s hs => ?_)
    fun e s hs hoptions hrestorable => ?_
  · obtain ⟨-, hcheck, hle, machine', hrun, rfl⟩ := hs
    rw [hrun] at hrecover
    obtain ⟨⟨haccepted, hvalid⟩, hvalues⟩ := hrecover
    refine ⟨⟨retained_of_checkLog hcheck hterms, hvalues, haccepted⟩, (le_max_left _ _).trans hle,
      fun entry hmem hcommitted => ?_⟩
    exact hvalid entry ((hentries entry).mpr ⟨hmem, le_max_of_le_left hcommitted⟩)
  · rintro ⟨hcommit, hvalid⟩
    rcases hs with herror | herror | ⟨hover, -⟩ | ⟨machine', hrun⟩
    · cases herror.symm.trans hoptions
    · cases herror.symm.trans (checkLog_of_retained hrestorable.retained)
    · have hlast := hrestorable.retained.lastLogIndex_eq
      have hmost : committedIn disk ≤ (loaded options disk machine).lastLogIndex :=
        max_le hcommit (hlast ▸ Nat.le_add_right _ _)
      exact absurd hmost (not_le.mpr hover)
    · -- no entry of the log lies between the commit index and the snapshot's
      rw [hrun] at hrecover
      refine hrecover ⟨hrestorable.accepted, fun entry hentry => ?_⟩
      obtain ⟨hmem, hle⟩ := (hentries entry).mp hentry
      have habove := (hrestorable.retained.index_of_mem hmem).2.1
      rcases le_max_iff.mp hle with hcommitted | hcovered
      · exact hvalid entry hmem hcommitted
      · exact absurd hcovered (not_le.mpr habove)

/-! ## Whole sequences -/

/-- What is on disk is what the node holds, so no term is zero. -/
theorem Restorable.disk_terms (h : Restorable node) (hsynced : Synced node) :
    ∀ e ∈ node.disk.log, e.term ≠ 0 := fun e he => by
  rw [hsynced.logsSaved.1] at he
  obtain ⟨i, hi⟩ := List.mem_iff_getElem?.mp he
  exact (h.retained i e hi).2

theorem Stretch.run_keeps (hsynced : Synced node) (h : Restorable node) (stretch : Stretch) :
    Ends (fun _ => Restorable) (fun _ _ => True) (stretch.run keyValueStateMachine node) := by
  have hupheld := upheld_restorable
  refine hupheld.run h (fun request _ => ?_) (fun request _ => ?_) (fun _ _ => trivial) fun options _ => ?_
  · refine hupheld.handleAppendEntries h fun hcontinues n hsame hn => hn.acceptEntries ?_
    rw [hsame.lastLogIndex]
    exact hcontinues.previous_le h.retained
  · refine hupheld.handleInstallSnapshot h fun hnew n hsame hn => hn.installAccepted ?_
    rw [hsame.snapshot]
    cases hs : node.snapshot with
    | none => exact Nat.zero_le _
    | some snapshot =>
      unfold HasSnapshot at hnew
      rw [hs] at hnew
      exact (not_le.mp fun hle => hnew ⟨rfl, hle⟩).le
  · exact (construct_restorable options node.disk node.machine (h.disk_terms hsynced)).mono
      (fun _ _ hs => hs.1) fun _ _ _ => trivial

/-- A run in which nothing throws. -/
theorem runAll_restorable {stretches : List Stretch} {node' : RaftNode Values}
    (hsynced : Synced node) (h : Restorable node)
    (hrun : runAll keyValueStateMachine stretches node = some node') : Restorable node' :=
  (runAll_keeps (I := fun n => Synced n ∧ Restorable n)
    (fun stretch _ hn => (Stretch.run_saves _ stretch hn.1).and (Stretch.run_keeps hn.1 hn.2 stretch))
    ⟨hsynced, h⟩ hrun).2

/-- **A restart** of a node that is between two stretches. -/
theorem restart_iff (hsynced : Synced node) (h : Restorable node) {options : RaftNodeOptions}
    (hoptions : validateOptions options = .ok ()) :
    (∃ restarted, construct keyValueStateMachine options node.disk node.machine = (.ok (), restarted)) ↔
      node.Restartable := by
  have hloaded : Restorable (loaded options node.disk node.machine) ∧
      ((loaded options node.disk node.machine).Restartable ↔ node.Restartable) := by
    rw [hsynced]
    exact ⟨⟨h.retained, h.values, h.accepted⟩, Iff.rfl⟩
  have hout := construct_restorable options node.disk node.machine (h.disk_terms hsynced)
  rcases hconstruct : construct keyValueStateMachine options node.disk node.machine with ⟨result, s⟩
  rw [hconstruct] at hout
  cases result with
  | error e =>
    refine ⟨fun ⟨restarted, heq⟩ => (by cases heq), fun hgood => ?_⟩
    exact absurd (hloaded.2.mpr hgood) (hout hoptions hloaded.1)
  | ok _ => exact ⟨fun _ => hloaded.2.mp hout.2, fun _ => ⟨s, rfl⟩⟩

/-- **Persist before reply.** After any sequence of stretches in which nothing throws, restarts included,
the storage holds the members, whatever the state machine. The members come back from a restart exactly
if the log reaches the commit index and the machine takes the entries up to it. -/
theorem storage_holds_members (options : RaftNodeOptions) (disk : PersistentState)
    (stretches : List Stretch) :
    (∀ (σ : Type) (sm : StateMachine σ) (machine : σ) (node node' : RaftNode σ),
      construct sm options disk machine = (.ok (), node) →
      runAll sm stretches node = some node' →
        node'.disk = ⟨node'.hardState, node'.log, node'.snapshot⟩) ∧
    ∀ (options' : RaftNodeOptions) (machine : Values) (node node' : RaftNode Values),
      (∀ e ∈ disk.log, e.term ≠ 0) →
      construct keyValueStateMachine options disk machine = (.ok (), node) →
      runAll keyValueStateMachine stretches node = some node' →
      validateOptions options' = .ok () →
        ((∃ restarted,
            construct keyValueStateMachine options' node'.disk node'.machine = (.ok (), restarted) ∧
              restarted.hardState.currentTerm = node'.hardState.currentTerm ∧
              restarted.hardState.votedFor = node'.hardState.votedFor ∧
              restarted.log = node'.log ∧ restarted.snapshot = node'.snapshot) ↔
          node'.hardState.commitIndex ≤ node'.lastLogIndex ∧
            ∀ entry ∈ node'.log, entry.index ≤ node'.hardState.commitIndex → entry.command.Valid) := by
  refine ⟨fun σ sm machine node node' hstart hrun =>
    runAll_synced (construct_saves hstart).1 hrun, ?_⟩
  intro options' machine node node' hterms hstart hrun hoptions
  have hsynced : Synced node := (construct_saves hstart).1
  have hsynced' : Synced node' := runAll_synced hsynced hrun
  have hout := construct_restorable options disk machine hterms
  rw [hstart] at hout
  have hiff := restart_iff hsynced' (runAll_restorable hsynced hout.1 hrun) hoptions
  refine ⟨fun ⟨restarted, hrestart, _⟩ => hiff.mp ⟨restarted, hrestart⟩, fun hgood => ?_⟩
  obtain ⟨restarted, hrestart⟩ := hiff.mpr hgood
  obtain ⟨-, hmembers⟩ := construct_saves hrestart
  rw [hsynced'] at hmembers
  exact ⟨restarted, hrestart, hmembers⟩

/-- The options of a node on its own, which makes a snapshot of every two entries. -/
def singleOptions : RaftNodeOptions := ⟨[1], [], 300, 600, 75, 200, 128, 2⟩

/-- A single node elects itself, commits two writes and makes a snapshot behind the first. It comes back
with the snapshot and the entry behind it. -/
theorem storage_holds_members_single :
    ∃ node node' restarted : RaftNode Values,
      construct keyValueStateMachine singleOptions {} OrderedMap.empty = (.ok (), node) ∧
        runAll keyValueStateMachine [.campaignStart, .campaignFinish 1 1,
          .submitAppend ⟨.Put, [7], [8]⟩, .submitAppend ⟨.Put, [7], [9]⟩] node = some node' ∧
        node'.disk = ⟨node'.hardState, node'.log, node'.snapshot⟩ ∧
        snapshotIndex node'.snapshot = 2 ∧ node'.log = [⟨3, 1, ⟨.Put, [7], [9]⟩⟩] ∧
        construct keyValueStateMachine singleOptions node'.disk node'.machine = (.ok (), restarted) ∧
        restarted.hardState.currentTerm = node'.hardState.currentTerm ∧
        restarted.hardState.votedFor = node'.hardState.votedFor ∧
        restarted.log = node'.log ∧ restarted.snapshot = node'.snapshot := by
  let node : RaftNode Values :=
    (construct keyValueStateMachine singleOptions {} OrderedMap.empty).2
  let run : Option (RaftNode Values) := runAll keyValueStateMachine [.campaignStart, .campaignFinish 1 1,
    .submitAppend ⟨.Put, [7], [8]⟩, .submitAppend ⟨.Put, [7], [9]⟩] node
  have hstart : construct keyValueStateMachine singleOptions {} OrderedMap.empty = (.ok (), node) := rfl
  have hend : run.map (fun n => (snapshotIndex n.snapshot, n.log, n.hardState.commitIndex)) =
      some (2, [⟨3, 1, ⟨.Put, [7], [9]⟩⟩], 3) := by decide +kernel
  obtain ⟨node', hrun, hnode'⟩ := Option.map_eq_some_iff.mp hend
  obtain ⟨hsnapshot, hrest⟩ := Prod.mk.inj hnode'
  obtain ⟨hlog, hcommit⟩ := Prod.mk.inj hrest
  obtain ⟨restarted, hrestart, hmembers⟩ := ((storage_holds_members singleOptions {} _).2
    singleOptions OrderedMap.empty node node' (fun _ he => (by cases he)) hstart hrun (by decide +kernel)).mpr (by
      refine ⟨?_, fun entry hentry _ => ?_⟩
      · unfold lastLogIndex
        rw [hcommit, hlog]
        exact le_rfl
      · rw [hlog] at hentry
        obtain rfl := List.mem_singleton.mp hentry
        exact ⟨⟨by decide, by decide⟩, by show [9].length ≤ _; decide⟩)
  exact ⟨node, node', restarted, hstart, hrun,
    (storage_holds_members _ _ _).1 _ _ _ _ _ hstart hrun, hsnapshot, hlog, hrestart, hmembers⟩

/-- A leader of term 1 has three entries committed. -/
def firstRequest : AppendEntriesRequest :=
  ⟨1, [2], 0, 0, [⟨1, 1, {}⟩, ⟨2, 1, {}⟩, ⟨3, 1, {}⟩], 3⟩

/-- A leader of term 2 puts another entry in the place of the second. -/
def secondRequest : AppendEntriesRequest := ⟨2, [2], 1, 1, [⟨2, 2, {}⟩], 0⟩

/-- Nothing throws, and the storage holds the members; but the log now ends before the commit index, and
no node can be made of the files. -/
theorem cut_node_not_restarted :
    ∃ node : RaftNode Values,
      runAll keyValueStateMachine [.handleAppendEntries firstRequest, .handleAppendEntries secondRequest]
        newNode = some node ∧
      node.disk = ⟨node.hardState, node.log, node.snapshot⟩ ∧
      node.hardState.commitIndex = 3 ∧ node.lastLogIndex = 2 ∧
      ∀ options machine restarted,
        construct keyValueStateMachine options node.disk machine ≠ (.ok (), restarted) := by
  let run : Option (RaftNode Values) := runAll keyValueStateMachine
    [.handleAppendEntries firstRequest, .handleAppendEntries secondRequest] newNode
  have hend : run.map (fun n => (n.log.map LogEntry.term, n.hardState.commitIndex, n.lastLogIndex)) =
      some ([1, 2], 3, 2) := by decide +kernel
  obtain ⟨node, hrun, hnode⟩ := Option.map_eq_some_iff.mp hend
  obtain ⟨hterms, hindices⟩ := Prod.mk.inj hnode
  obtain ⟨hcommit, hlast⟩ := Prod.mk.inj hindices
  have hsynced : Synced node := runAll_synced (construct_saves newNode_constructed).1 hrun
  refine ⟨node, hrun, hsynced, hcommit, hlast, fun options machine restarted hconstruct => ?_⟩
  have hout := construct_restorable options node.disk machine fun e he => by
    rw [hsynced.logsSaved.1] at he
    have hterm : e.term ∈ [1, 2] := hterms ▸ List.mem_map_of_mem he
    rcases List.mem_pair.mp hterm with hone | htwo
    · omega
    · omega
  rw [hconstruct, hsynced] at hout
  have hle : node.hardState.commitIndex ≤ node.lastLogIndex := hout.2.1
  omega

end NebulaKV.Raft.RaftNode
