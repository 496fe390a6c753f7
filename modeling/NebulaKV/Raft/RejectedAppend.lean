/-
# A rejected AppendEntries

`handle_append_entries` checks an entry when it comes to it. Entries that the node has are passed over, so up
to the first one that it does not have a refusal finds nothing changed. From there on the log is cut and
filled, and only then saved: an entry that is refused behind that point (`Tears`) leaves a log in memory that
is neither the old one nor the one on disk.

Behind the entries the commit index is raised, committed entries are applied and perhaps a snapshot is made.
That throws for an entry whose command the state machine refuses, or for a snapshot that cannot be made, and
what was done before stays done (`CommitSpoils`).

These two are the only ways: otherwise a request that throws or is answered with `success = false` has
changed nothing (`rejected_unchanged_iff`).
-/
import NebulaKV.Raft.Committing

namespace NebulaKV.Raft.RaftNode

open Containers Effects Program

variable {σ : Type} {sm : StateMachine σ} {node : RaftNode σ} {request : AppendEntriesRequest}

/-- The call threw, or its answer is a refusal. -/
def Rejected (outcome : Except Error AppendEntriesResponse × RaftNode σ) : Prop :=
  match outcome.1 with
  | .ok response => response.success = false
  | .error _ => True

/-- The log, the indices and the machine are as they were, and the log is the one on disk. -/
structure Unchanged (node node' : RaftNode σ) : Prop where
  log : node'.log = node.log
  commitIndex : node'.hardState.commitIndex = node.hardState.commitIndex
  lastApplied : node'.hardState.lastApplied = node.hardState.lastApplied
  machine : node'.machine = node.machine
  saved : node'.log = node'.disk.log

/-- Among the entries from the first one on that the node does not have, one is refused: its index does not
follow, or its term is zero. And it is not that first one, or the log had to be cut before it. -/
def Tears (node : RaftNode σ) (request : AppendEntriesRequest) : Prop :=
  match unheld node request.previousLogIndex 0 request.entries with
  | [] => False
  | incoming :: rest =>
    appendable (incoming.index - 1) (incoming :: rest) ≠ incoming :: rest ∧
      ¬ (incoming.term = 0 ∧ node.termAt incoming.index = none)

/-- The entries are taken: each has the index of its place, and none that is new is refused. -/
def Takes (node : RaftNode σ) (request : AppendEntriesRequest) : Prop :=
  match unheld node request.previousLogIndex 0 request.entries with
  | [] => InPlace request.previousLogIndex 0 request.entries
  | incoming :: rest => appendable (incoming.index - 1) (incoming :: rest) = incoming :: rest

/-- The log behind entries that are taken. -/
def mergedLog (node : RaftNode σ) (request : AppendEntriesRequest) : List LogEntry :=
  match unheld node request.previousLogIndex 0 request.entries with
  | [] => node.log
  | incoming :: rest =>
    node.log.take (incoming.index - snapshotIndex node.snapshot - 1) ++ incoming :: rest

/-- The node with the log and the commit index that an accepted request gives it. -/
def committing (node : RaftNode σ) (request : AppendEntriesRequest) : RaftNode σ :=
  let merged := { node with log := node.mergedLog request }
  { merged with hardState := { node.hardState with
    commitIndex := min request.leaderCommit merged.lastLogIndex } }

/-- The entries are taken and the commit behind them throws; and it is not so that the log and the commit
index stay as they were and nothing is applied. -/
def CommitSpoils (node : RaftNode Values) (request : AppendEntriesRequest) : Prop :=
  Takes node request ∧ node.hardState.commitIndex < request.leaderCommit ∧
    (node.committing request).CommitThrows ∧
    ¬ ((node.committing request).log = node.log ∧
      (node.committing request).hardState.commitIndex = node.hardState.commitIndex ∧
      (node.committing request).AppliesNothing)

/-! ## Following changes nothing -/

section Follow

variable (term : Nat) (leaderId : NodeId)

theorem has_follow (entry : LogEntry) : (node.follow term leaderId).Has entry ↔ node.Has entry := by
  unfold Has
  rw [termAt_follow, follow_snapshot]

theorem unheld_follow (previous position : Nat) (entries : List LogEntry) :
    unheld (node.follow term leaderId) previous position entries =
      unheld node previous position entries := by
  induction entries generalizing position with
  | nil => rfl
  | cons incoming rest ih =>
    unfold unheld
    simp only [has_follow, ih]

theorem unchanged_follow (hsaved : node.log = node.disk.log) :
    Unchanged node (node.follow term leaderId) :=
  ⟨by simp, by simp, by simp, by simp,
    by rw [follow_log, (untouched_follow node term leaderId).diskLog, hsaved]⟩

end Follow

/-! ## The merge -/

/-- The log is the same only if the first entry was refused where the log ends. -/
theorem mergedFrom_log_eq_iff (h : node.Retains)
    {incoming : LogEntry} (rest : List LogEntry) (hnew : ¬ node.Has incoming) :
    (node.mergedFrom incoming rest).log = node.log ↔
      incoming.term = 0 ∧ node.termAt incoming.index = none := by
  obtain ⟨hsnapshot, hterm⟩ := not_or.mp hnew
  have habove : snapshotIndex node.snapshot < incoming.index := not_le.mp hsnapshot
  unfold mergedFrom
  dsimp only
  by_cases hzero : incoming.term = 0
  · have hnone : appendable (incoming.index - 1) (incoming :: rest) = [] :=
      if_pos (Or.inr hzero)
    rw [hnone, List.append_nil, h.termAt_above habove, Option.map_eq_none_iff,
      List.getElem?_eq_none_iff]
    refine ⟨fun hsame => ⟨hzero, ?_⟩, fun hboth => List.take_of_length_le hboth.2⟩
    have hlength := congrArg List.length hsame
    rw [List.length_take] at hlength
    omega
  · refine ⟨fun hsame => absurd ?_ hterm, fun hboth => absurd hboth.1 hzero⟩
    -- the entry that was pushed would be the one held there
    have hpushed : appendable (incoming.index - 1) (incoming :: rest) =
        incoming :: appendable (incoming.index - 1 + 1) rest :=
      if_neg (by push Not; exact ⟨by omega, hzero⟩)
    by_cases hshort : node.log.length ≤ incoming.index - snapshotIndex node.snapshot - 1
    · rw [List.take_of_length_le hshort, hpushed] at hsame
      have hlength := congrArg List.length hsame
      simp only [List.length_append, List.length_cons] at hlength
      omega
    · have hget : (node.log.take (incoming.index - snapshotIndex node.snapshot - 1) ++
          appendable (incoming.index - 1) (incoming :: rest))[
            incoming.index - snapshotIndex node.snapshot - 1]? =
          node.log[incoming.index - snapshotIndex node.snapshot - 1]? := by rw [hsame]
      have hcut : (node.log.take (incoming.index - snapshotIndex node.snapshot - 1)).length =
          incoming.index - snapshotIndex node.snapshot - 1 := by
        rw [List.length_take]
        omega
      rw [List.getElem?_append_right hcut.le, hcut, Nat.sub_self, hpushed] at hget
      rw [h.termAt_above habove, ← hget]
      rfl

/-! ## The commit -/

section Commit

variable {node : RaftNode Values}
variable {n : RaftNode Values}

/-- A commit that throws has changed nothing but the indices and the machine. -/
theorem commitTo_throws {index : Nat} (h : n.Retains)
    (hle : index ≤ n.lastLogIndex)
    (hnode : node = { n with hardState := { n.hardState with commitIndex := index } }) :
    Ends (fun _ _ => ¬ node.CommitThrows)
      (fun _ s => node.CommitThrows ∧ s.log = node.log ∧ s.disk = node.disk ∧
        s.hardState.commitIndex = index ∧
        (s.hardState.lastApplied = node.hardState.lastApplied ∧ s.machine = node.machine ↔
          node.AppliesNothing))
      (commitTo keyValueStateMachine index n) := by
  have hretained : node.Retains := by
    subst hnode
    exact h
  have hindex : node.hardState.commitIndex = index := by rw [hnode]
  refine (commitTo_ends h hle hnode).mono (fun _ _ hs => hs.1) fun e s hs => ?_
  rcases hs with ⟨hbad, applied, machine, journal, rfl, -, hsame, hnothing⟩ |
    ⟨hvalid, hfails, journal, rfl⟩
  · exact ⟨Or.inl hbad, rfl, rfl, hindex, fun hkept => hnothing.mp hkept.1,
      fun h' => ⟨hnothing.mpr h', hsame (hnothing.mpr h')⟩⟩
  · refine ⟨Or.inr (hfails.refused hretained), rfl, rfl, hindex, ?_⟩
    by_cases hlt : node.hardState.lastApplied < node.hardState.commitIndex
    · -- everything valid has been applied
      rw [caughtUp_of_lt hlt]
      refine ⟨fun hkept => ?_, fun hnothing => ?_⟩
      · have happlied : max node.hardState.commitIndex (snapshotIndex node.snapshot) =
            node.hardState.lastApplied := hkept.1
        exact absurd (happlied ▸ le_max_left _ _) (not_le.mpr hlt)
      · obtain ⟨-, entry, hhead, hbad⟩ := hnothing hlt
        exact absurd (hvalid entry (List.mem_of_mem_head? hhead)) hbad
    · rw [caughtUp_of_not hlt]
      exact ⟨fun _ h' => absurd h' hlt, fun _ => ⟨rfl, rfl⟩⟩

/-- Only these members decide. -/
theorem commit_congr {n' : RaftNode Values} (hlog : n.log = n'.log)
    (hsnapshot : n.snapshot = n'.snapshot)
    (hcommit : n.hardState.commitIndex = n'.hardState.commitIndex)
    (happlied : n.hardState.lastApplied = n'.hardState.lastApplied)
    (hmachine : n.machine = n'.machine) (hoptions : n.options = n'.options) :
    (n.CommitThrows ↔ n'.CommitThrows) ∧ (n.AppliesNothing ↔ n'.AppliesNothing) := by
  have htoApply : n.toApply = n'.toApply := by
    unfold toApply
    rw [hlog, hcommit, happlied]
  have hlast : n.caughtUp.lastLogIndex = n'.caughtUp.lastLogIndex := by
    unfold lastLogIndex caughtUp
    dsimp only
    rw [hlog, hsnapshot]
  constructor
  · unfold CommitThrows SnapshotRefused
    unfold SnapshotDue
    rw [hlast, htoApply]
    unfold caughtUp
    dsimp only
    rw [htoApply, hsnapshot, hcommit, happlied, hmachine, hoptions]
  · unfold AppliesNothing
    rw [htoApply, hsnapshot, hcommit, happlied]

/-- Behind entries that were taken, everything depends on the commit. -/
theorem acceptCommit_rejected_iff {taken committed : RaftNode Values}
    (h : taken.Retains) (hsaved : taken.log = taken.disk.log)
    (hcommit : taken.hardState.commitIndex = node.hardState.commitIndex)
    (happlied : taken.hardState.lastApplied = node.hardState.lastApplied)
    (hmachine : taken.machine = node.machine)
    (hcommitted : committed = { taken with hardState := { taken.hardState with
      commitIndex := min request.leaderCommit taken.lastLogIndex } }) :
    (Rejected (acceptCommit keyValueStateMachine request taken) →
        Unchanged node (acceptCommit keyValueStateMachine request taken).2) ↔
      ¬ (node.hardState.commitIndex < request.leaderCommit ∧ committed.CommitThrows ∧
        ¬ (committed.log = node.log ∧
          committed.hardState.commitIndex = node.hardState.commitIndex ∧ committed.AppliesNothing)) := by
  -- an answer is a success, so what is rejected has thrown, and the commit has
  have hout : Ends (fun response _ => response.success = true ∧
      ¬ (node.hardState.commitIndex < request.leaderCommit ∧ committed.CommitThrows))
      (fun _ s => taken.hardState.commitIndex < request.leaderCommit ∧ committed.CommitThrows ∧
        s.log = committed.log ∧ s.disk = committed.disk ∧
        s.hardState.commitIndex = min request.leaderCommit taken.lastLogIndex ∧
        (s.hardState.lastApplied = committed.hardState.lastApplied ∧ s.machine = committed.machine ↔
          committed.AppliesNothing)) (acceptCommit keyValueStateMachine request taken) := by
    refine (acceptCommit_ends keyValueStateMachine taken (Q := fun _ =>
      ¬ (node.hardState.commitIndex < request.leaderCommit ∧ committed.CommitThrows))
      (fun hskip hboth => hskip (hcommit ▸ hboth.1)) fun hmore => ?_).mono
        (fun _ _ hs => ⟨hs.1, hs.2.2.2⟩) fun _ _ hs => hs
    exact (commitTo_throws h (min_le_right _ _) hcommitted).mono
      (fun _ _ hs hboth => hs hboth.2) fun _ _ hs => ⟨hmore, hs⟩
  rcases hrun : acceptCommit keyValueStateMachine request taken with ⟨result, after⟩
  rw [hrun] at hout
  cases result with
  | ok response =>
    refine ⟨fun _ hspoils => hout.2 ⟨hspoils.1, hspoils.2.1⟩, fun _ hrejected => ?_⟩
    exact absurd (hout.1.symm.trans hrejected) (by decide)
  | error e =>
    obtain ⟨hmore, hthrows, hlog, hdisk, hindex, hkept⟩ := hout
    have hmembers : committed.hardState.lastApplied = node.hardState.lastApplied ∧
        committed.machine = node.machine ∧ committed.log = committed.disk.log ∧
        committed.hardState.commitIndex = min request.leaderCommit taken.lastLogIndex := by
      subst hcommitted
      exact ⟨happlied, hmachine, hsaved, rfl⟩
    obtain ⟨happlied', hmachine', hsaved', hcommit'⟩ := hmembers
    rw [happlied', hmachine'] at hkept
    have hunchanged : Unchanged node after ↔ committed.log = node.log ∧
        committed.hardState.commitIndex = node.hardState.commitIndex ∧ committed.AppliesNothing := by
      rw [← hkept, hcommit', ← hindex, ← hlog]
      exact ⟨fun hu => ⟨hu.log, hu.commitIndex, hu.lastApplied, hu.machine⟩,
        fun hu => ⟨hu.1, hu.2.1, hu.2.2.1, hu.2.2.2, by rw [hlog, hdisk, hsaved']⟩⟩
    refine ⟨fun hsame hspoils => hspoils.2.2 (hunchanged.mp (hsame trivial)), fun hnot _ => ?_⟩
    by_contra hchanged
    exact hnot ⟨hcommit ▸ hmore, hthrows, fun hsame => hchanged (hunchanged.mpr hsame)⟩

/-- Entries that are taken leave a node that differs from `committing` in nothing that counts. -/
theorem Takes.rejected_iff {taken : RaftNode Values} (h : Takes node request)
    (htears : ¬ Tears node request) (hretained : taken.Retains) (hsaved : taken.log = taken.disk.log)
    (hlog : taken.log = node.mergedLog request) (hsnapshot : taken.snapshot = node.snapshot)
    (hcommit : taken.hardState.commitIndex = node.hardState.commitIndex)
    (happlied : taken.hardState.lastApplied = node.hardState.lastApplied)
    (hmachine : taken.machine = node.machine) (hoptions : taken.options = node.options) :
    (Rejected (acceptCommit keyValueStateMachine request taken) →
        Unchanged node (acceptCommit keyValueStateMachine request taken).2) ↔
      ¬ Tears node request ∧ ¬ CommitSpoils node request := by
  have hlast : taken.lastLogIndex =
      RaftNode.lastLogIndex { node with log := node.mergedLog request } := by
    unfold lastLogIndex
    rw [hlog, hsnapshot]
  have hindex : min request.leaderCommit taken.lastLogIndex =
      (node.committing request).hardState.commitIndex := congrArg (min request.leaderCommit) hlast
  obtain ⟨hthrows, hnothing⟩ := @commit_congr
    { taken with hardState := { taken.hardState with
      commitIndex := min request.leaderCommit taken.lastLogIndex } } (node.committing request)
    hlog hsnapshot hindex happlied hmachine hoptions
  have hlogs : taken.log = (node.committing request).log := hlog
  rw [acceptCommit_rejected_iff hretained hsaved hcommit happlied hmachine rfl, hthrows, hnothing, hlogs]
  show ¬ (_ ∧ _ ∧ ¬ (_ ∧ min request.leaderCommit taken.lastLogIndex = _ ∧ _)) ↔ _
  rw [hindex]
  exact ⟨fun hnot => ⟨htears, fun hspoils => hnot hspoils.2⟩, fun hboth hspoils =>
    hboth.2 ⟨h, hspoils⟩⟩

/-- What a request does whose entries are looked at. -/
theorem acceptEntries_rejected_iff (h : node.Retains)
    (hsaved : node.log = node.disk.log) (hcontinues : Continues node request) :
    (Rejected (acceptEntries keyValueStateMachine request (node.follow request.term request.leaderId)) →
        Unchanged node
          (acceptEntries keyValueStateMachine request (node.follow request.term request.leaderId)).2) ↔
      ¬ Tears node request ∧ ¬ CommitSpoils node request := by
  set n := node.follow request.term request.leaderId with hn
  have hunchanged : Unchanged node n := unchanged_follow _ _ hsaved
  have hsnapshot : n.snapshot = node.snapshot := follow_snapshot _ _ _
  have hoptions : n.options = node.options := (untouched_follow node _ _).options
  have hretained : n.Retains := by
    rw [Retains, hunchanged.log, hsnapshot]
    exact h
  have hlast : request.previousLogIndex ≤ n.lastLogIndex := by
    have hprevious := hcontinues.previous_le h
    rw [h.lastLogIndex_eq] at hprevious
    rwa [hretained.lastLogIndex_eq, hunchanged.log, hsnapshot]
  have hunheld : unheld n request.previousLogIndex 0 request.entries =
      unheld node request.previousLogIndex 0 request.entries := unheld_follow _ _ _ _ _
  rcases acceptEntries_cases keyValueStateMachine hretained hlast with
    ⟨hnil, ⟨hmisplaced, hentries⟩ | ⟨hplaced, hentries⟩⟩ | ⟨incoming, rest, hcons, hnew, -, hle, hentries⟩
  · -- an entry with a wrong index, in front of which the node has everything
    rw [hunheld] at hnil
    rw [hentries]
    refine ⟨fun _ => ⟨by simp [Tears, hnil], fun hspoils => hmisplaced ?_⟩, fun _ _ => hunchanged⟩
    simpa [Takes, hnil] using hspoils.1
  · rw [hunheld] at hnil
    rw [hentries]
    have htakes : Takes node request := by simpa [Takes, hnil] using hplaced
    refine htakes.rejected_iff (by simp [Tears, hnil]) hretained hunchanged.saved ?_ hsnapshot
      hunchanged.commitIndex hunchanged.lastApplied hunchanged.machine hoptions
    simp only [mergedLog, hnil]
    exact hunchanged.log
  · rw [hunheld] at hcons
    rw [hentries]
    split_ifs with hall
    · have htakes : Takes node request := by simpa [Takes, hcons] using hall
      refine htakes.rejected_iff (by simp [Tears, hcons, hall]) (hretained.mergedFrom rest hnew hle)
        rfl ?_ hsnapshot hunchanged.commitIndex hunchanged.lastApplied hunchanged.machine hoptions
      show n.log.take (incoming.index - snapshotIndex n.snapshot - 1) ++
        appendable (incoming.index - 1) (incoming :: rest) = _
      simp only [mergedLog, hcons]
      rw [hall, hunchanged.log, hsnapshot]
    · -- an entry is refused behind the cut
      have hsame : (n.mergedFrom incoming rest).log = node.log ↔
          incoming.term = 0 ∧ node.termAt incoming.index = none := by
        rw [← hunchanged.log, mergedFrom_log_eq_iff hretained rest hnew, hn, termAt_follow]
      have htears : Tears node request ↔
          ¬ (incoming.term = 0 ∧ node.termAt incoming.index = none) := by
        unfold Tears
        rw [hcons]
        exact ⟨fun ht => ht.2, fun ht => ⟨hall, ht⟩⟩
      rw [htears, not_not]
      refine ⟨fun hkept => ⟨hsame.mp (hkept trivial).log, fun hspoils => hall ?_⟩, fun hboth _ => ?_⟩
      · simpa [Takes, hcons] using hspoils.1
      · have hlog := hsame.mpr hboth.1
        refine ⟨hlog, hunchanged.commitIndex, hunchanged.lastApplied, hunchanged.machine, ?_⟩
        rw [hlog]
        exact hunchanged.log.symm.trans hunchanged.saved

end Commit

/-- **A rejected AppendEntries changes nothing, exactly if** none of its entries is refused behind the cut, and
no command or snapshot behind them after something has changed. For every node whose log follows its snapshot
and is the one on disk, and every request. -/
theorem rejected_unchanged_iff {node : RaftNode Values} {request : AppendEntriesRequest}
    (h : Retained (snapshotIndex node.snapshot) node.log) (hsaved : node.log = node.disk.log) :
    (Rejected (handleAppendEntries keyValueStateMachine request node) →
        Unchanged node (handleAppendEntries keyValueStateMachine request node).2) ↔
      ¬ (Continues node request ∧ (Tears node request ∨ CommitSpoils node request)) := by
  rcases handleAppendEntries_cases keyValueStateMachine node request with
    ⟨response, -, hnot, heq | ⟨-, heq⟩⟩ | ⟨hcontinues, heq⟩
  · rw [heq]
    exact ⟨fun _ hboth => hnot hboth.1, fun _ _ => ⟨rfl, rfl, rfl, rfl, hsaved⟩⟩
  · rw [heq]
    exact ⟨fun _ hboth => hnot hboth.1, fun _ _ => unchanged_follow _ _ hsaved⟩
  · rw [heq, acceptEntries_rejected_iff h hsaved hcontinues, ← not_or]
    exact ⟨fun hnot hboth => hnot hboth.2, fun hnot hor => hnot ⟨hcontinues, hor⟩⟩

/-! ## A torn request -/

/-- A follower with one entry, on disk as in memory. -/
def oneEntry : RaftNode Values :=
  { loaded ⟨[1], [⟨[2], [1]⟩], 300, 600, 75, 200, 128, 0⟩
      ⟨⟨1, [], 0, 0⟩, [⟨1, 1, {}⟩], none⟩ OrderedMap.empty with leaderId := [2] }

/-- The entry of another leader for the same place, and behind it one with a wrong index. -/
def tornRequest : AppendEntriesRequest := ⟨2, [2], 0, 0, [⟨1, 2, {}⟩, ⟨5, 2, {}⟩], 0⟩

/-- An entry of term zero right behind the log. -/
def refusedRequest : AppendEntriesRequest := ⟨2, [2], 1, 1, [⟨2, 0, {}⟩], 0⟩

/-- A follower that has committed an entry which its machine refuses. -/
def stuckEntry : RaftNode Values :=
  { loaded ⟨[1], [⟨[2], [1]⟩], 300, 600, 75, 200, 128, 0⟩
      ⟨⟨1, [], 1, 0⟩, [⟨1, 1, ⟨.Put, [], [7]⟩⟩], none⟩ OrderedMap.empty with leaderId := [2] }

/-- A heartbeat with a higher commit index. -/
def heartbeat : AppendEntriesRequest := ⟨1, [2], 1, 1, [], 2⟩

theorem oneEntry_retained : oneEntry.Retains :=
  (retained_nil 0).concat rfl Nat.one_ne_zero

theorem stuckEntry_retained : stuckEntry.Retains :=
  (retained_nil 0).concat rfl Nat.one_ne_zero

/-- An entry of term zero is refused; and a commit throws before it has changed anything. -/
theorem rejected_unchanged_iff_refused :
    Unchanged oneEntry (handleAppendEntries keyValueStateMachine refusedRequest oneEntry).2 ∧
      (handleAppendEntries keyValueStateMachine heartbeat stuckEntry).1.isOk = false ∧
      Unchanged stuckEntry (handleAppendEntries keyValueStateMachine heartbeat stuckEntry).2 := by
  refine ⟨(rejected_unchanged_iff oneEntry_retained rfl).mpr ?_ ?_, by decide +kernel,
    (rejected_unchanged_iff stuckEntry_retained rfl).mpr ?_ ?_⟩
  · have hunheld : unheld oneEntry refusedRequest.previousLogIndex 0 refusedRequest.entries =
        [⟨2, 0, {}⟩] := by decide +kernel
    rintro ⟨-, htears | ⟨htakes, -⟩⟩
    · unfold Tears at htears
      rw [hunheld] at htears
      exact htears.2 ⟨rfl, by decide +kernel⟩
    · unfold Takes at htakes
      rw [hunheld] at htakes
      exact absurd htakes (by decide)
  · have hthrows : (handleAppendEntries keyValueStateMachine refusedRequest oneEntry).1 =
        .error invalidAppend := by decide +kernel
    unfold Rejected
    rw [hthrows]
    trivial
  · have hhead : (stuckEntry.committing heartbeat).toApply.head? =
        some ⟨1, 1, ⟨.Put, [], [7]⟩⟩ := by decide +kernel
    rintro ⟨-, htears | ⟨-, -, -, hchanged⟩⟩
    · exact htears
    · refine hchanged ⟨rfl, by decide +kernel, fun _ => ⟨le_rfl, _, hhead, fun hvalid => ?_⟩⟩
      exact absurd hvalid.1 (by decide)
  · have hthrows : (handleAppendEntries keyValueStateMachine heartbeat stuckEntry).1.isOk = false := by
      decide +kernel
    unfold Rejected
    cases hresult : (handleAppendEntries keyValueStateMachine heartbeat stuckEntry).1 with
    | error e => trivial
    | ok response =>
      rw [hresult] at hthrows
      cases hthrows

/-- The request throws; the entry of term 1 is gone from memory, the one of term 2 is there in its place, and
the disk still has the first. -/
theorem torn_request_changes_log :
    (handleAppendEntries keyValueStateMachine tornRequest oneEntry).1 = .error invalidAppend ∧
      (handleAppendEntries keyValueStateMachine tornRequest oneEntry).2.log = [⟨1, 2, {}⟩] ∧
      (handleAppendEntries keyValueStateMachine tornRequest oneEntry).2.disk.log = [⟨1, 1, {}⟩] ∧
      oneEntry.log = [⟨1, 1, {}⟩] := by
  decide +kernel

end NebulaKV.Raft.RaftNode
