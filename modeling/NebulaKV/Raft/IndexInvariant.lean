/-
# The indices of a node

A node counts in four places: the snapshot's index, `last_applied`, `commit_index` and the last index of
the log. The log begins behind the snapshot, so append, truncate, trim, install and restart all move the
base or the length under the counters. `Working` is what every function keeps, and `Sound` what stands
between two stretches of locked code, whether or not the last one threw.

Two requests break it, and both do so by a throw from the state machine in the middle of a handler: a
snapshot whose payload the machine refuses is already the node's snapshot, with `last_applied` behind it;
and an entry that the machine refuses to apply leaves a `commit_index` in memory that was not saved, so a
restart goes back. `Stretch.Digestible` excludes these two.
-/
import NebulaKV.Raft.Committing

namespace NebulaKV.Raft.RaftNode

open Containers Effects Program Serialization
open DurableKeyValueStateMachine (Accepted)

/-! ## The invariant -/

section Invariant

variable {σ : Type}
variable {node : RaftNode σ} {log : List LogEntry}

/-- The counters are in order over a log without gaps, and the files can be restarted from. The commit
index on disk is left open. -/
structure Working (node : RaftNode σ) : Prop where
  retained : Retained (snapshotIndex node.snapshot) node.log
  valid : ∀ e ∈ node.log, e.command.Valid
  snapshot_le : snapshotIndex node.snapshot ≤ node.hardState.lastApplied
  applied_le : node.hardState.lastApplied ≤ node.hardState.commitIndex
  commit_le : node.hardState.commitIndex ≤ node.lastLogIndex
  diskSnapshot : node.disk.snapshot = node.snapshot
  diskLog : ∀ e ∈ node.disk.log, e.term ≠ 0 ∧ e.command.Valid

/-- What stands between two stretches of locked code. -/
structure Sound (node : RaftNode σ) : Prop extends Working node where
  diskCommit : node.disk.hardState.commitIndex = node.hardState.commitIndex

/-- None of the three counters has gone back. -/
structure Advances (node node' : RaftNode σ) : Prop where
  snapshot : snapshotIndex node.snapshot ≤ snapshotIndex node'.snapshot
  applied : node.hardState.lastApplied ≤ node'.hardState.lastApplied
  commit : node.hardState.commitIndex ≤ node'.hardState.commitIndex

theorem Advances.refl (node : RaftNode σ) : Advances node node := ⟨le_rfl, le_rfl, le_rfl⟩

theorem Advances.trans {n₁ n₂ n₃ : RaftNode σ} (h : Advances n₁ n₂) (h' : Advances n₂ n₃) :
    Advances n₁ n₃ :=
  ⟨h.snapshot.trans h'.snapshot, h.applied.trans h'.applied, h.commit.trans h'.commit⟩

theorem Untouched.advances {node' : RaftNode σ} (h : Untouched node node') :
    Advances node node' := by
  refine ⟨?_, h.applied.ge, h.commit.ge⟩
  rw [h.snapshot]

theorem Untouched.sound {node' : RaftNode σ} (hsame : Untouched node node') (h : Sound node) :
    Sound node' := by
  refine ⟨⟨?_, ?_, ?_, ?_, ?_, ?_, ?_⟩, ?_⟩
  · rw [hsame.log, hsame.snapshot]
    exact h.retained
  · rw [hsame.log]
    exact h.valid
  · rw [hsame.snapshot, hsame.applied]
    exact h.snapshot_le
  · rw [hsame.applied, hsame.commit]
    exact h.applied_le
  · rw [hsame.commit, hsame.lastLogIndex]
    exact h.commit_le
  · rw [hsame.diskSnapshot, hsame.snapshot]
    exact h.diskSnapshot
  · rw [hsame.diskLog]
    exact h.diskLog
  · rcases hsame.saved with hsaved | ⟨hdisk, hhard⟩
    · rw [hsaved]
    · rw [hdisk, hhard]
      exact h.diskCommit

/-- Saving the hard state ends a commit. -/
theorem Working.persistHardState (h : Working node) : Sound node.persistHardState :=
  ⟨⟨h.retained, h.valid, h.snapshot_le, h.applied_le, h.commit_le, h.diskSnapshot, h.diskLog⟩, rfl⟩

theorem Working.diskLog_of_log (h : Working node) :
    ∀ e ∈ node.log, e.term ≠ 0 ∧ e.command.Valid := by
  intro e he
  obtain ⟨hget, -, -⟩ := h.retained.index_of_mem he
  exact ⟨(h.retained _ e hget).2, h.valid e he⟩

theorem Sound.persistLog (h : Sound node) : Sound node.persistLog :=
  ⟨⟨h.retained, h.valid, h.snapshot_le, h.applied_le, h.commit_le, h.diskSnapshot,
    h.toWorking.diskLog_of_log⟩, h.diskCommit⟩

/-- The data behind an index is that of the entry which carries it. -/
theorem Retained.find?_index {base : Nat} (h : Retained base log) {i : Nat} (hi : base < i) :
    log.find? (fun e => decide (e.index = i)) = log[i - base - 1]? := by
  induction log generalizing base with
  | nil => simp
  | cons e rest ih =>
    have hindex := (h 0 e rfl).1
    have hrest : Retained (base + 1) rest := h.drop 1
    rw [List.find?_cons]
    by_cases heq : e.index = i
    · simp only [heq, decide_true]
      rw [show i - base - 1 = 0 by omega]
      rfl
    · simp only [heq, decide_false]
      rw [ih hrest (by omega), show i - base - 1 = i - (base + 1) - 1 + 1 by omega]
      rfl

theorem Retained.filter_from {base : Nat} (h : Retained base log) {i : Nat} (hi : base < i) :
    log.filter (fun e => decide (i ≤ e.index)) = log.drop (i - base - 1) := by
  induction log generalizing base with
  | nil => simp
  | cons e rest ih =>
    have hindex := (h 0 e rfl).1
    have hrest : Retained (base + 1) rest := h.drop 1
    by_cases hle : i ≤ e.index
    · have hall : ∀ x ∈ e :: rest, decide (i ≤ x.index) = true := by
        intro x hx
        have hbase := (h.index_of_mem hx).2.1
        exact decide_eq_true (by omega)
      rw [List.filter_eq_self.mpr hall, show i - base - 1 = 0 by omega, List.drop_zero]
    · rw [List.filter_cons_of_neg (by simpa using hle), ih hrest (by omega),
        show i - base - 1 = i - (base + 1) - 1 + 1 by omega, List.drop_succ_cons]

end Invariant

/-! ## Which errors -/

/-- The errors of a node that has lost a committed entry. -/
def lostEntry : List Error :=
  [.runtimeError "committed Raft entry is no longer available",
    .runtimeError "committed Raft entry is missing",
    .runtimeError "cannot determine term for Raft snapshot"]

/-- The invariant stands, and no counter is behind where it was at the start. -/
def SoundFrom (start node : RaftNode Values) : Prop := Sound node ∧ Advances start node

/-- What a stretch leaves that throws: the invariant stands, unless the state is too large to be saved. -/
def ThrowsFrom (start : RaftNode Values) (e : Error) (node : RaftNode Values) : Prop :=
  e ∉ lostEntry ∧ (Fits node.machine → SoundFrom start node)

/-! ## Committing -/

section Commit

variable {node start : RaftNode Values}
variable {index : Nat}
variable {σ : Type}

/-- An entry has been applied, whatever the machine made of it. -/
theorem Working.advanced {node : RaftNode σ} (h : Working node)
    (hlt : node.hardState.lastApplied < node.hardState.commitIndex) (machine : σ) :
    Working (node.advanced machine) :=
  ⟨h.retained, h.valid, h.snapshot_le.trans (Nat.le_succ _), hlt, h.commit_le, h.diskSnapshot, h.diskLog⟩

/-- Every refusal to encode is a length error. -/
theorem encodeEntries_error {pairs : List (Bytes × Bytes)} {payload : Bytes} {e : Error}
    (h : encodeEntries pairs payload = .error e) :
    e = .lengthError "encoded string is too large" := by
  induction pairs generalizing payload with
  | nil => cases h
  | cons pair rest ih =>
    obtain ⟨key, value⟩ := pair
    by_cases hk : key.length ≤ uint32Max
    · by_cases hv : value.length ≤ uint32Max
      · simp only [encodeEntries, appendBytes_of_le hk, appendBytes_of_le hv, bind,
          Except.bind] at h
        exact ih h
      · simp only [encodeEntries, appendBytes_of_le hk, appendBytes_of_gt hv, bind,
          Except.bind, Except.error.injEq] at h
        exact h.symm
    · simp only [encodeEntries, appendBytes_of_gt hk, bind, Except.bind, Except.error.injEq] at h
      exact h.symm

/-- The term of the last applied entry is known: it is the snapshot's, or that of an entry. -/
theorem Working.termAt_applied {node : RaftNode σ} (h : Working node)
    (hpos : node.hardState.lastApplied ≠ 0) : node.termAt node.hardState.lastApplied ≠ none := by
  have hsnapshot := h.snapshot_le
  have happlied := h.applied_le
  have hcommit := h.commit_le
  rw [Ne, h.retained.termAt_eq_none_iff hpos]
  omega

/-- A new snapshot moves the base to `last_applied`. -/
theorem Working.snapshotted {node : RaftNode σ} (h : Working node) (term : Nat) (payload : Bytes) :
    Working (node.snapshotted term payload) := by
  have hlast := h.retained.lastLogIndex_eq
  have hsnapshot := h.snapshot_le
  have happlied := h.applied_le
  have hcommit := h.commit_le
  have hlog := eraseThrough_eq h.retained h.snapshot_le
  have hretained : Retained node.hardState.lastApplied
      (eraseThrough node.hardState.lastApplied node.log) := by
    have hdrop := h.retained.drop (node.hardState.lastApplied - snapshotIndex node.snapshot)
    rw [Nat.add_sub_cancel' hsnapshot] at hdrop
    rw [hlog]
    exact hdrop
  have hmem : ∀ e ∈ eraseThrough node.hardState.lastApplied node.log, e ∈ node.log := by
    intro e he
    rw [hlog] at he
    exact List.mem_of_mem_drop he
  refine ⟨hretained, fun e he => h.valid e (hmem e he), le_rfl, h.applied_le, ?_, rfl,
    fun e he => h.diskLog_of_log e (hmem e he)⟩
  refine le_of_le_of_eq ?_ (Retained.lastLogIndex_eq ?_).symm
  · show node.hardState.commitIndex ≤ node.hardState.lastApplied +
      (eraseThrough node.hardState.lastApplied node.log).length
    rw [hlog, List.length_drop]
    omega
  · exact hretained

/-- A snapshot fails only because the state does not fit. -/
theorem Working.snapshotFails (h : Working node) {e : Error}
    (hfails : SnapshotFails keyValueStateMachine node e) : e ∉ lostEntry ∧ ¬ Fits node.machine := by
  have hsnapshot := h.snapshot_le
  have happlied := h.applied_le
  have hcommit := h.commit_le
  have hrefused := (hfails.refused h.retained).2
  refine ⟨?_, (hrefused.resolve_left (by omega)).resolve_left (by omega)⟩
  obtain ⟨hdue, hnone | herror | ⟨payload, -, -, rfl⟩⟩ := hfails
  · exact absurd hnone (h.termAt_applied hdue.2.1)
  · obtain rfl := encodeEntries_error herror
    decide
  · decide

theorem Working.caughtUp (h : Working node) (journal : List (Mark Values)) :
    Working { node.caughtUp with journal := journal } ∧
      Advances node { node.caughtUp with journal := journal } := by
  have hsnapshot := h.snapshot_le
  have happlied := h.applied_le
  have hreached : (node.caughtUp).hardState.lastApplied = node.hardState.commitIndex := by
    show (if _ then max _ _ else _) = _
    split_ifs with hlt
    · exact max_eq_left (hsnapshot.trans happlied)
    · exact le_antisymm happlied (not_lt.mp hlt)
  exact ⟨⟨h.retained, h.valid, hreached ▸ hsnapshot.trans happlied, hreached.le, h.commit_le,
    h.diskSnapshot, h.diskLog⟩, ⟨le_rfl, hreached ▸ happlied, le_rfl⟩⟩

/-- **A commit** applies up to the new index and saves it; only a state that does not fit stops it. -/
theorem commitTo_sound (h : Working node) (hge : node.hardState.commitIndex ≤ index)
    (hle : index ≤ node.lastLogIndex) :
    Ends (fun _ s => Sound s ∧ Advances node s) (fun e s => e ∉ lostEntry ∧ ¬ Fits s.machine)
      (commitTo keyValueStateMachine index node) := by
  set raised : RaftNode Values :=
    { node with hardState := { node.hardState with commitIndex := index } } with hraised
  have hworking : Working raised := ⟨h.retained, h.valid, h.snapshot_le, h.applied_le.trans hge, hle,
    h.diskSnapshot, h.diskLog⟩
  have hadvances : Advances node raised := ⟨le_rfl, le_rfl, hge⟩
  refine (commitTo_ends h.retained hle hraised).mono (fun _ s hs => ?_) fun e s hs => ?_
  · obtain ⟨-, journal, hend⟩ := hs
    obtain ⟨hcaught, hadv⟩ := hworking.caughtUp journal
    rcases hend with rfl | ⟨term, payload, -, rfl⟩
    · exact ⟨hcaught.persistHardState, { hadvances.trans hadv with }⟩
    · exact ⟨(hcaught.snapshotted term payload).persistHardState,
        ⟨hadv.snapshot.trans hcaught.snapshot_le, hadv.applied, hge⟩⟩
  · rcases hs with ⟨⟨entry, hmem, hbad⟩, -⟩ | ⟨-, hfails, journal, rfl⟩
    · exact absurd (h.valid entry (List.mem_of_mem_filter hmem)) hbad
    · exact (hworking.caughtUp journal).1.snapshotFails hfails

/-- A commit from a node that the invariant stands for. -/
theorem SoundFrom.commitTo (h : SoundFrom start node) (hge : node.hardState.commitIndex ≤ index)
    (hle : index ≤ node.lastLogIndex) :
    Ends (fun _ => SoundFrom start) (ThrowsFrom start) (commitTo keyValueStateMachine index node) :=
  (commitTo_sound h.1.toWorking hge hle).mono (fun _ _ hs => ⟨hs.1, h.2.trans hs.2⟩)
    fun _ _ hs => ⟨hs.1, fun hfits => absurd hfits hs.2⟩

/-! ## Appending -/

theorem Sound.withEntry (h : Sound node) {command : Command} (hvalid : command.Valid)
    (hterm : node.hardState.currentTerm ≠ 0) : Sound (node.withEntry command) := by
  have hlast := h.retained.lastLogIndex_eq
  refine ⟨⟨h.retained.concat ?_ hterm, ?_, h.snapshot_le, h.applied_le, ?_, h.diskSnapshot, h.diskLog⟩,
    h.diskCommit⟩
  · show node.lastLogIndex + 1 = _
    omega
  · intro e he
    rcases List.mem_append.mp he with he | he
    · exact h.valid e he
    · rw [List.mem_singleton.mp he]
      exact hvalid
  · rw [lastLogIndex_withEntry]
    exact h.commit_le.trans (Nat.le_succ _)

/-- A leader only commits what it has not committed yet. -/
theorem Sound.commit_le_point (h : Sound node) (hpoint : node.CommitPoint index) :
    node.hardState.commitIndex ≤ index := by
  rcases hpoint with rfl | hadvance
  · exact h.commit_le
  · unfold advanceCommit at hadvance
    split_ifs at hadvance with hbehind
    obtain rfl := Option.some.inj hadvance
    exact (not_le.mp hbehind).le

theorem upheld_sound (start : RaftNode Values) :
    Upheld keyValueStateMachine Command.Valid (SoundFrom start) (ThrowsFrom start) where
  untouched hsame h := ⟨hsame.sound h.1, h.2.trans hsame.advances⟩
  denied h := ⟨by decide, fun _ => h⟩
  noop := trivial
  append h hterm hvalid := ⟨(h.1.withEntry hvalid hterm).persistLog, h.2.trans ⟨le_rfl, le_rfl, le_rfl⟩⟩
  commit h hpoint := h.commitTo (h.1.commit_le_point hpoint) (hpoint.le h.1.retained)
  threshold h := ⟨{ h.1 with }, { h.2 with }⟩
  snapshotted h _ := ⟨⟨h.1.toWorking.snapshotted _ _, h.1.diskCommit⟩,
    ⟨h.2.snapshot.trans h.1.snapshot_le, h.2.applied, h.2.commit⟩⟩
  snapshotFails h hfails :=
    have hfailed := h.1.toWorking.snapshotFails hfails
    ⟨hfailed.1, fun hfits => absurd hfits hfailed.2⟩

end Commit

/-! ## The requests -/

section Requests

variable {node start : RaftNode Values}
variable {request : InstallSnapshotRequest}

theorem SoundFrom.acceptCommit (h : SoundFrom start node) (request : AppendEntriesRequest) :
    Ends (fun _ => SoundFrom start) (ThrowsFrom start)
      (acceptCommit keyValueStateMachine request node) :=
  (acceptCommit_ends keyValueStateMachine node (fun _ => h) fun hmore =>
    h.commitTo (le_min hmore.le h.1.commit_le) (min_le_right _ _)).mono
      (fun _ _ hs => hs.2.2.2) fun _ _ hs => hs

/-- The entries agree with what is committed. -/
def AgreesWith (node : RaftNode Values) (entries : List LogEntry) : Prop :=
  ∀ e ∈ entries, snapshotIndex node.snapshot < e.index → e.index ≤ node.hardState.commitIndex →
    node.termAt e.index = some e.term

/-- The cut is behind the commit index, so a merge loses nothing that is committed, torn or not. -/
theorem Sound.mergedFrom (h : Sound node) {incoming : LogEntry} {rest : List LogEntry}
    (hnew : ¬ node.Has incoming) (hle : incoming.index ≤ node.lastLogIndex + 1)
    (hcommit : node.hardState.commitIndex < incoming.index)
    (hvalid : ∀ e ∈ incoming :: rest, e.command.Valid) : Sound (node.mergedFrom incoming rest) := by
  have hretained := h.retained.mergedFrom rest hnew hle
  have hlast := h.retained.lastLogIndex_eq
  have habove : snapshotIndex node.snapshot < incoming.index := not_le.mp (not_or.mp hnew).1
  refine ⟨⟨hretained, ?_, h.snapshot_le, h.applied_le, ?_, h.diskSnapshot, h.diskLog⟩, h.diskCommit⟩
  · intro e he
    rcases List.mem_append.mp he with he | he
    · exact h.valid e (List.mem_of_mem_take he)
    · exact hvalid e (mem_of_mem_appendable he)
  · refine le_of_le_of_eq ?_ (Retained.lastLogIndex_eq hretained).symm
    show node.hardState.commitIndex ≤ snapshotIndex node.snapshot +
      (node.log.take (incoming.index - snapshotIndex node.snapshot - 1) ++
        appendable (incoming.index - 1) (incoming :: rest)).length
    rw [List.length_append, List.length_take]
    omega

theorem SoundFrom.acceptEntries (h : SoundFrom start node) {request : AppendEntriesRequest}
    (hprevious : request.previousLogIndex ≤ node.lastLogIndex)
    (hagrees : AgreesWith node request.entries) (hvalid : ∀ e ∈ request.entries, e.command.Valid) :
    Ends (fun _ => SoundFrom start) (ThrowsFrom start)
      (acceptEntries keyValueStateMachine request node) := by
  rcases acceptEntries_cases keyValueStateMachine h.1.retained hprevious with
    ⟨-, ⟨-, heq⟩ | ⟨-, heq⟩⟩ | ⟨incoming, rest, -, hnew, hsub, hle, heq⟩
  · rw [heq]
    exact h
  · rw [heq]
    exact h.acceptCommit request
  · -- the first entry that the node does not have lies behind everything that is committed
    have hcommit : node.hardState.commitIndex < incoming.index := by
      by_contra hle
      obtain ⟨habove, hterm⟩ := not_or.mp hnew
      exact hterm (hagrees incoming (hsub.subset List.mem_cons_self) (not_le.mp habove) (not_lt.mp hle))
    have hmerged : SoundFrom start (node.mergedFrom incoming rest) :=
      ⟨h.1.mergedFrom hnew hle hcommit fun e he => hvalid e (hsub.subset he), { h.2 with }⟩
    rw [heq]
    split_ifs
    · exact SoundFrom.acceptCommit ⟨hmerged.1.persistLog, { hmerged.2 with }⟩ request
    · exact ⟨by decide, fun _ => hmerged⟩

/-- What stays behind an installed snapshot follows it, and reaches what is committed. -/
theorem keepBehind_retained (h : Sound node)
    (hreach : snapshotIndex node.snapshot ≤ request.lastIncludedIndex)
    (hagrees : request.lastIncludedIndex ≤ node.hardState.commitIndex →
      node.termAt request.lastIncludedIndex = some request.lastIncludedTerm) :
    Retained request.lastIncludedIndex (node.keepBehind request).log ∧
      (node.keepBehind request).log ⊆ node.log ∧
      node.hardState.commitIndex ≤ request.lastIncludedIndex + (node.keepBehind request).log.length := by
  have hlast := h.retained.lastLogIndex_eq
  have hcommit := h.commit_le
  unfold keepBehind
  by_cases hheld : node.termAt request.lastIncludedIndex = some request.lastIncludedTerm
  · rw [if_pos hheld]
    dsimp only
    rw [eraseThrough_eq h.retained hreach]
    have hdrop := h.retained.drop (request.lastIncludedIndex - snapshotIndex node.snapshot)
    rw [Nat.add_sub_cancel' hreach] at hdrop
    refine ⟨hdrop, fun e he => List.mem_of_mem_drop he, ?_⟩
    rw [List.length_drop]
    omega
  · rw [if_neg hheld]
    refine ⟨retained_nil _, List.nil_subset _, ?_⟩
    by_contra hover
    exact hheld (hagrees (by simp at hover; omega))

theorem SoundFrom.installAccepted (h : SoundFrom start node) (hpos : 1 ≤ request.lastIncludedIndex)
    (hreach : snapshotIndex node.snapshot ≤ request.lastIncludedIndex)
    (hagrees : request.lastIncludedIndex ≤ node.hardState.commitIndex →
      node.termAt request.lastIncludedIndex = some request.lastIncludedTerm)
    (haccepted : Accepted request.payload) (hfits : request.payload.length ≤ uint32Max) :
    Ends (fun _ => SoundFrom start) (ThrowsFrom start)
      (installAccepted keyValueStateMachine request node) := by
  obtain ⟨hretained, hsub, hcommit⟩ := keepBehind_retained h.1 hreach hagrees
  refine (installAccepted_spec keyValueStateMachine node request).mono (fun _ s hs => ?_) fun e s hs => ?_
  · obtain ⟨-, -, machine, -, -, rfl⟩ := hs
    have hhard : (node.keepBehind request).hardState = node.hardState := by rw [keepBehind_eq_log]
    refine ⟨⟨⟨hretained, fun e he => h.1.valid e (hsub he), le_max_right _ _, ?_, ?_, rfl, ?_⟩, rfl⟩,
      ⟨h.2.snapshot.trans hreach, ?_, ?_⟩⟩
    · show max (node.keepBehind request).hardState.lastApplied _ ≤ max _ _
      exact max_le_max (hhard ▸ h.1.applied_le) le_rfl
    · refine le_of_le_of_eq ?_ (Retained.lastLogIndex_eq ?_).symm
      · exact max_le (hhard ▸ hcommit) (Nat.le_add_right _ _)
      · exact hretained
    · exact fun e he => h.1.toWorking.diskLog_of_log e (hsub he)
    · exact le_max_of_le_left (hhard ▸ h.2.applied)
    · exact le_max_of_le_left (hhard ▸ h.2.commit)
  · rcases hs with ⟨hzero | hlarge, -⟩ | ⟨-, -, machine, hthrown, -⟩
    · omega
    · omega
    · have haccepts : (keyValueStateMachine.installSnapshot request.payload node.machine).1 = .ok () :=
        haccepted
      rw [hthrown] at haccepts
      cases haccepts

end Requests

/-! ## Restarting -/

section Restart

variable {e : Error} {decoder : Decoder}
variable {options : RaftNodeOptions}

/-- The errors of a decoder are its own. -/
theorem Decoder.read_foreign {count : Nat} (h : Decoder.read decoder count = .error e) :
    e ∉ lostEntry := by
  unfold Decoder.read at h
  split_ifs at h
  obtain rfl := Except.error.inj h
  decide

theorem Decoder.readU32_foreign (h : Decoder.readU32 decoder = .error e) : e ∉ lostEntry := by
  unfold Decoder.readU32 at h
  cases hread : decoder.read 4 with
  | error e' =>
    rw [hread] at h
    obtain rfl := Except.error.inj h
    exact Decoder.read_foreign hread
  | ok bytes =>
    rw [hread] at h
    cases h

theorem Decoder.readU64_foreign (h : Decoder.readU64 decoder = .error e) : e ∉ lostEntry := by
  unfold Decoder.readU64 at h
  cases hread : decoder.read 8 with
  | error e' =>
    rw [hread] at h
    obtain rfl := Except.error.inj h
    exact Decoder.read_foreign hread
  | ok bytes =>
    rw [hread] at h
    cases h

theorem Decoder.readBytes_foreign (h : Decoder.readBytes decoder = .error e) : e ∉ lostEntry := by
  unfold Decoder.readBytes at h
  cases hsize : decoder.readU32 with
  | error e' =>
    rw [hsize] at h
    obtain rfl := Except.error.inj h
    exact Decoder.readU32_foreign hsize
  | ok size =>
    rw [hsize] at h
    exact Decoder.read_foreign h

theorem validateKey_foreign {key : Bytes} (h : validateKey key = .error e) : e ∉ lostEntry := by
  unfold validateKey at h
  split_ifs at h <;> obtain rfl := Except.error.inj h <;> decide

theorem validateValue_foreign {value : Bytes} (h : validateValue value = .error e) :
    e ∉ lostEntry := by
  unfold validateValue at h
  split_ifs at h
  obtain rfl := Except.error.inj h
  decide

/-- Whatever a program of the machine throws is not one of the node's own errors. -/
def Foreign {α : Type} (program : Program Values Error α) : Prop :=
  ∀ values, Ends (fun _ _ => True) (fun e _ => e ∉ lostEntry) (program values)

theorem Foreign.bind {α β : Type} {m : Program Values Error α} {f : α → Program Values Error β}
    (hm : Foreign m) (hf : ∀ a, Foreign (f a)) : Foreign (m >>= f) :=
  fun values => Ends.bind (hm values) fun a values' _ => hf a values'

theorem Foreign.check {α : Type} {result : Except Error α}
    (h : ∀ e, result = .error e → e ∉ lostEntry) : Foreign (Program.check result) :=
  fun _ => Ends.check (fun _ _ => trivial) h

theorem Foreign.update (f : Values → Values) : Foreign (Program.update f) := fun _ => trivial

theorem applyCommands_foreign (entries : List LogEntry) : Foreign (applyCommands entries) := by
  induction entries with
  | nil => exact fun _ => trivial
  | cons entry rest ih =>
    refine Foreign.bind ?_ fun _ => ih
    unfold applyCommand
    cases entry.command.type with
    | Noop => exact fun _ => trivial
    | Put =>
      exact (Foreign.check fun _ => validateKey_foreign).bind fun _ =>
        (Foreign.check fun _ => validateValue_foreign).bind fun _ => Foreign.update _
    | Delete => exact (Foreign.check fun _ => validateKey_foreign).bind fun _ => Foreign.update _

theorem restoreEntries_foreign (count : Nat) (decoder : Decoder) :
    Foreign (restoreEntries count decoder) := by
  induction count generalizing decoder with
  | zero => exact fun _ => trivial
  | succ count ih =>
    unfold restoreEntries
    refine (Foreign.check fun _ => Decoder.readBytes_foreign).bind fun key => ?_
    refine (Foreign.check fun _ => Decoder.readBytes_foreign).bind fun value => ?_
    refine (Foreign.check fun _ => validateKey_foreign).bind fun _ => ?_
    refine (Foreign.check fun _ => validateValue_foreign).bind fun _ values => ?_
    rw [read_bind_apply]
    split_ifs
    · exact (by decide : Error.runtimeError "duplicate key in state machine snapshot" ∉ lostEntry)
    · exact (Foreign.update _).bind (fun _ => ih _) values

theorem restoreMap_foreign (payload : Bytes) : Foreign (restoreMap payload) := by
  unfold restoreMap
  refine (Foreign.check fun _ => Decoder.readU32_foreign).bind fun version => ?_
  dsimp only
  split_ifs
  · exact fun _ =>
      (by decide : Error.runtimeError "unsupported state machine snapshot version" ∉ lostEntry)
  refine (Foreign.check fun _ => Decoder.readU64_foreign).bind fun count => ?_
  refine (restoreEntries_foreign _ _).bind fun decoder => ?_
  split_ifs
  · exact fun _ => (by decide : Error.runtimeError "unexpected bytes in state machine snapshot" ∉ lostEntry)
  · exact fun _ => trivial

theorem recover_foreign (snapshot : Option Snapshot) (entries : List LogEntry) :
    Foreign (keyValueStateMachine.recover snapshot entries) := by
  refine (Foreign.update _).bind fun _ => Foreign.bind ?_ fun _ => applyCommands_foreign entries
  cases snapshot with
  | none => exact fun _ => trivial
  | some snapshot => exact restoreMap_foreign snapshot.payload

/-- A log that passes the constructor's check follows its snapshot. -/
theorem retained_of_contiguous {base : Nat} {front : LogEntry} {rest : List LogEntry}
    (hfront : front.index = base + 1) (hcontiguous : contiguous (front :: rest) = true)
    (hterm : ∀ e ∈ front :: rest, e.term ≠ 0) : Retained base (front :: rest) := by
  induction rest generalizing base front with
  | nil =>
    have hlast := (retained_nil base).concat (e := front) (by simpa using hfront)
      (hterm front List.mem_cons_self)
    simpa using hlast
  | cons next rest ih =>
    unfold contiguous at hcontiguous
    split_ifs at hcontiguous with hgap
    have hnext := @ih (base + 1) next (by omega) hcontiguous
      (List.forall_mem_cons.mp hterm).2
    intro i e he
    cases i with
    | zero =>
      obtain rfl : front = e := by simpa using he
      exact ⟨by omega, hterm front List.mem_cons_self⟩
    | succ i =>
      obtain ⟨hindex, hne⟩ := hnext i e (by simpa using he)
      exact ⟨by omega, hne⟩

theorem retained_of_checkLog {σ : Type} {node : RaftNode σ} (h : checkLog node = .ok ())
    (hterm : ∀ e ∈ node.log, e.term ≠ 0) : Retained (snapshotIndex node.snapshot) node.log := by
  unfold checkLog at h
  cases hlog : node.log with
  | nil => exact retained_nil _
  | cons front rest =>
    rw [hlog] at h hterm
    dsimp only at h
    split_ifs at h with hfront hcontiguous
    exact retained_of_contiguous (not_not.mp hfront) hcontiguous hterm

theorem validatePeers_foreign {self : NodeId} {peers : List Peer}
    (h : validatePeers self peers = .error e) : e ∉ lostEntry := by
  induction peers with
  | nil => cases h
  | cons peer rest ih =>
    unfold validatePeers at h
    split_ifs at h
    · obtain rfl := Except.error.inj h
      decide
    · obtain rfl := Except.error.inj h
      decide
    · exact ih h

theorem validateOptions_foreign (h : validateOptions options = .error e) : e ∉ lostEntry := by
  unfold validateOptions at h
  cases hpeers : validatePeers options.nodeId options.peers with
  | error e' =>
    rw [hpeers] at h
    split_ifs at h <;> obtain rfl := Except.error.inj h <;>
      first | exact validatePeers_foreign hpeers | decide
  | ok u =>
    rw [hpeers] at h
    dsimp only at h
    split_ifs at h <;> obtain rfl := Except.error.inj h <;> decide

/-- **The constructor** takes only files from which the counters come out in order, and leaves
`last_applied` at the commit index. -/
theorem construct_sound {disk : PersistentState} {machine : Values}
    (hlog : ∀ e ∈ disk.log, e.term ≠ 0 ∧ e.command.Valid) :
    Ends (fun _ node => Sound node ∧ node.snapshot = disk.snapshot ∧
        node.hardState.lastApplied = node.hardState.commitIndex ∧
        disk.hardState.commitIndex ≤ node.hardState.commitIndex)
      (fun e _ => e ∉ lostEntry) (construct keyValueStateMachine options disk machine) := by
  refine (construct_spec keyValueStateMachine options disk machine).mono (fun _ s hs => ?_)
    fun e s hs => ?_
  · obtain ⟨-, hcheck, hle, machine', -, rfl⟩ := hs
    have hretained := retained_of_checkLog hcheck fun e he => (hlog e he).1
    exact ⟨Working.persistHardState ⟨hretained, fun e he => (hlog e he).2, le_max_right _ _, le_rfl,
      hle, rfl, hlog⟩, rfl, rfl, le_max_left _ _⟩
  · rcases hs with hoptions | hcheck | ⟨-, rfl⟩ | ⟨machine', hrecover⟩
    · exact validateOptions_foreign hoptions
    · unfold checkLog at hcheck
      split at hcheck
      · cases hcheck
      · split_ifs at hcheck <;> obtain rfl := Except.error.inj hcheck <;> decide
    · decide
    · have hforeign := recover_foreign disk.snapshot (committedEntries disk) machine
      rw [hrecover] at hforeign
      exact hforeign

end Restart

/-! ## Whole runs -/

/-- The request contradicts nothing that is committed here, and a snapshot has an index. -/
def Stretch.Consistent (node : RaftNode Values) : Stretch → Prop
  | .handleAppendEntries request => AgreesWith node request.entries
  | .handleInstallSnapshot request =>
    1 ≤ request.lastIncludedIndex ∧
      (snapshotIndex node.snapshot < request.lastIncludedIndex →
        request.lastIncludedIndex ≤ node.hardState.commitIndex →
          node.termAt request.lastIncludedIndex = some request.lastIncludedTerm)
  | _ => True

/-- The state machine can take what the request carries. -/
def Stretch.Digestible : Stretch → Prop
  | .handleAppendEntries request => ∀ e ∈ request.entries, e.command.Valid
  | .handleInstallSnapshot request => Accepted request.payload
  | _ => True

/-- `submit` checks its command before it takes the lock, a snapshot that arrives fits into its file, and
no stretch throws because the state does not. -/
def Stretch.Saved (node : RaftNode Values) (stretch : Stretch) : Prop :=
  (∀ e, (stretch.run keyValueStateMachine node).1 = .error e →
    Fits (stretch.run keyValueStateMachine node).2.machine) ∧
    match stretch with
    | .submitAppend command => ∃ answer, validClientCommand command = .ok answer
    | .handleInstallSnapshot request => request.payload.length ≤ uint32Max
    | _ => True

/-- The node behind a stretch, which may have thrown; there is none behind a constructor that threw. -/
def Stretch.after (stretch : Stretch) (node : RaftNode Values) : Option (RaftNode Values) :=
  match stretch, stretch.run keyValueStateMachine node with
  | .restart _, (.error _, _) => none
  | _, (_, node') => some node'

variable {node : RaftNode Values}

theorem Stretch.after_eq {stretch : Stretch} (h : ∀ options, stretch ≠ .restart options) :
    stretch.after node = some (stretch.run keyValueStateMachine node).2 := by
  unfold Stretch.after
  split
  · exact absurd rfl (h _)
  · next heq => rw [heq]

theorem Stretch.step (h : Sound node) {stretch : Stretch} (hconsistent : stretch.Consistent node)
    (hdigestible : stretch.Digestible) (hsaved : stretch.Saved node) :
    (∀ e, (stretch.run keyValueStateMachine node).1 = .error e → e ∉ lostEntry) ∧
      ∀ node', stretch.after node = some node' → Sound node' ∧ Advances node node' := by
  by_cases hrestart : ∃ options, stretch = .restart options
  · obtain ⟨options, rfl⟩ := hrestart
    have hends := @construct_sound options node.disk node.machine h.diskLog
    have hrun : (Stretch.restart options).run keyValueStateMachine node =
        construct keyValueStateMachine options node.disk node.machine := rfl
    unfold Stretch.after
    rw [hrun]
    rcases hconstruct : construct keyValueStateMachine options node.disk node.machine with ⟨result, node'⟩
    rw [hconstruct] at hends
    cases result with
    | error e =>
      refine ⟨fun e' he => ?_, fun _ hafter => by cases hafter⟩
      obtain rfl := Except.error.inj he
      exact hends
    | ok _ =>
      refine ⟨fun e he => (by cases he), fun n hafter => ?_⟩
      obtain rfl : node' = n := Option.some.inj hafter
      obtain ⟨hsound, hsnapshot, happlied, hcommit⟩ := hends
      rw [h.diskCommit] at hcommit
      refine ⟨hsound, ?_, ?_, hcommit⟩
      · rw [hsnapshot, h.diskSnapshot]
      · rw [happlied]
        exact h.applied_le.trans hcommit
  -- every other stretch
  have hupheld := upheld_sound node
  have hfrom : SoundFrom node node := ⟨h, Advances.refl node⟩
  have hsteps : Ends (fun _ => SoundFrom node) (ThrowsFrom node)
      (stretch.run keyValueStateMachine node) := by
    refine hupheld.run hfrom ?_ ?_ ?_ fun options heq => absurd ⟨options, heq⟩ hrestart
    · rintro request rfl
      refine hupheld.handleAppendEntries hfrom fun hcontinues n hsame hn => ?_
      refine hn.acceptEntries ?_ ?_ hdigestible
      · rw [hsame.lastLogIndex]
        exact hcontinues.previous_le h.retained
      · intro e he habove hcommitted
        rw [hsame.termAt]
        exact hconsistent e he (hsame.snapshot ▸ habove) (hsame.commit ▸ hcommitted)
    · rintro request rfl
      refine hupheld.handleInstallSnapshot hfrom fun hnew n hsame hn => ?_
      have habove : snapshotIndex node.snapshot < request.lastIncludedIndex := by
        cases hs : node.snapshot with
        | none => exact hconsistent.1
        | some snapshot =>
          unfold HasSnapshot at hnew
          rw [hs] at hnew
          exact not_le.mp fun hle => hnew ⟨rfl, hle⟩
      refine hn.installAccepted hconsistent.1 (hsame.snapshot ▸ habove.le) (fun hcommitted => ?_)
        hdigestible hsaved.2
      rw [hsame.termAt]
      exact hconsistent.2 habove (hsame.commit ▸ hcommitted)
    · rintro command rfl
      obtain ⟨-, answer, hanswer⟩ := hsaved
      exact valid_of_validClientCommand hanswer
  have hfits := hsaved.1
  rw [Stretch.after_eq fun options heq => hrestart ⟨options, heq⟩]
  rcases hrun : stretch.run keyValueStateMachine node with ⟨result, node'⟩
  rw [hrun] at hsteps hfits
  cases result with
  | error e =>
    refine ⟨fun e' he => ?_, fun n hn => ?_⟩
    · obtain rfl := Except.error.inj he
      exact hsteps.1
    · obtain rfl := Option.some.inj hn
      exact hsteps.2 (hfits e rfl)
  | ok _ =>
    refine ⟨fun e he => (by cases he), fun n hn => ?_⟩
    obtain rfl := Option.some.inj hn
    exact hsteps

/-- The nodes that a run of such stretches can reach. -/
inductive Reached (start : RaftNode Values) : RaftNode Values → Prop
  | start : Reached start start
  | step {node node' : RaftNode Values} {stretch : Stretch} : Reached start node →
      stretch.Consistent node → stretch.Digestible → stretch.Saved node →
      stretch.after node = some node' → Reached start node'

theorem Reached.sound {start : RaftNode Values} (hstart : Sound start) (h : Reached start node) :
    Sound node := by
  induction h with
  | start => exact hstart
  | step _ hconsistent hdigestible hsaved hafter ih =>
    exact ((Stretch.step ih hconsistent hdigestible hsaved).2 _ hafter).1

/-- **The index invariant.** -/
theorem reached_indices {options : RaftNodeOptions} {machine : Values} {start node : RaftNode Values}
    (hstart : construct keyValueStateMachine options {} machine = (.ok (), start))
    (h : Reached start node) :
    Retained (snapshotIndex node.snapshot) node.log ∧
      snapshotIndex node.snapshot ≤ node.hardState.lastApplied ∧
      node.hardState.lastApplied ≤ node.hardState.commitIndex ∧
      node.hardState.commitIndex ≤ node.lastLogIndex ∧
      (∀ index, snapshotIndex node.snapshot < index →
        node.termAt index =
            (node.log.find? fun e => decide (e.index = index)).map LogEntry.term ∧
          node.entriesFrom index =
            (node.log.filter fun e => decide (index ≤ e.index)).take node.options.maxAppendEntries) ∧
      ∀ stretch : Stretch, stretch.Consistent node → stretch.Digestible → stretch.Saved node →
        (∀ e, (stretch.run keyValueStateMachine node).1 = .error e → e ∉ lostEntry) ∧
          ∀ node', stretch.after node = some node' → Advances node node' := by
  have hends := @construct_sound options {} machine (by simp)
  rw [hstart] at hends
  have hsound := Reached.sound hends.1 h
  refine ⟨hsound.retained, hsound.snapshot_le, hsound.applied_le, hsound.commit_le, ?_, ?_⟩
  · intro index habove
    rw [hsound.retained.termAt_above habove, hsound.retained.entriesFrom_eq habove,
      hsound.retained.find?_index habove, hsound.retained.filter_from habove]
    exact ⟨rfl, rfl⟩
  · intro stretch hconsistent hdigestible hsaved
    obtain ⟨herror, hafter⟩ := Stretch.step hsound hconsistent hdigestible hsaved
    exact ⟨herror, fun node' hnode => (hafter node' hnode).2⟩

/-- A new node with one peer. -/
def newNode : RaftNode Values :=
  (construct keyValueStateMachine ⟨[1], [⟨[2], [1]⟩], 300, 600, 75, 200, 128, 0⟩ {} OrderedMap.empty).2

theorem newNode_constructed :
    construct keyValueStateMachine ⟨[1], [⟨[2], [1]⟩], 300, 600, 75, 200, 128, 0⟩ {} OrderedMap.empty =
      (.ok (), newNode) :=
  Prod.ext (by decide +kernel) rfl

/-- One entry, committed at once. -/
def putRequest : AppendEntriesRequest := ⟨1, [2], 0, 0, [⟨1, 1, ⟨.Put, [1], [7]⟩⟩], 1⟩

def putNode : RaftNode Values :=
  ((Stretch.handleAppendEntries putRequest).run keyValueStateMachine newNode).2

theorem putNode_reached : Reached newNode putNode := by
  have hafter : (Stretch.handleAppendEntries putRequest).after newNode = some putNode :=
    Stretch.after_eq (by intro options heq; cases heq)
  refine Reached.step Reached.start ?_ ?_ ⟨?_, trivial⟩ hafter
  · intro e _ _ hcommitted
    have hzero : newNode.hardState.commitIndex = 0 := by decide +kernel
    have habove : snapshotIndex newNode.snapshot = 0 := by decide +kernel
    omega
  · intro e he
    obtain rfl := List.mem_singleton.mp he
    exact ⟨⟨by decide, by decide⟩, by show [7].length ≤ _; decide⟩
  · have hreturns : ((Stretch.handleAppendEntries putRequest).run keyValueStateMachine newNode).1 =
        .ok () := by decide +kernel
    intro e herror
    rw [hreturns] at herror
    cases herror

theorem reached_indices_put : Retained (snapshotIndex putNode.snapshot) putNode.log ∧
    putNode.hardState.lastApplied ≤ putNode.hardState.commitIndex ∧
    putNode.hardState.lastApplied = 1 :=
  have h := reached_indices newNode_constructed putNode_reached
  ⟨h.1, h.2.2.1, by decide +kernel⟩

/-- A snapshot without a payload. -/
def emptySnapshot : InstallSnapshotRequest := ⟨1, [2], 5, 1, []⟩

/-- A committed entry with an empty key. -/
def emptyKeyRequest : AppendEntriesRequest := ⟨1, [2], 0, 0, [⟨1, 1, ⟨.Put, [], [7]⟩⟩], 1⟩

/-- The empty payload leaves `last_applied` behind the snapshot. The empty key leaves a commit index that
a restart does not find again. -/
theorem refused_requests_break_indices :
    ((Stretch.handleInstallSnapshot emptySnapshot).Consistent newNode ∧
      ∃ node, (Stretch.handleInstallSnapshot emptySnapshot).after newNode = some node ∧
        node.hardState.lastApplied < snapshotIndex node.snapshot) ∧
    (Stretch.handleAppendEntries emptyKeyRequest).Consistent newNode ∧
      ∃ node node', (Stretch.handleAppendEntries emptyKeyRequest).after newNode = some node ∧
        (Stretch.restart newNode.options).after node = some node' ∧
        node'.hardState.commitIndex < node.hardState.commitIndex := by
  refine ⟨⟨⟨by decide, fun _ hcommitted => ?_⟩, _,
    Stretch.after_eq (by intro options heq; cases heq), by decide +kernel⟩, ?_, _, _,
    Stretch.after_eq (by intro options heq; cases heq), rfl, by decide +kernel⟩
  · have hzero : newNode.hardState.commitIndex = 0 := by decide +kernel
    rw [hzero] at hcommitted
    cases hcommitted
  · intro e _ habove hcommitted
    have hzero : newNode.hardState.commitIndex = 0 := by decide +kernel
    omega

end NebulaKV.Raft.RaftNode
