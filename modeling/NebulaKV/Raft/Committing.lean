/-
# A commit

`apply_committed_locked` applies what is committed and not yet applied (`toApply`) and makes a snapshot if one
is due; the hard state is saved behind it. With the key-value machine the outcome is known on every node whose
log follows its snapshot (`commitTo_ends`): the loop stops at the first command that the machine refuses, and
a snapshot that is due can be refused (`SnapshotRefused`). What was applied before stays applied.
-/
import NebulaKV.Raft.DurableMachine
import NebulaKV.Raft.RetainedLog

namespace NebulaKV.Raft.RaftNode

open Containers Effects Program
open DurableKeyValueStateMachine (effects)

/-- What is committed and not yet applied. -/
def toApply {σ : Type} (node : RaftNode σ) : List LogEntry :=
  between node.log node.hardState.lastApplied node.hardState.commitIndex

/-- A state that fits into a snapshot file. -/
def Fits (values : Values) : Prop := ∃ payload, encodeMap values = .ok payload ∧ payload.length ≤ uint32Max

/-- A snapshot is due that cannot be made: the log does not hold what it would end with, or the state does
not fit. -/
def SnapshotRefused (node : RaftNode Values) : Prop :=
  node.SnapshotDue ∧ (node.hardState.lastApplied < snapshotIndex node.snapshot ∨
    node.lastLogIndex < node.hardState.lastApplied ∨ ¬ Fits node.machine)

/-- The node with everything applied. -/
def caughtUp (node : RaftNode Values) : RaftNode Values :=
  { node with
    hardState := { node.hardState with
      lastApplied :=
        if node.hardState.lastApplied < node.hardState.commitIndex then
          max node.hardState.commitIndex (snapshotIndex node.snapshot)
        else node.hardState.lastApplied }
    machine := effects node.toApply node.machine }

/-- Among the committed entries is one that the machine refuses, or a snapshot is refused behind them. -/
def CommitThrows (node : RaftNode Values) : Prop :=
  (∃ entry ∈ node.toApply, ¬ entry.command.Valid) ∨ node.caughtUp.SnapshotRefused

/-- Nothing is applied: there is nothing to apply, or the first entry is refused. -/
def AppliesNothing (node : RaftNode Values) : Prop :=
  node.hardState.lastApplied < node.hardState.commitIndex →
    snapshotIndex node.snapshot ≤ node.hardState.lastApplied ∧
      ∃ entry, node.toApply.head? = some entry ∧ ¬ entry.command.Valid

variable {node : RaftNode Values}

/-! ## Applying -/

section

variable (h : ¬ node.hardState.lastApplied < node.hardState.commitIndex)
include h

theorem toApply_of_not : node.toApply = [] := between_eq_nil h

theorem caughtUp_of_not : node.caughtUp = node := by
  unfold caughtUp
  rw [if_neg h, toApply_of_not h]
  rfl

/-- With nothing to apply the loop is at its end. -/
theorem caughtUp_done :
    (∀ entry ∈ node.toApply, entry.command.Valid) ∧
      ∃ journal, node = { node.caughtUp with journal := journal } :=
  ⟨fun _ he => (by rw [toApply_of_not h] at he; cases he), node.journal, by rw [caughtUp_of_not h]⟩

end

/-- Where there is something to apply, all of it is committed then. -/
theorem caughtUp_of_lt (h : node.hardState.lastApplied < node.hardState.commitIndex) :
    node.caughtUp = node.reached (max node.hardState.commitIndex (snapshotIndex node.snapshot))
      (effects node.toApply node.machine) node.journal := by
  unfold caughtUp
  rw [if_pos h]
  rfl

/-- What the snapshot covers is passed over, and the end is the same. -/
theorem skip_caughtUp (h : node.Retains)
    (hlt : node.hardState.lastApplied < node.hardState.commitIndex)
    (hbefore : node.hardState.lastApplied ≤ snapshotIndex node.snapshot) {next : RaftNode Values}
    (hnext : next = node.reached (snapshotIndex node.snapshot) node.machine node.journal) :
    next.toApply = node.toApply ∧ ∀ journal, ({ next.caughtUp with journal := journal } :
      RaftNode Values) = { node.caughtUp with journal := journal } := by
  subst hnext
  set next := node.reached (snapshotIndex node.snapshot) node.machine node.journal
  have htoApply : next.toApply = node.toApply := (h.between_base hbefore).symm
  refine ⟨htoApply, fun journal => ?_⟩
  rw [caughtUp_of_lt hlt]
  by_cases hmore : next.hardState.lastApplied < next.hardState.commitIndex
  · rw [caughtUp_of_lt hmore, htoApply]
    rfl
  · have hmax : max node.hardState.commitIndex (snapshotIndex node.snapshot) =
        snapshotIndex node.snapshot := max_eq_right (not_lt.mp hmore)
    rw [caughtUp_of_not hmore, hmax, ← htoApply, toApply_of_not hmore]
    rfl

/-- An entry is applied, and the end is the same. -/
theorem apply_caughtUp (hlt : node.hardState.lastApplied < node.hardState.commitIndex)
    (hbase : snapshotIndex node.snapshot ≤ node.hardState.lastApplied) {entry : LogEntry}
    {next : RaftNode Values} {marks : List (Mark Values)}
    (hnext : next = node.reached (node.hardState.lastApplied + 1) (entry.command.effect node.machine)
      marks)
    (hcons : node.toApply = entry :: next.toApply) (journal : List (Mark Values)) :
    ({ next.caughtUp with journal := journal } : RaftNode Values) =
      { node.caughtUp with journal := journal } := by
  have heffects : effects node.toApply node.machine = effects next.toApply next.machine := by
    rw [hcons, hnext]
    rfl
  rw [caughtUp_of_lt hlt, heffects]
  subst hnext
  by_cases hmore : node.hardState.lastApplied + 1 < node.hardState.commitIndex
  · rw [caughtUp_of_lt hmore]
    rfl
  · have hend : max node.hardState.commitIndex (snapshotIndex node.snapshot) =
        node.hardState.lastApplied + 1 := by
      rw [max_eq_left (by omega)]
      omega
    rw [caughtUp_of_not hmore, toApply_of_not hmore, hend]
    rfl

/-- Where a loop has stopped that threw. -/
def StopsEarly (node s : RaftNode Values) : Prop :=
  (∃ entry ∈ node.toApply, ¬ entry.command.Valid) ∧
    ∃ applied machine journal, s = node.reached applied machine journal ∧
      node.hardState.lastApplied ≤ applied ∧
      (applied = node.hardState.lastApplied → machine = node.machine) ∧
      (applied = node.hardState.lastApplied ↔ node.AppliesNothing)

/-- A loop that stops behind a first step has applied something. -/
theorem StopsEarly.after {next s : RaftNode Values} (h : next.StopsEarly s) {applied : Nat}
    {machine : Values} {journal : List (Mark Values)} (hnext : next = node.reached applied machine journal)
    (hmoved : node.hardState.lastApplied < applied)
    (hsub : ∀ entry ∈ next.toApply, entry ∈ node.toApply) (hsome : ¬ node.AppliesNothing) :
    node.StopsEarly s := by
  obtain ⟨⟨entry, hmem, hbad⟩, applied', machine', journal', rfl, hge, -, -⟩ := h
  subst hnext
  have hmoved' : node.hardState.lastApplied < applied' := hmoved.trans_le hge
  exact ⟨⟨entry, hsub entry hmem, hbad⟩, applied', machine', journal', rfl, hmoved'.le,
    fun heq => absurd heq hmoved'.ne', fun heq => absurd heq hmoved'.ne', fun h' => absurd h' hsome⟩

/-- The machine takes an entry of the log exactly if its command is valid. -/
theorem Retained.apply_ends (h : node.Retains) {i : Nat} {entry : LogEntry}
    (hget : node.log[i]? = some entry) (values : Values) :
    Outcome (fun _ s => entry.command.Valid ∧ s = entry.command.effect values)
      (fun s => ¬ entry.command.Valid ∧ s = values) (keyValueStateMachine.apply entry values) := by
  obtain ⟨hindex, hterm⟩ := h i entry hget
  have happly : keyValueStateMachine.apply entry = applyCommand entry.command := if_neg (by omega)
  rw [happly]
  exact applyCommand_outcome entry.command values

/-- **The loop that applies** comes to the end if every entry is valid, and otherwise stops at the first that
is not. -/
theorem applyLoop_ends (h : node.Retains)
    (hle : node.hardState.commitIndex ≤ node.lastLogIndex) {fuel : Nat}
    (hfuel : node.hardState.commitIndex - node.hardState.lastApplied ≤ fuel) :
    Ends (fun _ s => (∀ entry ∈ node.toApply, entry.command.Valid) ∧
        ∃ journal, s = { node.caughtUp with journal := journal })
      (fun _ s => node.StopsEarly s)
      (repeatWhile hasUnapplied (applyNext keyValueStateMachine) fuel node) := by
  induction fuel generalizing node with
  | zero => exact caughtUp_done (by omega)
  | succ fuel ih =>
    rw [repeatWhile, read_bind_apply]
    by_cases hun : hasUnapplied node = true
    swap
    · rw [if_neg hun]
      exact caughtUp_done (by simpa [hasUnapplied] using hun)
    have hlt : node.hardState.lastApplied < node.hardState.commitIndex := by
      simpa [hasUnapplied] using hun
    have hlast := h.lastLogIndex_eq
    rw [if_pos hun]
    -- the next entry is in the log
    have hnext : snapshotIndex node.snapshot ≤ node.hardState.lastApplied → ∃ entry,
        node.log[node.hardState.lastApplied - snapshotIndex node.snapshot]? = some entry ∧
          node.toApply = entry :: between node.log (node.hardState.lastApplied + 1)
            node.hardState.commitIndex := fun hbase => h.between_cons hbase hlt (by omega)
    refine Ends.bind ((applyNext_spec keyValueStateMachine node).mono (fun _ _ hs => hs)
      fun e s hs => ?_) fun _ next hs => ?_
    · obtain ⟨hbase, ⟨hnone, -⟩ | ⟨entry, machine, hget, hrun, rfl⟩⟩ := hs
      · obtain ⟨entry, hget, -⟩ := hnext hbase
        rw [hnone] at hget
        cases hget
      · obtain ⟨first, hfirst, htoApply⟩ := hnext hbase
        obtain rfl := Option.some.inj (hget.symm.trans hfirst)
        obtain ⟨hbad, rfl⟩ := (h.apply_ends hget node.machine).of_throw hrun
        exact ⟨⟨entry, htoApply ▸ List.mem_cons_self, hbad⟩, _, _, _, rfl, le_rfl, fun _ => rfl,
          fun _ _ => ⟨hbase, entry, by rw [htoApply]; rfl, hbad⟩, fun _ => rfl⟩
    rcases hs with ⟨hbefore, rfl⟩ | ⟨hbase, entry, machine, hget, hrun, rfl⟩
    · set next := node.reached (snapshotIndex node.snapshot) node.machine node.journal with hnext
      obtain ⟨htoApply, hcaught⟩ := skip_caughtUp h hlt hbefore.le hnext
      refine (@ih next h hle (by
        show node.hardState.commitIndex - snapshotIndex node.snapshot ≤ fuel
        omega)).mono (fun _ s hs => ?_) fun _ s hs => ?_
      · obtain ⟨hvalid, journal, rfl⟩ := hs
        exact ⟨htoApply ▸ hvalid, journal, hcaught journal⟩
      · refine hs.after hnext hbefore (fun entry hentry => htoApply ▸ hentry) fun hnothing => ?_
        exact absurd (hnothing hlt).1 (not_le.mpr hbefore)
    · obtain ⟨first, hfirst, hcons⟩ := hnext hbase
      obtain rfl := Option.some.inj (hget.symm.trans hfirst)
      have hcommand := h.apply_ends hget node.machine
      rw [hrun] at hcommand
      obtain ⟨hvalid, rfl⟩ := hcommand
      set next := node.advanced (entry.command.effect node.machine)
      have hcons : node.toApply = entry :: next.toApply := hcons
      refine (@ih next h hle (by
        show node.hardState.commitIndex - (node.hardState.lastApplied + 1) ≤ fuel
        omega)).mono (fun _ s hs => ?_) fun _ s hs => ?_
      · obtain ⟨hall, journal, rfl⟩ := hs
        exact ⟨hcons ▸ List.forall_mem_cons.mpr ⟨hvalid, hall⟩, journal,
          apply_caughtUp hlt hbase rfl hcons journal⟩
      · refine hs.after rfl (Nat.lt_succ_self _)
          (fun other hother => hcons ▸ List.mem_cons_of_mem _ hother) fun hnothing => ?_
        obtain ⟨-, first, hfirst, hrefused⟩ := hnothing hlt
        rw [hcons] at hfirst
        obtain rfl := Option.some.inj hfirst
        exact hrefused hvalid

/-! ## The snapshot -/

theorem SnapshotFails.refused {e : Error} (h : SnapshotFails keyValueStateMachine node e)
    (hretained : node.Retains) : node.SnapshotRefused := by
  obtain ⟨hdue, hnone | herror | ⟨payload, hok, hlarge, -⟩⟩ := h
  · exact ⟨hdue, ((hretained.termAt_eq_none_iff hdue.2.1).mp hnone).imp_right Or.inl⟩
  · refine ⟨hdue, Or.inr (Or.inr ?_)⟩
    rintro ⟨payload, hok, -⟩
    cases herror.symm.trans hok
  · refine ⟨hdue, Or.inr (Or.inr ?_)⟩
    rintro ⟨payload', hok', hfits⟩
    obtain rfl := Except.ok.inj (hok.symm.trans hok')
    omega

theorem Snapshots.not_refused {term : Nat} {payload : Bytes}
    (h : Snapshots keyValueStateMachine node term payload) (hretained : node.Retains)
    : ¬ node.SnapshotRefused := by
  rintro ⟨-, hout⟩
  rcases or_assoc.mpr hout with hout | hlarge
  · have hnone := (hretained.termAt_eq_none_iff h.due.2.1).mpr hout
    cases hnone.symm.trans h.term_eq
  · exact hlarge ⟨payload, h.payload_eq, h.fits⟩

/-! ## The commit -/

/-- What a commit that returns leaves: everything applied, perhaps a new snapshot, and the hard state
saved. -/
def CommitEnds (node s : RaftNode Values) : Prop :=
  ∃ journal, s = persistHardState { node.caughtUp with journal := journal } ∨
    ∃ term payload,
      Snapshots keyValueStateMachine { node.caughtUp with journal := journal } term payload ∧
        s = persistHardState (snapshotted { node.caughtUp with journal := journal } term payload)

/-- **A commit** throws exactly if an entry or a snapshot is refused. -/
theorem commitTo_ends {n : RaftNode Values} {index : Nat}
    (h : n.Retains) (hle : index ≤ n.lastLogIndex)
    (hnode : node = { n with hardState := { n.hardState with commitIndex := index } }) :
    Ends (fun _ s => ¬ node.CommitThrows ∧ node.CommitEnds s)
      (fun e s => node.StopsEarly s ∨ (∀ entry ∈ node.toApply, entry.command.Valid) ∧
        SnapshotFails keyValueStateMachine s e ∧ ∃ journal, s = { node.caughtUp with journal := journal })
      (commitTo keyValueStateMachine index n) := by
  have hretained : node.Retains := by
    subst hnode
    exact h
  have hlast : node.hardState.commitIndex ≤ node.lastLogIndex := by
    subst hnode
    exact hle
  unfold commitTo applyCommitted
  rw [update_bind_apply, ← hnode, bind_apply, read_bind_apply, ← bind_apply]
  refine Ends.bind (M := fun _ s => (∀ entry ∈ node.toApply, entry.command.Valid) ∧
    ∃ journal, s = { node.caughtUp with journal := journal } ∧ ¬ s.SnapshotRefused ∨
      ∃ term payload,
        Snapshots keyValueStateMachine { node.caughtUp with journal := journal } term payload ∧
          s = snapshotted { node.caughtUp with journal := journal } term payload) ?_ fun _ s hs => ?_
  · refine Ends.bind ((applyLoop_ends hretained hlast le_rfl).mono (fun _ _ hs => hs)
      fun _ _ hs => Or.inl hs) fun _ s hs => ?_
    obtain ⟨hvalid, journal, rfl⟩ := hs
    refine (maybeCreateSnapshot_spec keyValueStateMachine _).mono (fun _ s hs => ⟨hvalid, journal, ?_⟩)
      fun e s hs => Or.inr ⟨hvalid, ?_⟩
    · rcases hs with ⟨hidle, rfl⟩ | hmade
      · exact Or.inl ⟨rfl, fun hrefused => hidle hrefused.1⟩
      · exact Or.inr hmade
    · obtain ⟨hfails, rfl⟩ := hs
      exact ⟨hfails, journal, rfl⟩
  · obtain ⟨hvalid, journal, ⟨rfl, hnot⟩ | ⟨term, payload, hmade, rfl⟩⟩ := hs
    · refine ⟨?_, journal, Or.inl rfl⟩
      rintro (⟨entry, hmem, hbad⟩ | hrefused)
      · exact hbad (hvalid entry hmem)
      · exact hnot hrefused
    · refine ⟨?_, journal, Or.inr ⟨term, payload, hmade, rfl⟩⟩
      rintro (⟨entry, hmem, hbad⟩ | hrefused)
      · exact hbad (hvalid entry hmem)
      · exact hmade.not_refused hretained hrefused

end NebulaKV.Raft.RaftNode
