/-
# Committing, applying, snapshotting

The tail of every stretch that raises the commit index: `commitTo` sets it, applies what has become
applicable, makes a snapshot when enough has been applied, and writes the hard state. None of it moves
the history; the node only catches up with what is already decided, and a crash anywhere in it leaves a
disk that fits.
-/
import NebulaKV.Raft.Tracking

namespace NebulaKV.Raft

open Consensus Effects Program Containers RaftNode

variable {σ : Type} {members : Membership} {mode : Mode σ} {n : NodeId} {a a₀ : History}
  {sm : StateMachine σ} {node : RaftNode σ}

section

variable (h : Tracks members mode n a₀ a node)
include h

/-- The state machine was called, and what it observed is still fine. -/
theorem Tracks.called {machine : σ} (hm : mode.machineOK a machine)
    : Tracks members mode n a₀ a (node.called machine) :=
  { h with
    memory := { h.memory with leader := fun hr => (h.memory.leader hr).same rfl rfl }
    machine := hm
    journal := h.journal.append h.moves (fun _ => h.diskOK) hm }

/-- More entries were applied. -/
theorem Tracks.setLastApplied {i : Nat} (hi : Decided mode a n i) :
    Tracks members mode n a₀ a
      { node with hardState := { node.hardState with lastApplied := i } } :=
  { h with
    memory :=
      { h.memory with
        hard := { h.memory.hard with applied := hi }
        leader := fun hr => (h.memory.leader hr).same rfl rfl } }

theorem Tracks.setCommitIndex {c : Nat} (hc : Decided mode a n c)
    (hcommits : node.role = .Leader → ∀ c', a.committed (a.term n) c' → c' ≤ c) :
    Tracks members mode n a₀ a
      { node with hardState := { node.hardState with commitIndex := c } } :=
  { h with
    memory :=
      { h.memory with
        hard := { h.memory.hard with commit := hc }
        leader := fun hr =>
          have hl := h.memory.leader hr
          ⟨hl.chosen, hl.log, hl.matched, hcommits hr⟩ } }

/-! ## Snapshots -/

/-- The snapshot goes to its file while the log's file still holds what it covers; then the log. -/
theorem Tracks.snapshot {term : Nat} {payload : Bytes} (hpos : 0 < node.hardState.lastApplied)
    (hnew : snapshotIndex node.snapshot < node.hardState.lastApplied)
    (hterm : termBefore (a.log n) node.hardState.lastApplied = some term)
    (hfits : payload.length ≤ uint32Max) :
    Tracks members mode n a₀ a (node.snapshotted term payload) := by
  have hlen := termBefore_isSome hterm
  rw [termBefore, if_neg (by omega)] at hterm
  have hlogs := h.memory.logs.advance (s := ⟨node.hardState.lastApplied, term, payload⟩) h.indexed hnew.le
    hlen hpos hterm hfits
  refine Tracks.persistLog h.sane h.moves ?_ rfl h.hard h.machine ?_
  · exact
      { nodeId := h.memory.nodeId
        peers := h.memory.peers
        hard := h.memory.hard
        logs := hlogs
        decided := h.memory.hard.applied
        candidate := h.memory.candidate
        leader := fun hr => (h.memory.leader hr).same rfl rfl }
  · have hne : node.disk.log ≠ [] := by
      rw [h.saved.1, h.memory.logs.log_eq]
      intro hnil
      have := congrArg List.length hnil
      simp only [List.length_drop, List.length_nil] at this
      omega
    refine h.journal.append h.moves (fun hwhole => ⟨h.hard, Or.inr ⟨fun hw => ?_,
      snapshotIndex node.snapshot, hnew, ?_, hne⟩⟩) h.machine
    · exact hwhole hw ⟨rfl, hne⟩
    · exact h.saved.1.trans h.memory.logs.log_eq

end

/-- What the tail does not touch. -/
structure SameRole (node node' : RaftNode σ) : Prop where
  role : node'.role = node.role
  hardState : node'.hardState = node.hardState

theorem maybeCreateSnapshot_tracks (h : Tracks members mode n a₀ a node) :
    Outcome (fun _ s => Tracks members mode n a₀ a s ∧ SameRole node s)
      (fun s => Tracks members mode n a₀ a s ∧ SameRole node s) (maybeCreateSnapshot sm node) := by
  refine ((maybeCreateSnapshot_spec sm node).mono (fun _ s hs => ?_) fun _ _ hs => hs).outcome ?_
  · rcases hs with ⟨-, rfl⟩ | ⟨term, payload, hmade, rfl⟩
    · exact ⟨h, rfl, rfl⟩
    -- the snapshot is new: its index has a term, and is not the old snapshot's
    have hpos := Nat.pos_of_ne_zero hmade.due.2.1
    have hge : snapshotIndex node.snapshot ≤ node.hardState.lastApplied := by
      by_contra hlt
      have hterm := hmade.term_eq
      rw [termAt_covered hpos (not_le.mp hlt)] at hterm
      cases hterm
    have hterm := hmade.term_eq
    rw [termAt_eq h.memory.logs h.indexed hge] at hterm
    exact ⟨h.snapshot hpos (lt_of_le_of_ne hge hmade.due.ne.symm) hterm hmade.fits, rfl, rfl⟩
  · rintro e s ⟨-, rfl⟩
    exact ⟨h, rfl, rfl⟩

/-! ## The apply loop -/

/-- What stays as it is while entries are applied. -/
structure Applying (mode : Mode σ) (members : Membership) (n : NodeId) (a₀ a : History)
    (role : Role) (c : Nat) (s : RaftNode σ) : Prop where
  tracks : Tracks members mode n a₀ a s
  role : s.role = role
  commit : s.hardState.commitIndex = c

theorem applyNext_tracks (hsound : mode.Sound sm) {role : Role} {c : Nat}
    (hlen : c ≤ (a.log n).length) (h : Applying mode members n a₀ a role c node)
    (hun : hasUnapplied node = true) :
    Outcome
      (fun _ s => Applying mode members n a₀ a role c s ∧
        c - s.hardState.lastApplied < c - node.hardState.lastApplied)
      (fun s => Applying mode members n a₀ a role c s ∧ Settled mode s) (applyNext sm node) := by
  obtain ⟨ht, hrole, hcommit⟩ := h
  have hlt : node.hardState.lastApplied < c := by
    rw [← hcommit]
    simpa [hasUnapplied] using hun
  have hdecided : Decided mode a n c := hcommit ▸ ht.memory.hard.commit
  have hentry : snapshotIndex node.snapshot ≤ node.hardState.lastApplied →
      node.log[node.hardState.lastApplied - snapshotIndex node.snapshot]? =
        (a.log n)[node.hardState.lastApplied]? := by
    intro hbase
    rw [ht.memory.logs.log_eq, List.getElem?_drop, Nat.add_sub_cancel' hbase]
  have hmachine : ∀ entry, (a.log n)[node.hardState.lastApplied]? = some entry →
      mode.machineOK a (sm.apply entry node.machine).2 := fun entry hget =>
    hsound.apply ht.sane (hdecided.le (Nat.succ_le_of_lt hlt)) hget ht.machine
  refine ((applyNext_spec sm node).mono (fun _ s hs => ?_) fun _ _ hs => hs).outcome ?_
  · rcases hs with ⟨hbefore, rfl⟩ | ⟨hbase, entry, machine, hget, hcall, rfl⟩
    · exact ⟨⟨ht.setLastApplied ht.memory.decided, hrole, hcommit⟩, Nat.sub_lt_sub_left hlt hbefore⟩
    · rw [hentry hbase] at hget
      have hm := hmachine entry hget
      rw [hcall] at hm
      exact ⟨⟨(ht.called hm).setLastApplied (hdecided.le hlt), hrole, hcommit⟩,
        Nat.sub_lt_sub_left hlt (Nat.lt_succ_self _)⟩
  · rintro e s ⟨hbase, ⟨hnone, -⟩ | ⟨entry, machine, hget, hcall, rfl⟩⟩
    · rw [hentry hbase, List.getElem?_eq_none_iff] at hnone
      omega
    · -- a machine that accepts everything does not throw here
      rw [hentry hbase] at hget
      have hm := hmachine entry hget
      rw [hcall] at hm
      refine ⟨⟨ht.called hm, hrole, hcommit⟩, fun htotal => ?_⟩
      obtain ⟨hindex, hterm, hvalid⟩ := ht.indexed _ _ hget
      have haccepts := hsound.accepts htotal entry node.machine (by omega) hterm hvalid
      rw [hcall] at haccepts
      cases haccepts

/-- **Catching up.** -/
theorem commitTo_tracks (hsound : mode.Sound sm) {c : Nat} (h : Tracks members mode n a₀ a node)
    (hc : Decided mode a n c) (hlen : c ≤ (a.log n).length)
    (hcommits : node.role = .Leader → ∀ c', a.committed (a.term n) c' → c' ≤ c) :
    Outcome (fun _ s => Applying mode members n a₀ a node.role c s ∧ Settled mode s)
      (fun s => Applying mode members n a₀ a node.role c s ∧ Settled mode s)
      (commitTo sm c node) := by
  refine Holds.update_bind (P := fun s => s = node) ?_ node rfl
  refine Holds.bind (M := fun _ s => Applying mode members n a₀ a node.role c s ∧ Settled mode s)
    ?_ fun _ => Holds.update ?_
  · refine Holds.read_bind fun s hs => ?_
    obtain ⟨s₀, rfl, rfl⟩ := hs
    have hstart : Applying mode members n a₀ a s₀.role c
        { s₀ with hardState := { s₀.hardState with commitIndex := c } } :=
      ⟨h.setCommitIndex hc hcommits, rfl, rfl⟩
    refine Holds.bind ((Holds.repeatWhile
        (I := fun s => Applying mode members n a₀ a s₀.role c s)
        (μ := fun s => c - s.hardState.lastApplied) ?_
        (fun s hs hun => applyNext_tracks hsound hlen hs hun) _).pre ?_) fun _ => ?_
    · intro s hs hun
      have : s.hardState.lastApplied < s.hardState.commitIndex := by simpa [hasUnapplied] using hun
      have := hs.commit
      omega
    · rintro s rfl
      exact ⟨hstart, le_rfl⟩
    · rintro s ⟨hs, hdone⟩
      have hsettled : s.hardState.commitIndex ≤ s.hardState.lastApplied := by
        simpa [hasUnapplied] using hdone
      have hkept : ∀ s', Tracks members mode n a₀ a s' ∧ SameRole s s' →
          Applying mode members n a₀ a s₀.role c s' ∧ Settled mode s' := by
        rintro s' ⟨ht, hsame⟩
        refine ⟨⟨ht, hsame.role.trans hs.role, by rw [hsame.hardState, hs.commit]⟩, fun _ => ?_⟩
        rw [hsame.hardState]
        exact hsettled
      exact (maybeCreateSnapshot_tracks hs.tracks).mono (fun _ s' => hkept s') fun s' => hkept s'
  · rintro s ⟨⟨ht, hrole, hcommit⟩, hsettled⟩
    exact ⟨⟨Tracks.persistHardState ht.sane ht.moves ht.memory ht.saved ht.machine ht.journal,
      hrole, hcommit⟩, hsettled⟩

end NebulaKV.Raft
