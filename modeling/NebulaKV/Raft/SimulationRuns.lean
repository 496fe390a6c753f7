/-
# Runs keep the cluster on its history

Every step of the cluster is one of the actions treated before, so the simulation holds along every run
(`Sim.reaches`).

Two kinds of steps can be left out by a condition on runs: an `AppendEntries` that commits a part of the
follower's log that was not compared (`OverCommits`), and a `submit` that finds its index committed when
its node no longer leads in the entry's term (`AnswersLate`). Whether they are is up to the `Mode`.
-/
import NebulaKV.Raft.SimulationThreads

namespace NebulaKV.Raft

open Consensus Effects Program Containers RaftNode

variable {σ : Type} {members : Membership} {mode : Mode σ} {n : NodeId} {a a' a₀ : History}
  {sm : StateMachine σ} {node : RaftNode σ} {c : Cluster σ} {e : Effect σ} {threads : List Thread}
variable {Allowed : Cluster σ → Label → Prop} {machine : NodeId → σ}

/-! ## Runs -/

/-- An `AppendEntries` is handled that commits a part of the follower's log that it did not compare. -/
def Cluster.OverCommits (c : Cluster σ) : Label → Prop
  | .run (.deliver number) | .crash (.deliver number) _ =>
    match c.calls[number]? with
    | none => False
    | some call =>
      match call.request, c.process call.destination with
      | .append request, .up node _ => node.OverCommits request
      | _, _ => False
  | _ => False

/-- A `submit` finds the commit index at its entry's index, but its node does not lead in the entry's
term any more. -/
def Cluster.AnswersLate (c : Cluster σ) : Label → Prop
  | .run (.resume id number _) | .crash (.resume id number _) _ =>
    match c.process id with
    | .down _ _ => False
    | .up node threads =>
      match threads[number]? with
      | some (.check (.submit entryIndex entryTerm _) _) =>
        entryIndex ≤ node.hardState.commitIndex ∧
          ¬ (node.role = .Leader ∧ node.hardState.currentTerm = entryTerm)
      | _ => False
  | _ => False

instance (c : Cluster σ) (label : Label) : Decidable (c.OverCommits label) := by
  unfold Cluster.OverCommits
  repeat' split
  all_goals infer_instance

instance (c : Cluster σ) (label : Label) : Decidable (c.AnswersLate label) := by
  unfold Cluster.AnswersLate
  repeat' split
  all_goals infer_instance

/-- The process ends right after it has replaced the snapshot's file, with entries in the log's. -/
def Cluster.Tears (sm : StateMachine σ) (members : Membership) (c : Cluster σ) : Label → Prop
  | .crash action (effects + 1) =>
    match c.perform sm members action with
    | none => False
    | some e =>
      match e.after.journal[effects]? with
      | some mark => mark.Tears
      | none => False
  | _ => False

instance (c : Cluster σ) (label : Label) : Decidable (c.Tears sm members label) := by
  unfold Cluster.Tears
  repeat' split
  all_goals infer_instance

/-- The steps that a mode leaves out are left out. -/
structure Mode.Allows (mode : Mode σ) (sm : StateMachine σ) (members : Membership) (c : Cluster σ)
    (label : Label) : Prop where
  strict : mode.strict → ¬ c.OverCommits label
  checked : mode.checked → ¬ c.AnswersLate label
  whole : mode.whole → ¬ c.Tears sm members label

theorem snapshot_performed (h : Acts members mode c a n node threads) :
    Performed members mode c a
      { id := n, before := node, after := (triggerSnapshot sm node).2, threads := threads } := by
  have hsnap := triggerSnapshot_tracks sm h.tracks
  cases hres : triggerSnapshot sm node with
  | mk result after =>
    rw [hres] at hsnap
    obtain ⟨ht, hsame⟩ : Tracks members mode n a a after ∧ SameRole node after := by
      cases result with
      | ok _ => exact hsnap
      | error err => exact hsnap
    refine h.ends ht (fun htotal => ?_) fun _ hev => by cases hev
    rw [hsame.hardState]
    exact h.settled htotal

theorem constructed_performed (hsound : mode.Sound sm) (hsim : Sim members mode c a)
    (hn : n ∈ members.ids) {disk : PersistentState} {machine : σ}
    (hp : c.process n = .down disk machine) :
    Performed members mode c a
      (Cluster.constructed sm n (members.options n) disk machine) := by
  obtain ⟨hdisk, hmachine⟩ := hsim.down hp
  have hcon := construct_tracks hsound hn hsim.sane hdisk hmachine
  unfold Cluster.constructed
  cases hres : construct sm (members.options n) disk machine with
  | mk result after =>
    rw [hres] at hcon
    cases result with
    | ok _ =>
      obtain ⟨ht, hs, _⟩ := hcon
      exact ⟨hn, a, a, Moves.refl a, hdisk, hmachine, fun event hev => (by cases hev),
        Moves.refl a, ht.journal, fun _ => ⟨hn, ht.rebase, hs, fun _ hth => by cases hth⟩,
        fun hr => (by cases hr), fun hr => ⟨_, ht.record hr⟩, fun call hc => (by cases hc),
        fun hr => (by cases hr), fun event hev => by cases hev⟩
    | error err =>
      exact ⟨hn, a, a, Moves.refl a, hdisk, hmachine, fun event hev => (by cases hev),
        Moves.refl a, hcon.journal, fun hr => (by cases hr), fun _ => ⟨hcon.disk, hcon.machine⟩,
        fun hr => absurd (hcon.role.symm.trans hr) (by decide), fun call hc => (by cases hc),
        fun hr => (by cases hr), fun event hev => by cases hev⟩

theorem deliver_performed (hsound : mode.Sound sm) (hsim : Sim members mode c a) {number : Nat}
    (hallows : mode.Allows sm members c (.run (.deliver number)))
    (he : c.perform sm members (.deliver number) = some e) : Performed members mode c a e := by
  simp only [Cluster.perform, Option.bind_eq_bind, Option.bind_eq_some_iff] at he
  obtain ⟨call, hcall, ⟨node, threads⟩, hrun, he⟩ := he
  have hacts := hsim.acts hrun
  cases hreq : call.request with
  | vote request =>
    simp only [hreq] at he
    cases he
    exact vote_performed hsim hcall hreq hacts
  | append request =>
    simp only [hreq] at he
    cases he
    refine append_performed hsound hsim hcall hreq hacts fun hstrict hover => ?_
    obtain ⟨_, node', hp, rfl⟩ := running_up hrun
    refine hallows.strict hstrict ?_
    simp only [Cluster.OverCommits, hcall, hreq, hp]
    exact hover
  | install request =>
    simp only [hreq] at he
    cases he
    exact install_performed hsound hsim hcall hreq hacts

theorem resumed_performed (hsound : mode.Sound sm) (hsim : Sim members mode c a) {id : NodeId}
    {number : Nat} {reply : Option Nat}
    (hallows : mode.Allows sm members c (.run (.resume id number reply)))
    (he : c.perform sm members (.resume id number reply) = some e) :
    Performed members mode c a e := by
  simp only [Cluster.perform, Option.bind_eq_bind, Option.bind_eq_some_iff] at he
  obtain ⟨⟨node, threads⟩, hrun, thread, hthread, answer, hanswer, move, hmove, he⟩ := he
  have hacts := hsim.acts hrun
  cases he
  refine resume_performed hacts (thread_proceeds hsound hsim hacts
    (hacts.threads thread (List.mem_of_getElem? hthread)) ?_ hanswer hmove)
  rintro hchecked i t command contacted rfl hi
  obtain ⟨_, node', hp, rfl⟩ := running_up hrun
  by_contra hnot
  refine hallows.checked hchecked ?_
  simp only [Cluster.AnswersLate, hp, hthread]
  exact ⟨hi, hnot⟩

theorem perform_performed (hsound : mode.Sound sm) (hsim : Sim members mode c a) {action : Action}
    (hallows : mode.Allows sm members c (.run action)) (he : c.perform sm members action = some e) :
    Performed members mode c a e := by
  cases action with
  | elect id =>
    simp only [Cluster.perform, Option.bind_eq_bind, Option.bind_eq_some_iff] at he
    obtain ⟨⟨node, threads⟩, hrun, he⟩ := he
    cases he
    exact elected_performed (hsim.acts hrun)
  | replicate id heartbeatOnly =>
    simp only [Cluster.perform, Option.bind_eq_bind, Option.bind_eq_some_iff] at he
    obtain ⟨⟨node, threads⟩, hrun, he⟩ := he
    cases he
    have hacts := hsim.acts hrun
    exact hacts.spawn hacts.tracks hacts.settled ⟨Nat.zero_le _, fun i t command hp => by cases hp⟩
  | submit id command =>
    simp only [Cluster.perform, Option.bind_eq_bind, Option.bind_eq_some_iff] at he
    obtain ⟨⟨node, threads⟩, hrun, he⟩ := he
    cases hv : validClientCommand command with
    | error err => simp only [hv] at he; cases he
    | ok _ =>
      simp only [hv] at he
      cases he
      exact submitted_performed hsound (hsim.acts hrun) (valid_of_validClientCommand hv)
  | confirm id =>
    simp only [Cluster.perform, Option.bind_eq_bind, Option.bind_eq_some_iff] at he
    obtain ⟨⟨node, threads⟩, hrun, he⟩ := he
    cases he
    have hacts := hsim.acts hrun
    exact hacts.spawn hacts.tracks hacts.settled ⟨le_rfl, fun i t command hp => by cases hp⟩
  | snapshot id =>
    simp only [Cluster.perform, Option.bind_eq_bind, Option.bind_eq_some_iff] at he
    obtain ⟨⟨node, threads⟩, hrun, he⟩ := he
    cases he
    exact snapshot_performed (hsim.acts hrun)
  | deliver number => exact deliver_performed hsound hsim hallows he
  | resume id number reply => exact resumed_performed hsound hsim hallows he
  | restart id =>
    simp only [Cluster.perform] at he
    split_ifs at he with hn
    cases hp : c.process id with
    | up node threads => simp only [hp] at he; cases he
    | down disk machine =>
      simp only [hp] at he
      cases he
      exact constructed_performed hsound hsim hn hp

theorem Mode.Allows.of_crash {action : Action} {effects : Nat}
    (h : mode.Allows sm members c (.crash action effects)) :
    mode.Allows sm members c (.run action) where
  strict hst := by cases action <;> exact h.strict hst
  checked hch := by cases action <;> exact h.checked hch
  whole _ := fun ht => ht

/-- **One step keeps the cluster on its history.** -/
theorem Sim.step (hsound : mode.Sound sm) (hsim : Sim members mode c a) {label : Label}
    (hallows : mode.Allows sm members c label) {c' : Cluster σ} (hstep : c.step sm members label = some c') :
    ∃ a', Extends a a' ∧ Sim members mode c' a' := by
  cases label with
  | run action =>
    simp only [Cluster.step, Option.bind_eq_bind, Option.bind_eq_some_iff] at hstep
    obtain ⟨e, he, hstep⟩ := hstep
    cases hstep
    exact (perform_performed hsound hsim hallows he).finish hsim
  | crash action effects =>
    simp only [Cluster.step, Option.bind_eq_bind, Option.bind_eq_some_iff] at hstep
    obtain ⟨e, he, left, hleft, hstep⟩ := hstep
    cases hstep
    refine (perform_performed hsound hsim hallows.of_crash he).crashed hsim hleft
      fun hw mark hmark hpos htears => ?_
    obtain ⟨effects, rfl⟩ := Nat.exists_eq_succ_of_ne_zero hpos.ne'
    refine hallows.whole hw ?_
    simp only [Nat.succ_eq_add_one, Nat.add_sub_cancel, Option.mem_def] at hmark
    simp only [Cluster.Tears, he, hmark]
    exact htears
  | halt id =>
    simp only [Cluster.step] at hstep
    cases hp : c.process id with
    | down disk machine => simp only [hp] at hstep; cases hstep
    | up node threads =>
      simp only [hp] at hstep
      cases hstep
      exact ⟨a, Extends.refl a, hsim.halt hp⟩

/-- **Along a run the history only grows.** -/
theorem Sim.reaches (hsound : mode.Sound sm)
    (hallows : ∀ c label, Allowed c label → mode.Allows sm members c label)
    (hsim : Sim members mode c a) {c' : Cluster σ} (hrun : Cluster.Reaches sm members Allowed c c') :
    ∃ a', Extends a a' ∧ Sim members mode c' a' := by
  induction hrun with
  | refl => exact ⟨a, Extends.refl a, hsim⟩
  | tail _ hallowed hstep ih =>
    obtain ⟨a₁, hext₁, hsim₁⟩ := ih
    obtain ⟨a₂, hext₂, hsim₂⟩ := hsim₁.step hsound (hallows _ _ hallowed) hstep
    exact ⟨a₂, hext₁.trans hext₂, hsim₂⟩

/-- Before anything has happened. -/
theorem Sim.initial (members : Membership) (mode : Mode σ)
    (hm : ∀ id, mode.machineOK Consensus.State.initial (machine id)) :
    Sim members mode (Cluster.initial machine) Consensus.State.initial where
  sane := ⟨inv_initial _, fun t i e he => by simp at he⟩
  up hp := by cases hp
  down {id disk m} hp := by
    cases hp
    refine ⟨⟨⟨rfl, Or.inl ⟨rfl, rfl⟩, Decided.zero .., Decided.zero ..⟩, Or.inl ⟨⟨?_, rfl, ?_⟩,
      Decided.zero ..⟩⟩, hm id⟩
    · simp
    · intro s hs
      cases hs
  calls call hc := by cases hc
  replies hr := by cases hr
  trace event hev := by cases hev

/-- **Every run from the first start has a history.** -/
theorem exists_sim (mode : Mode σ) (hsound : mode.Sound sm)
    (hallows : ∀ c label, Allowed c label → mode.Allows sm members c label)
    (hm : ∀ id, mode.machineOK Consensus.State.initial (machine id))
    (hrun : Cluster.Reaches sm members Allowed (Cluster.initial machine) c) :
    ∃ a, Sim members mode c a := by
  obtain ⟨a, _, hsim⟩ := (Sim.initial members mode hm).reaches hsound hallows hrun
  exact ⟨a, hsim⟩

end NebulaKV.Raft
