/-
# Calls that are handled, and operations that begin

The node that acts, what it must end with for the cluster to stay on its history (`Acts.performed`), and
the actions that are a single stretch: the RPC handlers, the start of a campaign and of a submission.
-/
import NebulaKV.Raft.Simulation

namespace NebulaKV.Raft

open Consensus Effects Program Containers RaftNode

variable {σ : Type} {members : Membership} {mode : Mode σ} {n : NodeId} {a a' a₀ : History}
  {sm : StateMachine σ} {node : RaftNode σ} {c : Cluster σ} {e : Effect σ} {threads : List Thread}
variable {call : Call} {number : Nat}

/-! ## The node that acts -/

/-- A node at the start of a stretch. -/
structure Acts (members : Membership) (mode : Mode σ) (c : Cluster σ) (a : History) (n : NodeId)
    (node : RaftNode σ) (threads : List Thread) : Prop where
  member : n ∈ members.ids
  tracks : Tracks members mode n a a node
  settled : Settled mode node
  journal : node.journal = []
  threads : ∀ thread ∈ threads, ThreadOK members a c.trace c.calls n thread

theorem running_up (hr : c.running members n = some (node, threads)) :
    n ∈ members.ids ∧ ∃ node', c.process n = .up node' threads ∧ node = { node' with journal := [] } := by
  unfold Cluster.running at hr
  split_ifs at hr with hn
  cases hp : c.process n with
  | down disk machine => rw [hp] at hr; cases hr
  | up node' threads' =>
    rw [hp] at hr
    cases hr
    exact ⟨hn, node', rfl, rfl⟩

theorem Sim.acts (h : Sim members mode c a) (hr : c.running members n = some (node, threads)) :
    Acts members mode c a n node threads := by
  obtain ⟨hn, node', hp, rfl⟩ := running_up hr
  have hrun := h.up hp
  exact ⟨hn, hrun.tracks, hrun.settled, rfl, hrun.threads⟩

/-- What a node has seen of earlier commits, it has seen in its own term. -/
theorem Sim.seen (h : Sim members mode c a) (begun : Nat) (p : NodeId) :
    Seen c.trace begun p (a.term p) := fun _ _ _ hev hp =>
  (h.trace _ ((List.take_subset _ _) hev)).reached p hp

/-- The action ends with the node at `a'`, its old threads or new ones in order, and everything it sent,
answered or put on record in order too. -/
theorem Acts.performed (h : Acts members mode c a e.id e.before threads)
    (ht : Tracks members mode e.id a a' e.after) (hs : Settled mode e.after)
    (hrunning : e.running = true) (hearly : e.early = [])
    (hthreads : ∀ thread ∈ e.threads, thread ∈ threads ∨
      ThreadOK members a' c.trace (c.calls ++ e.calls) e.id thread)
    (hcalls : ∀ call ∈ e.calls, CallOK members a' c.trace call)
    (hreplies : ∀ {number reply}, (number, reply) ∈ e.replies →
      ∃ call, c.calls[number]? = some call ∧ ReplyOK a' c.trace call reply)
    (hlate : ∀ event ∈ e.late, EventOK members mode a' c.trace event) :
    Performed members mode c a e := by
  have hext := (h.tracks.sane.moves ht.moves).2.toExtends
  refine ⟨h.member, a, a', Moves.refl a, h.tracks.diskOK, h.tracks.machine, fun event hev => ?_, ?_⟩
  · rw [hearly] at hev
    cases hev
  · refine ⟨ht.moves, ht.journal, fun _ => ⟨h.member, ht.rebase, hs, fun thread hth => ?_⟩,
      fun hr => ?_, fun hr => ⟨_, ht.record hr⟩, hcalls, hreplies, hlate⟩
    · rcases hthreads thread hth with hold | hnew
      · have := (h.threads thread hold).mono hext [] e.calls
        rwa [List.append_nil] at this
      · exact hnew
    · rw [hrunning] at hr
      cases hr

/-- An action that sends nothing, and starts no thread. -/
theorem Acts.ends (h : Acts members mode c a n node threads) {after : RaftNode σ}
    {late : List (Event σ)} (ht : Tracks members mode n a a' after) (hs : Settled mode after)
    (hlate : ∀ event ∈ late, EventOK members mode a' c.trace event) :
    Performed members mode c a
      { id := n, before := node, after := after, threads := threads, late := late } :=
  Acts.performed
    (e := { id := n, before := node, after := after, threads := threads, late := late })
    h ht hs rfl rfl (fun _ hth => Or.inl hth) (fun _ hc => by cases hc) (fun hr => by cases hr) hlate

/-- An action that only starts a thread. -/
theorem Acts.spawn (h : Acts members mode c a n node threads) {after : RaftNode σ} {thread : Thread}
    (ht : Tracks members mode n a a' after) (hs : Settled mode after)
    (hth : ThreadOK members a' c.trace c.calls n thread) :
    Performed members mode c a
      { id := n, before := node, after := after, threads := threads ++ [thread] } := by
  refine Acts.performed
    (e := { id := n, before := node, after := after, threads := threads ++ [thread] })
    h ht hs rfl rfl (fun t ht => ?_) (fun _ hc => by cases hc) (fun hr => by cases hr)
    fun _ hev => by cases hev
  rcases List.mem_append.mp ht with hold | hnew
  · exact Or.inl hold
  · rw [List.mem_singleton.mp hnew]
    exact Or.inr (by simpa using hth)

/-! ## Handling a call -/

theorem handled_performed {α : Type} {wrap : α → Reply} {result : Except Error α × RaftNode σ}
    (h : Acts members mode c a n node threads) (hcall : c.calls[number]? = some call)
    (hres : Outcome
      (fun response s => ∃ a', Tracks members mode n a a' s ∧ Settled mode s ∧
        ReplyOK a' c.trace call (wrap response))
      (fun s => ∃ a', Tracks members mode n a a' s ∧ Settled mode s) result) :
    Performed members mode c a (Cluster.handled n node threads number wrap result) := by
  obtain ⟨result, after⟩ := result
  cases result with
  | ok response =>
    obtain ⟨a', ht, hs, hreply⟩ := hres
    refine Acts.performed (e := Cluster.handled n node threads number wrap (.ok response, after))
      h ht hs rfl rfl (fun thread hth => Or.inl hth) (fun call hc => by cases hc)
      (fun hr => ?_) fun event hev => by cases hev
    obtain ⟨rfl, rfl⟩ := Prod.mk.inj (List.mem_singleton.mp hr)
    exact ⟨call, hcall, hreply⟩
  | error err =>
    obtain ⟨a', ht, hs⟩ := hres
    exact Acts.performed (e := Cluster.handled n node threads number wrap (.error err, after))
      h ht hs rfl rfl (fun thread hth => Or.inl hth) (fun call hc => by cases hc)
      (fun hr => by cases hr) fun event hev => by cases hev

/-- A success reply: the peer has reached the request's term. -/
theorem Sim.reached (hsim : Sim members mode c a) {v : Nat} (hext : Extends a a')
    (hterm : a'.term call.destination = call.request.term)
    (hmatched : Matched a' call.destination call.request.term v) : Reached a' c.trace call v :=
  ⟨hmatched, hterm ▸ (hsim.seen call.stamp call.destination).mono (hext.term _) le_rfl⟩

theorem Tracks.extends (h : Tracks members mode n a a node) {s : RaftNode σ}
    (hs : Tracks members mode n a a' s) : Extends a a' :=
  (h.sane.moves hs.moves).2.toExtends

theorem vote_performed (hsim : Sim members mode c a) {request : RequestVoteRequest}
    (hcall : c.calls[number]? = some call) (hreq : call.request = .vote request)
    (h : Acts members mode c a call.destination node threads) :
    Performed members mode c a (Cluster.handled call.destination node threads number Reply.vote
      (handleRequestVote request node)) := by
  have hok := (hsim.calls call (List.mem_of_getElem? hcall)).request
  rw [hreq] at hok
  refine handled_performed h hcall ((handleRequestVote_tracks h.tracks h.settled hok).mono ?_
    fun _ hf => hf.elim)
  rintro response s ⟨a', ht, hs, hvote⟩
  refine ⟨a', ht, hs, ?_⟩
  unfold ReplyOK
  rw [hreq]
  exact hvote

theorem append_performed (hsound : mode.Sound sm) (hsim : Sim members mode c a)
    {request : AppendEntriesRequest} (hcall : c.calls[number]? = some call)
    (hreq : call.request = .append request)
    (h : Acts members mode c a call.destination node threads)
    (hover : mode.strict → ¬ node.OverCommits request) :
    Performed members mode c a (Cluster.handled call.destination node threads number Reply.append
      (handleAppendEntries sm request node)) := by
  have hok := (hsim.calls call (List.mem_of_getElem? hcall)).request
  rw [hreq] at hok
  refine handled_performed h hcall
    ((handleAppendEntries_tracks hsound h.tracks h.settled hok hover).mono ?_ fun _ hf => hf)
  rintro response s ⟨a', ht, hs, hsuccess⟩
  refine ⟨a', ht, hs, ?_⟩
  have hterm : call.request.term = request.term := by rw [hreq]; rfl
  unfold ReplyOK
  rw [hreq]
  intro hg
  obtain ⟨hterm', hack⟩ := hsuccess hg
  exact hsim.reached (h.tracks.extends ht) (hterm.symm ▸ hterm') (Or.inl (hterm.symm ▸ hack))

theorem install_performed (hsound : mode.Sound sm) (hsim : Sim members mode c a)
    {request : InstallSnapshotRequest} (hcall : c.calls[number]? = some call)
    (hreq : call.request = .install request)
    (h : Acts members mode c a call.destination node threads) :
    Performed members mode c a (Cluster.handled call.destination node threads number Reply.install
      (handleInstallSnapshot sm request node)) := by
  have hok := (hsim.calls call (List.mem_of_getElem? hcall)).request
  rw [hreq] at hok
  refine handled_performed h hcall
    ((handleInstallSnapshot_tracks hsound h.tracks h.settled hok).mono ?_ fun _ hf => hf)
  rintro response s ⟨a', ht, hs, hsuccess⟩
  refine ⟨a', ht, hs, ?_⟩
  have hterm : call.request.term = request.term := by rw [hreq]; rfl
  unfold ReplyOK
  rw [hreq]
  intro hg
  obtain ⟨hterm', hmatched⟩ := hsuccess hg
  exact hsim.reached (h.tracks.extends ht) (hterm.symm ▸ hterm') (hterm.symm ▸ hmatched)

/-! ## Operations that begin -/

theorem elected_performed (h : Acts members mode c a n node threads) :
    Performed members mode c a (Cluster.elected n node threads) := by
  have hstart := campaignStart_tracks h.member h.tracks h.settled
  unfold Cluster.elected
  cases hres : campaignStart node with
  | mk result after =>
    rw [hres] at hstart
    cases result with
    | error err => exact hstart.elim
    | ok request =>
      obtain ⟨a', ht, hs, hrequest⟩ := hstart
      cases request with
      | none => exact h.ends ht hs fun _ hev => by cases hev
      | some request =>
        obtain ⟨hcandidate, hvote, hself⟩ := hrequest request rfl
        refine h.spawn ht hs ⟨hcandidate, rfl, hvote, hself, ?_⟩
        rw [h.tracks.memory.peers]
        exact Counted.start

/-- A commit of a cluster with one member is on record when the stretch ends. -/
theorem CommittedTo.event {index : Nat} (hn : n ∈ members.ids)
    (h : CommittedTo mode members n a₀ a index node) (halone : node.quorumSize ≤ 1) :
    EventOK members mode a c.trace (.committed n node index) := by
  have ht := h.applying.tracks
  have hterm := ht.memory.hard.term
  have hcount : node.quorumSize ≤ (node.holders index).length := by
    simp only [holders, List.length_cons]
    omega
  have hpeers : node.options.peers = [] := by
    rw [← List.length_eq_zero_iff]
    unfold quorumSize at halone
    omega
  refine ⟨⟨_, ht.record h.applying.role, ?_⟩, hterm ▸ h.committed, holders_isQuorum hn ht hcount
    fun p hp => hp, fun p hp => ?_⟩
  · have := ht.commitIndex_le h.applying.role
    rw [h.applying.commit] at this
    exact this
  · simp only [holders, hpeers, List.filter_nil, List.map_nil, List.mem_singleton] at hp
    rw [hp, ht.memory.nodeId, hterm]

theorem submitted_performed (hsound : mode.Sound sm) (h : Acts members mode c a n node threads)
    {command : Command} (hvalid : command.Valid) :
    Performed members mode c a (Cluster.submitted sm n command node threads) := by
  have hstart := submitAppend_tracks hsound h.member hvalid h.tracks h.settled
  unfold Cluster.submitted
  cases hres : submitAppend sm command node with
  | mk result after =>
    rw [hres] at hstart
    cases result with
    | error err =>
      obtain ⟨halone, a', hc⟩ := hstart
      exact h.ends hc.applying.tracks hc.settled
        (List.forall_mem_singleton.mpr (hc.event h.member halone))
    | ok started =>
      obtain ⟨a', ht, hs, hpending, hanswered⟩ := hstart
      cases started with
      | pending i t =>
        refine h.spawn ht hs ⟨Nat.zero_le _, fun i' t' command' hp => ?_⟩
        cases hp
        exact hpending i t rfl
      | answered result =>
        refine h.ends ht hs fun event hev => ?_
        split_ifs at hev with hstatus
        swap
        · cases hev
        obtain ⟨halone, hc, hterm, hentry⟩ := hanswered result rfl hstatus
        rcases List.mem_cons.mp hev with rfl | hev
        · exact hc.event h.member halone
        · rw [List.mem_singleton.mp hev]
          exact fun _ => ⟨hentry, result.logIndex, le_rfl, hterm ▸ hc.committed⟩

end NebulaKV.Raft
