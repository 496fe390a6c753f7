/-
# Log repair

`replicate_peer` repeats one exchange: build a request from the peer's `next_index`, let the peer's
handler answer, and lower `next_index` on a refusal. The peer's hint is taken as an upper bound only
(`min(current_next, fallback)`), so an exchange makes progress exactly when the hint lies below.

A refusal for the log (no entry there, or one of another term) names an index below `next_index` and
above the peer's snapshot. A refusal because `previous_log_index` lies inside the peer's snapshot names
the index behind that snapshot, which is not below: the exchange repeats for ever, unless the leader's own
snapshot reaches up to `next_index` and is sent instead.

A request that is taken may still throw, when it cuts off what the follower has applied, or brings an entry
that its state machine refuses (`AppliedAgrees`, `Obliging`).

The loop of the source gives up after 256 attempts and is entered again with the same `next_index`; here
the attempts are simply counted.
-/
import NebulaKV.Raft.RetainedLog

namespace NebulaKV.Raft

open Containers Effects Program RaftNode

variable {σ : Type}

/-! ## One exchange -/

inductive Attempt where
  | success
  | again
  | failed
  deriving DecidableEq

def appendExchange (sm : StateMachine σ) (peer : Peer) (request : AppendEntriesRequest)
    (leader follower : RaftNode σ) : Attempt × RaftNode σ × RaftNode σ :=
  match handleAppendEntries sm request follower with
  | (.error _, follower) => (.failed, leader, follower)
  | (.ok response, follower) =>
    match appendResponse peer request.term response leader with
    | (.ok (some true), leader) => (.success, leader, follower)
    | (.ok (some false), leader) => (.failed, leader, follower)
    | (.ok none, leader) => (.again, leader, follower)
    | (.error _, leader) => (.failed, leader, follower)

def installExchange (sm : StateMachine σ) (peer : Peer) (request : InstallSnapshotRequest)
    (leader follower : RaftNode σ) : Attempt × RaftNode σ × RaftNode σ :=
  match handleInstallSnapshot sm request follower with
  | (.error _, follower) => (.failed, leader, follower)
  | (.ok response, follower) =>
    match installResponse peer request.term response leader with
    | (.ok true, leader) => (.success, leader, follower)
    | (.ok false, leader) => (.failed, leader, follower)
    | (.error _, leader) => (.failed, leader, follower)

/-- One round of the loop in `replicate_peer`, the call delivered and answered. -/
def attempt (sm : StateMachine σ) (peer : Peer) (heartbeatOnly : Bool)
    (leader follower : RaftNode σ) : Attempt × RaftNode σ × RaftNode σ :=
  match peerRequest peer heartbeatOnly leader with
  | (.ok .stop, leader) => (.failed, leader, follower)
  | (.ok .again, leader) => (.again, leader, follower)
  | (.ok (.snapshot request), leader) => installExchange sm peer request leader follower
  | (.ok (.append request), leader) => appendExchange sm peer request leader follower
  | (.error _, leader) => (.failed, leader, follower)

/-- Whether a success answers one of the first exchanges. -/
def repairs (sm : StateMachine σ) (peer : Peer) (heartbeatOnly : Bool) :
    Nat → RaftNode σ → RaftNode σ → Bool
  | 0, _, _ => false
  | attempts + 1, leader, follower =>
    match attempt sm peer heartbeatOnly leader follower with
    | (.success, _, _) => true
    | (.again, leader, follower) => repairs sm peer heartbeatOnly attempts leader follower
    | (.failed, _, _) => false

/-! ## The two nodes -/

/-- A leader whose next request for the peer starts at `next`. -/
structure Leads (peer : Peer) (next : Nat) (leader : RaftNode σ) : Prop where
  role : leader.role = .Leader
  retained : Retained (snapshotIndex leader.snapshot) leader.log
  snapshot : ∀ s, leader.snapshot = some s →
    0 < s.lastIncludedIndex ∧ s.payload.length ≤ uint32Max
  next_eq : leader.nextIndex.find? peer.id = some next
  pos : 0 < next
  le : next ≤ leader.lastLogIndex + 1

/-- A state machine that takes these entries, in the states it can be in, and fits into a snapshot. -/
structure Willing (sm : StateMachine σ) (Good : σ → Prop) (entries : List LogEntry) : Prop where
  apply : ∀ s, Good s → ∀ entry ∈ entries,
    (sm.apply entry s).1 = .ok () ∧ Good (sm.apply entry s).2
  create : ∀ s, Good s →
    ∃ payload, sm.createSnapshot s = .ok payload ∧ payload.length ≤ uint32Max

/-- A follower of the leader. Of its log only the snapshot's position has to agree with the leader's. -/
structure Follows (leader follower : RaftNode σ) : Prop where
  term : follower.hardState.currentTerm ≤ leader.hardState.currentTerm
  retained : Retained (snapshotIndex follower.snapshot) follower.log
  position : snapshotIndex follower.snapshot ≤ snapshotIndex leader.snapshot ∨
    leader.termAt (snapshotIndex follower.snapshot) =
      follower.termAt (snapshotIndex follower.snapshot)

/-- What the follower has applied is in its log, and in the leader's. Where it is not, a request may cut it
off, and the follower's handler then throws at the next snapshot. -/
structure AppliedAgrees (Good : σ → Prop) (leader follower : RaftNode σ) : Prop where
  covered : snapshotIndex follower.snapshot ≤ follower.hardState.lastApplied
  applied : follower.hardState.lastApplied ≤ follower.lastLogIndex
  agrees : ∀ i, snapshotIndex leader.snapshot < i → snapshotIndex follower.snapshot < i →
    i ≤ follower.hardState.lastApplied → leader.termAt i = follower.termAt i
  machine : Good follower.machine

/-! ## An accepted request does not throw -/

section Accept

variable {sm : StateMachine σ} {Good : σ → Prop} {entries : List LogEntry} {node : RaftNode σ}
variable {term : Nat}

/-- The state the commit works on. -/
structure Committing (entries : List LogEntry) (Good : σ → Prop) (term : Nat) (node : RaftNode σ) :
    Prop where
  term_eq : node.hardState.currentTerm = term
  retained : Retained (snapshotIndex node.snapshot) node.log
  known : ∀ e ∈ node.log, e ∈ entries
  covered : snapshotIndex node.snapshot ≤ node.hardState.lastApplied
  applied : node.hardState.lastApplied ≤ node.lastLogIndex
  machine : Good node.machine

/-- The next entry is there, and the machine takes it. -/
theorem applyNext_accepts (hw : Willing sm Good entries) (h : Committing entries Good term node)
    (hlt : node.hardState.lastApplied < node.lastLogIndex) :
    Ends (fun _ s => Committing entries Good term s ∧
        s.hardState.commitIndex = node.hardState.commitIndex ∧ s.lastLogIndex = node.lastLogIndex)
      (fun _ _ => False) (applyNext sm node) := by
  have hcovered := h.covered
  have hlast := h.retained.lastLogIndex_eq
  refine (applyNext_spec sm node).mono (fun _ s hs => ?_) fun e s hs => ?_
  · rcases hs with ⟨hbefore, -⟩ | ⟨-, entry, machine, hget, hrun, rfl⟩
    · omega
    have hgood := (hw.apply node.machine h.machine entry (h.known entry (List.mem_of_getElem? hget))).2
    rw [hrun] at hgood
    exact ⟨⟨h.term_eq, h.retained, h.known, hcovered.trans (Nat.le_succ _), hlt, hgood⟩, rfl, rfl⟩
  · obtain ⟨-, ⟨hnone, -⟩ | ⟨entry, machine, hget, hrun, -⟩⟩ := hs
    · have hout := List.getElem?_eq_none_iff.mp hnone
      omega
    · have haccepts := (hw.apply node.machine h.machine entry (h.known entry (List.mem_of_getElem? hget))).1
      rw [hrun] at haccepts
      cases haccepts

theorem maybeCreateSnapshot_accepts (hw : Willing sm Good entries)
    (h : Committing entries Good term node) :
    Ends (fun _ s => s.hardState.currentTerm = term) (fun _ _ => False)
      (maybeCreateSnapshot sm node) := by
  obtain ⟨payload, hcreate, hfits⟩ := hw.create node.machine h.machine
  refine (maybeCreateSnapshot_spec sm node).mono (fun _ s hs => ?_) fun e s hs => ?_
  · rcases hs with ⟨-, rfl⟩ | ⟨term, made, -, rfl⟩
    · exact h.term_eq
    · exact h.term_eq
  · obtain ⟨⟨hdue, hnone | herror | ⟨made, hmade, hlarge, -⟩⟩, -⟩ := hs
    · have hout := (h.retained.termAt_eq_none_iff hdue.2.1).mp hnone
      have hcovered := h.covered
      have happlied := h.applied
      omega
    · cases hcreate.symm.trans herror
    · obtain rfl := Except.ok.inj (hcreate.symm.trans hmade)
      omega

theorem commitTo_accepts (hw : Willing sm Good entries) {c : Nat}
    (h : Committing entries Good term node) (hc : c ≤ node.lastLogIndex) :
    Ends (fun _ s => s.hardState.currentTerm = term) (fun _ _ => False) (commitTo sm c node) := by
  unfold commitTo applyCommitted
  rw [update_bind_apply]
  refine Ends.bind (M := fun _ s => s.hardState.currentTerm = term) ?_
    fun _ s (hs : s.hardState.currentTerm = term) => hs
  rw [read_bind_apply]
  refine Ends.bind (Ends.repeatWhile (I := fun s => Committing entries Good term s ∧
    s.hardState.commitIndex = c ∧ c ≤ s.lastLogIndex) (fun s hs hun => ?_) _
      ⟨⟨h.term_eq, h.retained, h.known, h.covered, h.applied, h.machine⟩, rfl, hc⟩)
    fun _ s hs => maybeCreateSnapshot_accepts hw hs.1
  obtain ⟨hs, hcommit, hle⟩ := hs
  have hlt : s.hardState.lastApplied < s.hardState.commitIndex := by simpa [hasUnapplied] using hun
  refine (applyNext_accepts hw hs (by omega)).mono ?_ fun _ _ hfalse => hfalse
  rintro _ s' ⟨hs', hcommit', hlast'⟩
  exact ⟨hs', hcommit'.trans hcommit, hlast' ▸ hle⟩

/-- What an accepted request is answered with. -/
def Accepts (term : Nat) (response : AppendEntriesResponse) : Prop :=
  response.term = term ∧ response.success = true

theorem acceptCommit_accepts (hw : Willing sm Good entries) (request : AppendEntriesRequest)
    (h : Committing entries Good term node) :
    Ends (fun response _ => Accepts term response) (fun _ _ => False) (acceptCommit sm request node) :=
  (acceptCommit_ends sm node (fun _ => h.term_eq) fun _ => commitTo_accepts hw h (min_le_right _ _)).mono
    (fun _ _ hs => ⟨hs.2.1.trans hs.2.2.2, hs.1⟩) fun _ _ hfalse => hfalse

/-- A request that continues the log is answered with a success. -/
theorem acceptEntries_accepts {request : AppendEntriesRequest}
    (h : Committing node.log Good term node) (hw : Willing sm Good (request.entries ++ node.log))
    (hprevious : request.previousLogIndex ≤ node.lastLogIndex)
    (hplaced : Retained request.previousLogIndex request.entries)
    (hagrees : ∀ e ∈ request.entries, snapshotIndex node.snapshot < e.index →
      e.index ≤ node.hardState.lastApplied → node.termAt e.index = some e.term) :
    Ends (fun response _ => Accepts term response) (fun _ _ => False) (acceptEntries sm request node) := by
  have hold : Committing (request.entries ++ node.log) Good term node :=
    ⟨h.term_eq, h.retained, fun e he => List.mem_append_right _ he, h.covered, h.applied, h.machine⟩
  rcases acceptEntries_cases sm h.retained hprevious with
    ⟨-, ⟨hmisplaced, -⟩ | ⟨-, heq⟩⟩ | ⟨incoming, rest, -, hnew, hsuffix, hle, heq⟩
  · exact absurd (@Retained.inPlace request.previousLogIndex 0 _ hplaced) hmisplaced
  · rw [heq]
    exact acceptCommit_accepts hw request hold
  · obtain ⟨front, hfront⟩ := hsuffix
    have hbehind : Retained (request.previousLogIndex + front.length) (incoming :: rest) := by
      have hdrop := hplaced.drop front.length
      rwa [← hfront, List.drop_left] at hdrop
    have hindex := (hbehind 0 incoming rfl).1
    have hall : appendable (incoming.index - 1) (incoming :: rest) = incoming :: rest := by
      rw [show incoming.index - 1 = request.previousLogIndex + front.length by omega]
      exact hbehind.appendable_eq
    -- what has been applied agrees with the request, so the cut lies behind it
    have hcut : node.hardState.lastApplied < incoming.index := by
      by_contra hwithin
      obtain ⟨habove, hterm⟩ := not_or.mp hnew
      exact hterm (hagrees incoming (hfront ▸ List.mem_append_right _ List.mem_cons_self)
        (not_le.mp habove) (not_lt.mp hwithin))
    have hmerged := h.retained.mergedFrom rest hnew hle
    rw [heq, if_pos hall]
    refine acceptCommit_accepts hw request ⟨h.term_eq, hmerged, fun e he => ?_, h.covered, ?_, h.machine⟩
    · rcases List.mem_append.mp he with he | he
      · exact List.mem_append_right _ (List.mem_of_mem_take he)
      · exact List.mem_append_left _ (hfront ▸ List.mem_append_right _ (mem_of_mem_appendable he))
    · have hlast := h.retained.lastLogIndex_eq
      have hcovered := h.covered
      refine le_of_le_of_eq ?_ (Retained.lastLogIndex_eq hmerged).symm
      show node.hardState.lastApplied ≤ snapshotIndex node.snapshot +
        (node.log.take (incoming.index - snapshotIndex node.snapshot - 1) ++
          appendable (incoming.index - 1) (incoming :: rest)).length
      rw [List.length_append, List.length_take]
      omega

end Accept

/-! ## The requests -/

section Requests

variable {peer : Peer} {next : Nat} {leader : RaftNode σ}

theorem Leads.nextFor (h : Leads peer next leader) : leader.nextFor peer = next := by
  unfold RaftNode.nextFor
  rw [h.next_eq]
  rfl

/-- The stretch that builds the request starts from a `next_index` that is there: the snapshot goes
out if it covers that index, the entries from it on otherwise. -/
theorem Leads.peerRequest_cases (h : Leads peer next leader) (heartbeatOnly : Bool) :
    (∃ snapshot, leader.snapshot = some snapshot ∧ next ≤ snapshot.lastIncludedIndex ∧
      peerRequest peer heartbeatOnly leader =
        (.ok (.snapshot (leader.installRequest snapshot)), leader)) ∨
    (snapshotIndex leader.snapshot < next ∧
      peerRequest peer heartbeatOnly leader = appendRequest peer heartbeatOnly next leader) := by
  have hensure : ensureNext peer leader = leader := by
    unfold ensureNext OrderedMap.emplace
    rw [h.next_eq]
    rfl
  unfold peerRequest
  rw [read_bind_apply, if_neg (not_not.mpr h.role), update_bind_apply, hensure, read_bind_apply, h.nextFor]
  cases hs : leader.snapshot with
  | none => exact .inr ⟨h.pos, rfl⟩
  | some snapshot =>
    by_cases hle : next ≤ snapshot.lastIncludedIndex
    · refine .inl ⟨snapshot, rfl, hle, ?_⟩
      dsimp only
      rw [if_pos hle]
      rfl
    · refine .inr ⟨not_le.mp hle, ?_⟩
      dsimp only
      rw [if_neg hle]

theorem Leads.request_snapshot (h : Leads peer next leader) (heartbeatOnly : Bool)
    {snapshot : Snapshot} (hsome : leader.snapshot = some snapshot)
    (hle : next ≤ snapshot.lastIncludedIndex) :
    peerRequest peer heartbeatOnly leader =
      (.ok (.snapshot (leader.installRequest snapshot)), leader) := by
  obtain ⟨found, hfound, -, hsends⟩ | ⟨hlt, -⟩ := h.peerRequest_cases heartbeatOnly
  · cases hsome.symm.trans hfound
    exact hsends
  · rw [hsome, snapshotIndex_some] at hlt
    omega

/-- The entries a request for `next` carries. -/
def carried (heartbeatOnly : Bool) (leader : RaftNode σ) (next : Nat) : List LogEntry :=
  if heartbeatOnly then [] else leader.entriesFrom next

theorem Leads.request_append (h : Leads peer next leader) (heartbeatOnly : Bool)
    (hlt : snapshotIndex leader.snapshot < next) :
    ∃ request : AppendEntriesRequest,
      peerRequest peer heartbeatOnly leader = (.ok (.append request), leader) ∧
      request.term = leader.hardState.currentTerm ∧ request.previousLogIndex = next - 1 ∧
      leader.termAt request.previousLogIndex = some request.previousLogTerm ∧
      request.entries = carried heartbeatOnly leader next := by
  have hpos := h.pos
  have hle := h.le
  obtain ⟨term, hterm⟩ : ∃ term, leader.termAt (next - 1) = some term := by
    refine Option.ne_none_iff_exists'.mp fun hnone => ?_
    by_cases hz : next - 1 = 0
    · rw [hz] at hnone
      cases hnone
    · have hout := (h.retained.termAt_eq_none_iff hz).mp hnone
      omega
  have hprevious : previousOf next = next - 1 := if_neg (by omega)
  obtain ⟨snapshot, hs, hcovers, -⟩ | ⟨-, hsends⟩ := h.peerRequest_cases heartbeatOnly
  · rw [hs, snapshotIndex_some] at hlt
    omega
  rw [hsends]
  unfold appendRequest
  rw [read_bind_apply, hprevious, hterm]
  exact ⟨_, rfl, rfl, rfl, hterm, rfl⟩

theorem Leads.backOff (h : Leads peer next leader) {conflict : Nat} (hpos : 0 < conflict) :
    Leads peer (min next conflict) (leader.backOff peer conflict) := by
  refine ⟨h.role, h.retained, h.snapshot, ?_, lt_min h.pos hpos, (min_le_left _ _).trans h.le⟩
  unfold RaftNode.backOff
  dsimp only
  rw [h.nextFor, if_neg (by omega), OrderedMap.find?_insert, if_pos rfl]

/-- What a request carries is a piece of the leader's log. -/
theorem Leads.carried_placed (h : Leads peer next leader) (heartbeatOnly : Bool)
    (hlt : snapshotIndex leader.snapshot < next) :
    Retained (next - 1) (carried heartbeatOnly leader next) ∧
      ∀ e ∈ carried heartbeatOnly leader next, e ∈ leader.log ∧ leader.termAt e.index = some e.term := by
  have hlog : ∀ e ∈ leader.log, leader.termAt e.index = some e.term := by
    intro e he
    obtain ⟨hget, habove, -⟩ := h.retained.index_of_mem he
    rw [h.retained.termAt_above habove, hget]
    rfl
  unfold carried
  split_ifs
  · exact ⟨retained_nil _, fun e he => by cases he⟩
  · rw [h.retained.entriesFrom_eq hlt]
    refine ⟨?_, fun e he => ?_⟩
    · have hdrop := h.retained.drop (next - snapshotIndex leader.snapshot - 1)
      rw [show snapshotIndex leader.snapshot + (next - snapshotIndex leader.snapshot - 1) = next - 1 by
        omega] at hdrop
      exact hdrop.take _
    · have hmem := List.mem_of_mem_drop (List.mem_of_mem_take he)
      exact ⟨hmem, hlog e hmem⟩

end Requests

/-! ## The answers -/

section Answers

variable {sm : StateMachine σ} {Good : σ → Prop} {leader follower : RaftNode σ}
  {request : AppendEntriesRequest}

theorem follow_term {t : Nat} (ht : follower.hardState.currentTerm ≤ t) (leaderId : NodeId) :
    (follower.follow t leaderId).hardState.currentTerm = t := by
  unfold RaftNode.follow RaftNode.becomeFollower
  by_cases hc : t > follower.hardState.currentTerm ∨ follower.role ≠ .Follower
  · simp only [if_pos hc, if_neg (not_lt.mpr ht)]
    by_cases hgt : t > follower.hardState.currentTerm
    · rw [if_pos hgt]
      rfl
    · rw [if_neg hgt]
      exact le_antisymm ht (not_lt.mp hgt)
  · simp only [if_neg hc]
    push Not at hc
    exact le_antisymm ht hc.1

theorem conflictIndex_le (node : RaftNode σ) (term : Nat) (i : Nat) :
    node.conflictIndex term i ≤ i := by
  induction i with
  | zero => exact le_rfl
  | succ i ih =>
    unfold RaftNode.conflictIndex
    split_ifs
    · cases node.termAt i with
      | none => exact le_rfl
      | some earlier =>
        dsimp only
        split_ifs
        · exact Nat.le_succ_of_le ih
        · exact le_rfl
    · exact le_rfl

/-- The back-off does not walk into the snapshot. -/
theorem lt_conflictIndex (node : RaftNode σ) (term : Nat) {i : Nat}
    (hi : snapshotIndex node.snapshot < i) :
    snapshotIndex node.snapshot < node.conflictIndex term i := by
  induction i with
  | zero => exact absurd hi (Nat.not_lt_zero _)
  | succ i ih =>
    unfold RaftNode.conflictIndex
    split_ifs with hgt
    · cases node.termAt i with
      | none => exact hi
      | some earlier =>
        dsimp only
        split_ifs
        · exact ih (by omega)
        · exact hi
    · exact hi

/-- The back-off from the snapshot's own index stays there. -/
theorem conflictIndex_snapshot {node : RaftNode σ} {term i : Nat} (hpos : 0 < i)
    (hi : i ≤ snapshotIndex node.snapshot) : node.conflictIndex term i = i := by
  cases i with
  | zero => exact absurd hpos (Nat.lt_irrefl 0)
  | succ i =>
    unfold RaftNode.conflictIndex
    rw [if_neg (by omega)]

/-- A refusal that names an index from which the leader gets further. -/
def Refused (leader follower : RaftNode σ) (request : AppendEntriesRequest)
    (response : AppendEntriesResponse) (s : RaftNode σ) : Prop :=
  response.success = false ∧ Untouched follower s ∧ s.hardState.currentTerm = request.term ∧
    0 < response.conflictIndex ∧ response.conflictIndex ≤ request.previousLogIndex ∧
    (snapshotIndex follower.snapshot < response.conflictIndex ∨
      response.conflictIndex ≤ snapshotIndex leader.snapshot)

/-- A request that starts behind the follower's snapshot is taken, or refused with an index below. -/
theorem handleAppendEntries_answers (h : Follows leader follower)
    (happlied : AppliedAgrees Good leader follower)
    (hw : Willing sm Good (request.entries ++ follower.log))
    (hterm : request.term = leader.hardState.currentTerm)
    (hprevious : leader.termAt request.previousLogIndex = some request.previousLogTerm)
    (hleader : snapshotIndex leader.snapshot ≤ request.previousLogIndex)
    (hk : snapshotIndex follower.snapshot ≤ request.previousLogIndex)
    (hplaced : Retained request.previousLogIndex request.entries)
    (hsent : ∀ e ∈ request.entries, leader.termAt e.index = some e.term) :
    Ends (fun response s => response.term = request.term ∧
        (response.success = true ∨ Refused leader follower request response s))
      (fun _ _ => False) (handleAppendEntries sm request follower) := by
  have hle : follower.hardState.currentTerm ≤ request.term := hterm ▸ h.term
  have hfollow := follow_term hle request.leaderId
  have hsame := untouched_follow follower request.term request.leaderId
  unfold handleAppendEntries
  rw [read_bind_apply, if_neg (not_lt.mpr hle), update_bind_apply, read_bind_apply, follow_snapshot,
    if_neg (not_lt.mpr hk), termAt_follow]
  generalize follower.follow request.term request.leaderId = node at hfollow hsame
  cases hbefore : follower.termAt request.previousLogIndex with
  | none =>
    -- the follower's log ends before: go on behind its end
    have hpos : request.previousLogIndex ≠ 0 := fun hz => by
      rw [hz] at hbefore
      cases hbefore
    have hshort := (h.retained.termAt_eq_none_iff hpos).mp hbefore
    have hlast := h.retained.lastLogIndex_eq
    have hnode := hsame.lastLogIndex
    refine ⟨hfollow, Or.inr ⟨rfl, hsame, hfollow, Nat.succ_pos _, ?_, Or.inl ?_⟩⟩
    · show node.lastLogIndex + 1 ≤ _
      omega
    · show _ < node.lastLogIndex + 1
      omega
  | some previousTerm =>
    dsimp only
    by_cases hne : previousTerm ≠ request.previousLogTerm
    · rw [if_pos hne]
      have hpos : 0 < request.previousLogIndex := by
        by_contra hz
        obtain hz : request.previousLogIndex = 0 := by omega
        rw [hz] at hbefore hprevious
        exact hne ((Option.some.inj hbefore).symm.trans (Option.some.inj hprevious))
      have hsnapshot : snapshotIndex node.snapshot = snapshotIndex follower.snapshot := by
        rw [hsame.snapshot]
      rcases Nat.lt_or_ge (snapshotIndex follower.snapshot) request.previousLogIndex with hlt | hge
      · have hbehind := lt_conflictIndex node previousTerm (hsnapshot ▸ hlt)
        rw [hsnapshot] at hbehind
        exact ⟨hfollow, Or.inr ⟨rfl, hsame, hfollow, Nat.lt_of_le_of_lt (Nat.zero_le _) hbehind,
          conflictIndex_le _ _ _, Or.inl hbehind⟩⟩
      · -- the snapshots of the two end at one index with different terms
        have hthere : node.conflictIndex previousTerm request.previousLogIndex =
            request.previousLogIndex := conflictIndex_snapshot hpos (hsnapshot ▸ hge)
        have heq : request.previousLogIndex = snapshotIndex follower.snapshot := le_antisymm hge hk
        refine ⟨hfollow, Or.inr ⟨rfl, hsame, hfollow, hthere.symm ▸ hpos, hthere.le, Or.inr ?_⟩⟩
        rcases h.position with hcovered | hposition
        · show node.conflictIndex _ _ ≤ _
          omega
        · rw [← heq, hprevious, hbefore] at hposition
          exact absurd (Option.some.inj hposition).symm hne
    · rw [if_neg hne]
      have hcontinues : Continues follower request :=
        ⟨hle, hk, by rw [hbefore, not_not.mp hne]⟩
      have hcommitting : Committing node.log Good request.term node := by
        refine ⟨hfollow, ?_, fun _ he => he, ?_, ?_, ?_⟩
        · rw [hsame.snapshot, hsame.log]
          exact h.retained
        · rw [hsame.snapshot, hsame.applied]
          exact happlied.covered
        · rw [hsame.applied, hsame.lastLogIndex]
          exact happlied.applied
        · rw [hsame.machine]
          exact happlied.machine
      refine (acceptEntries_accepts hcommitting (hsame.log ▸ hw)
        (hsame.lastLogIndex ▸ hcontinues.previous_le h.retained) hplaced fun e he habove hwithin => ?_).mono
          (fun response s hr => ⟨hr.1, Or.inl hr.2⟩) fun _ _ hfalse => hfalse
      obtain ⟨i, hi⟩ := List.mem_iff_getElem?.mp he
      have hindex := (hplaced i e hi).1
      rw [hsame.termAt, ← happlied.agrees e.index (by omega) (hsame.snapshot ▸ habove)
        (hsame.applied ▸ hwithin)]
      exact hsent e he

/-- A snapshot is taken, whatever the follower holds. -/
theorem handleInstallSnapshot_answers (h : Follows leader follower) (hmachine : Good follower.machine)
    (request : InstallSnapshotRequest) (hterm : request.term = leader.hardState.currentTerm)
    (hpos : 0 < request.lastIncludedIndex) (hfits : request.payload.length ≤ uint32Max)
    (hinstall : ∀ s, Good s → (sm.installSnapshot request.payload s).1 = .ok ()) :
    Ends (fun response _ => response.term = request.term ∧ response.success = true)
      (fun _ _ => False) (handleInstallSnapshot sm request follower) := by
  have hle : follower.hardState.currentTerm ≤ request.term := hterm ▸ h.term
  have hfollow := follow_term hle request.leaderId
  have hinstalls : (sm.installSnapshot request.payload
      (follower.follow request.term request.leaderId).machine).1 = .ok () :=
    hinstall _ (by rwa [follow_machine])
  rw [handleInstallSnapshot_eq, if_neg (not_lt.mpr hle)]
  generalize follower.follow request.term request.leaderId = node at hfollow hinstalls
  split_ifs
  · exact ⟨hfollow, rfl⟩
  refine (installAccepted_spec sm node request).mono (fun response s hs => ?_) fun e s hs => ?_
  · obtain ⟨-, -, machine, -, rfl, -⟩ := hs
    exact ⟨hfollow, rfl⟩
  · rcases hs with ⟨hzero | hlarge, -⟩ | ⟨-, -, machine, hthrown, -⟩
    · omega
    · omega
    · rw [hthrown] at hinstalls
      cases hinstalls

end Answers

/-! ## Repeating the exchange -/

section Repair

variable {sm : StateMachine σ} {Good : σ → Prop} {peer : Peer} {next : Nat}
  {leader follower : RaftNode σ} {heartbeatOnly : Bool}
variable {request : AppendEntriesRequest} {response : AppendEntriesResponse}

/-- The follower's state machine takes the entries of both logs and the leader's snapshot. -/
structure Obliging (sm : StateMachine σ) (Good : σ → Prop) (leader follower : RaftNode σ) :
    Prop where
  willing : Willing sm Good (leader.log ++ follower.log)
  install : ∀ snapshot, leader.snapshot = some snapshot → ∀ s, Good s →
    (sm.installSnapshot snapshot.payload s).1 = .ok ()

/-- The next request starts inside the follower's snapshot, and the leader's does not reach it. -/
def Stuck (next : Nat) (leader follower : RaftNode σ) : Prop :=
  snapshotIndex leader.snapshot < next ∧ next ≤ snapshotIndex follower.snapshot

instance (next : Nat) (leader follower : RaftNode σ) : Decidable (Stuck next leader follower) :=
  inferInstanceAs (Decidable (_ ∧ _))

theorem Willing.mono {entries entries' : List LogEntry} (h : Willing sm Good entries)
    (hsub : ∀ e ∈ entries', e ∈ entries) : Willing sm Good entries' :=
  ⟨fun s hs e he => h.apply s hs e (hsub e he), h.create⟩

/-- Where the next exchange starts from. -/
structure Goes (peer : Peer) (next : Nat) (leader follower leader' follower' : RaftNode σ) : Prop where
  leads : Leads peer next leader'
  term : follower'.hardState.currentTerm ≤ leader'.hardState.currentTerm
  leaderSame : Untouched leader leader'
  followerSame : Untouched follower follower'

theorem Goes.of_refused {conflict : Nat} {follower' : RaftNode σ} (hlead : Leads peer next leader)
    (hterm : follower'.hardState.currentTerm = leader.hardState.currentTerm)
    (hsame : Untouched follower follower') (hpos : 0 < conflict) :
    Goes peer (min next conflict) leader follower (leader.backOff peer conflict) follower' :=
  ⟨hlead.backOff hpos, hterm.le, { Untouched.refl leader with }, hsame⟩

section Goes

variable {leader' follower' : RaftNode σ}

theorem Follows.goes (h : Follows leader follower)
    (hgoes : Goes peer next leader follower leader' follower') : Follows leader' follower' where
  term := hgoes.term
  retained := by
    rw [hgoes.followerSame.log, hgoes.followerSame.snapshot]
    exact h.retained
  position := by
    rw [hgoes.followerSame.snapshot, hgoes.leaderSame.snapshot, hgoes.leaderSame.termAt,
      hgoes.followerSame.termAt]
    exact h.position

theorem AppliedAgrees.goes (h : AppliedAgrees Good leader follower)
    (hgoes : Goes peer next leader follower leader' follower') : AppliedAgrees Good leader' follower' where
  covered := by
    rw [hgoes.followerSame.snapshot, hgoes.followerSame.applied]
    exact h.covered
  applied := by
    rw [hgoes.followerSame.applied, hgoes.followerSame.lastLogIndex]
    exact h.applied
  agrees i := by
    rw [hgoes.followerSame.snapshot, hgoes.leaderSame.snapshot, hgoes.followerSame.applied,
      hgoes.leaderSame.termAt, hgoes.followerSame.termAt]
    exact h.agrees i
  machine := by
    rw [hgoes.followerSame.machine]
    exact h.machine

theorem Obliging.goes (h : Obliging sm Good leader follower)
    (hgoes : Goes peer next leader follower leader' follower') : Obliging sm Good leader' follower' where
  willing := by
    rw [hgoes.leaderSame.log, hgoes.followerSame.log]
    exact h.willing
  install := by
    rw [hgoes.leaderSame.snapshot]
    exact h.install

end Goes

theorem appendResponse_refused (hlead : Leads peer next leader)
    (hterm : request.term = leader.hardState.currentTerm) (hresponse : response.term = request.term)
    (hfalse : response.success = false) :
    appendResponse peer request.term response leader =
      (.ok none, leader.backOff peer response.conflictIndex) := by
  unfold appendResponse
  rw [read_bind_apply, if_neg (by omega), if_neg (by simp [hlead.role, hterm]), hfalse]
  rfl

theorem appendResponse_success (hlead : Leads peer next leader)
    (hterm : request.term = leader.hardState.currentTerm) (hresponse : response.term = request.term)
    (htrue : response.success = true) :
    appendResponse peer request.term response leader =
      (.ok (some true), leader.recordMatch peer response.matchIndex) := by
  unfold appendResponse
  rw [read_bind_apply, if_neg (by omega), if_neg (by simp [hlead.role, hterm]), htrue]
  rfl

theorem installResponse_success {request : InstallSnapshotRequest}
    {response : InstallSnapshotResponse} (hlead : Leads peer next leader)
    (hterm : request.term = leader.hardState.currentTerm)
    (hresponse : response.term = request.term) (htrue : response.success = true) :
    installResponse peer request.term response leader =
      (.ok true, leader.recordMatch peer response.installedIndex) := by
  unfold installResponse
  rw [read_bind_apply, if_neg (by omega), if_neg (by simp [hlead.role, hterm]), htrue]
  rfl

/-- **One exchange makes progress.** -/
theorem attempt_progress (heartbeatOnly : Bool) (hlead : Leads peer next leader)
    (hfollow : Follows leader follower) (happlied : AppliedAgrees Good leader follower)
    (hobliging : Obliging sm Good leader follower) (hstuck : ¬ Stuck next leader follower) :
    (attempt sm peer heartbeatOnly leader follower).1 = .success ∨
      ∃ next' leader' follower',
        attempt sm peer heartbeatOnly leader follower = (.again, leader', follower') ∧
        next' < next ∧ Goes peer next' leader follower leader' follower' ∧
        ¬ Stuck next' leader' follower' := by
  have hpos := hlead.pos
  by_cases hle : next ≤ snapshotIndex leader.snapshot
  · -- the leader's snapshot is sent
    left
    obtain ⟨snapshot, hsome⟩ : ∃ snapshot, leader.snapshot = some snapshot := by
      cases hs : leader.snapshot with
      | none =>
        rw [hs, snapshotIndex_none] at hle
        omega
      | some snapshot => exact ⟨snapshot, rfl⟩
    have hle' := hle
    rw [hsome, snapshotIndex_some] at hle'
    obtain ⟨hindex, hfits⟩ := hlead.snapshot snapshot hsome
    obtain ⟨response, follower', hanswer, hresponse, htrue⟩ :=
      (handleInstallSnapshot_answers hfollow happlied.machine (leader.installRequest snapshot) rfl
        hindex hfits (hobliging.install snapshot hsome)).returns
    unfold attempt
    rw [hlead.request_snapshot heartbeatOnly hsome hle']
    show (installExchange sm peer (leader.installRequest snapshot) leader follower).1 = _
    unfold installExchange
    rw [hanswer]
    dsimp only
    rw [installResponse_success hlead rfl hresponse htrue]
  · have hlt : snapshotIndex leader.snapshot < next := not_le.mp hle
    have hbehind : snapshotIndex follower.snapshot < next := by
      by_contra hge
      exact hstuck ⟨hlt, not_lt.mp hge⟩
    obtain ⟨hplaced, hknown⟩ := hlead.carried_placed heartbeatOnly hlt
    obtain ⟨request, hrequest, hterm, hindex, hprevious, hentries⟩ :=
      hlead.request_append heartbeatOnly hlt
    unfold attempt
    rw [hrequest]
    dsimp only
    have hwilling : Willing sm Good (request.entries ++ follower.log) :=
      hobliging.willing.mono fun e he => by
        rw [hentries] at he
        exact List.mem_append.mpr ((List.mem_append.mp he).imp_left fun hmem => (hknown e hmem).1)
    obtain ⟨response, follower', hanswer, hresponse, hcases⟩ :=
      (handleAppendEntries_answers hfollow happlied hwilling hterm hprevious (by omega) (by omega)
        (by rw [hentries, hindex]; exact hplaced)
        (fun e he => (hknown e (hentries ▸ he)).2)).returns
    unfold appendExchange
    rw [hanswer]
    dsimp only
    rcases hcases with htrue | ⟨hfalse, hsame, hfollower, hconflict, hbelow, hside⟩
    · left
      rw [appendResponse_success hlead hterm hresponse htrue]
    · right
      have hmin : min next response.conflictIndex = response.conflictIndex :=
        min_eq_right (by omega)
      have hgoes := Goes.of_refused hlead (hfollower.trans hterm) hsame hconflict
      rw [hmin] at hgoes
      refine ⟨response.conflictIndex, _, _, ?_, by omega, hgoes, ?_⟩
      · rw [appendResponse_refused hlead hterm hresponse hfalse]
      · rintro ⟨hlow, hhigh⟩
        rw [hgoes.leaderSame.snapshot] at hlow
        rw [hgoes.followerSame.snapshot] at hhigh
        omega

/-- **An exchange that is stuck stays so.** -/
theorem attempt_stuck (sm : StateMachine σ) (heartbeatOnly : Bool) (hlead : Leads peer next leader)
    (hfollow : Follows leader follower) (hstuck : Stuck next leader follower) :
    ∃ leader' follower',
      attempt sm peer heartbeatOnly leader follower = (.again, leader', follower') ∧
      Goes peer next leader follower leader' follower' := by
  have hpos := hlead.pos
  obtain ⟨hlt, hinside⟩ := hstuck
  obtain ⟨request, hrequest, hterm, hindex, -, -⟩ := hlead.request_append heartbeatOnly hlt
  unfold attempt
  rw [hrequest]
  dsimp only
  have hle : follower.hardState.currentTerm ≤ request.term := hterm ▸ hfollow.term
  have hanswer : handleAppendEntries sm request follower =
      (.ok ⟨request.term, false, snapshotIndex follower.snapshot,
        snapshotIndex follower.snapshot + 1⟩,
        follower.follow request.term request.leaderId) := by
    simp only [handleAppendEntries, read_bind_apply]
    rw [if_neg (not_lt.mpr hle), update_bind_apply, read_bind_apply,
      if_pos (by rw [follow_snapshot]; omega), follow_snapshot, follow_term hle]
    rfl
  -- the hint lies behind the follower's snapshot, so the minimum is the old index
  have hgoes := Goes.of_refused hlead ((follow_term hle request.leaderId).trans hterm)
    (untouched_follow follower request.term request.leaderId)
    (show 0 < snapshotIndex follower.snapshot + 1 from Nat.succ_pos _)
  rw [min_eq_left (by omega)] at hgoes
  refine ⟨_, _, ?_, hgoes⟩
  unfold appendExchange
  rw [hanswer]
  dsimp only
  rw [appendResponse_refused hlead hterm rfl rfl]

/-- Every exchange lowers `next_index`, so there are at most as many as it counts. -/
theorem repairs_of_not_stuck {attempts : Nat} (hattempts : next ≤ attempts)
    (hlead : Leads peer next leader) (hfollow : Follows leader follower)
    (happlied : AppliedAgrees Good leader follower) (hobliging : Obliging sm Good leader follower)
    (hstuck : ¬ Stuck next leader follower) :
    repairs sm peer heartbeatOnly attempts leader follower = true := by
  induction attempts generalizing next leader follower with
  | zero =>
    have := hlead.pos
    omega
  | succ attempts ih =>
    unfold repairs
    rcases attempt_progress heartbeatOnly hlead hfollow happlied hobliging hstuck with
      hsuccess | ⟨next', leader', follower', hagain, hlt, hgoes, hstuck'⟩
    · rcases hattempt : attempt sm peer heartbeatOnly leader follower with ⟨result, rest⟩
      rw [hattempt] at hsuccess
      obtain rfl : result = .success := hsuccess
      rfl
    · rw [hagain]
      exact ih (by omega) hgoes.leads (hfollow.goes hgoes) (happlied.goes hgoes)
        (hobliging.goes hgoes) hstuck'

theorem not_repairs_of_stuck (attempts : Nat) (hlead : Leads peer next leader)
    (hfollow : Follows leader follower) (hstuck : Stuck next leader follower) :
    repairs sm peer heartbeatOnly attempts leader follower = false := by
  induction attempts generalizing leader follower with
  | zero => rfl
  | succ attempts ih =>
    obtain ⟨leader', follower', hagain, hgoes⟩ :=
      attempt_stuck sm heartbeatOnly hlead hfollow hstuck
    unfold repairs
    rw [hagain]
    refine ih hgoes.leads (hfollow.goes hgoes) ?_
    unfold Stuck
    rw [hgoes.leaderSame.snapshot, hgoes.followerSame.snapshot]
    exact hstuck

end Repair

/-! ## A follower whose snapshot is ahead -/

def noops : List LogEntry := [⟨1, 1, {}⟩, ⟨2, 1, {}⟩]

def secondPeer : Peer := ⟨[2], [1]⟩

/-- A leader with both entries in its log. -/
def noopLeader (next : Nat) : RaftNode Values :=
  { loaded { nodeId := [1], peers := [secondPeer] } {} OrderedMap.empty with
    role := .Leader
    hardState := ⟨1, [1], 2, 2⟩
    log := noops
    nextIndex := OrderedMap.empty.insert secondPeer.id next }

/-- A follower that has both in its snapshot. -/
def snapshotFollower : RaftNode Values :=
  { loaded { nodeId := [2], peers := [⟨[1], [1]⟩] } {} OrderedMap.empty with
    hardState := ⟨1, [1], 2, 2⟩
    snapshot := some ⟨2, 1, [1, 0, 0, 0, 0, 0, 0, 0, 0, 0, 0, 0]⟩ }

theorem noopLeader_leads {next : Nat} (hpos : 0 < next) (hle : next ≤ 3) :
    Leads secondPeer next (noopLeader next) :=
  ⟨rfl, ((retained_nil 0).concat rfl Nat.one_ne_zero).concat rfl Nat.one_ne_zero,
    fun s hs => (by cases hs), rfl, hpos, hle⟩

theorem snapshotFollower_follows (next : Nat) : Follows (noopLeader next) snapshotFollower :=
  ⟨le_rfl, retained_nil 2, Or.inr rfl⟩

theorem snapshotFollower_appliedAgrees (next : Nat) :
    AppliedAgrees (fun values => values = OrderedMap.empty) (noopLeader next) snapshotFollower where
  covered := le_rfl
  applied := le_rfl
  agrees _ _ hlt hle := absurd hlt (not_lt.mpr hle)
  machine := rfl

theorem noops_obliging (next : Nat) :
    Obliging keyValueStateMachine (fun values => values = OrderedMap.empty) (noopLeader next)
      snapshotFollower where
  willing :=
    ⟨fun s hs entry hentry => by
      subst hs
      have hmem : entry ∈ noops := by simpa [noopLeader, snapshotFollower, loaded] using hentry
      rcases List.mem_cons.mp hmem with rfl | hmem
      · exact ⟨rfl, rfl⟩
      · rw [List.mem_singleton.mp hmem]
        exact ⟨rfl, rfl⟩,
    fun s hs => ⟨[1, 0, 0, 0, 0, 0, 0, 0, 0, 0, 0, 0], by rw [hs]; rfl, by decide⟩⟩
  install snapshot hs := by cases hs

/-- A leader that sends its entries one by one. -/
def newLeader : RaftNode Values :=
  { loaded { nodeId := [1], peers := [secondPeer], maxAppendEntries := 1 } {} OrderedMap.empty with
    role := .Leader
    hardState := ⟨2, [1], 4, 4⟩
    log := [⟨1, 1, {}⟩, ⟨2, 2, {}⟩, ⟨3, 2, {}⟩, ⟨4, 2, {}⟩]
    nextIndex := OrderedMap.empty.insert secondPeer.id 2 }

/-- A follower that has applied two entries which the leader does not have. -/
def aheadFollower : RaftNode Values :=
  { loaded { nodeId := [2], peers := [⟨[1], [1]⟩], snapshotThresholdEntries := 3 } {}
      OrderedMap.empty with
    hardState := ⟨1, [1], 3, 3⟩
    log := [⟨1, 1, {}⟩, ⟨2, 1, {}⟩, ⟨3, 1, {}⟩] }

/-- The two nodes after an exchange, whatever came of it. -/
def exchanged (nodes : RaftNode Values × RaftNode Values) : RaftNode Values × RaftNode Values :=
  (attempt keyValueStateMachine secondPeer false nodes.1 nodes.2).2

theorem attempt_exchanged (n : Nat) :
    (attempt keyValueStateMachine secondPeer false (exchanged^[n] (newLeader, aheadFollower)).1
      (exchanged^[n] (newLeader, aheadFollower)).2).1 = .failed := by
  cases n with
  | zero => decide
  | succ n =>
    -- the first exchange cuts the log, and no later one changes anything
    have hfixed : exchanged (exchanged (newLeader, aheadFollower)) =
        exchanged (newLeader, aheadFollower) := rfl
    rw [Function.iterate_succ_apply, Function.iterate_fixed hfixed]
    decide

end NebulaKV.Raft
