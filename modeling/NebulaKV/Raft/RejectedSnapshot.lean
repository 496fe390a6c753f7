/-
# A malformed snapshot

`install_snapshot` empties the storage and the map first and decodes the payload into the map entry by entry.
So a payload that is refused, at whatever entry, leaves the pairs in front of that entry over a new store,
and what the machine held before is lost (`install_rejected`).

`handle_install_snapshot` asks the machine last. Before, it has trimmed the log and replaced the snapshot, in
memory and on disk: a request that gets so far changes the node whatever its payload is, and only one that is
turned away before leaves it alone.
-/
import Mathlib.Data.List.TakeWhile
import NebulaKV.Raft.DurableMachine
import NebulaKV.Raft.SnapshotInstall

namespace NebulaKV.Raft

open Containers Effects Program
open Lsm (PersistentKeyValueStore)

namespace DurableKeyValueStateMachine

/-- The class as the interface that a node drives. -/
def durableStateMachine : StateMachine DurableKeyValueStateMachine where
  recover := recover
  apply := apply
  createSnapshot := createSnapshot
  installSnapshot := installSnapshot

/-- Reads, the size and the embedded store are as they were. -/
structure Kept (machine machine' : DurableKeyValueStateMachine) : Prop where
  get : ∀ key, machine'.get key = machine.get key
  size : machine'.values.size = machine.values.size
  store : machine'.store = machine.store

/-- A new store over an empty directory. -/
def newStore (options : DurableStateMachineOptions) : Option PersistentKeyValueStore :=
  (PersistentKeyValueStore.create options.store OrderedMap.empty {} []).toOption

/-- What a refused payload leaves: a new store, and the pairs in front of the mistake. -/
theorem install_rejected {machine : DurableKeyValueStateMachine} (husable : machine.options.Usable)
    {payload : Bytes} (hrejected : ¬ Accepted payload) :
    ∃ error, installSnapshot payload machine = (.error error,
      { options := machine.options
        values := restored payload
        store := newStore machine.options
        directory := {} }) := by
  obtain ⟨store, hcreate⟩ := create_ok husable
  have hreset : resetStorage machine =
      (.ok (), { machine with store := some store, directory := {} }) := by
    unfold resetStorage openStorage
    simp only [update_bind_apply, read_bind_apply, hcreate, check_ok_bind, update_apply]
  cases hresult : (restoreMap payload OrderedMap.empty).1 with
  | ok u => exact absurd hresult hrejected
  | error e =>
    refine ⟨e, ?_⟩
    have hrestore : withValues (restoreMap payload)
        { machine with values := OrderedMap.empty, store := some store, directory := {} } =
        (.error e, { machine with
          values := restored payload, store := some store, directory := {} }) := by
      unfold withValues Program.zoom restored
      rw [hresult]
    have hnew : newStore machine.options = some store := by
      unfold newStore
      rw [hcreate]
      rfl
    unfold installSnapshot clearValues
    rw [bind_apply, hreset]
    dsimp only
    rw [update_bind_apply, bind_apply, hrestore, hnew]

theorem get_eq_iff {machine machine' : DurableKeyValueStateMachine} :
    (∀ key, machine'.get key = machine.get key) ↔
      ∀ key, ValidKey key → machine'.values.find? key = machine.values.find? key := by
  refine forall_congr' fun key => ?_
  unfold get
  by_cases hkey : ValidKey key
  · rw [validateKey_eq_ok.mpr hkey]
    simp only [hkey, true_imp_iff]
    exact ⟨fun h => Except.ok.inj h, fun h => congrArg Except.ok h⟩
  · refine ⟨fun _ h => absurd h hkey, fun _ => ?_⟩
    cases hvalidate : validateKey key with
    | ok u => exact absurd (validateKey_eq_ok.mp hvalidate) hkey
    | error e => rfl

end DurableKeyValueStateMachine

namespace RaftNode

variable {σ : Type}

/-- The log, the snapshot, the snapshot on disk and the machine are as they were. -/
structure KeptNode (node node' : RaftNode σ) : Prop where
  log : node'.log = node.log
  snapshot : node'.snapshot = node.snapshot
  saved : node'.disk.snapshot = node.disk.snapshot
  machine : node'.machine = node.machine

/-- The request is turned away: it is stale, the node has a snapshot that reaches as far, or the storage
refuses the snapshot and the log loses nothing to it, being empty or starting behind an entry that the node
knows. -/
def TurnedAway (node : RaftNode σ) (request : InstallSnapshotRequest) : Prop :=
  request.term < node.hardState.currentTerm ∨ HasSnapshot node request ∨
    ((request.lastIncludedIndex = 0 ∨ request.payload.length > uint32Max) ∧
      (node.log = [] ∨
        node.termAt request.lastIncludedIndex = some request.lastIncludedTerm ∧
          ∀ entry, node.log.head? = some entry → request.lastIncludedIndex < entry.index))

section Install

variable {sm : StateMachine σ} {node : RaftNode σ} {request : InstallSnapshotRequest}

theorem keptNode_follow (term : Nat) (leaderId : NodeId) : KeptNode node (node.follow term leaderId) :=
  have hsame := untouched_follow node term leaderId
  ⟨hsame.log, hsame.snapshot, hsame.diskSnapshot, hsame.machine⟩

theorem keepBehind_follow_log (term : Nat) (leaderId : NodeId) :
    ((node.follow term leaderId).keepBehind request).log = (node.keepBehind request).log := by
  unfold keepBehind
  rw [termAt_follow]
  split_ifs
  · rw [follow_log]
  · rfl

/-- The storage refuses the snapshot, or the node has it, whatever the machine says. -/
theorem installAccepted_state (sm : StateMachine σ) (node : RaftNode σ) (request : InstallSnapshotRequest) :
    (request.lastIncludedIndex = 0 ∨ request.payload.length > uint32Max) ∧
        (installAccepted sm request node).2 = node.keepBehind request ∨
      ¬ (request.lastIncludedIndex = 0 ∨ request.payload.length > uint32Max) ∧
        (installAccepted sm request node).2.snapshot =
          some ⟨request.lastIncludedIndex, request.lastIncludedTerm, request.payload⟩ := by
  have hspec := installAccepted_spec sm node request
  have hboth : request.lastIncludedIndex ≠ 0 → request.payload.length ≤ uint32Max →
      ¬ (request.lastIncludedIndex = 0 ∨ request.payload.length > uint32Max) :=
    fun hindex hfits => not_or.mpr ⟨hindex, not_lt.mpr hfits⟩
  rcases hend : installAccepted sm request node with ⟨e | response, s⟩ <;> rw [hend] at hspec
  · rcases hspec with ⟨hrefused, rfl⟩ | ⟨hindex, hfits, machine, -, rfl⟩
    · exact Or.inl ⟨hrefused, rfl⟩
    · exact Or.inr ⟨hboth hindex hfits, rfl⟩
  · obtain ⟨hindex, hfits, machine, -, -, rfl⟩ := hspec
    exact Or.inr ⟨hboth hindex hfits, rfl⟩

theorem keepBehind_log_iff (node : RaftNode σ) (request : InstallSnapshotRequest) :
    (node.keepBehind request).log = node.log ↔
      (node.log = [] ∨
        node.termAt request.lastIncludedIndex = some request.lastIncludedTerm ∧
          ∀ entry, node.log.head? = some entry → request.lastIncludedIndex < entry.index) := by
  unfold keepBehind
  split_ifs with hknown
  · rw [and_iff_right hknown]
    show eraseThrough _ node.log = node.log ↔ _
    rw [eraseThrough, List.dropWhile_eq_self_iff]
    cases node.log with
    | nil => simp
    | cons entry rest => simp
  · rw [or_iff_left fun h => hknown h.1]
    exact eq_comm

theorem keptNode_iff (sm : StateMachine σ) (node : RaftNode σ) (request : InstallSnapshotRequest) :
    KeptNode node (handleInstallSnapshot sm request node).2 ↔ TurnedAway node request := by
  rw [handleInstallSnapshot_eq]
  by_cases hterm : request.term < node.hardState.currentTerm
  · rw [if_pos hterm]
    exact ⟨fun _ => Or.inl hterm, fun _ => ⟨rfl, rfl, rfl, rfl⟩⟩
  rw [if_neg hterm]
  by_cases hhas : node.HasSnapshot request
  · rw [if_pos hhas]
    exact ⟨fun _ => Or.inr (Or.inl hhas), fun _ => keptNode_follow _ _⟩
  rw [if_neg hhas]
  have haway : TurnedAway node request ↔ _ := (or_iff_right hterm).trans (or_iff_right hhas)
  rw [haway]
  rcases installAccepted_state sm (node.follow request.term request.leaderId) request with
    ⟨hrefused, hstate⟩ | ⟨hsaved, hstate⟩
  · have hkept : KeptNode node (node.follow request.term request.leaderId) := keptNode_follow _ _
    rw [and_iff_right hrefused, ← keepBehind_log_iff,
      ← keepBehind_follow_log request.term request.leaderId, hstate]
    refine ⟨fun h => h.log, fun hlog => ?_⟩
    rw [keepBehind_eq_log]
    exact ⟨hlog, hkept.snapshot, hkept.saved, hkept.machine⟩
  · -- the snapshot is replaced by one with a higher index
    refine ⟨fun h => ?_, fun h => absurd h.1 hsaved⟩
    have hsnapshot := hstate.symm.trans h.snapshot
    exact absurd ⟨by rw [← hsnapshot]; rfl, by rw [← hsnapshot]; exact le_rfl⟩ hhas

end Install

end RaftNode

open DurableKeyValueStateMachine RaftNode

/-- **What a malformed snapshot leaves.** `install_snapshot` throws for every payload that `restore_map_locked`
rejects. It leaves reads, size and store as they were exactly if the machine held the pairs in front of the
mistake over a new store already; and `handle_install_snapshot` leaves log, snapshot, saved snapshot and
machine of a node as they were exactly if the request is turned away before the machine is asked. -/
theorem malformed_snapshot_iff {machine : DurableKeyValueStateMachine}
    (husable : machine.options.Usable) {payload : Bytes} (hrejected : ¬ Accepted payload) :
    (∃ error, (installSnapshot payload machine).1 = .error error) ∧
      (Kept machine (installSnapshot payload machine).2 ↔
        (∀ key, ValidKey key → (restored payload).find? key = machine.values.find? key) ∧
          (restored payload).size = machine.values.size ∧
          machine.store = newStore machine.options) ∧
      ∀ (node : RaftNode DurableKeyValueStateMachine) (request : InstallSnapshotRequest),
        request.payload = payload →
          (KeptNode node (handleInstallSnapshot durableStateMachine request node).2 ↔
            TurnedAway node request) := by
  obtain ⟨error, hinstall⟩ := install_rejected husable hrejected
  rw [hinstall]
  refine ⟨⟨error, rfl⟩, ⟨fun h => ?_, fun h => ?_⟩, fun node request _ => keptNode_iff _ node request⟩
  · exact ⟨get_eq_iff.mp h.get, h.size, h.store.symm⟩
  · exact ⟨get_eq_iff.mpr h.1, h.2.1, h.2.2.symm⟩

/-- Two pairs are announced, and the payload ends behind the first. -/
def halfPayload : Bytes :=
  Codec.leBytes 4 1 ++ Codec.leBytes 8 2 ++ Codec.leBytes 4 1 ++ [2] ++ Codec.leBytes 4 1 ++ [8]

theorem halfPayload_rejected : ¬ Accepted halfPayload := by
  unfold Accepted
  decide +kernel

/-- A machine that was given the payload before stays as it is. -/
theorem malformed_snapshot_iff_again :
    Kept { plainMachine with values := restored halfPayload, store := newStore plainOptions }
      (installSnapshot halfPayload
        { plainMachine with values := restored halfPayload, store := newStore plainOptions }).2 :=
  (@malformed_snapshot_iff
    { plainMachine with values := restored halfPayload, store := newStore plainOptions }
    plainMachine_usable halfPayload halfPayload_rejected).2.1.mpr ⟨fun _ _ => rfl, rfl, rfl⟩

/-- A machine with one pair. -/
def putMachine : DurableKeyValueStateMachine :=
  (DurableKeyValueStateMachine.apply ⟨1, 1, ⟨.Put, [1], [7]⟩⟩ plainMachine).2

/-- A follower that has applied one entry. -/
def putFollower : RaftNode DurableKeyValueStateMachine :=
  loaded ⟨[1], [⟨[2], [1]⟩], 300, 600, 75, 200, 128, 0⟩
    ⟨⟨1, [], 1, 1⟩, [⟨1, 1, ⟨.Put, [1], [7]⟩⟩], none⟩ putMachine

/-- The pair is lost, the first pair of the payload is there instead, and the follower that throws has given
up its log for the snapshot, in memory and on disk. -/
theorem half_payload_replaces_map : ¬ Accepted halfPayload ∧
    putMachine.get [1] = .ok (some [7]) ∧
    (installSnapshot halfPayload putMachine).1 =
      .error (.runtimeError "truncated encoded data") ∧
    (installSnapshot halfPayload putMachine).2.get [1] = .ok none ∧
    (installSnapshot halfPayload putMachine).2.get [2] = .ok (some [8]) ∧
    (handleInstallSnapshot durableStateMachine ⟨1, [2], 5, 1, halfPayload⟩ putFollower).1 =
      .error (.runtimeError "truncated encoded data") ∧
    (handleInstallSnapshot durableStateMachine ⟨1, [2], 5, 1, halfPayload⟩ putFollower).2.log = [] ∧
    (handleInstallSnapshot durableStateMachine ⟨1, [2], 5, 1, halfPayload⟩ putFollower).2.snapshot =
      some ⟨5, 1, halfPayload⟩ ∧
    (handleInstallSnapshot durableStateMachine ⟨1, [2], 5, 1, halfPayload⟩ putFollower).2.disk.snapshot =
      some ⟨5, 1, halfPayload⟩ := by
  refine ⟨halfPayload_rejected, ?_, ?_, ?_, ?_, ?_, ?_, ?_, ?_⟩ <;> decide +kernel

end NebulaKV.Raft
