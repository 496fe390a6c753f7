/-
# The replicated state machine

`raft/state_machine.hpp` is an interface: a node recovers a machine from a snapshot and the committed
entries behind it, applies entries to it one at a time, asks it for a snapshot and resets it to one.
Every call may throw, and what it did before the throw stays done.

`keyValueStateMachine` is `DurableKeyValueStateMachine`: the ordered map its reads are served from. The
LSM store that the class writes through is modelled on its own; no answer of the state machine reads it.
-/
import NebulaKV.Containers.OrderedMap
import NebulaKV.Effects.Program
import NebulaKV.Raft.Serialization

namespace NebulaKV.Raft

open Containers Effects Serialization
open Program (check)

structure StateMachine (σ : Type) where
  recover : Option Snapshot → List LogEntry → Program σ Error Unit
  apply : LogEntry → Program σ Error Unit
  createSnapshot : σ → Except Error Bytes
  installSnapshot : Bytes → Program σ Error Unit

/-! ## The key-value machine -/

abbrev Values := OrderedMap Bytes Bytes

def kStateSnapshotVersion : Nat := 1

def applyCommand (command : Command) : Program Values Error Unit :=
  match command.type with
  | .Noop => pure ()
  | .Put => do
    check (validateKey command.key)
    check (validateValue command.value)
    Program.update fun values => values.insert command.key command.value
  | .Delete => do
    check (validateKey command.key)
    Program.update fun values => values.erase command.key

def applyCommands : List LogEntry → Program Values Error Unit
  | [] => pure ()
  | entry :: rest => do
    applyCommand entry.command
    applyCommands rest

/-- The loop over the announced number of pairs. A key that is there already is refused. -/
def restoreEntries : Nat → Decoder → Program Values Error Decoder
  | 0, decoder => pure decoder
  | count + 1, decoder => do
    let (key, decoder) ← check decoder.readBytes
    let (value, decoder) ← check (Decoder.readBytes decoder)
    check (validateKey key)
    check (validateValue value)
    let values ← Program.read
    if (values.find? key).isSome then
      Program.raise (.runtimeError "duplicate key in state machine snapshot")
    else do
      Program.update fun values => values.insert key value
      restoreEntries count decoder

def restoreMap (payload : Bytes) : Program Values Error Unit := do
  let (version, decoder) ← check (Decoder.readU32 payload)
  if version ≠ kStateSnapshotVersion then
    Program.raise (.runtimeError "unsupported state machine snapshot version")
  else do
    let (count, decoder) ← check (Decoder.readU64 decoder)
    let decoder ← restoreEntries count decoder
    if decoder ≠ [] then
      Program.raise (.runtimeError "unexpected bytes in state machine snapshot")
    else pure ()

def restoreSnapshot : Option Snapshot → Program Values Error Unit
  | some snapshot => restoreMap snapshot.payload
  | none => pure ()

def encodeEntries : List (Bytes × Bytes) → Bytes → Except Error Bytes
  | [], payload => .ok payload
  | (key, value) :: rest, payload => do
    let payload ← appendBytes payload key
    let payload ← appendBytes payload value
    encodeEntries rest payload

def encodeMap (values : Values) : Except Error Bytes :=
  encodeEntries values.entries (appendU64 (appendU32 [] kStateSnapshotVersion) values.size)

/-- `DurableKeyValueStateMachine`. -/
def keyValueStateMachine : StateMachine Values where
  recover snapshot committedEntries := do
    Program.update fun _ => OrderedMap.empty
    restoreSnapshot snapshot
    applyCommands committedEntries
  apply entry :=
    if entry.index = 0 ∨ entry.term = 0 then
      Program.raise (.invalidArgument "committed Raft entry must have an index and term")
    else applyCommand entry.command
  createSnapshot values := encodeMap values
  installSnapshot payload := do
    Program.update fun _ => OrderedMap.empty
    restoreMap payload

/-! ## Valid commands are never refused -/

/-- What `apply` asks of a command, and `submit` has checked: a no-op carries anything. -/
def Command.Valid (command : Command) : Prop :=
  match command.type with
  | .Noop => True
  | .Put => ValidKey command.key ∧ ValidValue command.value
  | .Delete => ValidKey command.key

theorem valid_of_validClientCommand {command : Command} {b : Bool}
    (h : validClientCommand command = .ok b) : command.Valid := by
  unfold validClientCommand at h
  unfold Command.Valid
  cases htype : command.type with
  | Noop => trivial
  | Put =>
    simp only [htype] at h ⊢
    cases hk : validateKey command.key with
    | error e => rw [hk] at h; cases h
    | ok u =>
      cases hv : validateValue command.value with
      | error e => rw [hk, hv] at h; cases h
      | ok u' => exact ⟨validateKey_eq_ok.mp hk, validateValue_eq_ok.mp hv⟩
  | Delete =>
    simp only [htype] at h ⊢
    cases hk : validateKey command.key with
    | error e => rw [hk] at h; cases h
    | ok u => exact validateKey_eq_ok.mp hk

/-- What a command does to the map. -/
def Command.effect (command : Command) (values : Values) : Values :=
  match command.type with
  | .Noop => values
  | .Put => values.insert command.key command.value
  | .Delete => values.erase command.key

theorem applyCommand_of_valid {command : Command} (h : command.Valid) (values : Values) :
    applyCommand command values = (.ok (), command.effect values) := by
  unfold Command.Valid at h
  unfold applyCommand Command.effect
  cases htype : command.type with
  | Noop => rfl
  | Put =>
    simp only [htype] at h
    simp only [Program.bind_apply, check, validateKey_eq_ok.mpr h.1,
      validateValue_eq_ok.mpr h.2, Program.update_apply]
  | Delete =>
    simp only [htype] at h
    simp only [Program.bind_apply, check, validateKey_eq_ok.mpr h, Program.update_apply]

/-- A command is applied, or refused for what it carries, with nothing changed. -/
theorem applyCommand_outcome (command : Command) (values : Values) :
    Program.Outcome (fun _ s => command.Valid ∧ s = command.effect values)
      (fun s => ¬ command.Valid ∧ s = values)
      (applyCommand command values) := by
  by_cases hvalid : command.Valid
  · rw [applyCommand_of_valid hvalid]
    exact ⟨hvalid, rfl⟩
  have hbad := hvalid
  unfold applyCommand
  unfold Command.Valid at hbad
  cases htype : command.type with
  | Noop =>
    rw [htype] at hbad
    exact absurd trivial hbad
  | Put =>
    rw [htype] at hbad
    simp only [Program.bind_apply, check]
    cases hkey : validateKey command.key with
    | error e => exact ⟨hvalid, rfl⟩
    | ok _ =>
      dsimp only
      cases hvalue : validateValue command.value with
      | error e => exact ⟨hvalid, rfl⟩
      | ok _ => exact absurd ⟨validateKey_eq_ok.mp hkey, validateValue_eq_ok.mp hvalue⟩ hbad
  | Delete =>
    rw [htype] at hbad
    simp only [Program.bind_apply, check]
    cases hkey : validateKey command.key with
    | error e => exact ⟨hvalid, rfl⟩
    | ok _ => exact absurd (validateKey_eq_ok.mp hkey) hbad

/-- The replay of a log from the empty map. -/
def replay (entries : List LogEntry) : Values :=
  entries.foldl (fun values entry => entry.command.effect values) OrderedMap.empty

/-! ## Snapshots of the map -/

/-- The bytes of a list of pairs. -/
def encodedPairs : List (Bytes × Bytes) → Bytes
  | [] => []
  | (key, value) :: rest =>
    Codec.leBytes 4 key.length ++ (key ++ (Codec.leBytes 4 value.length ++
      (value ++ encodedPairs rest)))

theorem encodeEntries_eq {pairs : List (Bytes × Bytes)} {payload out : Bytes}
    (h : encodeEntries pairs payload = .ok out) :
    out = payload ++ encodedPairs pairs ∧
      ∀ pair ∈ pairs, pair.1.length ≤ uint32Max ∧ pair.2.length ≤ uint32Max := by
  induction pairs generalizing payload with
  | nil =>
    simp only [encodeEntries, Except.ok.injEq] at h
    simp [encodedPairs, h]
  | cons pair rest ih =>
    obtain ⟨key, value⟩ := pair
    by_cases hk : key.length ≤ uint32Max
    · by_cases hv : value.length ≤ uint32Max
      · simp only [encodeEntries, appendBytes_of_le hk, appendBytes_of_le hv, bind,
          Except.bind] at h
        obtain ⟨hout, hrest⟩ := ih h
        refine ⟨by simp [hout, encodedPairs], ?_⟩
        exact List.forall_mem_cons.mpr ⟨⟨hk, hv⟩, hrest⟩
      · simp [encodeEntries, appendBytes_of_le hk, appendBytes_of_gt hv, bind, Except.bind] at h
    · simp [encodeEntries, appendBytes_of_gt hk, bind, Except.bind] at h

theorem length_le_encodedPairs (pairs : List (Bytes × Bytes)) :
    pairs.length ≤ (encodedPairs pairs).length := by
  induction pairs with
  | nil => simp [encodedPairs]
  | cons pair rest ih =>
    simp only [encodedPairs, List.length_append, Codec.length_leBytes, List.length_cons]
    omega

/-- Restoring the bytes of a list of pairs, if it succeeds, inserts the pairs. -/
theorem restoreEntries_encodedPairs {pairs : List (Bytes × Bytes)}
    (hlen : ∀ pair ∈ pairs, pair.1.length ≤ uint32Max ∧ pair.2.length ≤ uint32Max)
    (rest : Bytes) (values : Values) :
    Program.Outcome
      (fun decoder result => decoder = rest ∧
        result = pairs.foldl (fun acc pair => acc.insert pair.1 pair.2) values)
      (fun _ => True) (restoreEntries pairs.length (encodedPairs pairs ++ rest) values) := by
  induction pairs generalizing values with
  | nil => exact ⟨rfl, rfl⟩
  | cons pair pairs ih =>
    obtain ⟨key, value⟩ := pair
    obtain ⟨hk, hv⟩ := hlen (key, value) List.mem_cons_self
    simp only [encodedPairs, List.length_cons, List.append_assoc, restoreEntries,
      readBytes_append hk, Program.bind_apply, check, readBytes_append hv]
    cases validateKey key with
    | error e => trivial
    | ok _ =>
      cases validateValue value with
      | error e => trivial
      | ok _ =>
        by_cases hdup : (values.find? key).isSome
        · simp only [Program.read_apply, if_pos hdup]
          trivial
        · simp only [Program.read_apply, if_neg hdup]
          exact ih (List.forall_mem_cons.mp hlen).2 (values.insert key value)

/-- **A snapshot is read back.** Restoring the encoding of a map into the empty map, if it returns,
gives the map. -/
theorem restoreMap_encodeMap {values : Values} {payload : Bytes}
    (h : encodeMap values = .ok payload) (hfits : payload.length ≤ uint32Max) :
    Program.Outcome (fun _ result => result = values) (fun _ => True)
      (restoreMap payload OrderedMap.empty) := by
  obtain ⟨hout, hlen⟩ := encodeEntries_eq h
  have hsize : values.size < u64 := by
    have := length_le_encodedPairs values.entries
    have hl : payload.length = (appendU64 (appendU32 [] kStateSnapshotVersion) values.size).length +
        (encodedPairs values.entries).length := by rw [hout, List.length_append]
    unfold OrderedMap.size u64
    unfold uint32Max at hfits
    omega
  have hversion : kStateSnapshotVersion ≤ uint32Max := by decide
  have hpayload : payload = Codec.leBytes 4 kStateSnapshotVersion ++
      (Codec.leBytes 8 values.size ++ encodedPairs values.entries) := by
    rw [hout]
    simp [appendU64, appendU32]
  have hrestore := restoreEntries_encodedPairs hlen [] (OrderedMap.empty : Values)
  rw [List.append_nil, OrderedMap.foldl_insert_entries] at hrestore
  simp only [restoreMap, hpayload, Program.bind_apply, check, readU32_append hversion,
    readU64_append hsize, ne_eq, not_true_eq_false, if_false]
  rw [show values.size = values.entries.length from rfl]
  rcases hr : restoreEntries values.entries.length (encodedPairs values.entries)
    OrderedMap.empty with ⟨r, result⟩
  rw [hr] at hrestore
  cases r with
  | error e => trivial
  | ok decoder =>
    obtain ⟨rfl, rfl⟩ := hrestore
    rfl

end NebulaKV.Raft
