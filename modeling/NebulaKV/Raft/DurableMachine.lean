/-
# The durable state machine

`DurableKeyValueStateMachine` keeps two copies of one map: `values_`, which answers reads, and an
embedded `PersistentKeyValueStore`. There are three ways to build the state: replay from the empty map,
a snapshot with the entries behind it, and an installed snapshot over old data. They give the same map,
and the store answers as the map does, as long as the store takes the writes: at a limit of the store
(`AtLimit`) a command throws half-way.

The store is opened on the state directory: `recover` and `install_snapshot` empty the directory first,
a first `apply` opens what is there.
-/
import NebulaKV.Lsm.StoreMap
import NebulaKV.Raft.StateMachine

namespace NebulaKV.Raft

open Containers Effects Serialization
open Program (check Outcome)
open Lsm (PersistentKeyValueStore)
open Lsm.PersistentKeyValueStore (Refines)

/-! ## The class -/

structure DurableStateMachineOptions where
  memtableMaxBytes : Nat := 64 * 1024 * 1024
  blockCacheCapacityBytes : Nat := 64 * 1024 * 1024
  /-- How large the store's Bloom filters are made. -/
  bloomSizing : Lsm.BloomSizing

/-- What `open_storage_locked` passes on; the rest are the store's defaults. -/
def DurableStateMachineOptions.store (options : DurableStateMachineOptions) :
    Lsm.PersistentStoreOptions :=
  { memtableMaxBytes := options.memtableMaxBytes
    sstables :=
      { blockCacheCapacityBytes := options.blockCacheCapacityBytes
        bloomSizing := options.bloomSizing } }

/-- Options that the store's constructor takes. -/
def DurableStateMachineOptions.Usable (options : DurableStateMachineOptions) : Prop :=
  options.memtableMaxBytes ≠ 0 ∧ options.blockCacheCapacityBytes ≠ 0

/-- The state directory while no store has it open. -/
structure StateDirectory where
  files : OrderedMap Bytes Lsm.SSTableFile := OrderedMap.empty
  manifest : Lsm.ManifestManager := {}
  wal : List Lsm.WalRecord := []

structure DurableKeyValueStateMachine where
  options : DurableStateMachineOptions
  values : Values := OrderedMap.empty
  store : Option PersistentKeyValueStore := none
  directory : StateDirectory := {}

/-- What a command asks of the store. -/
def Command.write (command : Command) : Program PersistentKeyValueStore Error Unit :=
  match command.type with
  | .Noop => pure ()
  | .Put => PersistentKeyValueStore.put command.key command.value
  | .Delete => do
    let _ ← PersistentKeyValueStore.remove command.key

/-- What it makes of the map that the store stands for. -/
def Command.written (command : Command) (reference : Lsm.Reference) : Lsm.Reference :=
  match command.type with
  | .Noop => reference
  | .Put => reference.put command.key command.value
  | .Delete => reference.remove command.key

namespace DurableKeyValueStateMachine

def openStorage : Program DurableKeyValueStateMachine Error Unit := do
  let machine ← Program.read
  let store ← check (PersistentKeyValueStore.create machine.options.store machine.directory.files
    machine.directory.manifest machine.directory.wal)
  Program.update fun machine => { machine with store := some store }

def resetStorage : Program DurableKeyValueStateMachine Error Unit := do
  Program.update fun machine => { machine with store := none, directory := {} }
  openStorage

/-- A call of the store. There is always one: who calls it has opened it. -/
def withStore {α : Type} (call : Program PersistentKeyValueStore Error α) :
    Program DurableKeyValueStateMachine Error α := fun machine =>
  match machine.store with
  | none => (.error (.logicError "state machine has not been recovered"), machine)
  | some store => ((call store).1, { machine with store := some (call store).2 })

def withValues {α : Type} (m : Program Values Error α) :
    Program DurableKeyValueStateMachine Error α :=
  Program.zoom DurableKeyValueStateMachine.values
    (fun values machine => { machine with values := values }) m

def applyCommand (command : Command) : Program DurableKeyValueStateMachine Error Unit :=
  match command.type with
  | .Noop => pure ()
  | .Put => do
    check (validateKey command.key)
    check (validateValue command.value)
    withStore (PersistentKeyValueStore.put command.key command.value)
    withValues (Program.update fun values => values.insert command.key command.value)
  | .Delete => do
    check (validateKey command.key)
    let _ ← withStore (PersistentKeyValueStore.remove command.key)
    withValues (Program.update fun values => values.erase command.key)

/-- `for (const auto& [key, value] : values_) { store_->put(key, value); }`. -/
def storeValues : Program DurableKeyValueStateMachine Error Unit := do
  let machine ← Program.read
  Program.forEach (fun pair => withStore (PersistentKeyValueStore.put pair.1 pair.2))
    machine.values.entries

def clearValues : Program DurableKeyValueStateMachine Error Unit :=
  Program.update fun machine => { machine with values := OrderedMap.empty }

def recover (snapshot : Option Snapshot) (committedEntries : List LogEntry) :
    Program DurableKeyValueStateMachine Error Unit := do
  resetStorage
  clearValues
  match snapshot with
  | some snapshot => do
    withValues (restoreMap snapshot.payload)
    storeValues
  | none => pure ()
  Program.forEach (fun entry : LogEntry => applyCommand entry.command) committedEntries
  withStore PersistentKeyValueStore.checkpoint

def apply (entry : LogEntry) : Program DurableKeyValueStateMachine Error Unit := do
  check (refuse (entry.index = 0 ∨ entry.term = 0)
    (.invalidArgument "committed Raft entry must have an index and term"))
  let machine ← Program.read
  Program.when (machine.store.isNone) openStorage
  applyCommand entry.command

def get (machine : DurableKeyValueStateMachine) (key : Bytes) : Except Error (Option Bytes) := do
  validateKey key
  return machine.values.find? key

def createSnapshot (machine : DurableKeyValueStateMachine) : Except Error Bytes :=
  encodeMap machine.values

def installSnapshot (payload : Bytes) : Program DurableKeyValueStateMachine Error Unit := do
  resetStorage
  clearValues
  withValues (restoreMap payload)
  storeValues
  withStore PersistentKeyValueStore.checkpoint

/-! ## Calls -/

inductive Call where
  | recover (snapshot : Option Snapshot) (committedEntries : List LogEntry)
  | apply (entry : LogEntry)
  | installSnapshot (payload : Bytes)

def Call.perform : Call → Program DurableKeyValueStateMachine Error Unit
  | .recover snapshot committedEntries => DurableKeyValueStateMachine.recover snapshot committedEntries
  | .apply entry => DurableKeyValueStateMachine.apply entry
  | .installSnapshot payload => DurableKeyValueStateMachine.installSnapshot payload

/-- All calls in turn, up to one that throws. -/
def performAll (calls : List Call) : Program DurableKeyValueStateMachine Error Unit :=
  Program.forEach Call.perform calls

/-- A payload that `restore_map_locked` takes. -/
def Accepted (payload : Bytes) : Prop :=
  (restoreMap payload OrderedMap.empty).1 = .ok ()

/-- The map a payload stands for. -/
def restored (payload : Bytes) : Values := (restoreMap payload OrderedMap.empty).2

def Call.Valid : Call → Prop
  | .recover snapshot committedEntries =>
    (∀ s, snapshot = some s → Accepted s.payload) ∧
      ∀ entry ∈ committedEntries, entry.command.Valid
  | .apply entry => entry.index ≠ 0 ∧ entry.term ≠ 0 ∧ entry.command.Valid
  | .installSnapshot payload => Accepted payload

def Call.IsReset : Call → Prop
  | .apply _ => False
  | _ => True

/-- The map that a list of entries makes of a map. -/
def effects (entries : List LogEntry) (values : Values) : Values :=
  entries.foldl (fun values entry => entry.command.effect values) values

/-- What a call is for. -/
def Call.effect (values : Values) : Call → Values
  | .recover snapshot committedEntries =>
    effects committedEntries ((snapshot.map fun s => restored s.payload).getD OrderedMap.empty)
  | .apply entry => entry.command.effect values
  | .installSnapshot payload => restored payload

/-- The fold of the commands since the last reset, over its snapshot. -/
def fold (calls : List Call) : Values := calls.foldl Call.effect OrderedMap.empty

theorem create_ok {options : DurableStateMachineOptions} (h : options.Usable) :
    ∃ store, PersistentKeyValueStore.create options.store OrderedMap.empty {} [] = .ok store := by
  have hcache : Lsm.BlockCache.create options.blockCacheCapacityBytes =
      .ok { capacityBytes := options.blockCacheCapacityBytes } := if_neg h.2
  obtain ⟨manager, hmanager⟩ : ∃ manager,
      Lsm.SSTableManager.create options.store.sstables OrderedMap.empty {} = .ok manager :=
    ⟨_, bind_ok hcache rfl⟩
  obtain ⟨memtables, hmemtables⟩ : ∃ memtables, Lsm.MemTableSet.create
      ⟨options.memtableMaxBytes, manager.maxSequenceNumber, manager.nextGeneration⟩ = .ok memtables :=
    ⟨_, if_neg h.1⟩
  exact ⟨_, bind_ok hmanager <| bind_ok hmemtables rfl⟩

/-! ## Snapshots of valid maps -/

/-- Pairs that the state machine takes. -/
def ValidValues (values : Values) : Prop :=
  ∀ pair ∈ values.entries, ValidKey pair.1 ∧ ValidValue pair.2

theorem validValues_empty : ValidValues OrderedMap.empty := fun _ h => by cases h

variable {command : Command} {payload key : Bytes} {entry : LogEntry} {pairs : List (Bytes × Bytes)}
  {reference : Lsm.Reference} {call : Call} {calls : List Call}

theorem ValidValues.insert {values : Values} (h : ValidValues values) {value : Bytes}
    (hkey : ValidKey key) (hvalue : ValidValue value) : ValidValues (values.insert key value) := by
  intro pair hpair
  rcases OrderedMap.mem_insert hpair with rfl | hpair
  · exact ⟨hkey, hvalue⟩
  · exact h pair hpair

theorem ValidValues.erase {values : Values} (h : ValidValues values) (key : Bytes) :
    ValidValues (values.erase key) := fun pair hpair => h pair (List.mem_filter.mp hpair).1

theorem ValidValues.effect {values : Values} (h : ValidValues values) (hvalid : command.Valid) :
    ValidValues (command.effect values) := by
  unfold Command.Valid at hvalid
  unfold Command.effect
  cases htype : command.type with
  | Noop => exact h
  | Put =>
    rw [htype] at hvalid
    exact h.insert hvalid.1 hvalid.2
  | Delete => exact h.erase command.key

theorem fits_of_valid {value : Bytes} (hkey : ValidKey key) (hvalue : ValidValue value) :
    key.length ≤ uint32Max ∧ value.length ≤ uint32Max := by
  unfold ValidKey kMaxKeySize at hkey
  unfold ValidValue kMaxValueSize at hvalue
  unfold uint32Max
  omega

theorem encodeEntries_ok (h : ∀ pair ∈ pairs, pair.1.length ≤ uint32Max ∧ pair.2.length ≤ uint32Max)
    (payload : Bytes) : ∃ out, encodeEntries pairs payload = .ok out := by
  induction pairs generalizing payload with
  | nil => exact ⟨payload, rfl⟩
  | cons pair rest ih =>
    obtain ⟨key, value⟩ := pair
    obtain ⟨hkey, hvalue⟩ := h (key, value) List.mem_cons_self
    obtain ⟨out, hout⟩ := ih (List.forall_mem_cons.mp h).2
      (payload ++ Codec.leBytes 4 key.length ++ key ++ Codec.leBytes 4 value.length ++ value)
    exact ⟨out, bind_ok (appendBytes_of_le hkey) <| bind_ok (appendBytes_of_le hvalue) hout⟩

/-- `restore_map_locked` checks every pair. -/
theorem restoreEntries_valid (count : Nat) (decoder : Decoder) {values : Values}
    (h : ValidValues values) :
    Outcome (fun _ result => ValidValues result) (fun _ => True)
      (restoreEntries count decoder values) := by
  induction count generalizing decoder values with
  | zero => exact h
  | succ count ih =>
    simp only [restoreEntries, Program.bind_apply, check]
    rcases Decoder.readBytes decoder with e | ⟨key, decoder₁⟩
    · trivial
    dsimp only
    rcases Decoder.readBytes decoder₁ with e | ⟨value, decoder₂⟩
    · trivial
    dsimp only
    cases hkey : validateKey key with
    | error e => trivial
    | ok u =>
    dsimp only
    cases hvalue : validateValue value with
    | error e => trivial
    | ok u' =>
    dsimp only [Program.read_apply]
    split_ifs
    · trivial
    · exact ih decoder₂ (h.insert (validateKey_eq_ok.mp hkey) (validateValue_eq_ok.mp hvalue))

theorem restored_valid (h : Accepted payload) : ValidValues (restored payload) := by
  have houtcome : Outcome (fun _ result => ValidValues result) (fun _ => True)
      (restoreMap payload OrderedMap.empty) := by
    simp only [restoreMap, Program.bind_apply, check]
    rcases Decoder.readU32 payload with e | ⟨version, decoder⟩
    · trivial
    dsimp only
    split_ifs
    · trivial
    · simp only [Program.bind_apply, check]
      rcases Decoder.readU64 decoder with e | ⟨count, decoder⟩
      · trivial
      have hentries := restoreEntries_valid count decoder validValues_empty
      dsimp only
      rcases hrun : restoreEntries count decoder OrderedMap.empty with ⟨result, values⟩
      rw [hrun] at hentries
      cases result with
      | error e => trivial
      | ok rest =>
        dsimp only
        split_ifs
        · trivial
        · exact hentries
  unfold Accepted at h
  unfold restored
  rcases hrun : restoreMap payload OrderedMap.empty with ⟨result, values⟩
  rw [hrun] at h houtcome
  obtain rfl : result = .ok () := h
  exact houtcome

/-- The pairs of a valid map are all taken. -/
theorem restoreEntries_pairs (hvalid : ∀ pair ∈ pairs, ValidKey pair.1 ∧ ValidValue pair.2)
    (hsorted : KeySorted pairs) {values : Values}
    (hfresh : ∀ pair ∈ pairs, values.find? pair.1 = none) (rest : Bytes) :
    restoreEntries pairs.length (encodedPairs pairs ++ rest) values =
      (.ok rest, pairs.foldl (fun acc pair => acc.insert pair.1 pair.2) values) := by
  induction pairs generalizing values with
  | nil => rfl
  | cons pair pairs ih =>
    obtain ⟨key, value⟩ := pair
    obtain ⟨hkey, hvalue⟩ := hvalid (key, value) List.mem_cons_self
    have hfits : key.length ≤ uint32Max ∧ value.length ≤ uint32Max := fits_of_valid hkey hvalue
    have hnone := hfresh (key, value) List.mem_cons_self
    simp only [encodedPairs, List.length_cons, List.append_assoc, restoreEntries,
      readBytes_append hfits.1, Program.bind_apply, check, readBytes_append hfits.2,
      validateKey_eq_ok.mpr hkey, validateValue_eq_ok.mpr hvalue, Program.read_apply, hnone]
    refine ih (List.forall_mem_cons.mp hvalid).2 hsorted.tail ?_
    intro other hother
    have hlt := hsorted.lt_of_mem hother
    rw [OrderedMap.find?_insert, if_neg hlt.ne']
    exact hfresh other (List.mem_cons_of_mem _ hother)

/-- **A snapshot is taken back**, and gives the map it was made of. -/
theorem restoreMap_snapshot {values : Values} (hvalid : ValidValues values)
    (hsize : values.size < u64) :
    ∃ payload, encodeMap values = .ok payload ∧ Accepted payload ∧ restored payload = values := by
  obtain ⟨payload, hpayload⟩ := encodeEntries_ok (fun pair hpair =>
    fits_of_valid (hvalid pair hpair).1 (hvalid pair hpair).2)
    (appendU64 (appendU32 [] kStateSnapshotVersion) values.size)
  have hout := (encodeEntries_eq hpayload).1
  have hversion : kStateSnapshotVersion ≤ uint32Max := by decide
  have hbytes : payload = Codec.leBytes 4 kStateSnapshotVersion ++
      (Codec.leBytes 8 values.size ++ encodedPairs values.entries) := by
    rw [hout]
    simp [appendU64, appendU32]
  have hentries := restoreEntries_pairs hvalid values.sorted
    (fun pair _ => OrderedMap.find?_empty pair.1) []
  rw [List.append_nil, OrderedMap.foldl_insert_entries] at hentries
  have hrestore : restoreMap payload OrderedMap.empty = (.ok (), values) := by
    simp only [restoreMap, hbytes, Program.bind_apply, check, readU32_append hversion,
      readU64_append hsize, ne_eq, not_true_eq_false, if_false]
    rw [show values.size = values.entries.length from rfl, hentries]
    rfl
  refine ⟨payload, hpayload, ?_, ?_⟩
  · unfold Accepted
    rw [hrestore]
  · unfold restored
    rw [hrestore]

/-! ## The two copies -/

variable {machine : DurableKeyValueStateMachine} {values : Values}
variable {committedEntries : List LogEntry} {m : DurableKeyValueStateMachine}

/-- The store is at one of its limits. -/
def AtLimit (machine : DurableKeyValueStateMachine) : Prop :=
  ∃ store, machine.store = some store ∧ store.AtLimit

/-- The store is open and is this map. -/
def Stores (machine : DurableKeyValueStateMachine) (values : Values) : Prop :=
  ∃ store reference, machine.store = some store ∧ Refines store reference ∧ reference.map = values

/-- **The two copies agree.** -/
structure Serves (machine : DurableKeyValueStateMachine) (values : Values) : Prop where
  usable : machine.options.Usable
  values_eq : machine.values = values
  valid : ValidValues values
  stores : machine.Stores values

/-- Nothing has been called yet, and there is no old state. -/
structure New (machine : DurableKeyValueStateMachine) : Prop where
  values_eq : machine.values = OrderedMap.empty
  store_eq : machine.store = none
  directory_eq : machine.directory = {}

/-- A call of the store, and what it may change. -/
theorem withStore_outcome {α : Type} {call : Program PersistentKeyValueStore Error α}
    {returned : α → Prop} {store : PersistentKeyValueStore} (hstore : machine.store = some store)
    (hdone : Lsm.PersistentKeyValueStore.Done returned store reference (call store)) :
    Outcome (fun a m => returned a ∧ ∃ s, m = { machine with store := some s } ∧
      Refines s reference) AtLimit (withStore call machine) := by
  unfold withStore
  rw [hstore]
  dsimp only
  rcases hrun : call store with ⟨result, s⟩
  rw [hrun] at hdone
  cases result with
  | ok a => exact ⟨hdone.1, s, rfl, hdone.2.refines⟩
  | error e => exact ⟨s, rfl, hdone.2⟩

/-- Removing a key that is not there changes nothing. -/
theorem map_remove (hkey : ValidKey key)
    (hroom : (reference.map.find? key).isSome = true → reference.writes < u64 - 1) :
    (reference.remove key).map = reference.map.erase key := by
  unfold Lsm.Reference.remove
  cases hfind : reference.map.find? key with
  | none =>
    rw [if_neg (by simp)]
    refine OrderedMap.ext_find? fun k => ?_
    rw [OrderedMap.find?_erase]
    split_ifs with hk
    · rw [hk, hfind]
    · rfl
  | some value =>
    rw [hfind] at hroom
    rw [if_pos ⟨hkey, rfl, hroom rfl⟩]

/-- **A valid command is taken by the store**, and means there what it means to the map. -/
theorem write_done {store : PersistentKeyValueStore} (h : Refines store reference)
    (hvalid : command.Valid) :
    Lsm.PersistentKeyValueStore.Done
      (fun _ => (command.written reference).map = command.effect reference.map) store
      (command.written reference) (command.write store) := by
  unfold Command.Valid at hvalid
  unfold Command.write Command.written Command.effect
  cases htype : command.type with
  | Noop => exact ⟨rfl, Lsm.PersistentKeyValueStore.After.refl h⟩
  | Put =>
    rw [htype] at hvalid
    refine Outcome.mono (h.put_done hvalid.1 hvalid.2) ?_ fun _ hlimit => hlimit
    rintro _ s ⟨hroom, hafter⟩
    refine ⟨?_, hafter⟩
    show (reference.put command.key command.value).map = _
    unfold Lsm.Reference.put
    rw [if_pos ⟨hvalid.1, hvalid.2, hroom⟩]
  | Delete =>
    rw [htype] at hvalid
    refine Outcome.bind (Outcome.mono (h.remove_done hvalid) (fun _ _ hs => hs)
      fun _ hlimit => hlimit) ?_
    rintro removed s ⟨⟨rfl, hroom⟩, hafter⟩
    exact ⟨map_remove hvalid hroom, hafter⟩

theorem Stores.write (h : machine.Stores values) (hvalid : command.Valid) :
    Outcome (fun _ m => m.Stores (command.effect values) ∧ ∃ s, m = { machine with store := some s })
      AtLimit (withStore command.write machine) := by
  obtain ⟨store, reference, hstore, hrefines, rfl⟩ := h
  refine (withStore_outcome hstore (write_done hrefines hvalid)).mono ?_ fun _ hlimit => hlimit
  rintro _ m ⟨heffect, s, rfl, hs⟩
  exact ⟨⟨s, _, rfl, hs, heffect⟩, s, rfl⟩

theorem Stores.checkpoint (h : machine.Stores values) :
    Outcome (fun _ m => m.Stores values ∧ ∃ s, m = { machine with store := some s })
      AtLimit (withStore PersistentKeyValueStore.checkpoint machine) := by
  obtain ⟨store, reference, hstore, hrefines, rfl⟩ := h
  refine (withStore_outcome hstore hrefines.checkpoint_done).mono ?_ fun _ hlimit => hlimit
  rintro _ m ⟨-, s, rfl, hs⟩
  exact ⟨⟨s, _, rfl, hs, rfl⟩, s, rfl⟩

/-- **A command** goes to the store first and then to the map. -/
theorem applyCommand_eq {store : PersistentKeyValueStore} (hstore : machine.store = some store)
    (hvalid : command.Valid) :
    applyCommand command machine =
      (withStore command.write >>= fun _ => withValues (Program.update command.effect)) machine := by
  obtain ⟨options, values, _, directory⟩ := machine
  obtain rfl : _ = some store := hstore
  unfold Command.Valid at hvalid
  unfold applyCommand Command.write Command.effect
  cases htype : command.type with
  | Noop => rfl
  | Put =>
    rw [htype] at hvalid
    dsimp only
    rw [validateKey_eq_ok.mpr hvalid.1, Program.check_ok_bind, validateValue_eq_ok.mpr hvalid.2,
      Program.check_ok_bind]
  | Delete =>
    rw [htype] at hvalid
    dsimp only
    rw [validateKey_eq_ok.mpr hvalid, Program.check_ok_bind]
    simp only [Program.bind_apply, withStore]
    rcases PersistentKeyValueStore.remove command.key store with ⟨result, s⟩
    cases result <;> rfl

/-- The store has the write, whether or not it threw. -/
theorem applyCommand_store {store : PersistentKeyValueStore} (hstore : machine.store = some store)
    (hvalid : command.Valid) :
    (applyCommand command machine).1 = (command.write store).1 ∧
      (applyCommand command machine).2.store = some (command.write store).2 := by
  rw [applyCommand_eq hstore hvalid, Program.bind_apply]
  unfold withStore
  rw [hstore]
  dsimp only
  rcases command.write store with ⟨result, s⟩
  cases result <;> exact ⟨rfl, rfl⟩

theorem Serves.applyCommand (h : machine.Serves values) (hvalid : command.Valid) :
    Outcome (fun _ m => m.Serves (command.effect values)) AtLimit
      (DurableKeyValueStateMachine.applyCommand command machine) := by
  obtain ⟨store, _, hstore, -⟩ := h.stores
  rw [applyCommand_eq hstore hvalid]
  refine Outcome.bind (h.stores.write hvalid) ?_
  rintro _ m ⟨hstores, s, rfl⟩
  exact ⟨h.usable, congrArg command.effect h.values_eq, h.valid.effect hvalid, hstores⟩

theorem Serves.applyCommands (h : machine.Serves values) {entries : List LogEntry}
    (hvalid : ∀ entry ∈ entries, entry.command.Valid) :
    Outcome (fun _ m => m.Serves (effects entries values)) AtLimit
      (Program.forEach (fun entry : LogEntry =>
        DurableKeyValueStateMachine.applyCommand entry.command) entries machine) := by
  induction entries generalizing machine values with
  | nil => exact h
  | cons entry rest ih =>
    unfold Program.forEach
    refine Outcome.bind (h.applyCommand (hvalid entry List.mem_cons_self)) ?_
    intro _ m hm
    exact ih hm (List.forall_mem_cons.mp hvalid).2

theorem Serves.checkpoint (h : machine.Serves values) :
    Outcome (fun _ m => m.Serves values) AtLimit
      (withStore PersistentKeyValueStore.checkpoint machine) := by
  refine h.stores.checkpoint.mono ?_ fun _ hlimit => hlimit
  rintro _ m ⟨hstores, s, rfl⟩
  exact ⟨h.usable, h.values_eq, h.valid, hstores⟩

/-! ## Opening and resetting -/

theorem openStorage_empty (machine : DurableKeyValueStateMachine)
    (husable : machine.options.Usable) (hdirectory : machine.directory = {}) :
    ∃ store, PersistentKeyValueStore.create machine.options.store OrderedMap.empty {} [] = .ok store ∧
      openStorage machine = (.ok (), { machine with store := some store }) := by
  obtain ⟨store, hcreate⟩ := create_ok husable
  have hopen : PersistentKeyValueStore.create machine.options.store machine.directory.files
      machine.directory.manifest machine.directory.wal = .ok store := by
    rw [hdirectory]
    exact hcreate
  refine ⟨store, hcreate, ?_⟩
  unfold openStorage
  rw [Program.read_bind_apply, hopen]
  rfl

/-- An empty store for an empty map. -/
theorem serves_created {store : PersistentKeyValueStore} (husable : machine.options.Usable)
    (hcreate : PersistentKeyValueStore.create machine.options.store OrderedMap.empty {} [] = .ok store)
    (hstore : machine.store = some store) (hvalues : machine.values = OrderedMap.empty) :
    machine.Serves OrderedMap.empty :=
  ⟨husable, hvalues, validValues_empty, store, {}, hstore,
    (Lsm.PersistentKeyValueStore.create_refines hcreate).1, rfl⟩

/-- Both copies are empty after the first two lines of a reset. -/
theorem reset_bind (husable : machine.options.Usable)
    (f : Unit → Program DurableKeyValueStateMachine Error Unit) :
    ∃ store, PersistentKeyValueStore.create machine.options.store OrderedMap.empty {} [] = .ok store ∧
      (do
        resetStorage
        let u ← clearValues
        f u) machine =
        f () { machine with store := some store, directory := {}, values := OrderedMap.empty } := by
  obtain ⟨store, hcreate, hopen⟩ := openStorage_empty
    { machine with store := none, directory := {} } husable rfl
  have hreset : resetStorage machine =
      (.ok (), { machine with store := some store, directory := {} }) := by
    unfold resetStorage
    rw [Program.update_bind_apply]
    exact hopen
  refine ⟨store, hcreate, ?_⟩
  rw [Program.bind_apply, hreset]
  rfl

theorem forEach_put (h : machine.Stores values)
    (hvalid : ∀ pair ∈ pairs, ValidKey pair.1 ∧ ValidValue pair.2) :
    Outcome (fun _ m => m.Stores (pairs.foldl (fun acc pair => acc.insert pair.1 pair.2) values) ∧
        ∃ s, m = { machine with store := s })
      AtLimit (Program.forEach (fun pair : Bytes × Bytes =>
        withStore (PersistentKeyValueStore.put pair.1 pair.2)) pairs machine) := by
  induction pairs generalizing machine values with
  | nil => exact ⟨h, machine.store, rfl⟩
  | cons pair rest ih =>
    obtain ⟨hkey, hvalue⟩ := hvalid pair List.mem_cons_self
    unfold Program.forEach
    refine Outcome.bind (h.write (show Command.Valid ⟨.Put, pair.1, pair.2⟩ from ⟨hkey, hvalue⟩)) ?_
    rintro _ m ⟨hstores, s, rfl⟩
    refine (ih hstores (List.forall_mem_cons.mp hvalid).2).mono ?_
      fun _ hlimit => hlimit
    rintro _ m ⟨hstores', s', rfl⟩
    exact ⟨hstores', s', rfl⟩

theorem Serves.withValues_restore (h : machine.Serves OrderedMap.empty)
    (haccepted : Accepted payload) :
    withValues (restoreMap payload) machine =
      (.ok (), { machine with values := restored payload }) := by
  unfold withValues Program.zoom
  rw [h.values_eq, show (restoreMap payload OrderedMap.empty).1 = .ok () from haccepted]
  rfl

/-- The map has been restored from the payload; the store is filled from the map. -/
theorem Serves.storeValues (h : machine.Serves OrderedMap.empty) (haccepted : Accepted payload) :
    Outcome (fun _ m => m.Serves (restored payload)) AtLimit
      (DurableKeyValueStateMachine.storeValues { machine with values := restored payload }) := by
  have hvalid := restored_valid haccepted
  have hstores : Stores { machine with values := restored payload } OrderedMap.empty := h.stores
  unfold DurableKeyValueStateMachine.storeValues
  rw [Program.read_bind_apply]
  refine (forEach_put hstores hvalid).mono ?_ fun _ hlimit => hlimit
  rintro _ m ⟨hstores', s, rfl⟩
  rw [OrderedMap.foldl_insert_entries] at hstores'
  exact ⟨h.usable, rfl, hvalid, hstores'⟩

theorem recover_outcome (husable : machine.options.Usable) {snapshot : Option Snapshot}
    (hvalid : (Call.recover snapshot committedEntries).Valid) :
    Outcome (fun _ m => m.Serves ((Call.recover snapshot committedEntries).effect values)) AtLimit
      (recover snapshot committedEntries machine) := by
  unfold recover
  obtain ⟨store, hcreate, hreset⟩ := reset_bind husable _
  rw [hreset]
  set m : DurableKeyValueStateMachine :=
    { machine with store := some store, directory := {}, values := OrderedMap.empty }
  have hserves : m.Serves OrderedMap.empty := serves_created husable hcreate rfl rfl
  have hrest : ∀ m base, Serves m base → Outcome (fun _ m => m.Serves (effects committedEntries base))
      AtLimit ((do
        Program.forEach (fun entry : LogEntry => applyCommand entry.command) committedEntries
        withStore PersistentKeyValueStore.checkpoint) m) := fun m base hm =>
    Outcome.bind (hm.applyCommands hvalid.2) fun _ _ hm' => hm'.checkpoint
  cases snapshot with
  | none => exact hrest m OrderedMap.empty hserves
  | some s =>
    have haccepted := hvalid.1 s rfl
    dsimp only
    rw [Program.bind_apply, hserves.withValues_restore haccepted]
    exact Outcome.bind (hserves.storeValues haccepted) fun _ m hm => hrest m _ hm

theorem installSnapshot_outcome (husable : machine.options.Usable) (haccepted : Accepted payload) :
    Outcome (fun _ m => m.Serves (restored payload)) AtLimit (installSnapshot payload machine) := by
  unfold installSnapshot
  obtain ⟨store, hcreate, hreset⟩ := reset_bind husable _
  have hserves : Serves
      { machine with store := some store, directory := {}, values := OrderedMap.empty }
      OrderedMap.empty := serves_created husable hcreate rfl rfl
  rw [hreset, Program.bind_apply, hserves.withValues_restore haccepted]
  exact Outcome.bind (hserves.storeValues haccepted) fun _ _ hm => hm.checkpoint

/-! ## Sequences of calls -/

theorem checked_of_valid (h : (Call.apply entry).Valid) :
    refuse (entry.index = 0 ∨ entry.term = 0)
      (.invalidArgument "committed Raft entry must have an index and term") = .ok () ∧
      entry.command.Valid := by
  obtain ⟨hindex, hterm, hcommand⟩ := h
  refine ⟨refuse_eq_ok.mpr ?_, hcommand⟩
  rintro (hzero | hzero)
  · exact hindex hzero
  · exact hterm hzero

theorem apply_eq {store : PersistentKeyValueStore} (hstore : machine.store = some store)
    (hvalid : (Call.apply entry).Valid) :
    apply entry machine = applyCommand entry.command machine := by
  obtain ⟨hchecked, -⟩ := checked_of_valid hvalid
  unfold apply
  rw [hchecked, Program.check_ok_bind, Program.read_bind_apply, hstore, Program.when_neg (by simp)]
  rfl

/-- A first `apply` is an `apply` to the opened state machine. -/
theorem apply_opened (hclosed : machine.store = none) (hopen : openStorage machine = (.ok (), m))
    (hm : m.store.isSome) (hvalid : (Call.apply entry).Valid) :
    apply entry machine = apply entry m := by
  obtain ⟨hchecked, -⟩ := checked_of_valid hvalid
  obtain ⟨store, hstore⟩ := Option.isSome_iff_exists.mp hm
  rw [apply_eq hstore hvalid]
  unfold apply
  rw [hchecked, Program.check_ok_bind, Program.read_bind_apply, Program.when_pos (by simp [hclosed]),
    Program.bind_apply, hopen]

theorem Serves.apply (h : machine.Serves values) (hvalid : (Call.apply entry).Valid) :
    Outcome (fun _ m => m.Serves (entry.command.effect values)) AtLimit
      (DurableKeyValueStateMachine.apply entry machine) := by
  obtain ⟨store, reference, hstore, -⟩ := h.stores
  rw [apply_eq hstore hvalid]
  exact h.applyCommand hvalid.2.2

/-- A first `apply` opens the empty directory. -/
theorem New.apply_opens (h : machine.New) (husable : machine.options.Usable)
    (hvalid : (Call.apply entry).Valid) :
    ∃ store, PersistentKeyValueStore.create machine.options.store OrderedMap.empty {} [] = .ok store ∧
      Serves { machine with store := some store } OrderedMap.empty ∧
      DurableKeyValueStateMachine.apply entry machine =
        DurableKeyValueStateMachine.apply entry { machine with store := some store } := by
  obtain ⟨store, hcreate, hopen⟩ := openStorage_empty machine husable h.directory_eq
  exact ⟨store, hcreate, serves_created husable hcreate rfl h.values_eq,
    apply_opened h.store_eq hopen rfl hvalid⟩

/-- The state machine stands for this map. -/
def Ready (machine : DurableKeyValueStateMachine) (values : Values) : Prop :=
  machine.Serves values ∨ machine.New ∧ machine.options.Usable ∧ values = OrderedMap.empty

/-- **One call.** -/
theorem Ready.perform (h : machine.Ready values) (hvalid : call.Valid) :
    Outcome (fun _ m => m.Serves (call.effect values)) AtLimit (call.perform machine) := by
  have husable : machine.options.Usable := by
    rcases h with h | ⟨-, husable, -⟩
    · exact h.usable
    · exact husable
  cases call with
  | recover snapshot committedEntries => exact recover_outcome husable hvalid
  | installSnapshot payload => exact installSnapshot_outcome husable hvalid
  | apply entry =>
    rcases h with h | ⟨hnew, -, rfl⟩
    · exact h.apply hvalid
    · obtain ⟨store, -, hserves, happly⟩ := hnew.apply_opens husable hvalid
      show Outcome _ _ (DurableKeyValueStateMachine.apply entry machine)
      rw [happly]
      exact hserves.apply hvalid

/-- **All calls.** -/
theorem Serves.performAll (h : machine.Serves values) (hvalid : ∀ call ∈ calls, call.Valid) :
    Outcome (fun _ m => m.Serves (calls.foldl Call.effect values)) AtLimit
      (DurableKeyValueStateMachine.performAll calls machine) := by
  induction calls generalizing machine values with
  | nil => exact h
  | cons call calls ih =>
    show Outcome _ _ ((call.perform >>= fun _ => Program.forEach Call.perform calls) machine)
    refine Outcome.bind (Ready.perform (Or.inl h) (hvalid call List.mem_cons_self)) fun _ m hm => ?_
    exact ih hm (List.forall_mem_cons.mp hvalid).2

/-- The first call decides where the others begin. -/
theorem performAll_cons
    (hfirst : Outcome (fun _ m => m.Serves (call.effect values)) AtLimit (call.perform machine))
    (hvalid : ∀ c ∈ calls, c.Valid) :
    Outcome (fun _ m => m.Serves ((call :: calls).foldl Call.effect values)) AtLimit
      (performAll (call :: calls) machine) :=
  Outcome.bind hfirst fun _ _ hm => hm.performAll hvalid

theorem Ready.performAll (h : machine.Ready values) (hvalid : ∀ call ∈ calls, call.Valid) :
    Outcome (fun _ m => m.Ready (calls.foldl Call.effect values)) AtLimit
      (DurableKeyValueStateMachine.performAll calls machine) := by
  cases calls with
  | nil => exact h
  | cons call calls =>
    exact (performAll_cons (h.perform (hvalid call List.mem_cons_self))
      (List.forall_mem_cons.mp hvalid).2).mono (fun _ _ hm => Or.inl hm)
      fun _ hlimit => hlimit

/-- A reset makes any state machine ready, whatever it was. -/
theorem reset_outcome (values : Values) (husable : machine.options.Usable) (hreset : call.IsReset)
    (hvalid : call.Valid) :
    Outcome (fun _ m => m.Serves (call.effect values)) AtLimit (call.perform machine) := by
  cases call with
  | recover snapshot committedEntries => exact recover_outcome husable hvalid
  | installSnapshot payload => exact installSnapshot_outcome husable hvalid
  | apply entry => exact hreset.elim

theorem Ready.values_eq (h : machine.Ready values) : machine.values = values := by
  rcases h with h | ⟨hnew, -, rfl⟩
  · exact h.values_eq
  · exact hnew.values_eq

theorem Ready.get (h : machine.Ready values) (hkey : ValidKey key) :
    machine.get key = .ok (values.find? key) := by
  unfold DurableKeyValueStateMachine.get
  rw [validateKey_eq_ok.mpr hkey, h.values_eq]
  rfl

theorem Stores.get (h : machine.Stores values) : ∃ store, machine.store = some store ∧
    ∀ key, ValidKey key →
      (PersistentKeyValueStore.get key store).1 = .ok (values.find? key) := by
  obtain ⟨store, reference, hstore, hrefines, rfl⟩ := h
  refine ⟨store, hstore, fun key hkey => ?_⟩
  obtain ⟨s, hget, -⟩ := hrefines.get_eq hkey
  rw [hget]

theorem Ready.createSnapshot (h : machine.Ready values) :
    ∃ payload, machine.createSnapshot = .ok payload ∧ Accepted payload ∧
      restored payload = values := by
  have hsnapshot : ValidValues values ∧ values.size < u64 := by
    rcases h with h | ⟨-, -, rfl⟩
    · obtain ⟨store, reference, -, hrefines, rfl⟩ := h.stores
      have hlast := hrefines.sound.paced.last_lt
      rw [hrefines.writes] at hlast
      exact ⟨h.valid, hrefines.size_le.trans_lt hlast⟩
    · exact ⟨validValues_empty, by decide⟩
  unfold DurableKeyValueStateMachine.createSnapshot
  rw [h.values_eq]
  exact restoreMap_snapshot hsnapshot.1 hsnapshot.2

theorem foldl_effect_apply (entries : List LogEntry) (values : Values) :
    (entries.map Call.apply).foldl Call.effect values = effects entries values := by
  rw [List.foldl_map]
  rfl

/-- Two ways to bring a snapshot into another state machine, the second with entries behind it. -/
def Restores (payload : Bytes) (restore : Call) (committedEntries : List LogEntry) : Prop :=
  restore = .installSnapshot payload ∧ committedEntries = [] ∨
    ∃ index term, restore = .recover (some ⟨index, term, payload⟩) committedEntries

theorem Restores.valid {restore : Call} (h : Restores payload restore committedEntries)
    (haccepted : Accepted payload) (hentries : ∀ entry ∈ committedEntries, entry.command.Valid)
    (values : Values) :
    restore.Valid ∧ restore.effect values = effects committedEntries (restored payload) := by
  rcases h with ⟨rfl, rfl⟩ | ⟨index, term, rfl⟩
  · exact ⟨haccepted, rfl⟩
  · exact ⟨⟨fun s hs => (by cases hs; exact haccepted), hentries⟩, rfl⟩

/-- What a state machine that stands for a map gives away, and what becomes of it elsewhere. -/
theorem Ready.transfer (h : machine.Ready values) :
    ∃ payload, machine.createSnapshot = .ok payload ∧
      ∀ (other : DurableKeyValueStateMachine) (restore : Call) (committed suffix : List LogEntry),
        other.options.Usable → Restores payload restore committed →
        (∀ entry ∈ committed ++ suffix, (Call.apply entry).Valid) →
        Outcome (fun _ o => Outcome (fun _ m => o.values = m.values) AtLimit
            (DurableKeyValueStateMachine.performAll ((committed ++ suffix).map Call.apply) machine))
          AtLimit (DurableKeyValueStateMachine.performAll (restore :: suffix.map Call.apply) other) := by
  obtain ⟨payload, hpayload, haccepted, hrestored⟩ := h.createSnapshot
  refine ⟨payload, hpayload, fun other restore committed suffix husable hrestores hentries => ?_⟩
  obtain ⟨hvalid, heffect⟩ := hrestores.valid haccepted
    (fun entry hentry => (hentries entry (List.mem_append_left _ hentry)).2.2) OrderedMap.empty
  have hreset : restore.IsReset := by
    rcases hrestores with ⟨rfl, -⟩ | ⟨_, _, rfl⟩ <;> trivial
  have happlies : ∀ entries : List LogEntry, (∀ entry ∈ entries, (Call.apply entry).Valid) →
      ∀ call ∈ entries.map Call.apply, call.Valid := fun entries hall call hcall => by
    obtain ⟨entry, hentry, rfl⟩ := List.mem_map.mp hcall
    exact hall entry hentry
  have horiginal := h.performAll (happlies _ hentries)
  have hother := performAll_cons (reset_outcome OrderedMap.empty husable hreset hvalid)
    (happlies suffix fun entry hentry => hentries entry (List.mem_append_right _ hentry))
  refine hother.mono (fun _ o ho => ?_) fun _ hlimit => hlimit
  refine horiginal.mono (fun _ m hm => ?_) fun _ hlimit => hlimit
  rw [ho.values_eq, hm.values_eq, List.foldl_cons, heffect, hrestored, foldl_effect_apply,
    foldl_effect_apply]
  exact List.foldl_append.symm

/-- **Snapshot transfer preserves the state machine.** Take a new state machine over an empty directory,
or any whose first call is `recover` or `install_snapshot`, and any calls with valid commands and
snapshots. Unless one is stopped at a limit of the store, the map is the fold of the commands since the
last reset, the store answers as the map does, and a snapshot brought into any other state machine is
the same map, before and after any entries. -/
theorem transfer_preserves (husable : machine.options.Usable) {calls : List Call}
    (hvalid : ∀ call ∈ calls, call.Valid)
    (hstart : machine.New ∨ ∃ call rest, calls = call :: rest ∧ call.IsReset) :
    Outcome (fun _ m =>
      (∀ key, ValidKey key → m.get key = .ok ((fold calls).find? key)) ∧
      (calls ≠ [] → ∃ store, m.store = some store ∧ ∀ key, ValidKey key →
        (PersistentKeyValueStore.get key store).1 = m.get key) ∧
      ∃ payload, m.createSnapshot = .ok payload ∧
        ∀ (other : DurableKeyValueStateMachine) (restore : Call) (committed suffix : List LogEntry),
          other.options.Usable → Restores payload restore committed →
          (∀ entry ∈ committed ++ suffix, (Call.apply entry).Valid) →
          Outcome (fun _ o => Outcome (fun _ m' => o.values = m'.values) AtLimit
              (performAll ((committed ++ suffix).map Call.apply) m))
            AtLimit (performAll (restore :: suffix.map Call.apply) other))
      AtLimit (performAll calls machine) := by
  cases calls with
  | nil =>
    rcases hstart with hnew | ⟨_, _, hnil, -⟩
    · have hready : machine.Ready OrderedMap.empty := Or.inr ⟨hnew, husable, rfl⟩
      exact ⟨fun key hkey => hready.get hkey, fun hne => absurd rfl hne, hready.transfer⟩
    · cases hnil
  | cons call calls =>
    have hcall := hvalid call List.mem_cons_self
    have hfirst : Outcome (fun _ m => m.Serves (call.effect OrderedMap.empty)) AtLimit
        (call.perform machine) := by
      rcases hstart with hnew | ⟨_, _, hsplit, hreset⟩
      · exact Ready.perform (Or.inr ⟨hnew, husable, rfl⟩) hcall
      · cases hsplit
        exact reset_outcome _ husable hreset hcall
    refine (performAll_cons hfirst (List.forall_mem_cons.mp hvalid).2).mono ?_
      fun _ hlimit => hlimit
    intro _ m hm
    have hready : m.Ready (fold (call :: calls)) := Or.inl hm
    obtain ⟨store, hstore, hget⟩ := hm.stores.get
    refine ⟨fun key hkey => hready.get hkey, fun _ => ⟨store, hstore, fun key hkey => ?_⟩,
      hready.transfer⟩
    rw [hready.get hkey]
    exact hget key hkey

/-- Filters of one bit a key. -/
def plainOptions : DurableStateMachineOptions :=
  { bloomSizing := .oneBit }

/-- A new state machine over an empty directory. -/
def plainMachine : DurableKeyValueStateMachine := { options := plainOptions }

theorem plainMachine_new : plainMachine.New := ⟨rfl, rfl, rfl⟩

theorem plainMachine_usable : plainMachine.options.Usable := ⟨by decide, by decide⟩

/-- A put, a put, and a delete of the first key. -/
def transferred : List LogEntry :=
  [⟨1, 1, ⟨.Put, [1], [7]⟩⟩, ⟨2, 1, ⟨.Put, [2], [8]⟩⟩, ⟨3, 1, ⟨.Delete, [1], []⟩⟩]

theorem transfer_preserves_recovered :
    (performAll [.recover none transferred] plainMachine).1 = .ok () ∧
      (performAll [.recover none transferred] plainMachine).2.get [1] = .ok none ∧
      (performAll [.recover none transferred] plainMachine).2.get [2] = .ok (some [8]) := by
  have hvalid : ∀ call ∈ [Call.recover none transferred], call.Valid := by
    intro call hcall
    obtain rfl := List.mem_singleton.mp hcall
    refine ⟨fun s hs => (by cases hs), fun entry hentry => ?_⟩
    simp only [transferred, List.mem_cons, List.not_mem_nil, or_false] at hentry
    rcases hentry with rfl | rfl | rfl
    · exact show ValidKey [1] ∧ ValidValue [7] by decide
    · exact show ValidKey [2] ∧ ValidValue [8] by decide
    · exact show ValidKey [1] by decide
  have hrun : (performAll [.recover none transferred] plainMachine).1 = .ok () := by
    decide +kernel
  -- over any machine, so that the run is not evaluated here
  have hget : ∀ machine : DurableKeyValueStateMachine, machine.New → machine.options.Usable →
      (performAll [.recover none transferred] machine).1 = .ok () → ∀ key, ValidKey key →
      (performAll [.recover none transferred] machine).2.get key =
        .ok ((fold [.recover none transferred]).find? key) :=
    fun machine hnew husable hok =>
      ((transfer_preserves husable hvalid (Or.inl hnew)).of_ok hok).1
  have hfold : (fold [.recover none transferred]).find? [1] = none ∧
      (fold [.recover none transferred]).find? [2] = some [8] := by decide
  have hplain := hget plainMachine plainMachine_new plainMachine_usable hrun
  refine ⟨hrun, ?_, ?_⟩
  · rw [hplain [1] (by decide), hfold.1]
  · rw [hplain [2] (by decide), hfold.2]

/-! ## What goes wrong otherwise -/

/-- Zero and one in turn. -/
def toggle (n : Nat) : Bytes := if n % 2 = 0 then [0] else [1]

def toggled (n : Nat) : LogEntry := ⟨n + 1, 1, ⟨.Put, [1], toggle n⟩⟩

/-- Writes of one key, which all change its value. -/
def toggles (n : Nat) : List Call := (List.range n).map fun i => .apply (toggled i)

/-- The same writes as calls of the store. -/
def togglePuts (n : Nat) : List PersistentKeyValueStore.Call :=
  (List.range n).map fun i => .put [1] (toggle i)

theorem toggles_succ (n : Nat) : toggles (n + 1) = toggles n ++ [.apply (toggled n)] := by
  unfold toggles
  rw [List.range_succ, List.map_append]
  rfl

theorem togglePuts_succ (n : Nat) : togglePuts (n + 1) = togglePuts n ++ [.put [1] (toggle n)] := by
  unfold togglePuts
  rw [List.range_succ, List.map_append]
  rfl

theorem validValue_toggle (n : Nat) : ValidValue (toggle n) := by
  unfold toggle
  split_ifs <;> decide

theorem toggled_valid (n : Nat) : (Call.apply (toggled n)).Valid :=
  ⟨Nat.succ_ne_zero n, Nat.one_ne_zero, show ValidKey [1] by decide, validValue_toggle n⟩

/-- The store takes the write, whether or not it then throws. -/
theorem apply_toggled {store : PersistentKeyValueStore} (hstore : machine.store = some store)
    (n : Nat) :
    (apply (toggled n) machine).1 = (PersistentKeyValueStore.put [1] (toggle n) store).1 ∧
      (apply (toggled n) machine).2.store =
        some (PersistentKeyValueStore.put [1] (toggle n) store).2 := by
  rw [apply_eq hstore (toggled_valid n)]
  exact applyCommand_store hstore (toggled_valid n).2.2

/-- All calls in turn, also after one that throws. -/
def performEach (calls : List Call) (machine : DurableKeyValueStateMachine) :
    DurableKeyValueStateMachine :=
  calls.foldl (fun machine call => (call.perform machine).2) machine

theorem performEach_new (hclosed : machine.store = none) (hopen : openStorage machine = (.ok (), m))
    (hm : m.store.isSome) {n : Nat} (hn : n ≠ 0) :
    performEach (toggles n) machine = performEach (toggles n) m := by
  obtain ⟨k, rfl⟩ := Nat.exists_eq_succ_of_ne_zero hn
  have hfirst : (Call.apply (toggled 0)).perform machine = (Call.apply (toggled 0)).perform m :=
    apply_opened hclosed hopen hm (toggled_valid 0)
  unfold toggles performEach
  rw [List.range_succ_eq_map, List.map_cons, List.foldl_cons, List.foldl_cons, hfirst]

theorem performEach_toggles {store : PersistentKeyValueStore} (hstore : machine.store = some store)
    (n : Nat) : (performEach (toggles n) machine).store = some (store.performAll (togglePuts n)) := by
  induction n with
  | zero => exact hstore
  | succ n ih =>
    rw [toggles_succ, togglePuts_succ]
    unfold performEach PersistentKeyValueStore.performAll at ih ⊢
    rw [List.foldl_append, List.foldl_append]
    exact (apply_toggled ih n).2

/-- A write beyond the last sequence number is not made. -/
theorem applyAll_toggles (n : Nat) :
    (PersistentKeyValueStore.applyAll (togglePuts n)).writes = min n (u64 - 1) ∧
      (PersistentKeyValueStore.applyAll (togglePuts n)).map.find? [1] =
        if n = 0 then none else some (toggle (min n (u64 - 1) - 1)) := by
  induction n with
  | zero => exact ⟨rfl, rfl⟩
  | succ n ih =>
    have hstep : PersistentKeyValueStore.applyAll (togglePuts (n + 1)) =
        (PersistentKeyValueStore.applyAll (togglePuts n)).put [1] (toggle n) := by
      rw [togglePuts_succ]
      exact List.foldl_append
    obtain ⟨hwrites, hfind⟩ := ih
    have hu64 : 1 < u64 := by decide
    rw [hstep, if_neg (Nat.succ_ne_zero n)]
    unfold Lsm.Reference.put
    split_ifs with hroom
    · obtain ⟨-, -, hroom⟩ := hroom
      rw [hwrites] at hroom
      have hn : n < u64 - 1 := by omega
      refine ⟨?_, ?_⟩
      · show (PersistentKeyValueStore.applyAll (togglePuts n)).writes + 1 = _
        omega
      · show OrderedMap.find? (OrderedMap.insert _ [1] (toggle n)) [1] = _
        rw [OrderedMap.find?_insert, if_pos rfl, show min (n + 1) (u64 - 1) - 1 = n by omega]
    · have hfull : u64 - 1 ≤ n := by
        by_contra hlt
        refine hroom ⟨by decide, validValue_toggle n, ?_⟩
        omega
      refine ⟨by omega, ?_⟩
      rw [hfind, if_neg (by omega), show min (n + 1) (u64 - 1) = min n (u64 - 1) by omega]

theorem fold_toggles (n : Nat) : (fold (toggles (n + 1))).find? [1] = some (toggle n) := by
  rw [toggles_succ]
  unfold fold
  rw [List.foldl_append]
  show OrderedMap.find? (OrderedMap.insert _ [1] (toggle n)) [1] = _
  rw [OrderedMap.find?_insert, if_pos rfl]

/-- A state machine over the directory of an earlier process, with one record in its log. -/
def usedMachine : DurableKeyValueStateMachine :=
  { options := plainOptions, directory := { wal := [⟨.Put, [1], [7]⟩] } }

/-- **Where the copies part.** After 2^64 writes of one key the store, whose sequence numbers are used
up, has another value than the fold of the commands; and a state machine over an old directory that is
not recovered first has keys in its store that its map does not have. -/
theorem copies_differ :
    (∃ (machine : DurableKeyValueStateMachine) (store : PersistentKeyValueStore),
      machine.New ∧ machine.options.Usable ∧ (∀ call ∈ toggles u64, call.Valid) ∧
      (performEach (toggles u64) machine).store = some store ∧
      (PersistentKeyValueStore.get [1] store).1 ≠ .ok ((fold (toggles u64)).find? [1])) ∧
    ∃ (machine m : DurableKeyValueStateMachine) (store : PersistentKeyValueStore),
      machine.options.Usable ∧ performAll [.apply ⟨1, 1, {}⟩] machine = (.ok (), m) ∧
      m.store = some store ∧ m.get [1] = .ok none ∧
      (PersistentKeyValueStore.get [1] store).1 = .ok (some [7]) := by
  have husable : plainOptions.Usable := ⟨by decide, by decide⟩
  refine ⟨?_, ?_⟩
  · obtain ⟨created, hcreate, hopen⟩ := openStorage_empty plainMachine husable rfl
    refine ⟨plainMachine, created.performAll (togglePuts u64), plainMachine_new, plainMachine_usable,
      fun call hcall => ?_, ?_, ?_⟩
    · obtain ⟨n, -, rfl⟩ := List.mem_map.mp hcall
      exact toggled_valid n
    · rw [performEach_new rfl hopen rfl (by decide)]
      exact performEach_toggles rfl u64
    · obtain ⟨hrefines, -⟩ := PersistentKeyValueStore.Refines.performAll hcreate (togglePuts u64)
      obtain ⟨s, hget, -⟩ := hrefines.get_eq (show ValidKey [1] by decide)
      have hlast : (fold (toggles u64)).find? [1] = some (toggle (u64 - 1)) := fold_toggles (u64 - 1)
      have hvalues : toggle (min u64 (u64 - 1) - 1) ≠ toggle (u64 - 1) := by decide
      rw [hget, hlast, (applyAll_toggles u64).2, if_neg (by decide)]
      exact fun heq => hvalues (Option.some.inj (Except.ok.inj heq))
  · have hrun : (performAll [.apply ⟨1, 1, {}⟩] usedMachine).1 = .ok () ∧
        (performAll [.apply ⟨1, 1, {}⟩] usedMachine).2.get [1] = .ok none ∧
        (performAll [.apply ⟨1, 1, {}⟩] usedMachine).2.store.map
          (fun store => (PersistentKeyValueStore.get [1] store).1) = some (.ok (some [7])) := by
      decide +kernel
    -- the state is a variable from here on, so that the run is not evaluated again
    generalize hm : performAll [.apply ⟨1, 1, {}⟩] usedMachine = run at hrun
    obtain ⟨result, m⟩ := run
    obtain ⟨rfl, hvalue, hstored⟩ := hrun
    obtain ⟨store, hstore, hget⟩ := Option.map_eq_some_iff.mp hstored
    exact ⟨usedMachine, m, store, husable, hm, hstore, hvalue, hget⟩

end DurableKeyValueStateMachine

end NebulaKV.Raft
