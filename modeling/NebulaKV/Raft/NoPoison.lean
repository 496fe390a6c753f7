/-
# No poison commands

Eight places look at the key and the value of a command: `submit`, the command codec, the state
machine, the store, the write-ahead log, the memtable, and the SSTable blocks and index on writing and
on reading. None of them is stricter than the first. A `Put` or `Delete` that `submit` took is encoded
and decoded as it was, and each later layer takes it in every state it can be in; a node that refuses
it has used up a limit of its store.
-/
import NebulaKV.Raft.DurableMachine
import NebulaKV.Lsm.FileIds
import NebulaKV.Lsm.TableBytes
import NebulaKV.Lsm.WalReader

namespace NebulaKV.Raft

open Containers Effects Codec Serialization
open Program (Outcome)
open Lsm (Entry WalRecord IndexEntry MemTableSet PersistentKeyValueStore)
open Lsm.SSTableFormat DurableKeyValueStateMachine

/-! ## What the layers make of a command -/

/-- The record that goes to the write-ahead log. -/
def Command.walRecord (command : Command) : WalRecord :=
  match command.type with
  | .Delete => ⟨.Delete, command.key, []⟩
  | _ => ⟨.Put, command.key, command.value⟩

/-- The record that goes to the tables. -/
def Command.record (command : Command) (sequenceNumber : Nat) : Bytes × Entry :=
  match command.type with
  | .Delete => (command.key, ⟨[], sequenceNumber, true⟩)
  | _ => (command.key, ⟨command.value, sequenceNumber, false⟩)

/-- What the store asks of its memtables. -/
def Command.insert (command : Command) (set : MemTableSet) : Except Error MemTableSet :=
  match command.type with
  | .Delete => set.addTombstone command.key
  | _ => set.put command.key command.value

/-- What a client may have written. -/
structure Command.Written (command : Command) : Prop where
  key : ValidKey command.key
  value : ValidValue command.value
  tombstone : command.type = .Delete → command.value = []
  client : command.type ≠ .Noop

theorem Command.Written.valid {command : Command} (h : command.Written) : command.Valid := by
  unfold Command.Valid
  cases htype : command.type with
  | Noop => trivial
  | Put => exact ⟨h.key, h.value⟩
  | Delete => exact h.key

/-- `valid_client_command` is as strict as all that comes after it. -/
theorem written_of_validClientCommand {command : Command} {answer : Bool}
    (h : validClientCommand command = .ok answer) (hclient : command.type ≠ .Noop) :
    command.Written := by
  have hvalid := valid_of_validClientCommand h
  unfold Command.Valid at hvalid
  unfold validClientCommand at h
  cases htype : command.type with
  | Noop => exact absurd htype hclient
  | Put =>
    rw [htype] at hvalid
    exact ⟨hvalid.1, hvalid.2, fun hdelete => (by rw [htype] at hdelete; cases hdelete), hclient⟩
  | Delete =>
    rw [htype] at hvalid h
    dsimp only at hvalid h
    rw [validateKey_eq_ok.mpr hvalid] at h
    dsimp only at h
    have hvalue : command.value = [] := by
      by_contra hne
      rw [if_pos hne] at h
      cases h
    refine ⟨hvalid, ?_, fun _ => hvalue, hclient⟩
    rw [hvalue]
    exact Nat.zero_le _

variable {command : Command}
variable {m : DurableKeyValueStateMachine} {index : List IndexEntry}

theorem mem_between {α : Type} {a b : α} {before after : List α} :
    a ∈ before ++ b :: after ↔ a = b ∨ a ∈ before ++ after := by
  simp only [List.mem_append, List.mem_cons]
  tauto

/-! ## The codec and the log -/

theorem Command.Written.codec (h : command.Written) (output rest : Bytes) :
    ∃ bytes, encodeCommand output command = .ok (output ++ bytes) ∧
      decodeCommand (bytes ++ rest) = .ok (command, rest) := by
  obtain ⟨hkey, hvalue⟩ := fits_of_valid h.key h.value
  exact ⟨commandBytes command, encodeCommand_eq_ok.mpr ⟨⟨hkey, hvalue⟩, rfl⟩,
    decodeCommand_eq_ok.mpr ⟨⟨hkey, hvalue⟩, rfl⟩⟩

theorem Command.Written.validate (h : command.Written) : command.walRecord.validate = .ok () := by
  unfold Command.walRecord
  cases htype : command.type with
  | Noop => exact absurd htype h.client
  | Put => exact Lsm.WalRecord.validate_eq_ok.mpr ⟨h.key, h.value, fun hop => by cases hop⟩
  | Delete => exact Lsm.WalRecord.validate_eq_ok.mpr ⟨h.key, Nat.zero_le _, fun _ => rfl⟩

/-! ## Blocks and index -/

theorem Command.Written.recordFits (h : command.Written) {sequenceNumber : Nat}
    (hpos : sequenceNumber ≠ 0) (hlt : sequenceNumber < u64) :
    RecordFits (command.record sequenceNumber) := by
  unfold Command.record
  cases htype : command.type with
  | Noop => exact absurd htype h.client
  | Put => exact ⟨⟨h.key, h.value, hpos, fun hdeleted => by cases hdeleted⟩, hlt⟩
  | Delete => exact ⟨⟨h.key, Nat.zero_le _, hpos, fun _ => rfl⟩, hlt⟩

/-- Index entries in the order of their blocks. -/
structure Placed (index : List IndexEntry) : Prop where
  nonempty : index ≠ []
  length_le : index.length ≤ uint32Max
  ranges : ∀ entry ∈ index, entry.firstKey ≤ entry.lastKey
  order : index.Pairwise fun entry later => entry.lastKey < later.firstKey
  numbers : ∀ entry ∈ index, entry.blockOffset < u64 ∧ entry.blockSize < u64 ∧ entry.blockSize ≠ 0

theorem checkIndexEntries_placed {previousLastKey : Bytes}
    (hranges : ∀ entry ∈ index, entry.firstKey ≤ entry.lastKey)
    (horder : index.Pairwise fun entry later => entry.lastKey < later.firstKey)
    (hsizes : ∀ entry ∈ index, entry.blockSize ≠ 0)
    (hkeys : ∀ entry ∈ index, ValidKey entry.firstKey ∧ ValidKey entry.lastKey)
    (hprevious : previousLastKey = [] ∨ ∀ entry ∈ index, previousLastKey < entry.firstKey) :
    Lsm.checkIndexEntries previousLastKey index = .ok () := by
  induction index generalizing previousLastKey with
  | nil => rfl
  | cons entry rest ih =>
    obtain ⟨hfirst, hrest⟩ := List.pairwise_cons.mp horder
    unfold Lsm.checkIndexEntries
    rw [if_neg]
    · exact ih (List.forall_mem_cons.mp hranges).2 hrest
        (List.forall_mem_cons.mp hsizes).2
        (List.forall_mem_cons.mp hkeys).2 (Or.inr hfirst)
    · rintro (hnil | hnil | hgt | hzero | ⟨hprev, hle⟩)
      · exact (hkeys entry List.mem_cons_self).1.1 hnil
      · exact (hkeys entry List.mem_cons_self).2.1 hnil
      · exact absurd hgt (not_lt.mpr (hranges entry List.mem_cons_self))
      · exact hsizes entry List.mem_cons_self hzero
      · rcases hprevious with hnil | hlt
        · exact hprev hnil
        · exact absurd hle (not_le.mpr (hlt entry List.mem_cons_self))

theorem Placed.fits (h : Placed index)
    (hkeys : ∀ entry ∈ index, ValidKey entry.firstKey ∧ ValidKey entry.lastKey) :
    IndexFits index where
  checked := by
    unfold Lsm.checkIndexBlock
    rw [if_neg h.nonempty, if_neg (not_lt.mpr h.length_le)]
    exact checkIndexEntries_placed h.ranges h.order (fun entry he => (h.numbers entry he).2.2) hkeys
      (Or.inl rfl)
  keys := hkeys
  numbers := fun entry he => ⟨(h.numbers entry he).1, (h.numbers entry he).2.1⟩

/-! ## The store and its memtables -/

variable {store : PersistentKeyValueStore}

theorem Command.Written.insert_ok (h : command.Written) {set : MemTableSet} (hordered : set.Ordered)
    (hroom : set.lastSequenceNumber ≠ u64 - 1) : ∃ set', command.insert set = .ok set' := by
  unfold Command.insert
  cases htype : command.type with
  | Noop => exact absurd htype h.client
  | Put =>
    obtain ⟨_, _, hput⟩ := hordered.put_eq h.key h.value hroom
    exact ⟨_, hput⟩
  | Delete =>
    obtain ⟨_, _, htombstone⟩ := hordered.addTombstone_eq h.key hroom
    exact ⟨_, htombstone⟩

/-! ## The state machine -/

theorem size_effect_le (command : Command) (values : Values) :
    (command.effect values).size ≤ values.size + 1 := by
  unfold Command.effect
  cases command.type with
  | Noop => exact Nat.le_succ _
  | Put =>
    dsimp only
    rw [OrderedMap.size_insert]
    split_ifs <;> omega
  | Delete =>
    dsimp only
    rw [OrderedMap.size_erase]
    split_ifs <;> omega

/-- A state machine that a node has: a new one, or one that was reset first. -/
def Begun (machine : DurableKeyValueStateMachine) (calls : List DurableKeyValueStateMachine.Call) : Prop :=
  machine.New ∨ ∃ call rest, calls = call :: rest ∧ call.IsReset

theorem Begun.ready {machine : DurableKeyValueStateMachine}
    {calls : List DurableKeyValueStateMachine.Call} (h : Begun machine calls)
    (husable : machine.options.Usable) (hvalid : ∀ call ∈ calls, call.Valid)
    (hrun : DurableKeyValueStateMachine.performAll calls machine = (.ok (), m)) :
    ∃ values, m.Ready values := by
  rcases h with hnew | ⟨call, rest, rfl, hreset⟩
  · have houtcome := Ready.performAll (Or.inr ⟨hnew, husable, rfl⟩) hvalid
    rw [hrun] at houtcome
    exact ⟨_, houtcome⟩
  · have houtcome := performAll_cons
      (reset_outcome OrderedMap.empty husable hreset (hvalid call List.mem_cons_self))
      (List.forall_mem_cons.mp hvalid).2
    rw [hrun] at houtcome
    exact ⟨_, Or.inl houtcome⟩

/-- **What becomes of a command** after `submit` has taken it, layer by layer. -/
structure Survives (command : Command) : Prop where
  codec : ∀ output rest : Bytes, ∃ bytes, encodeCommand output command = .ok (output ++ bytes) ∧
    decodeCommand (bytes ++ rest) = .ok (command, rest)
  applied : ∀ (machine m : DurableKeyValueStateMachine)
    (calls : List DurableKeyValueStateMachine.Call) (index term : Nat), machine.options.Usable →
    Begun machine calls → (∀ call ∈ calls, call.Valid) →
    DurableKeyValueStateMachine.performAll calls machine = (.ok (), m) → index ≠ 0 → term ≠ 0 →
    Outcome (fun _ m' => ∃ payload, m'.createSnapshot = .ok payload ∧ Accepted payload ∧
      restored payload = m'.values) AtLimit (apply ⟨index, term, command⟩ m)
  recovered : ∀ (machine : DurableKeyValueStateMachine) (snapshot : Option Snapshot)
    (before after : List LogEntry) (index term : Nat), machine.options.Usable →
    (∀ s, snapshot = some s → Accepted s.payload) →
    (∀ entry ∈ before ++ after, entry.command.Valid) →
    Outcome (fun _ _ => True) AtLimit
      (recover snapshot (before ++ ⟨index, term, command⟩ :: after) machine)
  stored : ∀ (options : Lsm.PersistentStoreOptions) (store : PersistentKeyValueStore)
    (calls : List PersistentKeyValueStore.Call),
    PersistentKeyValueStore.create options OrderedMap.empty {} [] = .ok store →
    Outcome (fun _ _ => True) PersistentKeyValueStore.AtLimit (command.write (store.performAll calls))
  inserted : ∀ (options : Lsm.PersistentStoreOptions) (store : PersistentKeyValueStore)
    (calls : List PersistentKeyValueStore.Call),
    PersistentKeyValueStore.create options OrderedMap.empty {} [] = .ok store →
    (store.performAll calls).memtables.lastSequenceNumber ≠ u64 - 1 →
    ∃ set, command.insert (store.performAll calls).memtables = .ok set
  logged : ∀ before after : List WalRecord,
    (∀ record ∈ before ++ after, record.validate = .ok ()) →
    Lsm.WalFormat.serialize command.walRecord = .ok (Lsm.WalFormat.encode command.walRecord) ∧
      (Lsm.WalReader.scan (Lsm.WalFormat.encodeAll (before ++ command.walRecord :: after))).records =
        before ++ command.walRecord :: after ∧
      (Lsm.WalReader.scan (Lsm.WalFormat.encodeAll (before ++ command.walRecord :: after))).issue = none
  blocked : ∀ (before after : Lsm.Snapshot) (sequenceNumber fileOffset : Nat), sequenceNumber ≠ 0 →
    sequenceNumber < u64 → (∀ record ∈ before ++ after, RecordFits record) →
    KeySorted (before ++ command.record sequenceNumber :: after) →
    (before ++ command.record sequenceNumber :: after).length ≤ uint32Max →
    ∃ bytes, serializeDataBlock ⟨before ++ command.record sequenceNumber :: after⟩ = .ok bytes ∧
      parseDataBlock bytes fileOffset = .ok ⟨before ++ command.record sequenceNumber :: after⟩
  indexed : ∀ (index : List IndexEntry) (fileOffset : Nat), Placed index →
    (∀ entry ∈ index, (ValidKey entry.firstKey ∨ entry.firstKey = command.key) ∧
      (ValidKey entry.lastKey ∨ entry.lastKey = command.key)) →
    ∃ bytes, serializeIndexBlock index = .ok bytes ∧ parseIndexBlock bytes fileOffset = .ok index
  restored : ∀ values : Values, ValidValues values → values.size < u64 - 1 →
    ∃ payload, encodeMap (command.effect values) = .ok payload ∧ Accepted payload ∧
      restored payload = command.effect values

/-- **No poison commands.** -/
theorem submitted_survives {answer : Bool} (hvalid : validClientCommand command = .ok answer)
    (hclient : command.type ≠ .Noop) : Survives command := by
  have hwritten := written_of_validClientCommand hvalid hclient
  refine ⟨hwritten.codec, ?_, ?_, ?_, ?_, ?_, ?_, ?_, ?_⟩
  · intro machine m calls index term husable hbegun hcalls hrun hindex hterm
    obtain ⟨values, hready⟩ := hbegun.ready husable hcalls hrun
    have hentry : (Call.apply ⟨index, term, command⟩).Valid := ⟨hindex, hterm, hwritten.valid⟩
    refine (hready.perform hentry).mono (fun _ m' hserves => ?_) fun _ hlimit => hlimit
    rw [hserves.values_eq]
    exact Ready.createSnapshot (Or.inl hserves)
  · intro machine snapshot before after index term husable hsnapshot hentries
    have hcall : (Call.recover snapshot (before ++ ⟨index, term, command⟩ :: after)).Valid := by
      refine ⟨hsnapshot, fun entry hentry => ?_⟩
      rcases mem_between.mp hentry with rfl | hother
      · exact hwritten.valid
      · exact hentries entry hother
    have hreset : (Call.recover snapshot (before ++ ⟨index, term, command⟩ :: after)).IsReset := trivial
    exact (reset_outcome OrderedMap.empty husable hreset hcall).mono (fun _ _ _ => trivial)
      fun _ hlimit => hlimit
  · intro options store calls hcreate
    exact Outcome.mono (write_done (PersistentKeyValueStore.Refines.performAll hcreate calls).1
      hwritten.valid) (fun _ _ _ => trivial) fun _ hs => hs.2
  · intro options store calls hcreate hroom
    exact hwritten.insert_ok
      (PersistentKeyValueStore.Refines.performAll hcreate calls).1.sound.memtables hroom
  · intro before after hrecords
    have hall : ∀ record ∈ before ++ command.walRecord :: after, record.validate = .ok () := by
      intro record hrecord
      rcases mem_between.mp hrecord with rfl | hother
      · exact hwritten.validate
      · exact hrecords record hother
    rw [Lsm.WalReader.scan_encodeAll hall]
    exact ⟨Lsm.serialize_eq_ok.mpr ⟨hwritten.validate, rfl⟩, rfl, rfl⟩
  · intro before after sequenceNumber fileOffset hpos hlt hrecords hsorted hlength
    have hfits : BlockFits ⟨before ++ command.record sequenceNumber :: after⟩ := by
      refine ⟨by simp, hlength, hsorted, fun record hrecord => ?_⟩
      rcases mem_between.mp hrecord with rfl | hother
      · exact hwritten.recordFits hpos hlt
      · exact hrecords record hother
    exact ⟨_, serializeDataBlock_ok hfits, parseDataBlock_serialize hfits fileOffset⟩
  · intro index fileOffset hplaced hkeys
    have hfits : IndexFits index := hplaced.fits fun entry hentry =>
      ⟨(hkeys entry hentry).1.elim id fun heq => heq ▸ hwritten.key,
        (hkeys entry hentry).2.elim id fun heq => heq ▸ hwritten.key⟩
    exact ⟨_, bind_ok hfits.checked rfl, parseIndexBlock_serialize hfits fileOffset⟩
  · intro values hvalues hsize
    have hgrows := size_effect_le command values
    exact restoreMap_snapshot (hvalues.effect hwritten.valid) (by omega)

theorem submitted_survives_longest :
    validClientCommand ⟨.Put, List.replicate kMaxKeySize 1, []⟩ = .ok true ∧
      Survives ⟨.Put, List.replicate kMaxKeySize 1, []⟩ := by
  have hvalid : validClientCommand ⟨.Put, List.replicate kMaxKeySize 1, []⟩ = .ok true := by
    decide +kernel
  exact ⟨hvalid, submitted_survives hvalid (by decide)⟩

/-! ## What a limit of the store does -/

open Lsm.PersistentKeyValueStore (Spent)

/-- A state machine that flushes at every write. -/
def tightMachine : DurableKeyValueStateMachine :=
  { options := { plainOptions with memtableMaxBytes := 1 } }

theorem tightMachine_new : tightMachine.New := ⟨rfl, rfl, rfl⟩

theorem tightMachine_usable : tightMachine.options.Usable := ⟨by decide, by decide⟩

/-- A write that returns has cost a file id. -/
theorem apply_toggled_spends {n : Nat} (hstore : m.store = some store) (hspent : Spent n store)
    (hn : n < u64 - 1) :
    Outcome (fun _ m' => ∃ store', m'.store = some store' ∧ Spent (n + 1) store') (fun _ => True)
      (apply (toggled n) m) := by
  have hsmall : ([1] : Bytes).length + (toggle n).length < 1024 := by
    unfold toggle
    split_ifs <;> decide
  have hput := hspent.put (by decide) (validValue_toggle n) hsmall hn
  obtain ⟨hresult, hstore'⟩ := apply_toggled hstore n
  rcases hrun : apply (toggled n) m with ⟨result, m'⟩
  rw [hrun] at hresult hstore'
  cases result with
  | error e => trivial
  | ok u => exact ⟨_, hstore', hput.of_ok hresult.symm⟩

/-- Until a write throws, each has cost a file id. -/
theorem toggles_spend (hstore : m.store = some store) (hspent : Spent 0 store) {n : Nat}
    (hn : n < u64) :
    (∃ k < n, ∃ m' store' error,
      DurableKeyValueStateMachine.performAll (toggles k) m = (.ok (), m') ∧
      m'.store = some store' ∧ Spent k store' ∧ (apply (toggled k) m').1 = .error error) ∨
    ∃ m' store', DurableKeyValueStateMachine.performAll (toggles n) m = (.ok (), m') ∧
      m'.store = some store' ∧ Spent n store' := by
  induction n with
  | zero => exact Or.inr ⟨m, store, rfl, hstore, hspent⟩
  | succ n ih =>
    rcases ih (by omega) with ⟨k, hk, hthrows⟩ | ⟨m', store', hrun, hstore', hspent'⟩
    · exact Or.inl ⟨k, by omega, hthrows⟩
    · have houtcome := apply_toggled_spends hstore' hspent' (by omega)
      have hlast : DurableKeyValueStateMachine.performAll (toggles (n + 1)) m =
          apply (toggled n) m' := by
        rw [toggles_succ]
        exact Program.forEach_append_one hrun _
      rcases happly : apply (toggled n) m' with ⟨result, m''⟩
      rw [happly] at houtcome
      cases result with
      | error e =>
        exact Or.inl ⟨n, by omega, m', store', e, hrun, hstore', hspent', by rw [happly]⟩
      | ok u =>
        obtain ⟨store'', hstore'', hspent''⟩ := houtcome
        exact Or.inr ⟨m'', store'', hlast.trans happly, hstore'', hspent''⟩

/-- **File ids before sequence numbers.** With a memory limit of one byte some `Put`, after others that
were all applied, is refused while there are sequence numbers left. -/
theorem node_refuses_put :
    ∃ (k : Nat) (m : DurableKeyValueStateMachine) (error : Error),
      validClientCommand (toggled k).command = .ok true ∧ (toggled k).command.type = .Put ∧
      tightMachine.New ∧ tightMachine.options.Usable ∧
      DurableKeyValueStateMachine.performAll (toggles k) tightMachine = (.ok (), m) ∧
      (∀ store, m.store = some store → store.memtables.lastSequenceNumber < u64 - 1) ∧
      (apply (toggled k) m).1 = .error error := by
  obtain ⟨store, hcreate, hopen⟩ := openStorage_empty tightMachine tightMachine_usable rfl
  set opened : DurableKeyValueStateMachine := { tightMachine with store := some store }
  have hstore : opened.store = some store := rfl
  have hspent : Spent 0 store := PersistentKeyValueStore.Spent.of_create rfl hcreate
  have hvalid : ∀ k, validClientCommand (toggled k).command = .ok true := by
    intro k
    unfold toggled toggle
    split_ifs <;> rfl
  have hfirst : apply (toggled 0) tightMachine = apply (toggled 0) opened :=
    apply_opened rfl hopen (by rw [hstore]; rfl) (toggled_valid 0)
  rcases toggles_spend hstore hspent (show u64 - 1 < u64 by decide) with
    ⟨k, hk, m, store', error, hrun, hstore', hspent', hthrows⟩ | ⟨m, store', -, -, hspent'⟩
  · cases k with
    | zero =>
      obtain rfl : m = opened := (Prod.mk.inj hrun).2.symm
      exact ⟨0, tightMachine, error, hvalid 0, rfl, tightMachine_new, tightMachine_usable, rfl,
        fun store hnone => (by cases hnone), by rw [hfirst]; exact hthrows⟩
    | succ k =>
      refine ⟨k + 1, m, error, hvalid _, rfl, tightMachine_new, tightMachine_usable, ?_, ?_, hthrows⟩
      · rw [← hrun]
        unfold toggles DurableKeyValueStateMachine.performAll
        rw [List.range_succ_eq_map, List.map_cons]
        show (apply (toggled 0) >>= fun _ => _) tightMachine = (apply (toggled 0) >>= fun _ => _) opened
        rw [Program.bind_apply, Program.bind_apply, hfirst]
      · intro s hs
        rw [hstore'] at hs
        obtain rfl := Option.some.inj hs
        obtain ⟨reference, hrefines, hwrites⟩ := hspent'.refines
        rw [hrefines.writes, hwrites]
        exact hk
  · -- every write would have been paid with an id
    obtain ⟨reference, hrefines, -⟩ := hspent'.refines
    have hids := hspent'.ids
    have hlt := hrefines.sound.sstables.idLt
    omega

end NebulaKV.Raft
