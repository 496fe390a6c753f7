/-
# The store is a map

Every call of `PersistentKeyValueStore`, on a store that began empty, against a plain map that the same
puts and removes were applied to (`Reference`). After any sequence of calls `get`, `exists` and `size`
answer as the map does, whatever the memtable limit, block size, cache, Bloom filter and compaction
limits; and `remove` returns whether the key was there.

A call can throw although no file operation fails: the store has limits of its own (`AtLimit`). It is
then still the same map, and it takes more than half a million calls to get there.
-/
import NebulaKV.Lsm.StoreSteps
import Mathlib.Data.List.Induction

namespace NebulaKV.Lsm

open Containers Effects Program

/-! ## The plain map -/

/-- The map, and how many sequence numbers its writes have used. -/
structure Reference where
  map : OrderedMap Bytes Bytes := OrderedMap.empty
  writes : Nat := 0

namespace Reference

/-- A write beyond the last sequence number is not made. -/
def put (reference : Reference) (key value : Bytes) : Reference :=
  if ValidKey key ∧ ValidValue value ∧ reference.writes < u64 - 1 then
    ⟨reference.map.insert key value, reference.writes + 1⟩
  else reference

def remove (reference : Reference) (key : Bytes) : Reference :=
  if ValidKey key ∧ (reference.map.find? key).isSome ∧ reference.writes < u64 - 1 then
    ⟨reference.map.erase key, reference.writes + 1⟩
  else reference

end Reference

namespace PersistentKeyValueStore

inductive Call where
  | put (key value : Bytes)
  | remove (key : Bytes)
  | get (key : Bytes)
  | existsKey (key : Bytes)
  | flush
  | checkpoint
  | compact

/-- The store after a call, whether it returned or threw. -/
def Call.perform (store : PersistentKeyValueStore) : Call → PersistentKeyValueStore
  | .put key value => (PersistentKeyValueStore.put key value store).2
  | .remove key => (PersistentKeyValueStore.remove key store).2
  | .get key => (PersistentKeyValueStore.get key store).2
  | .existsKey key => (PersistentKeyValueStore.existsKey key store).2
  | .flush => (PersistentKeyValueStore.flush store).2
  | .checkpoint => (PersistentKeyValueStore.checkpoint store).2
  | .compact => (PersistentKeyValueStore.compact store).2

def Call.apply (reference : Reference) : Call → Reference
  | .put key value => reference.put key value
  | .remove key => reference.remove key
  | _ => reference

def performAll (store : PersistentKeyValueStore) (calls : List Call) : PersistentKeyValueStore :=
  calls.foldl Call.perform store

def applyAll (calls : List Call) : Reference := calls.foldl Call.apply {}

variable {store s s' : PersistentKeyValueStore} {reference : Reference} {key value : Bytes}
  {lag : Nat}
variable {slack n : Nat} {β : Type}
variable {memtables : MemTableSet} {change : MemTableSet → Except Error MemTableSet}
  {options : PersistentStoreOptions}

/-! ## What a call may cost -/

structure Spends (work rent : Nat) (store s : PersistentKeyValueStore) : Prop where
  ids : s.idCost ≤ store.idCost + work
  commits : s.commitCost ≤ store.commitCost + work
  tables : s.tableTotal ≤ store.tableTotal + rent
  entries : s.entryTotal ≤ store.entryTotal + rent
  last : s.memtables.lastSequenceNumber ≤ store.memtables.lastSequenceNumber + rent

theorem Spends.refl (work rent : Nat) (store : PersistentKeyValueStore) :
    Spends work rent store store :=
  ⟨Nat.le_add_right _ _, Nat.le_add_right _ _, Nat.le_add_right _ _, Nat.le_add_right _ _,
    Nat.le_add_right _ _⟩

theorem Spends.trans {work work' rent rent' : Nat} (h : Spends work rent store s)
    (h' : Spends work' rent' s s') : Spends (work + work') (rent + rent') store s' where
  ids := by
    have := h.ids
    have := h'.ids
    omega
  commits := by
    have := h.commits
    have := h'.commits
    omega
  tables := by
    have := h.tables
    have := h'.tables
    omega
  entries := by
    have := h.entries
    have := h'.entries
    omega
  last := by
    have := h.last
    have := h'.last
    omega

theorem Settles.spends (h : Settles slack store s lag) : Spends slack 0 store s :=
  ⟨h.ids, h.commits, h.tables, h.entries, h.last.le⟩

theorem Spends.mono {work work' rent rent' : Nat} (h : Spends work rent store s)
    (hwork : work ≤ work') (hrent : rent ≤ rent') : Spends work' rent' store s :=
  ⟨h.ids.trans (by omega), h.commits.trans (by omega), h.tables.trans (by omega),
    h.entries.trans (by omega), h.last.trans (by omega)⟩

/-- A rotation makes work for a flush, and what compacts it away. -/
theorem Sound.rotated (h : store.Sound lag)
    (hrotated : MemTableSet.Rotated store.memtables memtables) :
    Sound { store with memtables := memtables } lag ∧
      (∀ key, value? { store with memtables := memtables } key = store.value? key) ∧
      Spends 2 1 store { store with memtables := memtables } := by
  obtain ⟨hordered, hpaced⟩ := hrotated.ordered h.memtables h.paced
  have hlength := hrotated.length_le
  refine ⟨⟨hordered, hpaced, h.sstables, fun record hrec record' hrec' => ?_, fun record hrec => ?_,
    h.few⟩, fun key => ?_, ?_, ?_, ?_, ?_, ?_⟩
  · exact h.newer record hrec record' (hrotated.contains_iff.mp hrec')
  · dsimp only
    rw [hrotated.last_eq]
    exact h.bound record hrec
  · unfold value? entryFor
    dsimp only
    rw [hrotated.entryFor_eq]
  · unfold idCost
    dsimp only
    omega
  · unfold commitCost
    dsimp only
    omega
  · unfold tableTotal
    dsimp only
    omega
  · unfold entryTotal
    dsimp only
    rw [hrotated.entryTotal_eq]
    exact Nat.le_succ _
  · dsimp only
    rw [hrotated.last_eq]
    exact Nat.le_succ _

/-- An entry with the next sequence number. -/
theorem Sound.stored (h : store.Sound lag) {entry : Entry} (hvalid : ValidRecord (key, entry))
    (hseq : entry.sequenceNumber = store.memtables.lastSequenceNumber + 1)
    (hroom : store.memtables.lastSequenceNumber + lag ≠ u64 - 1) (usage liveKeyCount : Nat) :
    Sound { store with memtables := store.memtables.stored key entry usage liveKeyCount } lag ∧
      (∀ k, value? { store with
          memtables := store.memtables.stored key entry usage liveKeyCount } k =
        if k = key then entry.live else store.value? k) ∧
      Spends 0 1 store { store with
        memtables := store.memtables.stored key entry usage liveKeyCount } := by
  refine ⟨⟨h.memtables.stored hvalid hseq, h.paced.stored hroom key entry usage liveKeyCount,
    h.sstables, fun record hrec record' hrec' => ?_, fun record hrec => ?_, h.few⟩, fun k => ?_, le_rfl,
    le_rfl, Nat.le_succ _, ?_, le_rfl⟩
  · rcases MemTableSet.contains_stored hrec' with rfl | hold
    · have := h.bound record hrec
      show record.2.sequenceNumber < entry.sequenceNumber
      omega
    · exact h.newer record hrec record' hold
  · exact (h.bound record hrec).trans (Nat.le_succ _)
  · unfold value? entryFor
    dsimp only
    rw [MemTableSet.entryFor_stored]
    split_ifs <;> rfl
  · have hle : (store.memtables.stored key entry usage liveKeyCount).entryTotal ≤
        store.memtables.entryTotal + 1 := MemTableSet.entryTotal_stored_le
    unfold entryTotal
    dsimp only
    omega

/-! ## The refinement -/

/-- **The store is this map.** -/
structure Refines (store : PersistentKeyValueStore) (reference : Reference) (lag : Nat := 0) :
    Prop where
  sound : store.Sound lag
  value_eq : ∀ key, store.value? key = reference.map.find? key
  count : store.liveKeyCount = reference.map.size
  writes : store.memtables.lastSequenceNumber = reference.writes
  size_le : reference.map.size ≤ reference.writes

theorem Refines.settles (h : Refines store reference lag) (hs : Settles slack store s lag) :
    Refines s reference lag :=
  ⟨hs.sound, fun key => (hs.value_eq key).trans (h.value_eq key), hs.liveKeyCount.trans h.count,
    hs.last.trans h.writes, h.size_le⟩

/-- What holds after a call that was to make this of the map. -/
structure After (store : PersistentKeyValueStore) (reference : Reference)
    (s : PersistentKeyValueStore) (lag : Nat := 0) : Prop where
  refines : Refines s reference lag
  spends : Spends 3 2 store s

theorem After.refl (h : Refines store reference lag) : After store reference store lag :=
  ⟨h, Spends.refl 3 2 store⟩

/-- The work after a write in memory. -/
theorem After.of_settles (h : Refines s reference lag) (hspends : Spends 2 2 store s)
    (hs : Settles slack s s' lag) (hslack : slack ≤ 1) : After store reference s' lag :=
  ⟨h.settles hs, (hspends.trans hs.spends).mono (by omega) (by omega)⟩

theorem Refines.settle_outcome (h : Refines s reference lag) (hspends : Spends 2 2 store s) :
    Outcome (fun _ s' => After store reference s' lag ∧ Settled s s' lag)
      (fun s' => After store reference s' lag ∧ SettleFailed s s' lag) (settle s) :=
  h.sound.settle_outcome.mono
    (fun _ _ hsettled => ⟨After.of_settles h hspends hsettled.settles (by decide), hsettled⟩)
    fun _ hfailed => ⟨After.of_settles h hspends hfailed.settles le_rfl, hfailed⟩

/-! ## The parts of a write -/

theorem appendWal_bind {record : WalRecord} (h : record.validate = .ok ())
    (f : Unit → Program PersistentKeyValueStore Error β) (store : PersistentKeyValueStore) :
    (appendWal record >>= f) store = f () { store with wal := store.wal ++ [record] } := by
  unfold appendWal
  rw [h]
  rfl

theorem changeMemtables_bind (h : change store.memtables = .ok memtables)
    (f : Unit → Program PersistentKeyValueStore Error β) :
    (changeMemtables change >>= f) store = f () { store with memtables := memtables } := by
  unfold changeMemtables
  rw [bind_apply, read_bind_apply, h]
  rfl

theorem changeMemtables_error_bind {e : Error} (h : change store.memtables = .error e)
    (f : Unit → Program PersistentKeyValueStore Error β) :
    (changeMemtables change >>= f) store = (.error e, store) := by
  unfold changeMemtables
  rw [bind_apply, read_bind_apply, h]
  rfl

theorem put_last {set : MemTableSet} (h : set.lastSequenceNumber = u64 - 1) (key value : Bytes) :
    ∃ e, set.put key value = .error e := by
  cases hput : set.put key value with
  | error e => exact ⟨e, rfl⟩
  | ok set' =>
    obtain ⟨_, -, hput⟩ := bind_eq_ok.mp hput
    obtain ⟨_, -, hput⟩ := bind_eq_ok.mp hput
    obtain ⟨_, -, hput⟩ := bind_eq_ok.mp hput
    obtain ⟨_, hnext, -⟩ := bind_eq_ok.mp hput
    unfold MemTableSet.nextSequenceNumber at hnext
    rw [if_pos h] at hnext
    cases hnext

theorem addTombstone_last {set : MemTableSet} (h : set.lastSequenceNumber = u64 - 1) (key : Bytes)
    : ∃ e, set.addTombstone key = .error e := by
  cases hput : set.addTombstone key with
  | error e => exact ⟨e, rfl⟩
  | ok set' =>
    obtain ⟨_, -, hput⟩ := bind_eq_ok.mp hput
    obtain ⟨_, -, hput⟩ := bind_eq_ok.mp hput
    obtain ⟨_, hnext, -⟩ := bind_eq_ok.mp hput
    unfold MemTableSet.nextSequenceNumber at hnext
    rw [if_pos h] at hnext
    cases hnext

/-- The store after a write in memory, with the log and the count that go with it. -/
def wrote (store : PersistentKeyValueStore) (key : Bytes) (entry : Entry)
    (usage memoryCount liveKeyCount : Nat) (wal : List WalRecord) : PersistentKeyValueStore :=
  { store with
    wal := wal
    liveKeyCount := liveKeyCount
    memtables := (store.memtables.stored key entry usage memoryCount).rotateIfRequired }

/-- `put` as far as the memtables. -/
def insertEntry (key value : Bytes) : Program PersistentKeyValueStore Error Unit := do
  Program.check (validateKey key)
  Program.check (validateValue value)
  let wasLive ← existsWithoutValidation key
  appendWal ⟨.Put, key, value⟩
  changeMemtables (·.put key value)
  Program.when (¬ wasLive) (Program.update countKey)

theorem put_eq_insertEntry (key value : Bytes) :
    put key value = (do insertEntry key value; settle) := by
  unfold put insertEntry
  simp only [bind_bind]

/-- With valid arguments there remain the memtables and the count. -/
theorem insertEntry_run (hkey : ValidKey key) (hvalue : ValidValue value) {wasLive : Bool}
    (hexists : existsWithoutValidation key store = (.ok wasLive, s)) :
    insertEntry key value store = (changeMemtables (·.put key value) >>= fun _ =>
      Program.when (¬ wasLive) (Program.update countKey))
        { s with wal := s.wal ++ [⟨.Put, key, value⟩] } := by
  unfold insertEntry
  rw [validateKey_eq_ok.mpr hkey, check_ok_bind, validateValue_eq_ok.mpr hvalue, check_ok_bind,
    bind_apply, hexists]
  exact appendWal_bind (WalRecord.validate_eq_ok.mpr ⟨hkey, hvalue, fun hop => by cases hop⟩) _ _

theorem remove_run (hkey : ValidKey key)
    (hexists : existsWithoutValidation key store = (.ok true, s)) :
    remove key store = (changeMemtables (·.addTombstone key) >>= fun _ =>
      Program.update uncountKey >>= fun _ => settle >>= fun _ => pure true)
        { s with wal := s.wal ++ [⟨.Delete, key, []⟩] } := by
  unfold remove
  rw [validateKey_eq_ok.mpr hkey, check_ok_bind, bind_apply, hexists]
  exact appendWal_bind (WalRecord.validate_eq_ok.mpr ⟨hkey, Nat.zero_le _, fun _ => rfl⟩) _ _

/-- The count of live keys behind a put. -/
def countAfter (store : PersistentKeyValueStore) (wasLive : Bool) : Nat :=
  if wasLive then store.liveKeyCount else (store.liveKeyCount + 1) % u64

/-- **The entry in the memtables**, with what goes with it. -/
theorem Sound.insertEntry_eq (h : store.Sound lag) (hkey : ValidKey key) (hvalue : ValidValue value)
    (hlast : store.memtables.lastSequenceNumber ≠ u64 - 1) :
    ∃ s₁ usage memoryCount, existsWithoutValidation key store = (.ok (store.value? key).isSome, s₁) ∧
      Settles 0 store s₁ lag ∧ s₁.tableTotal = store.tableTotal ∧
      s₁.memtables.put key value = .ok (s₁.memtables.stored key
        ⟨value, s₁.memtables.lastSequenceNumber + 1, false⟩ usage memoryCount).rotateIfRequired ∧
      insertEntry key value store = (.ok (), s₁.wrote key
        ⟨value, s₁.memtables.lastSequenceNumber + 1, false⟩ usage memoryCount
        (s₁.countAfter (store.value? key).isSome) (s₁.wal ++ [⟨.Put, key, value⟩])) := by
  obtain ⟨s₁, hexists, hsettles, htables⟩ := h.existsKey hkey
  obtain ⟨usage, memoryCount, hput⟩ :=
    hsettles.sound.memtables.put_eq hkey hvalue (by rw [hsettles.last]; exact hlast)
  refine ⟨s₁, usage, memoryCount, hexists, hsettles, htables, hput, ?_⟩
  rw [insertEntry_run hkey hvalue hexists, changeMemtables_bind hput]
  cases (store.value? key).isSome <;> rfl

/-- Without a sequence number there is no entry. -/
theorem Sound.insertEntry_last (h : store.Sound lag) (hkey : ValidKey key) (hvalue : ValidValue value)
    (hlast : store.memtables.lastSequenceNumber = u64 - 1) :
    ∃ e s, insertEntry key value store = (.error e, s) ∧ Settles 0 store s lag := by
  obtain ⟨s₁, hexists, hsettles, -⟩ := h.existsKey hkey
  obtain ⟨e, hput⟩ := put_last (hsettles.last.trans hlast) key value
  refine ⟨e, { s₁ with wal := s₁.wal ++ [⟨.Put, key, value⟩] }, ?_, hsettles.withWal _⟩
  rw [insertEntry_run hkey hvalue hexists, changeMemtables_error_bind hput]

theorem Sound.wrote (h : store.Sound lag) (entry : Entry) (hvalid : ValidRecord (key, entry))
    (hseq : entry.sequenceNumber = store.memtables.lastSequenceNumber + 1)
    (hroom : store.memtables.lastSequenceNumber + lag ≠ u64 - 1)
    (usage memoryCount liveKeyCount : Nat) (wal : List WalRecord) :
    Sound (store.wrote key entry usage memoryCount liveKeyCount wal) lag ∧
      (∀ k, (store.wrote key entry usage memoryCount liveKeyCount wal).value? k =
        if k = key then entry.live else store.value? k) ∧
      Spends 2 2 store (store.wrote key entry usage memoryCount liveKeyCount wal) ∧
      (store.wrote key entry usage memoryCount liveKeyCount wal).memtables.lastSequenceNumber =
        store.memtables.lastSequenceNumber + 1 := by
  obtain ⟨hsound, hvalue, hspends⟩ := h.stored hvalid hseq hroom usage memoryCount
  obtain ⟨hsound', hvalue', hspends'⟩ := hsound.rotated (MemTableSet.rotateIfRequired_rotated _)
  have hspends₂ := hspends.trans hspends'
  refine ⟨⟨hsound'.memtables, hsound'.paced, hsound'.sstables, hsound'.newer, hsound'.bound,
    hsound'.few⟩, fun k => ?_, ⟨hspends₂.ids, hspends₂.commits, hspends₂.tables, hspends₂.entries,
    hspends₂.last⟩, ?_⟩
  · rw [← hvalue k]
    exact hvalue' k
  · show (MemTableSet.rotateIfRequired _).lastSequenceNumber = _
    rw [(MemTableSet.rotateIfRequired_rotated _).last_eq]
    rfl

theorem Refines.wrote (h : Refines store reference lag) (entry : Entry)
    (hvalid : ValidRecord (key, entry))
    (hseq : entry.sequenceNumber = store.memtables.lastSequenceNumber + 1)
    (hroom : store.memtables.lastSequenceNumber + lag ≠ u64 - 1) (usage memoryCount : Nat)
    (wal : List WalRecord) (map : OrderedMap Bytes Bytes)
    (hmap : ∀ k, map.find? k = if k = key then entry.live else reference.map.find? k)
    (hsize : map.size ≤ reference.writes + 1) :
    Refines (store.wrote key entry usage memoryCount map.size wal) ⟨map, reference.writes + 1⟩ lag ∧
      Spends 2 2 store (store.wrote key entry usage memoryCount map.size wal) := by
  obtain ⟨hsound, hvalue, hspends, hlast⟩ :=
    h.sound.wrote entry hvalid hseq hroom usage memoryCount map.size wal
  refine ⟨⟨hsound, fun k => ?_, rfl, ?_, hsize⟩, hspends⟩
  · rw [hmap k, ← h.value_eq k, hvalue k]
  · rw [hlast]
    exact congrArg (· + 1) h.writes

/-! ## How a store without compactions fills up -/

/-- The tables there will be once the active memtable has been written too. -/
def laden (store : PersistentKeyValueStore) : Nat :=
  store.tableTotal + if store.memtables.active.snapshot = [] then 0 else 1

theorem tableTotal_rotateActive (store : PersistentKeyValueStore) :
    (rotateActive store).tableTotal = store.laden := by
  unfold rotateActive laden tableTotal MemTableSet.rotateActive
  split_ifs with hempty hnil hnil
  · rfl
  · exact absurd (MemTable.empty_iff.mp hempty) hnil
  · exact absurd (MemTable.empty_iff.mpr hnil) hempty
  · rfl

theorem Settles.laden_eq (h : Settles slack store s lag) (htotal : s.tableTotal = store.tableTotal) :
    s.laden = store.laden := by
  unfold laden
  rw [htotal, h.active]

/-- Without compactions, the tables become more. -/
def Grows (total : Nat) (store s : PersistentKeyValueStore) : Prop :=
  store.automaticCompactionEnabled = false →
    s.automaticCompactionEnabled = false ∧ total ≤ s.laden

theorem Settles.grows {slack total : Nat} (h : Settles slack s s' lag)
    (htables : s.automaticCompactionEnabled = false → s'.tableTotal = s.tableTotal)
    (hgrows : Grows total store s) : Grows total store s' := fun hfalse => by
  obtain ⟨hautomatic, htotal⟩ := hgrows hfalse
  rw [h.laden_eq (htables hautomatic)]
  exact ⟨h.automatic.trans hautomatic, htotal⟩

/-- A write behind work that leaves the tables alone. -/
theorem Settles.grows_wrote (h : Settles slack store s lag) (htables : s.tableTotal = store.tableTotal)
    (key : Bytes) (entry : Entry) (usage memoryCount liveKeyCount : Nat) (wal : List WalRecord) :
    Grows (store.tableTotal + 1) store (s.wrote key entry usage memoryCount liveKeyCount wal) := by
  intro hfalse
  refine ⟨h.automatic.trans hfalse, ?_⟩
  rw [← htables]
  unfold laden tableTotal wrote
  dsimp only
  rcases MemTableSet.rotateIfRequired_rotated (s.memtables.stored key entry usage memoryCount)
    with hsame | ⟨-, hrotate⟩
  · have hne : (s.memtables.stored key entry usage memoryCount).active.snapshot ≠ [] :=
      MemTable.store_ne_nil _ _ _ _
    rw [hsame, if_neg hne]
    exact le_rfl
  · rw [hrotate]
    exact Nat.le_add_right _ _

/-! ## Calls -/

/-- A call returned, with the map as it should be, or it threw at a limit. -/
def Done {α : Type} (returned : α → Prop) (store : PersistentKeyValueStore) (reference : Reference) :
    Except Error α × PersistentKeyValueStore → Prop :=
  Outcome (fun a s => returned a ∧ After store reference s)
    (fun s => After store reference s ∧ s.AtLimit)

theorem Done.after {α : Type} {returned : α → Prop} {x : Except Error α × PersistentKeyValueStore}
    (h : Done returned store reference x) : After store reference x.2 := by
  obtain ⟨result, s⟩ := x
  cases result with
  | ok a => exact h.2
  | error e => exact h.1

theorem Done.returns {α : Type} {returned : α → Prop} {x : Except Error α × PersistentKeyValueStore}
    (h : Done returned store reference x) : (∃ a, x.1 = .ok a ∧ returned a) ∨ x.2.AtLimit := by
  obtain ⟨result, s⟩ := x
  cases result with
  | ok a => exact Or.inl ⟨a, rfl, h.1⟩
  | error e => exact Or.inr h.2

theorem Refines.room_iff (h : Refines store reference lag) :
    store.memtables.lastSequenceNumber + lag ≠ u64 - 1 ↔ reference.writes + lag < u64 - 1 := by
  have := h.sound.paced.last_lt
  have := h.writes
  omega

/-- `put` looks the key up, stores it in memory, and settles. -/
theorem Refines.put_wrote (h : Refines store reference lag) (hkey : ValidKey key)
    (hvalue : ValidValue value) (hroom : reference.writes + lag < u64 - 1) :
    ∃ s₁ s, Settles 0 store s₁ lag ∧ s₁.memtables.put key value = .ok s.memtables ∧
      s.sstables = s₁.sstables ∧ put key value store = settle s ∧ Refines s (reference.put key value) lag ∧
      Spends 2 2 store s ∧ Grows (store.tableTotal + 1) store s := by
  have hwrites := h.writes
  obtain ⟨s₁, usage, memoryCount, -, hsettles, htables, hput, hinsert⟩ :=
    h.sound.insertEntry_eq hkey hvalue (by omega)
  have h₁ : Refines s₁ reference lag := h.settles hsettles
  have hsize := OrderedMap.size_insert reference.map key value
  have hsize_le := h.size_le
  have hbound : (reference.map.insert key value).size ≤ reference.writes + 1 := by
    rw [hsize]
    split_ifs <;> omega
  obtain ⟨hrefines, hspends⟩ := h₁.wrote ⟨value, _, false⟩
    ⟨hkey, hvalue, Nat.succ_ne_zero _, fun hdel => by cases hdel⟩ rfl (h₁.room_iff.mpr hroom) usage
    memoryCount (s₁.wal ++ [⟨.Put, key, value⟩]) (reference.map.insert key value)
    (fun k => by rw [OrderedMap.find?_insert]; split_ifs <;> rfl) hbound
  -- the count follows the size of the map
  have hcount : s₁.countAfter (store.value? key).isSome = (reference.map.insert key value).size := by
    unfold countAfter
    rw [hsize, ← h.value_eq key, h₁.count, Nat.mod_eq_of_lt (by omega)]
  rw [hcount] at hinsert
  refine ⟨s₁, s₁.wrote key ⟨value, s₁.memtables.lastSequenceNumber + 1, false⟩ usage memoryCount
    (reference.map.insert key value).size (s₁.wal ++ [⟨.Put, key, value⟩]), hsettles, hput, rfl, ?_, ?_,
    ?_, ?_⟩
  · rw [put_eq_insertEntry, bind_apply, hinsert]
  · have hreference : reference.put key value =
        ⟨reference.map.insert key value, reference.writes + 1⟩ :=
      if_pos ⟨hkey, hvalue, by omega⟩
    rw [hreference]
    exact hrefines
  · exact (hsettles.spends.trans hspends).mono (by omega) (by omega)
  · exact hsettles.grows_wrote htables _ _ _ _ _ _

/-- What `put` leaves before it settles. -/
theorem Refines.put_eq (h : Refines store reference lag) (hkey : ValidKey key)
    (hvalue : ValidValue value) (hroom : reference.writes + lag < u64 - 1) :
    ∃ s, put key value store = settle s ∧ Refines s (reference.put key value) lag ∧
      Spends 2 2 store s ∧ Grows (store.tableTotal + 1) store s := by
  obtain ⟨_, s, -, -, -, hput⟩ := h.put_wrote hkey hvalue hroom
  exact ⟨s, hput⟩

theorem Refines.put_done (h : Refines store reference) (hkey : ValidKey key)
    (hvalue : ValidValue value) :
    Done (fun _ => reference.writes < u64 - 1) store (reference.put key value)
      (put key value store) := by
  by_cases hroom : reference.writes < u64 - 1
  · obtain ⟨s, hput, hrefines, hspends, -⟩ := h.put_eq hkey hvalue hroom
    rw [hput]
    exact (hrefines.settle_outcome hspends).mono (fun _ _ hq => ⟨hroom, hq.1⟩)
      fun _ hr => ⟨hr.1, hr.2.atLimit⟩
  · have hlast : store.memtables.lastSequenceNumber = u64 - 1 := by
      by_contra hne
      exact hroom (h.room_iff.mp hne)
    obtain ⟨e, s, hinsert, hsettles⟩ := h.sound.insertEntry_last hkey hvalue hlast
    have hreference : reference.put key value = reference := if_neg fun hall => hroom hall.2.2
    rw [put_eq_insertEntry, bind_apply, hinsert, hreference]
    exact ⟨After.of_settles h (Spends.refl 2 2 store) hsettles (by decide),
      Or.inl (hsettles.last.trans hlast)⟩

/-- A call with a key or a value that is not allowed does nothing. -/
theorem put_refused (h : ¬ (ValidKey key ∧ ValidValue value)) (store : PersistentKeyValueStore) :
    (put key value store).2 = store := by
  unfold put
  rw [bind_apply]
  cases hkey : validateKey key with
  | error e => rfl
  | ok u =>
    show (_ : Except Error Unit × PersistentKeyValueStore).2 = store
    cases hvalue : validateValue value with
    | error e => rfl
    | ok u' =>
      exact absurd ⟨validateKey_eq_ok.mp hkey, validateValue_eq_ok.mp hvalue⟩ h

theorem Refines.remove_absent (h : Refines store reference lag) (hkey : ValidKey key)
    (habsent : reference.map.find? key = none) :
    ∃ s, remove key store = (.ok false, s) ∧ After store (reference.remove key) s lag := by
  obtain ⟨s₁, hexists, hsettles, -⟩ := h.sound.existsKey hkey
  have hreference : reference.remove key = reference :=
    if_neg fun hall => by rw [habsent] at hall; cases hall.2.1
  rw [hreference]
  refine ⟨s₁, ?_, After.of_settles h (Spends.refl 2 2 store) hsettles (by decide)⟩
  unfold remove
  rw [validateKey_eq_ok.mpr hkey, check_ok_bind, bind_apply, hexists, h.value_eq key, habsent]
  rfl

/-- What `remove` leaves before it settles. -/
theorem Refines.remove_eq (h : Refines store reference lag) (hkey : ValidKey key)
    (hpresent : (reference.map.find? key).isSome) (hroom : reference.writes + lag < u64 - 1) :
    ∃ s, remove key store = (settle >>= fun _ => pure true) s ∧
      Refines s (reference.remove key) lag ∧ Spends 2 2 store s ∧
      Grows (store.tableTotal + 1) store s := by
  obtain ⟨s₁, hexists, hsettles, htables⟩ := h.sound.existsKey hkey
  have h₁ : Refines s₁ reference lag := h.settles hsettles
  have hlast := h₁.room_iff.mpr hroom
  have hwrites := h₁.writes
  obtain ⟨usage, memoryCount, hput⟩ := h₁.sound.memtables.addTombstone_eq hkey (by omega)
  have hsize := OrderedMap.size_erase reference.map key
  rw [if_pos hpresent] at hsize
  have hsize_le := h.size_le
  obtain ⟨hrefines, hspends⟩ := h₁.wrote ⟨[], _, true⟩
    ⟨hkey, Nat.zero_le _, Nat.succ_ne_zero _, fun _ => rfl⟩ rfl hlast usage memoryCount
    (s₁.wal ++ [⟨.Delete, key, []⟩]) (reference.map.erase key)
    (fun k => by rw [OrderedMap.find?_erase]; split_ifs <;> rfl) (by omega)
  refine ⟨s₁.wrote key ⟨[], s₁.memtables.lastSequenceNumber + 1, true⟩ usage memoryCount
    (reference.map.erase key).size (s₁.wal ++ [⟨.Delete, key, []⟩]), ?_, ?_, ?_, ?_⟩
  · have hcount := h₁.count
    have hpos := OrderedMap.size_pos hpresent
    have hlt : s₁.liveKeyCount < u64 := by omega
    rw [h.value_eq key, hpresent] at hexists
    rw [remove_run hkey hexists, changeMemtables_bind hput, update_bind_apply, hsize, ← hcount]
    unfold uncountKey PersistentKeyValueStore.wrote
    dsimp only
    rw [u64Sub_of_le (by omega) hlt]
  · have hreference : reference.remove key =
        ⟨reference.map.erase key, reference.writes + 1⟩ := if_pos ⟨hkey, hpresent, by omega⟩
    rw [hreference]
    exact hrefines
  · exact (hsettles.spends.trans hspends).mono (by omega) (by omega)
  · exact hsettles.grows_wrote htables _ _ _ _ _ _

theorem Refines.remove_done (h : Refines store reference) (hkey : ValidKey key) :
    Done (fun removed => removed = (reference.map.find? key).isSome ∧
        (removed = true → reference.writes < u64 - 1)) store (reference.remove key)
      (remove key store) := by
  cases hfind : reference.map.find? key with
  | none =>
    obtain ⟨s, hremove, hafter⟩ := h.remove_absent hkey hfind
    rw [hremove]
    exact ⟨⟨rfl, fun hfalse => (by cases hfalse)⟩, hafter⟩
  | some value =>
    have hpresent : (reference.map.find? key).isSome := by rw [hfind]; rfl
    by_cases hroom : reference.writes < u64 - 1
    · obtain ⟨s, hremove, hrefines, hspends, -⟩ := h.remove_eq hkey hpresent hroom
      rw [hremove]
      refine Outcome.bind ((hrefines.settle_outcome hspends).mono (fun _ _ hq => hq)
        fun _ hr => ⟨hr.1, hr.2.atLimit⟩) ?_
      rintro _ s' ⟨hafter, -⟩
      exact ⟨⟨rfl, fun _ => hroom⟩, hafter⟩
    · obtain ⟨s₁, hexists, hsettles, -⟩ := h.sound.existsKey hkey
      have hlast : s₁.memtables.lastSequenceNumber = u64 - 1 := by
        by_contra hne
        exact hroom ((h.settles hsettles).room_iff.mp hne)
      obtain ⟨e, herror⟩ := addTombstone_last hlast key
      have hreference : reference.remove key = reference := if_neg fun hall => hroom hall.2.2
      rw [h.value_eq key, hpresent] at hexists
      rw [hreference, remove_run hkey hexists, changeMemtables_error_bind herror]
      exact ⟨After.of_settles h (Spends.refl 2 2 store) (hsettles.withWal _) (by decide),
        Or.inl hlast⟩

theorem remove_refused (h : ¬ ValidKey key) (store : PersistentKeyValueStore) :
    (remove key store).2 = store := by
  unfold remove
  rw [bind_apply]
  cases hkey : validateKey key with
  | error e => rfl
  | ok u => exact absurd (validateKey_eq_ok.mp hkey) h

/-- Every `checkpoint` and `compact` begins with a rotation. -/
theorem Refines.rotateActive (h : Refines store reference lag) :
    Refines (rotateActive store) reference lag ∧ Spends 2 2 store (rotateActive store) := by
  obtain ⟨hsound, hvalue, hspends⟩ :=
    h.sound.rotated (MemTableSet.rotateActive_rotated store.memtables)
  refine ⟨⟨hsound, fun key => (hvalue key).trans (h.value_eq key), h.count, ?_, h.size_le⟩,
    hspends.mono le_rfl (by decide)⟩
  exact (MemTableSet.rotateActive_rotated store.memtables).last_eq.trans h.writes

theorem Refines.checkpoint_outcome (h : Refines store reference) :
    Outcome (fun _ s => After store reference s ∧ Settled (PersistentKeyValueStore.rotateActive store) s)
      (fun s => After store reference s ∧
        SettleFailed (PersistentKeyValueStore.rotateActive store) s) (checkpoint store) := by
  obtain ⟨hrefines, hspends⟩ := h.rotateActive
  unfold checkpoint
  rw [update_bind_apply]
  have houtcome : Outcome (fun _ s => Settled (PersistentKeyValueStore.rotateActive store) s)
      (SettleFailed (PersistentKeyValueStore.rotateActive store)) ((do
        flushImmutableMemtables
        let _ ← compactIfRequired
        Program.update resetWal) (PersistentKeyValueStore.rotateActive store)) :=
    hrefines.sound.flush_compact_outcome fun s hsettled => hsettled.withWal []
  refine houtcome.mono ?_ ?_
  · exact fun _ s hsettled =>
      ⟨After.of_settles hrefines hspends hsettled.settles (by decide), hsettled⟩
  · exact fun s hfailed => ⟨After.of_settles hrefines hspends hfailed.settles le_rfl, hfailed⟩

theorem Refines.checkpoint_done (h : Refines store reference) :
    Done (fun _ => True) store reference (checkpoint store) :=
  h.checkpoint_outcome.mono (fun _ _ hq => ⟨trivial, hq.1⟩) fun _ hr => ⟨hr.1, hr.2.atLimit⟩

theorem Refines.compact_done (h : Refines store reference) :
    Done (fun _ => True) store reference (compact store) := by
  obtain ⟨hrefines, hspends⟩ := h.rotateActive
  unfold compact
  rw [update_bind_apply]
  refine Outcome.bind (hrefines.sound.flushImmutable_outcome.mono (fun _ _ hq => hq) ?_) ?_
  · exact fun s hfailed => ⟨After.of_settles hrefines hspends hfailed.settles le_rfl, hfailed.atLimit⟩
  rintro _ s ⟨hsettles, -, -⟩
  refine Outcome.bind ((Outcome.zoom (SSTableManager.compactLevel0_outcome hsettles.sound.sstables
    true)).mono (fun _ _ hq => hq) ?_) ?_
  · rintro s' ⟨manager, hfailed, rfl⟩
    obtain ⟨hsettles', hlimit⟩ := hsettles.sound.compact_failed hfailed
    exact ⟨After.of_settles hrefines hspends (hsettles.then hsettles') le_rfl, hlimit⟩
  · intro result s' hresult
    have hcompacted : Settles 0 s s' := by
      obtain ⟨manager, ⟨-, rfl⟩ | ⟨-, hshrunk⟩, rfl⟩ := hresult
      · exact Settles.refl hsettles.sound
      · exact hsettles.sound.shrunk hshrunk
    have hall := hsettles.then hcompacted
    refine Outcome.bind (M := fun _ s' => After store reference s') ?_ fun _ s'' hafter =>
      ⟨trivial, hafter⟩
    unfold resetWalIfFullyPersisted
    rw [read_bind_apply]
    unfold Program.when
    split_ifs
    · exact After.of_settles hrefines hspends (hall.withWal []) (by decide)
    · exact After.of_settles hrefines hspends hall (by decide)

theorem Refines.get_eq (h : Refines store reference lag) (hkey : ValidKey key) :
    ∃ s, get key store = (.ok (reference.map.find? key), s) ∧ After store reference s lag := by
  obtain ⟨s, hget, hsettles⟩ := h.sound.get hkey
  refine ⟨s, ?_, After.of_settles h (Spends.refl 2 2 store) hsettles (by decide)⟩
  rw [hget, h.value_eq key]

theorem Refines.existsKey_eq (h : Refines store reference lag) (hkey : ValidKey key) :
    ∃ s, existsKey key store = (.ok (reference.map.find? key).isSome, s) ∧
      After store reference s lag := by
  obtain ⟨s, hexists, hsettles, -⟩ := h.sound.existsKey hkey
  refine ⟨s, ?_, After.of_settles h (Spends.refl 2 2 store) hsettles (by decide)⟩
  unfold existsKey
  rw [validateKey_eq_ok.mpr hkey, check_ok_bind, hexists, h.value_eq key]

/-- **Every call** makes of the store what it makes of the map. -/
theorem Refines.perform (h : Refines store reference) (call : Call) :
    After store (call.apply reference) (call.perform store) := by
  cases call with
  | put key value =>
    by_cases hvalid : ValidKey key ∧ ValidValue value
    · exact (h.put_done hvalid.1 hvalid.2).after
    · have hreference : reference.put key value = reference :=
        if_neg fun hall => hvalid ⟨hall.1, hall.2.1⟩
      show After store (reference.put key value) (PersistentKeyValueStore.put key value store).2
      rw [put_refused hvalid, hreference]
      exact After.refl h
  | remove key =>
    by_cases hkey : ValidKey key
    · exact (h.remove_done hkey).after
    · have hreference : reference.remove key = reference := if_neg fun hall => hkey hall.1
      show After store (reference.remove key) (PersistentKeyValueStore.remove key store).2
      rw [remove_refused hkey, hreference]
      exact After.refl h
  | get key =>
    by_cases hkey : ValidKey key
    · obtain ⟨s, hget, hafter⟩ := h.get_eq hkey
      show After store reference (PersistentKeyValueStore.get key store).2
      rw [hget]
      exact hafter
    · show After store reference (PersistentKeyValueStore.get key store).2
      unfold PersistentKeyValueStore.get
      rw [bind_apply]
      cases hv : validateKey key with
      | error e => exact After.refl h
      | ok u => exact absurd (validateKey_eq_ok.mp hv) hkey
  | existsKey key =>
    by_cases hkey : ValidKey key
    · obtain ⟨s, hexists, hafter⟩ := h.existsKey_eq hkey
      show After store reference (PersistentKeyValueStore.existsKey key store).2
      rw [hexists]
      exact hafter
    · show After store reference (PersistentKeyValueStore.existsKey key store).2
      unfold PersistentKeyValueStore.existsKey
      rw [bind_apply]
      cases hv : validateKey key with
      | error e => exact After.refl h
      | ok u => exact absurd (validateKey_eq_ok.mp hv) hkey
  | flush => exact After.refl h
  | checkpoint => exact h.checkpoint_done.after
  | compact => exact h.compact_done.after

/-! ## Runs -/

/-- What so many calls can have used. -/
structure Within (calls : Nat) (store : PersistentKeyValueStore) : Prop where
  sound : store.Sound
  ids : store.idCost ≤ 3 * calls + 1
  commits : store.commitCost ≤ 3 * calls + 1
  tables : store.tableTotal ≤ 2 * calls
  entries : store.entryTotal ≤ 2 * calls
  last : store.memtables.lastSequenceNumber ≤ 2 * calls

theorem Within.after {calls : Nat} (h : Within calls store) (hsound : s.Sound)
    (hspends : Spends 3 2 store s) : Within (calls + 1) s where
  sound := hsound
  ids := hspends.ids.trans (by have := h.ids; omega)
  commits := hspends.commits.trans (by have := h.commits; omega)
  tables := hspends.tables.trans (by have := h.tables; omega)
  entries := hspends.entries.trans (by have := h.entries; omega)
  last := hspends.last.trans (by have := h.last; omega)

/-- The manifest is the first limit that calls can reach. -/
theorem Within.calls_of_atLimit {calls : Nat} (h : Within calls store) (hlimit : store.AtLimit) :
    2 ^ 19 ≤ calls := by
  have hids := h.ids
  have hcommits := h.commits
  have htables := h.tables
  have hentries := h.entries
  have hlast := h.last
  unfold idCost at hids
  unfold commitCost at hcommits
  unfold tableTotal at htables
  unfold AtLimit SSTableManager.Crowded u64 kMaximumManifestTables at hlimit
  rcases hlimit with hlimit | hlimit | hlimit | hlarge
  · omega
  · omega
  · omega
  · have hmany := h.sound.count_of_oversized hlarge
    unfold uint32Max at hmany
    omega

/-- **The constructor** on an empty directory gives the empty map. -/
theorem create_refines (h : create options OrderedMap.empty {} [] = .ok store) :
    Refines store {} ∧ Within 0 store ∧
      store.automaticCompactionEnabled = options.enableAutomaticCompaction := by
  obtain ⟨manager, hmanager, h⟩ := bind_eq_ok.mp h
  obtain ⟨memtables, hmemtables, h⟩ := bind_eq_ok.mp h
  obtain rfl := Except.ok.inj h
  obtain ⟨hfresh, hgood⟩ := SSTableManager.create_fresh hmanager
  have hordered := MemTableSet.create_ordered hmemtables
  unfold MemTableSet.create at hmemtables
  split_ifs at hmemtables
  obtain rfl := Except.ok.inj hmemtables
  have hpaced : MemTableSet.Paced
      { maxMemoryBytes := options.memtableMaxBytes, active := { generation := manager.nextGeneration },
        nextGeneration := (manager.nextGeneration + 1) % u64,
        lastSequenceNumber := manager.maxSequenceNumber } := by
    rw [hfresh.maxSequenceNumber, hfresh.nextGeneration]
    exact ⟨show 0 < u64 by decide, le_rfl, fun hne => absurd rfl hne, fun _ ht => by cases ht⟩
  have hfew : manager.readers.length ≤ kMaximumManifestTables := by
    rw [hfresh.readers]
    exact Nat.zero_le _
  have hsound : Sound ⟨manager, _, manager.liveKeyCount, [], options.enableAutomaticCompaction⟩ :=
    ⟨hordered, hpaced, hgood, fun record hrec => absurd hrec (hfresh.not_stored record),
      fun record hrec => absurd hrec (hfresh.not_stored record), hfew⟩
  refine ⟨⟨hsound, fun key => ?_, hfresh.liveKeyCount, hfresh.maxSequenceNumber, le_rfl⟩,
    ⟨hsound, ?_, ?_, ?_, ?_, ?_⟩, rfl⟩
  · unfold value? entryFor
    dsimp only
    rw [hfresh.readers]
    rfl
  · unfold idCost SSTableManager.levelTableCount
    dsimp only
    rw [hfresh.readers, hfresh.nextFileId]
    rfl
  · unfold commitCost SSTableManager.levelTableCount
    dsimp only
    rw [hfresh.readers, hfresh.generation]
    rfl
  · unfold tableTotal
    dsimp only
    rw [hfresh.readers]
    rfl
  · unfold entryTotal
    dsimp only
    rw [hfresh.readers]
    rfl
  · exact hfresh.maxSequenceNumber.le

/-- A whole run, by induction on its calls. -/
theorem Refines.performAll (h : create options OrderedMap.empty {} [] = .ok store)
    (calls : List Call) :
    Refines (store.performAll calls) (applyAll calls) ∧
      Within calls.length (store.performAll calls) := by
  induction calls using List.reverseRecOn with
  | nil =>
    obtain ⟨hrefines, hwithin, -⟩ := create_refines h
    exact ⟨hrefines, hwithin⟩
  | append_singleton calls call ih =>
    have hafter := ih.1.perform call
    unfold PersistentKeyValueStore.performAll applyAll at ih hafter ⊢
    rw [List.foldl_append, List.foldl_append, List.length_append]
    exact ⟨hafter.refines, ih.2.after hafter.refines.sound hafter.spends⟩

/-- **The store is a map.** After any calls, `get`, `exists` and `size` are those of the plain map, and
`remove` returns whether the key is there. A call with valid arguments throws only where it leaves the
store at a limit, and there are at least 2^19 calls before that. -/
theorem store_is_map {options : PersistentStoreOptions}
    (h : create options OrderedMap.empty {} [] = .ok store) (calls : List Call) :
    (∀ key, ValidKey key →
      (get key (store.performAll calls)).1 = .ok ((applyAll calls).map.find? key) ∧
      (existsKey key (store.performAll calls)).1 = .ok ((applyAll calls).map.find? key).isSome ∧
      ((remove key (store.performAll calls)).1 = .ok ((applyAll calls).map.find? key).isSome ∨
        (store.performAll (calls ++ [.remove key])).AtLimit) ∧
      ∀ value, ValidValue value → (put key value (store.performAll calls)).1 = .ok () ∨
        (store.performAll (calls ++ [.put key value])).AtLimit) ∧
    (store.performAll calls).size = (applyAll calls).map.size ∧
    ((checkpoint (store.performAll calls)).1 = .ok () ∨
      (store.performAll (calls ++ [.checkpoint])).AtLimit) ∧
    ((∃ result, (compact (store.performAll calls)).1 = .ok result) ∨
      (store.performAll (calls ++ [.compact])).AtLimit) ∧
    ((store.performAll calls).AtLimit → 2 ^ 19 ≤ calls.length) := by
  obtain ⟨hrefines, hwithin⟩ := Refines.performAll h calls
  have hlast : ∀ call : Call, store.performAll (calls ++ [call]) =
      call.perform (store.performAll calls) := fun call => List.foldl_append
  refine ⟨fun key hkey => ⟨?_, ?_, ?_, fun value hvalue => ?_⟩, hrefines.count, ?_, ?_,
    hwithin.calls_of_atLimit⟩
  · obtain ⟨s, hget, -⟩ := hrefines.get_eq hkey
    rw [hget]
  · obtain ⟨s, hexists, -⟩ := hrefines.existsKey_eq hkey
    rw [hexists]
  · rw [hlast]
    refine (hrefines.remove_done hkey).returns.imp_left ?_
    rintro ⟨removed, hremoved, rfl, -⟩
    exact hremoved
  · rw [hlast]
    refine (hrefines.put_done hkey hvalue).returns.imp_left ?_
    rintro ⟨_, hput, -⟩
    exact hput
  · rw [hlast]
    refine hrefines.checkpoint_done.returns.imp_left ?_
    rintro ⟨_, hcheckpoint, -⟩
    exact hcheckpoint
  · rw [hlast]
    refine hrefines.compact_done.returns.imp_left ?_
    rintro ⟨result, hcompact, -⟩
    exact ⟨result, hcompact⟩

/-- Options that the constructors accept, without automatic compaction. -/
def manualOptions : PersistentStoreOptions :=
  { sstables := { bloomSizing := .oneBit }
    enableAutomaticCompaction := false }

theorem store_is_map_manual :
    ∃ store, create manualOptions OrderedMap.empty {} [] = .ok store ∧
      (get [1] (store.performAll [.put [1] [7], .checkpoint, .remove [1], .put [1] [8]])).1 =
        .ok (some [8]) := by
  obtain ⟨store, hcreate⟩ : ∃ store, create manualOptions OrderedMap.empty {} [] = .ok store :=
    ⟨_, rfl⟩
  refine ⟨store, hcreate, ?_⟩
  obtain ⟨hkeys, -⟩ := store_is_map hcreate [.put [1] [7], .checkpoint, .remove [1], .put [1] [8]]
  exact (hkeys [1] (by decide)).1

/-! ## A full manifest -/

theorem Refines.put_grows (h : Refines store reference) (hkey : ValidKey key)
    (hvalue : ValidValue value) (hroom : reference.writes < u64 - 1) :
    Grows (store.tableTotal + 1) store (put key value store).2 := by
  obtain ⟨s, hput, hrefines, hspends, hgrows⟩ := h.put_eq hkey hvalue hroom
  have houtcome := hrefines.settle_outcome hspends
  rw [hput]
  rcases hrun : settle s with ⟨result, s'⟩
  rw [hrun] at houtcome
  cases result with
  | ok u => exact houtcome.2.settles.grows houtcome.2.total hgrows
  | error e => exact houtcome.2.settles.grows houtcome.2.total hgrows

theorem Refines.checkpoint_total (h : Refines store reference)
    (hautomatic : store.automaticCompactionEnabled = false) :
    (checkpoint store).2.automaticCompactionEnabled = false ∧
      (checkpoint store).2.tableTotal = store.laden := by
  have houtcome := h.checkpoint_outcome
  rw [← tableTotal_rotateActive]
  rcases hrun : checkpoint store with ⟨result, s⟩
  rw [hrun] at houtcome
  cases result with
  | ok u => exact ⟨houtcome.2.settles.automatic.trans hautomatic, houtcome.2.total hautomatic⟩
  | error e => exact ⟨houtcome.2.settles.automatic.trans hautomatic, houtcome.2.total hautomatic⟩

/-- A key is put and checkpointed, again and again. -/
def fill : Nat → List Call
  | 0 => []
  | n + 1 => fill n ++ [.put [1] [7], .checkpoint]

theorem length_fill (n : Nat) : (fill n).length = 2 * n := by
  induction n with
  | zero => rfl
  | succ n ih =>
    unfold fill
    rw [List.length_append, ih]
    rfl

section

variable (h : create manualOptions OrderedMap.empty {} [] = .ok store)
include h

theorem writes_fill (hn : n < 2 ^ 32) : (applyAll (fill n)).writes < u64 - 1 := by
  obtain ⟨hrefines, hwithin⟩ := Refines.performAll h (fill n)
  have hlast := hwithin.last
  rw [hrefines.writes, length_fill] at hlast
  unfold u64
  omega

/-- Every round leaves a table, on disk or waiting for it. -/
theorem performAll_fill (hn : n < 2 ^ 32) :
    (store.performAll (fill n)).automaticCompactionEnabled = false ∧
      n ≤ (store.performAll (fill n)).tableTotal := by
  induction n with
  | zero =>
    obtain ⟨-, -, hautomatic⟩ := create_refines h
    exact ⟨hautomatic, Nat.zero_le _⟩
  | succ n ih =>
    obtain ⟨hautomatic, htotal⟩ := ih (by omega)
    obtain ⟨hrefines, -⟩ := Refines.performAll h (fill n)
    have hput := (hrefines.perform (.put [1] [7])).refines
    obtain ⟨hautomatic', hladen⟩ := hrefines.put_grows (show ValidKey [1] by decide)
      (show ValidValue [7] by decide) (writes_fill h (by omega)) hautomatic
    obtain ⟨hautomatic'', htotal'⟩ := hput.checkpoint_total hautomatic'
    have hstep : store.performAll (fill (n + 1)) =
        (checkpoint (put [1] [7] (store.performAll (fill n))).2).2 := by
      show List.foldl Call.perform store (fill n ++ [.put [1] [7], .checkpoint]) = _
      rw [List.foldl_append]
      rfl
    rw [hstep]
    refine ⟨hautomatic'', ?_⟩
    have htotal'' : (checkpoint (put [1] [7] (store.performAll (fill n))).2).2.tableTotal =
        (put [1] [7] (store.performAll (fill n))).2.laden := htotal'
    omega

theorem find_fill (hn : n < 2 ^ 32) : (applyAll (fill (n + 1))).map.find? [1] = some [7] := by
  have hput : (applyAll (fill n)).put [1] [7] =
      ⟨(applyAll (fill n)).map.insert [1] [7], (applyAll (fill n)).writes + 1⟩ :=
    if_pos ⟨by decide, by decide, writes_fill h hn⟩
  have hstep : applyAll (fill (n + 1)) = (applyAll (fill n)).put [1] [7] := by
    show List.foldl Call.apply {} (fill n ++ [.put [1] [7], .checkpoint]) = _
    rw [List.foldl_append]
    rfl
  rw [hstep, hput, OrderedMap.find?_insert, if_pos rfl]

end

/-- **A full manifest.** After 2^20 + 1 checkpoints without a compaction, `remove` of a key that is there
does not return. -/
theorem full_manifest_remove_throws :
    ∃ store, create manualOptions OrderedMap.empty {} [] = .ok store ∧
      (applyAll (fill (kMaximumManifestTables + 1))).map.find? [1] = some [7] ∧
      ∀ removed,
        (remove [1] (store.performAll (fill (kMaximumManifestTables + 1)))).1 ≠ .ok removed := by
  obtain ⟨store, hcreate⟩ : ∃ store, create manualOptions OrderedMap.empty {} [] = .ok store :=
    ⟨_, rfl⟩
  have hsmall : kMaximumManifestTables + 1 < 2 ^ 32 := by decide
  have hfind : (applyAll (fill (kMaximumManifestTables + 1))).map.find? [1] = some [7] :=
    find_fill hcreate (by omega)
  refine ⟨store, hcreate, hfind, fun removed hremoved => ?_⟩
  obtain ⟨hautomatic, htotal⟩ := performAll_fill hcreate hsmall
  obtain ⟨hrefines, -⟩ := Refines.performAll hcreate (fill (kMaximumManifestTables + 1))
  obtain ⟨s, hremove, hrefines', hspends, hgrows⟩ := hrefines.remove_eq (show ValidKey [1] by decide)
    (by rw [hfind]; rfl) (by rw [Nat.add_zero]; exact writes_fill hcreate hsmall)
  obtain ⟨hautomatic', hladen⟩ := hgrows hautomatic
  have houtcome := hrefines'.settle_outcome hspends
  rw [hremove, bind_apply] at hremoved
  rcases hrun : settle s with ⟨result, s'⟩
  rw [hrun] at houtcome hremoved
  cases result with
  | error e => cases hremoved
  | ok u =>
    -- all tables would be on disk, more than the manifest takes
    obtain ⟨hafter, hsettled⟩ := houtcome
    have hfew := hafter.refines.sound.few
    have hall := hsettled.total hautomatic'
    have hs : s.laden ≤ s.tableTotal + 1 := by
      unfold laden
      split_ifs <;> omega
    have hdisk : s'.tableTotal = s'.sstables.readers.length := by
      unfold tableTotal
      rw [hsettled.flushed]
      rfl
    omega

end PersistentKeyValueStore

end NebulaKV.Lsm
