/-
# Memtables

`memtable.cpp` and `memtable_set.cpp`: a memtable is an ordered map of entries that is frozen once it
is full; the set holds the active one and, newest first, the frozen ones that wait to be written to
disk. Every write takes the next sequence number, and a lookup stops at the FIRST table that has the
key.

No function here has changed anything when it throws, so each returns its new state in an `Except`.
`std::size_t` and `std::uint64_t` counters wrap around.
-/
import NebulaKV.Containers.OrderedMap
import NebulaKV.Core.Validation

namespace NebulaKV.Lsm

open Containers

structure Entry where
  value : Bytes
  sequenceNumber : Nat
  deleted : Bool
  deriving DecidableEq

/-- The value of an entry that is not a tombstone. -/
def Entry.live (entry : Entry) : Option Bytes := if entry.deleted then none else some entry.value

/-- `MemTable::Snapshot`: keys with their entries, in key order. -/
abbrev Snapshot := List (Bytes × Entry)

structure MemTable where
  generation : Nat
  entries : OrderedMap Bytes Entry := OrderedMap.empty
  approximateMemoryUsage : Nat := 0
  immutable : Bool := false
  deriving DecidableEq

inductive LookupState where
  | Value
  | Tombstone
  deriving DecidableEq

namespace MemTable

def kTreeNodeOverhead : Nat := 8 * 4

/-- `sizeof(Storage::value_type)`: a key string, a value string, a sequence number and a flag. -/
def sizeofValueType : Nat := 80

def estimatedEntrySize (key : Bytes) (entry : Entry) : Nat :=
  sizeofValueType + kTreeNodeOverhead + key.length + entry.value.length

def ensureMutable (table : MemTable) : Except Error Unit :=
  if table.immutable then .error (.logicError "cannot modify an immutable MemTable") else .ok ()

/-- The table with an entry stored under a key. -/
def store (table : MemTable) (key : Bytes) (entry : Entry) (usage : Nat) : MemTable :=
  { table with
    entries := table.entries.insert key entry
    approximateMemoryUsage := (usage + estimatedEntrySize key entry) % u64 }

def insertOrAssign (table : MemTable) (key : Bytes) (entry : Entry) : Except Error MemTable := do
  table.ensureMutable
  match table.entries.find? key with
  | some existing =>
    if entry.sequenceNumber ≤ existing.sequenceNumber then
      .error (.invalidArgument "MemTable updates require a newer sequence number")
    else
      .ok (table.store key entry
        (u64Sub table.approximateMemoryUsage (estimatedEntrySize key existing)))
  | none => .ok (table.store key entry table.approximateMemoryUsage)

def checkSequenceNumber (sequenceNumber : Nat) : Except Error Unit :=
  if sequenceNumber = 0 then
    .error (.invalidArgument "MemTable sequence numbers must be greater than zero")
  else .ok ()

def put (table : MemTable) (key value : Bytes) (sequenceNumber : Nat) : Except Error MemTable := do
  validateKey key
  validateValue value
  checkSequenceNumber sequenceNumber
  table.insertOrAssign key ⟨value, sequenceNumber, false⟩

def addTombstone (table : MemTable) (key : Bytes) (sequenceNumber : Nat) :
    Except Error MemTable := do
  validateKey key
  checkSequenceNumber sequenceNumber
  table.insertOrAssign key ⟨[], sequenceNumber, true⟩

def getEntry (table : MemTable) (key : Bytes) : Except Error (Option Entry) := do
  validateKey key
  return table.entries.find? key

def lookupState (table : MemTable) (key : Bytes) : Except Error (Option LookupState) := do
  validateKey key
  return (table.entries.find? key).map fun entry =>
    if entry.deleted then LookupState.Tombstone else LookupState.Value

def snapshot (table : MemTable) : Snapshot := table.entries.entries

def freeze (table : MemTable) : MemTable := { table with immutable := true }

def empty (table : MemTable) : Bool := table.entries.entries.isEmpty

def entryCount (table : MemTable) : Nat := table.entries.size

end MemTable

/-! ## The set of memtables -/

structure MemTableOptions where
  maxMemoryBytes : Nat
  initialSequenceNumber : Nat
  initialGeneration : Nat

structure MemTableSet where
  maxMemoryBytes : Nat
  active : MemTable
  /-- The frozen tables, newest first. -/
  immutableTables : List MemTable := []
  nextGeneration : Nat
  liveKeyCount : Nat := 0
  lastSequenceNumber : Nat
  deriving DecidableEq

namespace MemTableSet

def create (options : MemTableOptions) : Except Error MemTableSet :=
  if options.maxMemoryBytes = 0 then
    .error (.invalidArgument "MemTable memory limit must be greater than zero")
  else
    .ok
      { maxMemoryBytes := options.maxMemoryBytes
        active := { generation := options.initialGeneration }
        nextGeneration := (options.initialGeneration + 1) % u64
        lastSequenceNumber := options.initialSequenceNumber }

/-- The first table that has something to say. -/
def firstHit {α : Type} (look : MemTable → Except Error (Option α)) :
    List MemTable → Except Error (Option α)
  | [] => .ok none
  | table :: rest => do
    match ← look table with
    | some found => return some found
    | none => firstHit look rest

def tables (set : MemTableSet) : List MemTable := set.active :: set.immutableTables

def latestEntryWithoutValidation (set : MemTableSet) (key : Bytes) : Except Error (Option Entry) :=
  firstHit (·.getEntry key) set.tables

def latestStateWithoutValidation (set : MemTableSet) (key : Bytes) :
    Except Error (Option LookupState) :=
  firstHit (·.lookupState key) set.tables

def latestEntry (set : MemTableSet) (key : Bytes) : Except Error (Option Entry) := do
  validateKey key
  set.latestEntryWithoutValidation key

/-- `exists`, which is a keyword. -/
def existsKey (set : MemTableSet) (key : Bytes) : Except Error Bool := do
  validateKey key
  let state ← set.latestStateWithoutValidation key
  return state = some .Value

def size (set : MemTableSet) : Nat := set.liveKeyCount

def nextSequenceNumber (set : MemTableSet) : Except Error Nat :=
  if set.lastSequenceNumber = u64 - 1 then
    .error (.overflowError "MemTable sequence number space is exhausted")
  else .ok (set.lastSequenceNumber + 1)

/-- Freeze the active table and start the next one. -/
def rotate (set : MemTableSet) : MemTableSet :=
  { set with
    immutableTables := set.active.freeze :: set.immutableTables
    active := { generation := set.nextGeneration }
    nextGeneration := (set.nextGeneration + 1) % u64 }

def rotateIfRequired (set : MemTableSet) : MemTableSet :=
  if set.active.approximateMemoryUsage < set.maxMemoryBytes then set
  else if set.active.empty then set
  else set.rotate

def rotateActive (set : MemTableSet) : Option MemTable × MemTableSet :=
  if set.active.empty then (none, set) else (some set.active.freeze, set.rotate)

/-- The end of a write: the active table with its new entry, the count, the sequence number. -/
def wrote (set : MemTableSet) (active : MemTable) (liveKeyCount sequenceNumber : Nat) :
    MemTableSet :=
  rotateIfRequired
    { set with
      active := active
      liveKeyCount := liveKeyCount
      lastSequenceNumber := sequenceNumber }

def put (set : MemTableSet) (key value : Bytes) : Except Error MemTableSet := do
  validateKey key
  validateValue value
  let previousState ← set.latestStateWithoutValidation key
  let sequenceNumber ← set.nextSequenceNumber
  let table ← set.active.put key value sequenceNumber
  return set.wrote table
    (if previousState = some .Value then set.liveKeyCount else (set.liveKeyCount + 1) % u64)
    sequenceNumber

def remove (set : MemTableSet) (key : Bytes) : Except Error (Bool × MemTableSet) := do
  validateKey key
  let previousState ← set.latestStateWithoutValidation key
  if previousState ≠ some .Value then return (false, set)
  else do
    let sequenceNumber ← set.nextSequenceNumber
    let table ← set.active.addTombstone key sequenceNumber
    return (true, set.wrote table (u64Sub set.liveKeyCount 1) sequenceNumber)

def addTombstone (set : MemTableSet) (key : Bytes) : Except Error MemTableSet := do
  validateKey key
  let previousState ← set.latestStateWithoutValidation key
  let sequenceNumber ← set.nextSequenceNumber
  let table ← set.active.addTombstone key sequenceNumber
  return set.wrote table
    (if previousState = some .Value then u64Sub set.liveKeyCount 1 else set.liveKeyCount)
    sequenceNumber

/-- Forget a frozen table, `false` if there is none of that generation. -/
def discardImmutable (set : MemTableSet) (generation : Nat) : Bool × MemTableSet :=
  if set.immutableTables.any (·.generation = generation) then
    (true,
      { set with
        immutableTables := set.immutableTables.eraseP (·.generation = generation) })
  else (false, set)

end MemTableSet

end NebulaKV.Lsm
