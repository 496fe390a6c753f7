/-
# The SSTable manager

`sstable_manager.cpp` with the manifest of `manifest.cpp`: the tables on disk, on two levels. A flush
writes a frozen memtable as a Level-0 table; a compaction merges Level-0 tables with every Level-1
table whose keys overlap theirs into one Level-1 table. Either way the new list of tables is
PUBLISHED: committed to the manifest, and only then put in place of the old one.

Tables are read through the shared block cache, so even a lookup changes the manager: it is a program
over the cache, run inside the manager with `withCache`. The compaction statistics are read by
nothing and are not here.
-/
import NebulaKV.Lsm.SSTable
import Mathlib.Data.List.Sort

namespace NebulaKV.Lsm

open Containers Effects

/-! ## The manifest -/

structure ManifestSnapshot where
  generation : Nat
  nextFileId : Nat
  tables : List SSTableMetadata
  deriving DecidableEq

/-- The manifest manager, with its files: the manifests by generation, and the one `CURRENT` names. -/
structure ManifestManager where
  currentGeneration : Nat := 0
  manifests : OrderedMap Nat ManifestSnapshot := OrderedMap.empty
  current : Option Nat := none
  deriving DecidableEq

def kMaximumManifestTables : Nat := 1048576

def kMaximumFilenameBytes : Nat := 4096

def kMaximumMetadataFileBytes : Nat := 64 * 1024 * 1024

/-- The size of the file that `serialize_manifest` makes. -/
def encodedManifestSize (snapshot : ManifestSnapshot) : Nat :=
  40 + (snapshot.tables.map fun table =>
    52 + table.path.length + table.smallestKey.length + table.largestKey.length).sum

/-- `parse_manifest` refuses this, `serialize_manifest` does not. -/
def invalidMetadata (table : SSTableMetadata) : Bool :=
  table.entryCount = 0 || table.blockCount = 0 || table.minSequenceNumber = 0 ||
    table.minSequenceNumber > table.maxSequenceNumber

namespace ManifestManager

/-- The loop of `serialize_manifest`. -/
def checkTables (filenames : List Bytes) : List SSTableMetadata → Except Error Unit
  | [] => .ok ()
  | table :: rest =>
    if table.path = [] ∨ table.path.length > kMaximumFilenameBytes then
      .error (.invalidArgument "manifest SSTable path must be a filename")
    else if table.path ∈ filenames then
      .error (.invalidArgument "manifest contains duplicate SSTable filenames")
    else if table.smallestKey = [] ∨ table.largestKey = [] ∨
        table.smallestKey > table.largestKey then
      .error (.invalidArgument "manifest contains an invalid SSTable key range")
    else checkTables (table.path :: filenames) rest

def checkManifest (snapshot : ManifestSnapshot) : Except Error Unit :=
  if snapshot.generation = 0 ∨ snapshot.nextFileId = 0 then
    .error (.invalidArgument "manifest counters must be non-zero")
  else if snapshot.tables.length > kMaximumManifestTables then
    .error (.lengthError "manifest contains too many SSTables")
  else checkTables [] snapshot.tables

def commit (manager : ManifestManager) (tables : List SSTableMetadata) (nextFileId : Nat) :
    Except Error ManifestManager := do
  refuse (manager.currentGeneration = u64 - 1)
    (.overflowError "manifest generation space is exhausted")
  checkManifest ⟨manager.currentGeneration + 1, nextFileId, tables⟩
  .ok
    { currentGeneration := manager.currentGeneration + 1
      manifests := manager.manifests.insert (manager.currentGeneration + 1)
        ⟨manager.currentGeneration + 1, nextFileId, tables⟩
      current := some (manager.currentGeneration + 1) }

/-- The manager that has loaded a generation. -/
def opened (manager : ManifestManager) (generation : Nat) : ManifestManager :=
  { manager with currentGeneration := generation }

/-- `load`; `present` are the files that exist. What `parse_manifest` refuses, beyond what
`serialize_manifest` does, is checked behind the size of the file. -/
def load (present : Bytes → Bool) : Program ManifestManager Error (Option ManifestSnapshot) := do
  let manager ← Program.read
  match manager.current with
  | none =>
    if manager.manifests.entries ≠ [] then
      Program.raise (.runtimeError "CURRENT is missing while versioned manifests are present")
    else return none
  | some generation =>
    match manager.manifests.find? generation with
    | none => Program.raise (.runtimeError "CURRENT references a missing manifest")
    | some snapshot =>
      if encodedManifestSize snapshot > kMaximumMetadataFileBytes then
        Program.raise (.runtimeError "metadata file exceeds the supported size limit")
      else if snapshot.tables.any invalidMetadata then
        Program.raise (.runtimeError "manifest contains invalid SSTable metadata")
      else if snapshot.generation ≠ generation then
        Program.raise (.runtimeError "manifest filename does not match its generation")
      else if snapshot.tables.any fun table => !present table.path then
        Program.raise (.runtimeError "manifest references a missing SSTable")
      else do
        Program.update fun manager => manager.opened generation
        return some snapshot

end ManifestManager

/-! ## Tables -/

structure ManagedTable where
  reader : SSTableReader
  level : SSTableLevel
  deriving DecidableEq

namespace ManagedTable

def metadata (table : ManagedTable) : SSTableMetadata :=
  { table.reader.metadata with level := table.level }

def path (table : ManagedTable) : Bytes := table.reader.path

end ManagedTable

def ascii (text : String) : Bytes := text.toList.map fun c => UInt8.ofNat c.toNat

/-- `std::setw(width) << std::setfill('0')`, for a number of at most that many digits. -/
def padded : Nat → Nat → Bytes
  | 0, _ => []
  | width + 1, n => padded width (n / 10) ++ [UInt8.ofNat (48 + n % 10)]

def levelName : SSTableLevel → Bytes
  | .Level0 => ascii "L0"
  | .Level1 => ascii "L1"

def tablePath (level : SSTableLevel) (fileId generation maxSequence : Nat) : Bytes :=
  ascii "sstable-" ++ levelName level ++ ascii "-f" ++ padded 20 fileId ++ ascii "-g" ++
    padded 20 generation ++ ascii "-s" ++ padded 20 maxSequence ++ ascii ".sst"

/-- The order of `sort_tables`: newest first. -/
def sortsBefore (lhs rhs : SSTableMetadata) : Prop :=
  if lhs.maxSequenceNumber ≠ rhs.maxSequenceNumber then
    lhs.maxSequenceNumber > rhs.maxSequenceNumber
  else if lhs.generation ≠ rhs.generation then lhs.generation > rhs.generation
  else lhs.path > rhs.path

instance decidableSortsBefore (lhs rhs : SSTableMetadata) : Decidable (sortsBefore lhs rhs) := by
  unfold sortsBefore
  infer_instance

def sortTables (tables : List ManagedTable) : List ManagedTable :=
  tables.insertionSort fun left right => ¬ sortsBefore right.metadata left.metadata

/-- Neighbours, in the order of their smallest keys, do not touch. -/
def checkDisjoint : List SSTableMetadata → Except Error Unit
  | left :: right :: rest =>
    if left.largestKey ≥ right.smallestKey then
      .error (.logicError "Level-1 SSTable ranges must not overlap")
    else checkDisjoint (right :: rest)
  | _ => .ok ()

def validateLevel1Ranges (tables : List ManagedTable) : Except Error Unit :=
  checkDisjoint
    (((tables.filter (·.level = .Level1)).map ManagedTable.metadata).insertionSort
      fun left right => ¬ right.smallestKey < left.smallestKey)

def rangesOverlap (leftSmallest leftLargest rightSmallest rightLargest : Bytes) : Prop :=
  leftSmallest ≤ rightLargest ∧ rightSmallest ≤ leftLargest

instance decidableRangesOverlap (a b c d : Bytes) : Decidable (rangesOverlap a b c d) :=
  inferInstanceAs (Decidable (_ ∧ _))

/-! ## Reading tables -/

/-- `candidate && (!newest || candidate->sequence_number > newest->sequence_number)`. -/
def takeNewer (newest candidate : Option Entry) : Option Entry :=
  match candidate with
  | none => newest
  | some entry =>
    if newest.all fun best => entry.sequenceNumber > best.sequenceNumber then some entry
    else newest

def newestEntryFromTables (tables : List ManagedTable) (key : Bytes) :
    Program BlockCache Error (Option Entry) :=
  Program.foldOver (fun newest table =>
    if outside key table.reader.metadata then return newest
    else do
      let candidate ← table.reader.get key
      return takeNewer newest candidate) none tables

def liveCountAfterFlush (current : List ManagedTable) (incoming : Snapshot) (liveCount : Nat) :
    Program BlockCache Error Nat :=
  Program.foldOver (fun liveCount record => do
    let previous ← newestEntryFromTables current record.1
    if previous.any fun entry => entry.sequenceNumber ≥ record.2.sequenceNumber then
      return liveCount
    else if !(previous.any fun entry => !entry.deleted) && !record.2.deleted then
      return (liveCount + 1) % u64
    else if (previous.any fun entry => !entry.deleted) && record.2.deleted then
      return u64Sub liveCount 1
    else return liveCount) liveCount incoming

/-- Keep, of what is there and of the records, the entry with the higher sequence number. -/
def mergeRecords (merged : OrderedMap Bytes Entry) (records : Snapshot) : OrderedMap Bytes Entry :=
  records.foldl (fun merged record =>
    match merged.find? record.1 with
    | none => merged.insert record.1 record.2
    | some existing =>
      if record.2.sequenceNumber > existing.sequenceNumber then merged.insert record.1 record.2
      else merged) merged

def mergeTables (tables : List ManagedTable) : Program BlockCache Error (OrderedMap Bytes Entry) :=
  Program.foldOver (fun merged table => do
    let records ← table.reader.readAll
    return mergeRecords merged records) OrderedMap.empty tables

def computeLiveKeyCount (tables : List ManagedTable) : Program BlockCache Error Nat := do
  let latest ← mergeTables tables
  return (latest.entries.filter fun record => !record.2.deleted).length

/-! ## The manager -/

structure SSTableManagerOptions where
  targetDataBlockBytes : Nat := 32 * 1024
  blockCacheCapacityBytes : Nat := 64 * 1024 * 1024
  bloomSizing : BloomSizing
  level0CompactionTrigger : Nat := 4
  level0CompactionMaxTables : Nat := 4

structure SSTableManager where
  options : SSTableManagerOptions
  blockCache : BlockCache
  manifest : ManifestManager
  /-- The `.sst` files of the directory. -/
  files : OrderedMap Bytes SSTableFile
  readers : List ManagedTable := []
  liveKeyCount : Nat := 0
  maxSequenceNumber : Nat := 0
  nextGeneration : Nat := 0
  nextFileId : Nat := 1
  /-- The number of publications. -/
  stateVersion : Nat := 0

namespace SSTableManager

def withCache {α : Type} (m : Program BlockCache Error α) : Program SSTableManager Error α :=
  Program.zoom SSTableManager.blockCache (fun cache manager => { manager with blockCache := cache }) m

def levelTableCount (manager : SSTableManager) (level : SSTableLevel) : Nat :=
  manager.readers.countP (·.level = level)

def needsCompaction (manager : SSTableManager) : Bool :=
  manager.levelTableCount .Level0 ≥ manager.options.level0CompactionTrigger

def get (key : Bytes) : Program SSTableManager Error (Option Entry) := do
  Program.check (validateKey key)
  let manager ← Program.read
  withCache (newestEntryFromTables manager.readers key)

def reserveFileId : Program SSTableManager Error Nat := do
  let manager ← Program.read
  if manager.nextFileId = u64 - 1 then
    Program.raise (.overflowError "SSTable file identifier space is exhausted")
  else do
    Program.update fun manager => { manager with nextFileId := manager.nextFileId + 1 }
    return manager.nextFileId

def maxSequence (tables : List ManagedTable) : Nat :=
  tables.foldl (fun acc table => max acc table.reader.metadata.maxSequenceNumber) 0

def maxGeneration (tables : List ManagedTable) : Nat :=
  tables.foldl (fun acc table => max acc table.reader.metadata.generation) 0

/-- The generation behind those of all tables. -/
def generationAfter (tables : List ManagedTable) : Except Error Nat :=
  if tables = [] then .ok 0
  else if maxGeneration tables = u64 - 1 then
    .error (.overflowError "SSTable generation space is exhausted")
  else .ok (maxGeneration tables + 1)

/-- The manager after a commit. -/
def published (manager : SSTableManager) (tables : List ManagedTable)
    (liveKeyCount nextGeneration : Nat) (manifest : ManifestManager) : SSTableManager :=
  { manager with
    readers := tables
    liveKeyCount := liveKeyCount
    maxSequenceNumber := maxSequence tables
    nextGeneration := nextGeneration
    manifest := manifest
    stateVersion := (manager.stateVersion + 1) % u64
    blockCache := manager.blockCache.clear }

/-- The tables are sorted already. -/
def publishSorted (tables : List ManagedTable) (liveKeyCount : Nat) :
    Program SSTableManager Error Unit := do
  Program.check (validateLevel1Ranges tables)
  let nextGeneration ← Program.check (generationAfter tables)
  let manager ← Program.read
  let manifest ← Program.check
    (manager.manifest.commit (tables.map ManagedTable.metadata) manager.nextFileId)
  Program.update fun manager => manager.published tables liveKeyCount nextGeneration manifest

def publishTables (tables : List ManagedTable) (liveKeyCount : Nat) :
    Program SSTableManager Error Unit :=
  publishSorted (sortTables tables) liveKeyCount

/-! ## Writing a table -/

/-- A table that has just been written. -/
structure Written where
  fileId : Nat
  metadata : SSTableMetadata
  table : ManagedTable

def snapshotMaxSequence (snapshot : Snapshot) : Nat :=
  snapshot.foldl (fun acc record => max acc record.2.sequenceNumber) 0

def writeFile (path : Bytes) (generation : Nat) (snapshot : Snapshot) :
    Program SSTableManager Error (SSTableFile × SSTableMetadata) := do
  let manager ← Program.read
  let written ← Program.check
    (SSTableWriter.write snapshot ⟨path, manager.options.targetDataBlockBytes, generation⟩)
  Program.update fun manager => { manager with files := manager.files.insert path written.1 }
  return written

/-- What `flush` and `compact_level0` do alike: reserve an id, write the file, open it with a Bloom
filter of its keys. -/
def writeTable (level : SSTableLevel) (generation : Nat) (snapshot : Snapshot) :
    Program SSTableManager Error Written := do
  let fileId ← reserveFileId
  let written ← writeFile
    (tablePath level fileId generation (snapshotMaxSequence snapshot)) generation snapshot
  let manager ← Program.read
  let filter ← Program.check
    (BloomFilter.build manager.options.bloomSizing (snapshot.map Prod.fst))
  let reader ← Program.check (SSTableReader.openFile written.2.path written.1 (some filter))
  return ⟨fileId, { written.2 with level := level }, ⟨reader, level⟩⟩

/-- One round of the loop in `flush`: copy the tables, count the live keys over the copy, and publish
unless another publication has come in between; then the answer is `false` and the loop goes on. -/
def flushRound (table : MemTable) (written : Written) : Program SSTableManager Error Bool := do
  let copy ← Program.read
  let newLiveCount ← withCache
    (liveCountAfterFlush copy.readers table.snapshot copy.liveKeyCount)
  let manager ← Program.read
  if manager.stateVersion ≠ copy.stateVersion then return false
  else do
    publishTables (copy.readers ++ [written.table]) newLiveCount
    return true

/-- Under the store's write lock nothing comes in between, and the first round publishes (`flush_eq`);
`Traffic` has rounds next to other threads. -/
def flush (table : MemTable) : Program SSTableManager Error SSTableMetadata := do
  if !table.immutable then
    Program.raise (.invalidArgument "only immutable MemTables can be flushed to SSTables")
  else if table.snapshot = [] then
    Program.raise (.invalidArgument "cannot flush an empty MemTable")
  else do
    let written ← writeTable .Level0 table.generation table.snapshot
    let _ ← flushRound table written
    return written.metadata

/-! ## Compaction -/

structure CompactionSelection where
  selected : List ManagedTable := []
  unselected : List ManagedTable := []
  smallestKey : Bytes := []
  largestKey : Bytes := []

structure CompactionResult where
  performed : Bool := false
  inputTables : Nat := 0
  outputTables : Nat := 0
  inputEntries : Nat := 0
  outputEntries : Nat := 0
  tombstonesDropped : Nat := 0
  outputFileId : Nat := 0
  deriving DecidableEq

/-- The state of the loop that takes in overlapping Level-1 tables. -/
structure Selecting where
  selected : List ManagedTable
  selectedPaths : List Bytes
  smallestKey : Bytes
  largestKey : Bytes
  expanded : Bool

/-- Take in a table: its keys widen the range. -/
def Selecting.take (state : Selecting) (table : ManagedTable) : Selecting :=
  { selected := state.selected ++ [table]
    selectedPaths := table.path :: state.selectedPaths
    smallestKey := min state.smallestKey table.reader.metadata.smallestKey
    largestKey := max state.largestKey table.reader.metadata.largestKey
    expanded := true }

def Selecting.visit (state : Selecting) (table : ManagedTable) : Selecting :=
  if table.level ≠ .Level1 then state
  else if table.path ∈ state.selectedPaths then state
  else if rangesOverlap state.smallestKey state.largestKey table.reader.metadata.smallestKey
      table.reader.metadata.largestKey then state.take table
  else state

def Selecting.sweep (readers : List ManagedTable) (state : Selecting) : Selecting :=
  readers.foldl Selecting.visit { state with expanded := false }

/-- `while (expanded)`: every sweep but the last takes in a table. -/
def Selecting.expand (readers : List ManagedTable) : Nat → Selecting → Selecting
  | 0, state => state
  | sweeps + 1, state =>
    let swept := state.sweep readers
    if swept.expanded then expand readers sweeps swept else swept

/-- The order in which Level-0 tables are compacted: oldest first. -/
def compactsBefore (lhs rhs : SSTableMetadata) : Prop :=
  if lhs.maxSequenceNumber ≠ rhs.maxSequenceNumber then
    lhs.maxSequenceNumber < rhs.maxSequenceNumber
  else lhs.generation < rhs.generation

instance decidableCompactsBefore (lhs rhs : SSTableMetadata) :
    Decidable (compactsBefore lhs rhs) := by
  unfold compactsBefore
  infer_instance

/-- The range of the chosen Level-0 tables. -/
def startSelecting : List ManagedTable → Selecting
  | [] => ⟨[], [], [], [], true⟩
  | first :: rest =>
    { selected := first :: rest
      selectedPaths := (first :: rest).map ManagedTable.path
      smallestKey := rest.foldl (fun acc table => min acc table.reader.metadata.smallestKey)
        first.reader.metadata.smallestKey
      largestKey := rest.foldl (fun acc table => max acc table.reader.metadata.largestKey)
        first.reader.metadata.largestKey
      expanded := true }

def level0Tables (manager : SSTableManager) : List ManagedTable :=
  manager.readers.filter (·.level = .Level0)

/-- The Level-0 tables of one compaction. -/
def chosenLevel0 (manager : SSTableManager) (forceAll : Bool) : List ManagedTable :=
  let level0 := manager.level0Tables.insertionSort
    fun left right => ¬ compactsBefore right.reader.metadata left.reader.metadata
  level0.take
    (if forceAll then level0.length else min level0.length manager.options.level0CompactionMaxTables)

def selectLevel0Compaction (manager : SSTableManager) (forceAll : Bool) : CompactionSelection :=
  if manager.level0Tables = [] ∨
      (!forceAll ∧ manager.level0Tables.length < manager.options.level0CompactionTrigger) then {}
  else
    let state := (startSelecting (manager.chosenLevel0 forceAll)).expand manager.readers
      (manager.readers.length + 1)
    { selected := state.selected
      unselected := manager.readers.filter (·.path ∉ state.selectedPaths)
      smallestKey := state.smallestKey
      largestKey := state.largestKey }

def canDropTombstone (key : Bytes) (tombstone : Entry) :
    List ManagedTable → Program BlockCache Error Bool
  | [] => return true
  | table :: rest =>
    if outside key table.reader.metadata then canDropTombstone key tombstone rest
    else do
      let entry ← table.reader.get key
      if entry.any fun entry =>
          !entry.deleted && entry.sequenceNumber ≤ tombstone.sequenceNumber then
        return false
      else canDropTombstone key tombstone rest

/-- The merged records without the tombstones that nothing needs any more. -/
def dropTombstones (unselected : List ManagedTable) :
    Snapshot → Program BlockCache Error Snapshot
  | [] => return []
  | (key, entry) :: rest =>
    if entry.deleted then do
      let drop ← canDropTombstone key entry unselected
      let kept ← dropTombstones unselected rest
      return if drop then kept else (key, entry) :: kept
    else do
      let kept ← dropTombstones unselected rest
      return (key, entry) :: kept

/-- The Level-1 table of what is left, if anything is. -/
def writeOutput (generation : Nat) (compacted : Snapshot) :
    Program SSTableManager Error (Option Written) :=
  if compacted = [] then return none
  else do
    let written ← writeTable .Level1 generation compacted
    return some written

/-- Put the output in the place of the selected tables. -/
def publishOutput (selectedPaths : List Bytes) (output : Option Written) :
    Program SSTableManager Error Unit := do
  let manager ← Program.read
  if selectedPaths.any fun path => !(manager.readers.any (·.path = path)) then
    Program.raise (.runtimeError "compaction input changed before manifest publication")
  else
    publishTables
      (manager.readers.filter (·.path ∉ selectedPaths) ++ (output.map Written.table).toList)
      manager.liveKeyCount

def removeFiles (paths : List Bytes) (manager : SSTableManager) : SSTableManager :=
  { manager with files := paths.foldl OrderedMap.erase manager.files }

def compactSelected (selection : CompactionSelection) :
    Program SSTableManager Error CompactionResult := do
  let merged ← withCache (mergeTables selection.selected)
  let compacted ← withCache (dropTombstones selection.unselected merged.entries)
  let output ← writeOutput (maxGeneration selection.selected) compacted
  publishOutput (selection.selected.map ManagedTable.path) output
  Program.update (removeFiles (selection.selected.map ManagedTable.path))
  pure
    { performed := true
      inputTables := selection.selected.length
      outputTables := if output.isSome then 1 else 0
      inputEntries := (selection.selected.map (·.reader.metadata.entryCount)).sum
      outputEntries := compacted.length
      tombstonesDropped := merged.entries.length - compacted.length
      outputFileId := (output.map Written.fileId).getD 0 }

def compactLevel0 (forceAll : Bool) : Program SSTableManager Error CompactionResult := do
  let manager ← Program.read
  if (manager.selectLevel0Compaction forceAll).selected = [] then return {}
  else compactSelected (manager.selectLevel0Compaction forceAll)

def compactIfNeeded : Program SSTableManager Error CompactionResult := do
  let manager ← Program.read
  if manager.needsCompaction then compactLevel0 false else return {}

end SSTableManager

end NebulaKV.Lsm
