/-
# The persistent key-value store

`persistent_key_value_store.cpp`: writes go to the write-ahead log and to the memtables; full
memtables are flushed to SSTables at once, and the tables compacted when there are too many. A read
looks in the memtables first and then, for the highest sequence number, in the tables.

The log is the list of its records (`wal_format.cpp` encodes them); syncing it changes nothing that
is modelled here. One call runs at a time: the writers hold the write lock.
-/
import NebulaKV.Lsm.Manager
import NebulaKV.Lsm.WalFormat

namespace NebulaKV.Lsm

open Containers Effects

structure PersistentStoreOptions where
  memtableMaxBytes : Nat := 64 * 1024 * 1024
  sstables : SSTableManagerOptions
  enableAutomaticCompaction : Bool := true

structure PersistentKeyValueStore where
  sstables : SSTableManager
  memtables : MemTableSet
  liveKeyCount : Nat := 0
  wal : List WalRecord := []
  automaticCompactionEnabled : Bool

/-! ## Opening the tables of a directory -/

namespace SSTableManager

def validateOptions (options : SSTableManagerOptions) : Except Error Unit := do
  refuse (options.targetDataBlockBytes = 0 ∨ options.targetDataBlockBytes > uint32Max)
    (.invalidArgument "SSTable target data block size is invalid")
  refuse (options.level0CompactionTrigger < 2 ∨ options.level0CompactionMaxTables < 2 ∨
      options.level0CompactionMaxTables < options.level0CompactionTrigger)
    (.invalidArgument "Level-0 compaction limits must be at least two and max must meet trigger")

def loadManifest : Program SSTableManager Error (Option ManifestSnapshot) := do
  let manager ← Program.read
  Program.zoom SSTableManager.manifest (fun manifest manager => { manager with manifest })
    (ManifestManager.load fun path => (manager.files.find? path).isSome)

def metadataMatches (expected actual : SSTableMetadata) : Bool :=
  expected.generation = actual.generation && expected.entryCount = actual.entryCount &&
    expected.blockCount = actual.blockCount &&
    expected.minSequenceNumber = actual.minSequenceNumber &&
    expected.maxSequenceNumber = actual.maxSequenceNumber &&
    expected.smallestKey = actual.smallestKey && expected.largestKey = actual.largestKey

/-- Open a file, read all of it, and open it again with a Bloom filter of its keys. -/
def loadTable (path : Bytes) (accepts : SSTableMetadata → Bool) :
    Program SSTableManager Error SSTableReader := do
  let manager ← Program.read
  match manager.files.find? path with
  | none => Program.raise (.runtimeError "failed to open SSTable file")
  | some file => do
    let uncached ← Program.check (SSTableReader.openFile path file none)
    if !accepts uncached.metadata then
      Program.raise (.runtimeError "manifest metadata mismatch for SSTable")
    else do
      let contents ← withCache uncached.readAll
      let filter ← Program.check
        (BloomFilter.build manager.options.bloomSizing (contents.map Prod.fst))
      Program.check (SSTableReader.openFile path file (some filter))

def addReader (reader : SSTableReader) (level : SSTableLevel) (manager : SSTableManager) :
    SSTableManager :=
  { manager with readers := manager.readers ++ [⟨reader, level⟩] }

def sortReaders (manager : SSTableManager) : SSTableManager :=
  { manager with readers := sortTables manager.readers }

def loadManifestSnapshot (snapshot : ManifestSnapshot) : Program SSTableManager Error Unit := do
  Program.forEach (fun expected => do
    let reader ← loadTable expected.path (metadataMatches expected)
    Program.update (addReader reader expected.level)) snapshot.tables
  Program.update sortReaders
  let manager ← Program.read
  Program.check (validateLevel1Ranges manager.readers)
  Program.update fun manager => { manager with nextFileId := snapshot.nextFileId }

def migrateLegacyTables : Program SSTableManager Error Unit := do
  let manager ← Program.read
  Program.forEach (fun path => do
    let reader ← loadTable path fun _ => true
    Program.update (addReader reader .Level0)) (manager.files.entries.map Prod.fst)
  Program.update sortReaders
  let manager ← Program.read
  let manifest ← Program.check
    (manager.manifest.commit (manager.readers.map ManagedTable.metadata) 1)
  Program.update fun manager => { manager with nextFileId := 1, manifest := manifest }

/-- Remove the files that are no table of the manifest. -/
def cleanupAbandonedFiles (manager : SSTableManager) : SSTableManager :=
  { manager with
    files := (manager.files.entries.map Prod.fst).foldl (fun files path =>
      if path ∈ manager.readers.map ManagedTable.path then files else files.erase path)
      manager.files }

/-- What `load_existing` ends with. -/
def finishLoading : Program SSTableManager Error Unit := do
  Program.update cleanupAbandonedFiles
  let manager ← Program.read
  let liveCount ← withCache (computeLiveKeyCount manager.readers)
  let nextGeneration ← Program.check (generationAfter manager.readers)
  Program.update fun manager =>
    { manager with
      liveKeyCount := liveCount
      maxSequenceNumber := maxSequence manager.readers
      nextGeneration := nextGeneration
      blockCache := manager.blockCache.clear }

def loadExisting : Program SSTableManager Error Unit := do
  match ← loadManifest with
  | some snapshot => loadManifestSnapshot snapshot
  | none => migrateLegacyTables
  finishLoading

/-- The constructor, on the files of a directory. A manifest manager starts at generation 0. -/
def create (options : SSTableManagerOptions) (files : OrderedMap Bytes SSTableFile)
    (manifest : ManifestManager) : Except Error SSTableManager := do
  let blockCache ← BlockCache.create options.blockCacheCapacityBytes
  validateOptions options
  match loadExisting { options, blockCache, files, manifest := manifest.opened 0 } with
  | (.ok (), manager) => return manager
  | (.error e, _) => throw e

end SSTableManager

namespace PersistentKeyValueStore

def withSSTables {α : Type} (m : Program SSTableManager Error α) :
    Program PersistentKeyValueStore Error α :=
  Program.zoom PersistentKeyValueStore.sstables
    (fun sstables store => { store with sstables := sstables }) m

def changeMemtables (change : MemTableSet → Except Error MemTableSet) :
    Program PersistentKeyValueStore Error Unit := do
  let store ← Program.read
  let memtables ← Program.check (change store.memtables)
  Program.update fun store => { store with memtables := memtables }

/-! ## Reading -/

def latestEntryWithoutValidation (key : Bytes) :
    Program PersistentKeyValueStore Error (Option Entry) := do
  let store ← Program.read
  let memoryEntry ← Program.check (store.memtables.latestEntry key)
  if memoryEntry.isSome then return memoryEntry
  else withSSTables (SSTableManager.get key)

def existsWithoutValidation (key : Bytes) : Program PersistentKeyValueStore Error Bool := do
  let entry ← latestEntryWithoutValidation key
  return entry.any fun entry => !entry.deleted

def get (key : Bytes) : Program PersistentKeyValueStore Error (Option Bytes) := do
  Program.check (validateKey key)
  let entry ← latestEntryWithoutValidation key
  return entry.bind Entry.live

/-- `exists`, which is a keyword. -/
def existsKey (key : Bytes) : Program PersistentKeyValueStore Error Bool := do
  Program.check (validateKey key)
  existsWithoutValidation key

def size (store : PersistentKeyValueStore) : Nat := store.liveKeyCount

/-! ## Writing -/

def appendWal (record : WalRecord) : Program PersistentKeyValueStore Error Unit := do
  Program.check record.validate
  Program.update fun store => { store with wal := store.wal ++ [record] }

def resetWal (store : PersistentKeyValueStore) : PersistentKeyValueStore := { store with wal := [] }

/-- Write one frozen memtable and forget it. -/
def flushOne (table : MemTable) : Program PersistentKeyValueStore Error Unit := do
  let _ ← withSSTables (SSTableManager.flush table)
  let store ← Program.read
  if (store.memtables.discardImmutable table.generation).1 then
    Program.update fun store =>
      { store with memtables := (store.memtables.discardImmutable table.generation).2 }
  else Program.raise (.logicError "flushed MemTable was not registered as immutable")

def flushImmutableMemtables : Program PersistentKeyValueStore Error Unit := do
  let store ← Program.read
  Program.forEach flushOne store.memtables.immutableTables.reverse

/-- `while (needs_compaction())`: every round takes at least two tables off Level 0. -/
def compactWhileNeeded : Nat → Program PersistentKeyValueStore Error Unit
  | 0 => pure ()
  | rounds + 1 => do
    let store ← Program.read
    if store.sstables.needsCompaction then do
      let result ← withSSTables SSTableManager.compactIfNeeded
      if result.performed then compactWhileNeeded rounds else pure ()
    else pure ()

def compactIfRequired : Program PersistentKeyValueStore Error Unit := do
  let store ← Program.read
  if !store.automaticCompactionEnabled then pure ()
  else compactWhileNeeded (store.sstables.levelTableCount .Level0)

def resetWalIfFullyPersisted : Program PersistentKeyValueStore Error Unit := do
  let store ← Program.read
  Program.when
    (store.memtables.active.entryCount = 0 ∧ store.memtables.immutableTables.length = 0)
    (Program.update resetWal)

/-- What follows every write: flush what has been frozen, compact, drop a log that is not needed. -/
def settle : Program PersistentKeyValueStore Error Unit := do
  flushImmutableMemtables
  compactIfRequired
  resetWalIfFullyPersisted

def rotateActive (store : PersistentKeyValueStore) : PersistentKeyValueStore :=
  { store with memtables := store.memtables.rotateActive.2 }

def countKey (store : PersistentKeyValueStore) : PersistentKeyValueStore :=
  { store with liveKeyCount := (store.liveKeyCount + 1) % u64 }

def uncountKey (store : PersistentKeyValueStore) : PersistentKeyValueStore :=
  { store with liveKeyCount := u64Sub store.liveKeyCount 1 }

def put (key value : Bytes) : Program PersistentKeyValueStore Error Unit := do
  Program.check (validateKey key)
  Program.check (validateValue value)
  let wasLive ← existsWithoutValidation key
  appendWal ⟨.Put, key, value⟩
  changeMemtables (·.put key value)
  Program.when (¬ wasLive) (Program.update countKey)
  settle

def remove (key : Bytes) : Program PersistentKeyValueStore Error Bool := do
  Program.check (validateKey key)
  let live ← existsWithoutValidation key
  if !live then return false
  else do
    appendWal ⟨.Delete, key, []⟩
    changeMemtables (·.addTombstone key)
    Program.update uncountKey
    settle
    return true

/-- `flush` only syncs the log. -/
def flush : Program PersistentKeyValueStore Error Unit := pure ()

def checkpoint : Program PersistentKeyValueStore Error Unit := do
  Program.update rotateActive
  flushImmutableMemtables
  compactIfRequired
  Program.update resetWal

def compact : Program PersistentKeyValueStore Error SSTableManager.CompactionResult := do
  Program.update rotateActive
  flushImmutableMemtables
  let result ← withSSTables (SSTableManager.compactLevel0 true)
  resetWalIfFullyPersisted
  return result

/-! ## Opening a store -/

/-- `RecoveryDestination`: a record of the log, replayed. -/
def replay (record : WalRecord) : Program PersistentKeyValueStore Error Unit := do
  let live ← existsWithoutValidation record.key
  match record.operation with
  | .Put => do
    changeMemtables (·.put record.key record.value)
    Program.when (¬ live) (Program.update countKey)
  | .Delete =>
    Program.when live do
      changeMemtables (·.addTombstone record.key)
      Program.update uncountKey

/-- The constructor, on a directory of tables and the records of a log. -/
def create (options : PersistentStoreOptions) (files : OrderedMap Bytes SSTableFile)
    (manifest : ManifestManager) (wal : List WalRecord) : Except Error PersistentKeyValueStore := do
  let sstables ← SSTableManager.create options.sstables files manifest
  let memtables ← MemTableSet.create
    ⟨options.memtableMaxBytes, sstables.maxSequenceNumber, sstables.nextGeneration⟩
  match Program.forEach replay wal
      { sstables := sstables
        memtables := memtables
        liveKeyCount := sstables.liveKeyCount
        wal := wal
        automaticCompactionEnabled := options.enableAutomaticCompaction } with
  | (.ok (), store) => return store
  | (.error e, _) => throw e

end PersistentKeyValueStore

end NebulaKV.Lsm
