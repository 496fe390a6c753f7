/-
# Flushes, compactions and lookups side by side

Any number of flushes and lookups and one compaction (`compaction_mutex_` admits one) run on a manager,
in any order. A step is a stretch of one of them, with the lock or without it; a step that throws ends
its call.

`flush` writes its table and then goes round a loop: it copies the tables under the lock, counts the
live keys over the copy without it, and publishes under the lock, unless `state_version_` has moved on
since the copy, when the round is lost and the next one begins. `compact_level0` has the lock when it
selects and when it publishes, and merges, drops tombstones and writes in between. `get` copies the
tables under the lock and reads them without it. So what is read without the lock may have been replaced
long ago, and its blocks go through the one cache all the same.
-/
import NebulaKV.Lsm.AcceptedDirectory
import NebulaKV.Lsm.ManagerSteps

namespace NebulaKV.Lsm

open Containers Effects Program

namespace SSTableManager

/-! ## The threads -/

/-- Where a compaction is, with its local variables. -/
inductive CompactionStage where
  | idle
  | selected (selection : CompactionSelection)
  | merged (selection : CompactionSelection) (merged : OrderedMap Bytes Entry)
  | dropped (selection : CompactionSelection) (compacted : Snapshot)
  | written (selection : CompactionSelection) (output : Option Written)
  | published (obsolete : List Bytes)

/-- Where a flush that has written its table is in its round. -/
inductive FlushStage where
  | waiting
  | copied (readers : List ManagedTable) (liveKeyCount version : Nat)
  | counted (readers : List ManagedTable) (newLiveCount version : Nat)

structure PendingFlush where
  table : MemTable
  written : Written
  stage : FlushStage := .waiting

structure Traffic where
  manager : SSTableManager
  compaction : CompactionStage := .idle
  flushing : List PendingFlush := []
  /-- The lookups that have copied the tables: their keys and their copies. -/
  looking : List (Bytes × List ManagedTable) := []

inductive TrafficLabel where
  | beginFlush (table : MemTable)
  | advanceFlush (flush : Nat)
  | beginCompaction (forceAll : Bool)
  | advance
  | beginGet (key : Bytes)
  | finishGet (look : Nat)

namespace Traffic

def beginFlush (traffic : Traffic) (table : MemTable) : Traffic :=
  if !table.immutable ∨ table.snapshot = [] then traffic
  else
    match writeTable .Level0 table.generation table.snapshot traffic.manager with
    | (.ok written, manager) =>
      { traffic with manager := manager, flushing := traffic.flushing ++ [{ table, written }] }
    | (.error _, manager) => { traffic with manager := manager }

/-- The next stretch of a flush: copy, count, or publish if the version is still the one of the copy. -/
def advanceFlush (traffic : Traffic) (index : Nat) (flush : PendingFlush) : Traffic :=
  match flush.stage with
  | .waiting =>
    { traffic with
      flushing := traffic.flushing.set index { flush with
        stage := .copied traffic.manager.readers traffic.manager.liveKeyCount
          traffic.manager.stateVersion } }
  | .copied readers liveKeyCount version =>
    match withCache (liveCountAfterFlush readers flush.table.snapshot liveKeyCount)
      traffic.manager with
    | (.ok newLiveCount, manager) =>
      { traffic with
        manager := manager
        flushing := traffic.flushing.set index { flush with
          stage := .counted readers newLiveCount version } }
    | (.error _, manager) =>
      { traffic with manager := manager, flushing := traffic.flushing.eraseIdx index }
  | .counted readers newLiveCount version =>
    if traffic.manager.stateVersion ≠ version then
      { traffic with flushing := traffic.flushing.set index { flush with stage := .waiting } }
    else
      { traffic with
        manager := (publishTables (readers ++ [flush.written.table]) newLiveCount traffic.manager).2
        flushing := traffic.flushing.eraseIdx index }

/-- A second compaction waits for the mutex. -/
def beginCompaction (traffic : Traffic) (forceAll : Bool) : Traffic :=
  match traffic.compaction with
  | .idle =>
    if (traffic.manager.selectLevel0Compaction forceAll).selected = [] then traffic
    else
      { traffic with compaction := .selected (traffic.manager.selectLevel0Compaction forceAll) }
  | _ => traffic

/-- A compaction that throws is over. -/
def resume {α : Type} (traffic : Traffic) (next : α → CompactionStage) :
    Except Error α × SSTableManager → Traffic
  | (.ok a, manager) => { traffic with manager := manager, compaction := next a }
  | (.error _, manager) => { traffic with manager := manager, compaction := .idle }

/-- The next stretch of `compact_level0`. -/
def advance (traffic : Traffic) : Traffic :=
  match traffic.compaction with
  | .idle => traffic
  | .selected selection =>
    traffic.resume (CompactionStage.merged selection)
      (withCache (mergeTables selection.selected) traffic.manager)
  | .merged selection merged =>
    traffic.resume (CompactionStage.dropped selection)
      (withCache (dropTombstones selection.unselected merged.entries) traffic.manager)
  | .dropped selection compacted =>
    traffic.resume (CompactionStage.written selection)
      (writeOutput (maxGeneration selection.selected) compacted traffic.manager)
  | .written selection output =>
    traffic.resume (fun _ => .published (selection.selected.map ManagedTable.path))
      (publishOutput (selection.selected.map ManagedTable.path) output traffic.manager)
  | .published obsolete =>
    { traffic with manager := removeFiles obsolete traffic.manager, compaction := .idle }

def beginGet (traffic : Traffic) (key : Bytes) : Traffic :=
  match validateKey key with
  | .ok () => { traffic with looking := traffic.looking ++ [(key, traffic.manager.readers)] }
  | .error _ => traffic

def finishGet (traffic : Traffic) (index : Nat) (look : Bytes × List ManagedTable) : Traffic :=
  { traffic with
    manager := (withCache (newestEntryFromTables look.2 look.1) traffic.manager).2
    looking := traffic.looking.eraseIdx index }

def step (traffic : Traffic) : TrafficLabel → Traffic
  | .beginFlush table => traffic.beginFlush table
  | .advanceFlush index => (traffic.flushing[index]?).elim traffic (traffic.advanceFlush index)
  | .beginCompaction forceAll => traffic.beginCompaction forceAll
  | .advance => traffic.advance
  | .beginGet key => traffic.beginGet key
  | .finishGet index => (traffic.looking[index]?).elim traffic (traffic.finishGet index)

def run (traffic : Traffic) : List TrafficLabel → Traffic
  | [] => traffic
  | label :: labels => (traffic.step label).run labels

end Traffic

/-- A memtable has valid entries: `put` and `add_tombstone` check them. -/
def TrafficLabel.Valid : TrafficLabel → Prop
  | .beginFlush table => ∀ record ∈ table.snapshot, ValidRecord record
  | _ => True

/-! ## What is under way -/

/-- The tables that a compaction has written and not published. -/
def CompactionStage.outputs : CompactionStage → List ManagedTable
  | .written _ output => (output.map Written.table).toList
  | _ => []

/-- The files that are about to be removed. -/
def CompactionStage.obsolete : CompactionStage → List Bytes
  | .published obsolete => obsolete
  | _ => []

/-- The selection, until it is published. -/
def CompactionStage.selection : CompactionStage → Option CompactionSelection
  | .selected selection => some selection
  | .merged selection _ => some selection
  | .dropped selection _ => some selection
  | .written selection _ => some selection
  | _ => none

/-- The tables that have been written and not published. -/
def Traffic.pending (traffic : Traffic) : List ManagedTable :=
  traffic.flushing.map (fun flush => flush.written.table) ++ traffic.compaction.outputs

/-- The flush has counted over the tables in use, and its publication does not throw. -/
def PendingFlush.publishes (manager : SSTableManager) (flush : PendingFlush) : Bool :=
  match flush.stage with
  | .counted readers newLiveCount version => version = manager.stateVersion &&
      (publishTables (readers ++ [flush.written.table]) newLiveCount manager).1.isOk
  | _ => false

/-- The flush that this step publishes. -/
def Traffic.publishes (traffic : Traffic) : TrafficLabel → Option PendingFlush
  | .advanceFlush index => traffic.flushing[index]?.filter (PendingFlush.publishes traffic.manager)
  | _ => none

theorem Traffic.publishes_advanceFlush {traffic : Traffic} {index : Nat} {flush : PendingFlush}
    (hget : traffic.flushing[index]? = some flush) :
    traffic.publishes (.advanceFlush index) =
      if flush.publishes traffic.manager then some flush else none := by
  show (traffic.flushing[index]?).filter _ = _
  rw [hget, Option.filter_some]

/-! ## Writing a table -/

section Writing

variable {manager s : SSTableManager} {sizing : BloomSizing}

/-- The file of a table, opened again, gives the same reader. -/
structure Reopens (sizing : BloomSizing) (table : ManagedTable) : Prop where
  filter : ∃ filter, BloomFilter.build sizing (table.reader.contents.map Prod.fst) = .ok filter ∧
    table.reader.bloomFilter = some filter
  opens : ∀ filter, SSTableReader.openFile table.path table.reader.file filter =
    .ok ⟨table.path, table.reader.file, filter⟩
  metadata : invalidMetadata table.metadata = false
  highest : table.reader.metadata.maxSequenceNumber = snapshotMaxSequence table.reader.contents

theorem foldl_min_pos {entries : Snapshot} {start : Nat} (hstart : start ≠ 0)
    (hvalid : ∀ record ∈ entries, ValidRecord record) :
    entries.foldl (fun acc (record : Bytes × Entry) => min acc record.2.sequenceNumber) start ≠ 0 := by
  induction entries generalizing start with
  | nil => exact hstart
  | cons record rest ih =>
    have hpos := (hvalid record List.mem_cons_self).sequence_pos
    have hleast : min start record.2.sequenceNumber ≠ 0 := by omega
    exact ih hleast (List.forall_mem_cons.mp hvalid).2

theorem Reopens.of_written {entries : Snapshot} {options : SSTableWriterOptions}
    {written : SSTableFile × SSTableMetadata} {filter : BloomFilter} {reader : SSTableReader}
    {path : Bytes} (hne : entries ≠ []) (hvalid : ∀ record ∈ entries, ValidRecord record)
    (hwrite : SSTableWriter.write entries options = .ok written)
    (hfilter : BloomFilter.build sizing (entries.map Prod.fst) = .ok filter)
    (hopen : SSTableReader.openFile path written.1 (some filter) = .ok reader)
    (hcontents : reader.contents = entries) (level : SSTableLevel) :
    Reopens sizing ⟨reader, level⟩ := by
  obtain ⟨rfl, -⟩ := SSTableWriter.openFile_eq_ok hopen
  obtain ⟨hentries, hblocks, hleast, hmost⟩ := SSTableWriter.write_header hwrite
  refine ⟨⟨filter, by rw [hcontents]; exact hfilter, rfl⟩, SSTableWriter.openFile_filter hopen, ?_, ?_⟩
  · obtain ⟨record, hrecord⟩ := List.exists_mem_of_ne_nil _ hne
    have hlow := (foldl_min_le (fun record : Bytes × Entry => record.2.sequenceNumber) entries
      (u64 - 1)).2 record hrecord
    have hhigh := (le_foldl_max (fun record : Bytes × Entry => record.2.sequenceNumber) entries 0).2
      record hrecord
    have hcount : entries.length ≠ 0 := fun hzero => hne (List.length_eq_zero_iff.mp hzero)
    have hcut := SSTableByteReader.blocksOf_length_ne_zero options hne
    have hpos := foldl_min_pos (show u64 - 1 ≠ 0 by decide) hvalid
    unfold invalidMetadata ManagedTable.metadata SSTableReader.metadata
    dsimp only
    rw [hentries, hblocks, hleast, hmost]
    simp only [Bool.or_eq_false_iff, decide_eq_false_iff_not]
    exact ⟨⟨⟨hcount, hcut⟩, hpos⟩, by omega⟩
  · show written.1.header.maxSequenceNumber = _
    rw [hmost, hcontents]
    rfl

/-- The tables and the numbers that are kept of them. -/
structure Untouched (manager s : SSTableManager) : Prop where
  options : s.options = manager.options
  readers : s.readers = manager.readers
  manifest : s.manifest = manager.manifest
  count : s.liveKeyCount = manager.liveKeyCount
  highest : s.maxSequenceNumber = manager.maxSequenceNumber
  version : s.stateVersion = manager.stateVersion
  idLe : manager.nextFileId ≤ s.nextFileId
  idLt : manager.nextFileId < u64 → s.nextFileId < u64

theorem Untouched.cached (manager : SSTableManager) (cache : BlockCache) :
    Untouched manager { manager with blockCache := cache } :=
  ⟨rfl, rfl, rfl, rfl, rfl, rfl, le_rfl, fun h => h⟩

/-- Only files under the next id are new. -/
structure Wrote (manager s : SSTableManager) : Prop extends Untouched manager s where
  cache : s.blockCache = manager.blockCache
  files : ∀ path, (∀ level generation maxSequence,
    path ≠ tablePath level manager.nextFileId generation maxSequence) →
      s.files.find? path = manager.files.find? path

/-- The table is written, under the next id. -/
structure WrittenUnder (manager : SSTableManager) (table : ManagedTable) (s : SSTableManager) :
    Prop extends Wrote manager s where
  next : s.nextFileId = manager.nextFileId + 1
  path : ∃ level generation maxSequence,
    table.path = tablePath level manager.nextFileId generation maxSequence
  file : s.files.find? table.path = some table.reader.file
  reopens : Reopens manager.options.bloomSizing table

/-- **A table is written** with its records, or nothing but a file is new. -/
theorem writeTable_wrote (manager : SSTableManager) (level : SSTableLevel) (generation : Nat)
    {snapshot : Snapshot} (hne : snapshot ≠ []) (hsorted : KeySorted snapshot)
    (hvalid : ∀ record ∈ snapshot, ValidRecord record) :
    Outcome (fun written s => Holding level snapshot written.table ∧
        WrittenUnder manager written.table s) (fun s => Wrote manager s)
      (writeTable level generation snapshot manager) := by
  -- whatever fails, only this file is new
  have hwrote : manager.nextFileId ≠ u64 - 1 → ∀ files,
      (files = manager.files ∨ ∃ file, files = manager.files.insert
        (tablePath level manager.nextFileId generation (snapshotMaxSequence snapshot)) file) →
      Wrote manager { manager with nextFileId := manager.nextFileId + 1, files := files } := by
    intro hlast files hfiles
    refine ⟨⟨rfl, rfl, rfl, rfl, rfl, rfl, Nat.le_succ _, fun hlt => ?_⟩, rfl, fun other hother => ?_⟩
    · show manager.nextFileId + 1 < u64
      omega
    · rcases hfiles with rfl | ⟨file, rfl⟩
      · rfl
      · show (manager.files.insert _ file).find? other = _
        rw [OrderedMap.find?_insert, if_neg (hother level generation (snapshotMaxSequence snapshot))]
  refine (writeTable_runs manager level generation snapshot rfl).mono ?_ ?_
  · rintro result _ ⟨hlast, written, filter, reader, hm, htable, rfl⟩
    obtain ⟨hwell, hcontents, -⟩ :=
      SSTableWriter.written_wellFormed hne hsorted hvalid hm.write hm.build hm.opens
    have hreopens := Reopens.of_written hne hvalid hm.write hm.build hm.opens hcontents level
    obtain ⟨rfl, -⟩ := SSTableWriter.openFile_eq_ok hm.opens
    rw [htable]
    refine ⟨⟨rfl, hwell, hcontents⟩, hwrote hlast _ (Or.inr ⟨_, rfl⟩), rfl, ⟨_, _, _, rfl⟩, ?_, hreopens⟩
    exact (OrderedMap.find?_insert _ _ _ _).trans (if_pos rfl)
  · rintro _ (⟨-, rfl⟩ | ⟨hlast, -, files, hfiles, rfl⟩)
    · exact ⟨Untouched.cached _ _, rfl, fun _ _ => rfl⟩
    · exact hwrote hlast files hfiles

theorem find?_foldl_erase {files : OrderedMap Bytes SSTableFile} {paths : List Bytes} {path : Bytes}
    (hnot : path ∉ paths) : (paths.foldl OrderedMap.erase files).find? path = files.find? path := by
  induction paths generalizing files with
  | nil => rfl
  | cons first rest ih =>
    have hne : path ≠ first := fun heq => hnot (heq ▸ List.mem_cons_self)
    rw [List.foldl_cons, ih fun hmem => hnot (List.mem_cons_of_mem _ hmem),
      OrderedMap.find?_erase, if_neg hne]

/-! ## What a step does -/

/-- **A step that publishes nothing**: at most one table is written, files that nobody needs are removed,
and a selection is the one that was there or made now. -/
structure Traffic.Rests (traffic : Traffic) (label : TrafficLabel) (traffic' : Traffic) : Prop where
  unpublished : traffic.publishes label = none
  untouched : Untouched traffic.manager traffic'.manager
  files : ∀ path, path ∉ traffic.compaction.obsolete → (∀ level generation maxSequence,
    path ≠ tablePath level traffic.manager.nextFileId generation maxSequence) →
      traffic'.manager.files.find? path = traffic.manager.files.find? path
  obsolete : traffic'.compaction.obsolete = [] ∨
    traffic'.compaction.obsolete = traffic.compaction.obsolete
  pending : traffic'.pending.Subperm traffic.pending ∨
    ∃ table, traffic'.pending.Perm (table :: traffic.pending) ∧
      WrittenUnder traffic.manager table traffic'.manager
  tables : ∀ flush ∈ traffic'.flushing, label = .beginFlush flush.table ∨
    ∃ flush' ∈ traffic.flushing, flush.table = flush'.table
  selection : ∀ selection, traffic'.compaction.selection = some selection →
    traffic.compaction.selection = some selection ∨ selection.selected ≠ [] ∧
      ∃ forceAll, selection = traffic.manager.selectLevel0Compaction forceAll

/-- The tables with a selection replaced by its output. -/
def replacing (manager : SSTableManager) (selection : CompactionSelection) (output : Option Written) :
    List ManagedTable :=
  manager.readers.filter (·.path ∉ selection.selected.map ManagedTable.path) ++
    (output.map Written.table).toList

/-- The manager with these tables and this count, committed to the manifest. -/
def Commits (manager : SSTableManager) (tables : List ManagedTable) (liveKeyCount : Nat)
    (s : SSTableManager) : Prop :=
  ∃ generation manifest, generationAfter tables = .ok generation ∧
    manager.manifest.commit (tables.map ManagedTable.metadata) manager.nextFileId = .ok manifest ∧
    s = manager.published tables liveKeyCount generation manifest

/-- **The publication of a flush**: with the count over the tables in use. -/
structure Traffic.PublishesFlush (traffic : Traffic) (flush : PendingFlush) (traffic' : Traffic) :
    Prop where
  mem : flush ∈ traffic.flushing
  commits : Commits traffic.manager (sortTables (traffic.manager.readers ++ [flush.written.table]))
    (flush.table.snapshot.foldl (countRecord traffic.manager.readers) traffic.manager.liveKeyCount)
    traffic'.manager
  flushing : traffic.flushing.Perm (flush :: traffic'.flushing)
  compaction : traffic'.compaction = traffic.compaction

/-- **The publication of a compaction**: the count stays. -/
structure Traffic.PublishesOutput (traffic : Traffic) (selection : CompactionSelection)
    (output : Option Written) (traffic' : Traffic) : Prop where
  written : traffic.compaction = .written selection output
  commits : Commits traffic.manager (sortTables (traffic.manager.replacing selection output))
    traffic.manager.liveKeyCount traffic'.manager
  flushing : traffic'.flushing = traffic.flushing
  compaction : traffic'.compaction = .published (selection.selected.map ManagedTable.path)

/-- Everything that a step can do. -/
inductive Traffic.Effect (traffic : Traffic) (label : TrafficLabel) (traffic' : Traffic) : Prop where
  | rests (h : traffic.Rests label traffic')
  | flushed (flush : PendingFlush) (hpublishes : traffic.publishes label = some flush)
      (h : traffic.PublishesFlush flush traffic')
  | replaced (selection : CompactionSelection) (output : Option Written) (hlabel : label = .advance)
      (h : traffic.PublishesOutput selection output traffic')

end Writing

end SSTableManager

end NebulaKV.Lsm
