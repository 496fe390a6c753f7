/-
# Level 1 never overlaps

A manager on any directory it accepts, with flushes, lookups and compactions in any order of their
stretches. The ranges of the Level-1 tables stay apart, so the check in front of every publication passes
(`publish_tables_locked` throws for other reasons only), and a compaction that is not forced takes at
least two tables off Level 0 and adds none.

The tables of the directory may have been written by another program, under any names but those that the
manager itself is still going to give (`Unclaimed`). The cache goes by names: where a new table gets the
name of one that is gone, a thread that still reads the old one leaves its blocks under the new one's
name.
-/
import NebulaKV.Lsm.TrafficSteps
import NebulaKV.Lsm.StoreSteps

namespace NebulaKV.Lsm

open Containers Effects Program

namespace SSTableManager

variable {manager : SSTableManager} {shelf : List ManagedTable} {selection : CompactionSelection}

/-! ## A compaction in one go -/

/-- What is selected is gone from Level 0, and nothing has come. -/
theorem Orderly.compactSelected (h : manager.Orderly shelf)
    (hunderway : Underway manager.readers selection) :
    Outcome (fun result s => result.performed = true ∧ (∃ shelf, s.Orderly shelf) ∧
        s.options = manager.options ∧
        s.levelTableCount .Level0 + selection.selected.countP (·.level = .Level0) =
          manager.levelTableCount .Level0)
      (fun _ => True) (SSTableManager.compactSelected selection manager) := by
  obtain ⟨cache, hcache, hmerge⟩ := h.merge hunderway.selected_sub
  have hmerged := h.cached hcache
  obtain ⟨cache', hcache', hdrop⟩ := hmerged.drop hunderway
  have hdropped := hmerged.cached hcache'
  unfold SSTableManager.compactSelected
  rw [bind_apply, hmerge]
  dsimp only
  rw [bind_apply, hdrop]
  dsimp only
  refine Outcome.bind ((writeOutput_leaves hdropped hunderway _).mono (fun _ _ hs => hs)
    fun _ _ => trivial) ?_
  rintro output s ⟨hleaves, hwritten⟩
  have hfacts : Wrote { manager with blockCache := cache' } s ∧
      (((output.map Written.table).toList ++ shelf).map ManagedTable.path).Nodup ∧
      ∀ table ∈ (output.map Written.table).toList, Unclaimed s.nextFileId table.path := by
    rcases hwritten with ⟨rfl, rfl⟩ | ⟨written, rfl, hunder⟩
    · exact ⟨⟨Untouched.cached _ _, rfl, fun _ _ => rfl⟩, h.readable.paths, fun t ht => by cases ht⟩
    · refine ⟨hunder.toWrote, List.nodup_cons.mpr ⟨hunder.fresh h.idLt h.unclaimed,
        h.readable.paths⟩, fun t ht => ?_⟩
      obtain rfl : t = written.table := by simpa using ht
      exact hunder.unclaimed h.idLt
  obtain ⟨hwrote, hnames, hunclaimed⟩ := hfacts
  have horderly := hdropped.wrote hwrote
  have hstill : Underway s.readers selection := by
    rw [hwrote.readers]
    exact hunderway
  have hlevel : s.levelTableCount .Level0 = manager.levelTableCount .Level0 := by
    unfold SSTableManager.levelTableCount
    rw [hwrote.readers]
  have hpublish := horderly.publishOutput hstill hleaves
  rw [bind_apply]
  rcases hrun : SSTableManager.publishOutput (selection.selected.map ManagedTable.path) output s
    with ⟨result, s'⟩
  rw [hrun] at hpublish
  cases result with
  | error e => trivial
  | ok u =>
    have hafter := (horderly.replaced hstill hleaves hnames hunclaimed hpublish).1
    have hcount := (horderly.output_apart hstill hleaves).2.2
    rw [hlevel, ← Commits.levelTableCount hpublish] at hcount
    obtain ⟨generation, manifest, -, -, rfl⟩ := hpublish
    exact ⟨rfl, ⟨_, hafter.untouched ⟨rfl, rfl, rfl, rfl, rfl, rfl, le_rfl, fun h => h⟩ hafter.cache⟩,
      hwrote.options, hcount⟩

/-- At the trigger there is something to compact. -/
theorem Orderly.selected_ne_nil (h : manager.Orderly shelf)
    (hreached : manager.options.level0CompactionTrigger ≤ manager.level0Tables.length) :
    (manager.selectLevel0Compaction false).selected ≠ [] := by
  have htrigger := h.trigger
  have hmost := h.most
  have hchosen : (manager.chosenLevel0 false).length ≠ 0 := by
    rw [length_chosenLevel0, if_neg (by decide)]
    omega
  have hstart : (startSelecting (manager.chosenLevel0 false)).selected =
      manager.chosenLevel0 false := by
    cases manager.chosenLevel0 false <;> rfl
  obtain ⟨-, ⟨taken, htaken, -⟩, -⟩ := Selecting.expand_spec
    (startSelecting_within (fun t (ht : t ∈ manager.chosenLevel0 false) => (mem_chosenLevel0 ht).1)
      (nodup_chosenLevel0 (h.paths.of_map _)))
    (manager.readers.length + 1) (by omega)
  have hskip : ¬ (manager.level0Tables = [] ∨
      (!false ∧ manager.level0Tables.length < manager.options.level0CompactionTrigger)) := by
    rintro (hnil | ⟨-, hlt⟩)
    · rw [hnil, List.length_nil] at hreached
      omega
    · omega
  unfold selectLevel0Compaction
  rw [if_neg hskip]
  dsimp only
  rw [htaken, hstart]
  intro hnil
  exact hchosen (by rw [(List.append_eq_nil_iff.mp hnil).1]; rfl)

/-- **One round of the store's loop.** -/
theorem Orderly.compactIfNeeded (h : manager.Orderly shelf) (hneeded : manager.needsCompaction = true) :
    Outcome (fun result s => result.performed = true ∧ (∃ shelf, s.Orderly shelf) ∧
        s.options = manager.options ∧
        s.levelTableCount .Level0 + 2 ≤ manager.levelTableCount .Level0)
      (fun _ => True) (SSTableManager.compactIfNeeded manager) := by
  have hreached : manager.options.level0CompactionTrigger ≤ manager.level0Tables.length := by
    unfold needsCompaction levelTableCount at hneeded
    rw [List.countP_eq_length_filter] at hneeded
    exact of_decide_eq_true hneeded
  have htrigger := h.trigger
  have hne := h.selected_ne_nil hreached
  have htwo := h.two_selected hne
  unfold SSTableManager.compactIfNeeded SSTableManager.compactLevel0
  rw [read_bind_apply, hneeded, if_pos rfl, read_bind_apply, if_neg hne]
  refine (h.compactSelected (h.underway hne)).mono ?_ fun _ _ => trivial
  rintro result s ⟨hperformed, horderly, hoptions, hcount⟩
  exact ⟨hperformed, horderly, hoptions, by omega⟩

end SSTableManager

/-! ## The loop of the store -/

namespace PersistentKeyValueStore

variable {store : PersistentKeyValueStore} {shelf : List ManagedTable}

/-- **The loop ends below the trigger**, unless a compaction throws. -/
theorem compactWhileNeeded_below (h : store.sstables.Orderly shelf) {rounds : Nat}
    (hrounds : store.sstables.levelTableCount .Level0 ≤ rounds) :
    Outcome (fun _ s =>
        s.sstables.levelTableCount .Level0 < s.sstables.options.level0CompactionTrigger)
      (fun _ => True) (compactWhileNeeded rounds store) := by
  induction rounds generalizing store shelf with
  | zero =>
    have := h.trigger
    show store.sstables.levelTableCount .Level0 < store.sstables.options.level0CompactionTrigger
    omega
  | succ rounds ih =>
    unfold compactWhileNeeded
    rw [read_bind_apply]
    split_ifs with hneeded
    · refine Outcome.bind ((Outcome.zoom (h.compactIfNeeded hneeded)).mono (fun _ _ hs => hs)
        fun _ _ => trivial) ?_
      rintro result s ⟨manager, ⟨hperformed, ⟨shelf, horderly⟩, hoptions, hcount⟩, rfl⟩
      rw [hperformed, if_pos rfl]
      -- the measure: every round takes two tables off Level 0
      have hfewer : manager.levelTableCount .Level0 ≤ rounds := by omega
      exact ih horderly hfewer
    · show store.sstables.levelTableCount .Level0 < store.sstables.options.level0CompactionTrigger
      unfold SSTableManager.needsCompaction at hneeded
      simpa using hneeded

/-- More rounds change nothing: the loop has ended. -/
theorem compactWhileNeeded_ends (h : store.sstables.Orderly shelf) {rounds : Nat}
    (hrounds : store.sstables.levelTableCount .Level0 ≤ rounds) :
    compactWhileNeeded (rounds + 1) store = compactWhileNeeded rounds store := by
  induction rounds generalizing store shelf with
  | zero =>
    have hidle : store.sstables.needsCompaction = false := by
      have := h.trigger
      unfold SSTableManager.needsCompaction
      simp only [decide_eq_false_iff_not]
      omega
    unfold compactWhileNeeded
    rw [read_bind_apply, hidle, if_neg (by decide)]
  | succ rounds ih =>
    rw [compactWhileNeeded, compactWhileNeeded, read_bind_apply, read_bind_apply]
    split_ifs with hneeded
    · have houtcome : Outcome _ _ (withSSTables SSTableManager.compactIfNeeded store) :=
        Outcome.zoom (h.compactIfNeeded hneeded)
      rw [bind_apply, bind_apply]
      rcases hrun : withSSTables SSTableManager.compactIfNeeded store with ⟨result, s⟩
      rw [hrun] at houtcome
      cases result with
      | error e => rfl
      | ok result =>
        obtain ⟨manager, ⟨hperformed, ⟨shelf, horderly⟩, -, hcount⟩, rfl⟩ := houtcome
        simp only [hperformed, if_true]
        have hfewer : manager.levelTableCount .Level0 ≤ rounds := by omega
        exact ih horderly hfewer
    · rfl

theorem compactWhileNeeded_more (h : store.sstables.Orderly shelf) (more : Nat) :
    compactWhileNeeded (store.sstables.levelTableCount .Level0 + more) store =
      compactWhileNeeded (store.sstables.levelTableCount .Level0) store := by
  induction more with
  | zero => rfl
  | succ more ih =>
    rw [← ih]
    exact compactWhileNeeded_ends h (Nat.le_add_right _ _)

end PersistentKeyValueStore

/-! ## From any directory, along any run -/

namespace SSTableManager

variable {manager : SSTableManager} {shelf : List ManagedTable}

/-- The Level-1 tables that a compaction leaves out lie outside its range. -/
def LeavesNoOverlap (manager : SSTableManager) (forceAll : Bool) : Prop :=
  (manager.selectLevel0Compaction forceAll).selected ≠ [] →
    ∀ table ∈ manager.readers, table.level = .Level1 →
      table ∉ (manager.selectLevel0Compaction forceAll).selected →
      ¬ rangesOverlap (manager.selectLevel0Compaction forceAll).smallestKey
        (manager.selectLevel0Compaction forceAll).largestKey table.reader.metadata.smallestKey
        table.reader.metadata.largestKey

/-- The loop of the store ends, below the trigger unless a compaction throws. -/
def LoopEndsBelow (manager : SSTableManager) : Prop :=
  ∀ store : PersistentKeyValueStore, store.sstables = manager →
    store.automaticCompactionEnabled = true →
    (∀ more, PersistentKeyValueStore.compactWhileNeeded (manager.levelTableCount .Level0 + more) store =
      PersistentKeyValueStore.compactIfRequired store) ∧
    Outcome (fun _ s => s.sstables.levelTableCount .Level0 < s.sstables.options.level0CompactionTrigger)
      (fun _ => True) (PersistentKeyValueStore.compactIfRequired store)

theorem Orderly.leavesNoOverlap (h : manager.Orderly shelf) (forceAll : Bool) :
    manager.LeavesNoOverlap forceAll := by
  intro hne table ht hlevel hnot
  obtain ⟨hselects, -⟩ := selectLevel0Compaction_selects h.paths hne
  refine hselects.apart table ?_ hlevel
  exact (List.mem_append.mp (hselects.perm.mem_iff.mp ht)).resolve_left hnot

theorem Orderly.loopEndsBelow (h : manager.Orderly shelf) : manager.LoopEndsBelow := by
  rintro store rfl hautomatic
  have hloop : PersistentKeyValueStore.compactIfRequired store =
      PersistentKeyValueStore.compactWhileNeeded (store.sstables.levelTableCount .Level0) store := by
    unfold PersistentKeyValueStore.compactIfRequired
    rw [read_bind_apply, hautomatic]
    rfl
  rw [hloop]
  refine ⟨PersistentKeyValueStore.compactWhileNeeded_more h, ?_⟩
  exact PersistentKeyValueStore.compactWhileNeeded_below h le_rfl

theorem Orderly.compactLevel0 (h : manager.Orderly shelf) :
    Outcome (fun result s => result.performed = true →
        s.levelTableCount .Level0 + 2 ≤ manager.levelTableCount .Level0)
      (fun _ => True) (SSTableManager.compactLevel0 false manager) := by
  unfold SSTableManager.compactLevel0
  rw [read_bind_apply]
  split_ifs with hnone
  · exact fun hperformed => by cases hperformed
  · have htwo := h.two_selected hnone
    refine (h.compactSelected (h.underway hnone)).mono ?_ fun _ hs => hs
    rintro result s ⟨-, -, -, hcount⟩ -
    omega

/-- **Level 1 never overlaps.** Take any directory that the constructor accepts, whose tables have no name
that is still to be given, and any flushes, lookups and compactions, in any order of their stretches. The
ranges of the Level-1 tables are apart. A selection leaves no Level-1 table that overlaps its range. No
publication throws for an overlap, and that of a compaction takes the selected tables, and no others, off
Level 0. A compaction that is not forced selects two of them at least. The loop of the store ends, and if
no compaction throws it ends below the trigger. -/
theorem level1_never_overlaps {options : SSTableManagerOptions} {files : OrderedMap Bytes SSTableFile}
    {manifest : ManifestManager} (hfiles : ∀ record ∈ files.entries, Parsed record.2)
    (hmanifests : ∀ record ∈ manifest.manifests.entries, ParsedManifest record.2)
    (hcreate : create options files manifest = .ok manager)
    (hnames : ∀ table ∈ manager.readers, Unclaimed manager.nextFileId table.path)
    {labels : List TrafficLabel} (hlabels : ∀ label ∈ labels, label.Valid) {traffic : Traffic}
    (hrun : traffic = Traffic.run { manager := manager } labels) :
    Level1Apart traffic.manager.readers ∧
    (∀ forceAll, traffic.manager.LeavesNoOverlap forceAll) ∧
    (∀ flush ∈ traffic.flushing, ∀ readers newLiveCount,
      flush.stage = .counted readers newLiveCount traffic.manager.stateVersion →
      (publishTables (readers ++ [flush.written.table]) newLiveCount traffic.manager).1 ≠
        .error overlapError) ∧
    (∀ selection output, traffic.compaction = .written selection output →
      Ends (fun _ s => s.levelTableCount .Level0 + selection.selected.countP (·.level = .Level0) =
          traffic.manager.levelTableCount .Level0) (fun e _ => e ≠ overlapError)
        (publishOutput (selection.selected.map ManagedTable.path) output traffic.manager)) ∧
    ((traffic.manager.selectLevel0Compaction false).selected ≠ [] →
      2 ≤ (traffic.manager.selectLevel0Compaction false).selected.countP (·.level = .Level0)) ∧
    Outcome (fun result s => result.performed = true →
        s.levelTableCount .Level0 + 2 ≤ traffic.manager.levelTableCount .Level0)
      (fun _ => True) (compactLevel0 false traffic.manager) ∧
    traffic.manager.LoopEndsBelow := by
  obtain ⟨shelf, h⟩ := (create_orderly hfiles hmanifests hcreate hnames).start.run hlabels
  rw [← hrun] at h
  refine ⟨h.orderly.apart, h.orderly.leavesNoOverlap, ?_, ?_, h.orderly.two_selected,
    h.orderly.compactLevel0, h.orderly.loopEndsBelow⟩
  · intro flush hflush readers newLiveCount hcounted herror
    have hok := h.flush flush hflush
    have hstage := hok.stage
    rw [hcounted] at hstage
    obtain ⟨rfl, rfl⟩ := hstage.2 rfl
    have hends := h.orderly.publishFlush hok.holding
      (flush.table.snapshot.foldl (countRecord traffic.manager.readers) traffic.manager.liveKeyCount)
    rcases hpublish : publishTables (traffic.manager.readers ++ [flush.written.table])
      (flush.table.snapshot.foldl (countRecord traffic.manager.readers) traffic.manager.liveKeyCount)
      traffic.manager with ⟨result, s⟩
    rw [hpublish] at hends herror
    obtain rfl : result = .error overlapError := herror
    exact hends.2 rfl
  · intro selection output hc
    have hstage := h.stage
    rw [hc] at hstage
    refine (h.orderly.publishOutput hstage.1 hstage.2).mono (fun _ s hs => ?_) fun _ _ hs => hs.2
    rw [Commits.levelTableCount hs]
    exact (h.orderly.output_apart hstage.1 hstage.2).2.2

/-- Compaction as soon as there are two tables. -/
def pairOptions : SSTableManagerOptions :=
  { bloomSizing := .oneBit
    level0CompactionTrigger := 2
    level0CompactionMaxTables := 2 }

/-- A memtable with one entry. -/
def singleTable (key : Bytes) (generation sequenceNumber : Nat) : MemTable :=
  { generation := generation
    entries := OrderedMap.empty.insert key ⟨[7], sequenceNumber, false⟩
    immutable := true }

theorem singleTable_valid {key : Bytes} (hkey : ValidKey key) (generation : Nat) {sequenceNumber : Nat}
    (h : sequenceNumber ≠ 0) :
    ∀ record ∈ (singleTable key generation sequenceNumber).snapshot, ValidRecord record := by
  intro record hrecord
  obtain rfl : record = (key, ⟨[7], sequenceNumber, false⟩) := List.mem_singleton.mp hrecord
  have hvalue : ValidValue [7] := by decide
  exact ⟨hkey, hvalue, h, fun hdeleted => by cases hdeleted⟩

/-- The two flushes count over the same copy; the first one to publish loses the other's round. Then a
compaction, and a lookup that has copied the tables before it. -/
def pairLabels : List TrafficLabel :=
  [.beginFlush (singleTable [1] 0 1), .beginFlush (singleTable [1] 1 2), .advanceFlush 0,
    .advanceFlush 1, .advanceFlush 0, .advanceFlush 1, .advanceFlush 1, .advanceFlush 0, .advanceFlush 0,
    .advanceFlush 0, .advanceFlush 0, .beginGet [1], .beginCompaction false, .advance, .advance,
    .advance, .advance, .finishGet 0]

theorem pairLabels_valid : ∀ label ∈ pairLabels, label.Valid := by
  unfold pairLabels
  simp only [List.forall_mem_cons]
  have hkey : ValidKey [1] := by decide
  exact ⟨singleTable_valid hkey 0 (by decide), singleTable_valid hkey 1 (by decide), trivial, trivial,
    trivial, trivial, trivial, trivial, trivial, trivial, trivial, trivial, trivial, trivial, trivial, trivial,
    trivial, trivial, fun label hlabel => by cases hlabel⟩

theorem level1_never_overlaps_pair : ∃ manager traffic,
    create pairOptions OrderedMap.empty {} = .ok manager ∧
      traffic = Traffic.run { manager := manager } pairLabels ∧
      traffic.manager.readers.map ManagedTable.level = [.Level1] ∧
      traffic.manager.stateVersion = 3 ∧ Level1Apart traffic.manager.readers := by
  have hlevels : (create pairOptions OrderedMap.empty {}).map
      (fun manager => ((Traffic.run { manager := manager } pairLabels).manager.readers.map
        ManagedTable.level, (Traffic.run { manager := manager } pairLabels).manager.stateVersion)) =
        .ok ([.Level1], 3) := by
    decide +kernel
  obtain ⟨manager, hcreate, hlevels⟩ := map_eq_ok hlevels
  obtain ⟨hlevel, hversion⟩ := Prod.mk.inj hlevels
  obtain ⟨hfresh, -⟩ := create_fresh hcreate
  exact ⟨manager, _, hcreate, rfl, hlevel, hversion, (level1_never_overlaps
    (fun record hrecord => by cases hrecord) (fun record hrecord => by cases hrecord) hcreate
    (fun t ht => by rw [hfresh.readers] at ht; cases ht) pairLabels_valid rfl).1⟩

/-! ## Directories where it fails -/

/-- The bytes of a table with one entry. -/
def singleBytes (key value : Bytes) (generation sequenceNumber : Nat) : Bytes :=
  match SSTableWriter.writeBytes [(key, ⟨value, sequenceNumber, false⟩)] ⟨[115], 4096, generation⟩ with
  | .ok (bytes, _) => bytes
  | .error _ => []

/-- The parts of a table with one entry. -/
def singleFile (key value : Bytes) (generation sequenceNumber : Nat) : SSTableFile :=
  match SSTableByteReader.openBytes [115] (singleBytes key value generation sequenceNumber) none with
  | .ok reader => reader.parts.file
  | .error _ => ⟨⟨0, 0, 0, 0, 0, 0⟩, [], [], 0, ⟨0, 0, 0, 0, 0, 0⟩⟩

theorem singleFile_parsed {key value : Bytes} {generation sequenceNumber : Nat}
    (h : (SSTableByteReader.openBytes [115] (singleBytes key value generation sequenceNumber)
      none).isOk = true) : Parsed (singleFile key value generation sequenceNumber) := by
  unfold singleFile
  cases hopen : SSTableByteReader.openBytes [115] (singleBytes key value generation sequenceNumber)
    none with
  | error e =>
    rw [hopen] at h
    cases h
  | ok reader => exact ⟨[115], _, reader, hopen, rfl⟩

/-- A directory of two files, with the one manifest. -/
def pairDirectory (path path' : Bytes) (file file' : SSTableFile) : OrderedMap Bytes SSTableFile :=
  (OrderedMap.empty.insert path file).insert path' file'

def onlyManifest (snapshot : ManifestSnapshot) : ManifestManager :=
  { manifests := OrderedMap.empty.insert 1 snapshot, current := some 1 }

/-- The bytes of all files are read as they are here. -/
def ReadFrom (files : OrderedMap Bytes SSTableFile) (manifest : ManifestManager) : Prop :=
  (∀ record ∈ files.entries, Parsed record.2) ∧
    ∀ record ∈ manifest.manifests.entries, ParsedManifest record.2

theorem readFrom_pair {path path' : Bytes} {file file' : SSTableFile} {snapshot : ManifestSnapshot}
    (hfile : Parsed file) (hfile' : Parsed file')
    (hmanifest : ManifestFormat.parseManifest
      (ManifestFormat.appendChecksum (ManifestFormat.manifestFields snapshot)) = .ok snapshot) :
    ReadFrom (pairDirectory path path' file file') (onlyManifest snapshot) := by
  refine ⟨fun record hrecord => ?_, fun record hrecord => ?_⟩
  · rcases OrderedMap.mem_insert hrecord with rfl | hold
    · exact hfile'
    · rcases OrderedMap.mem_insert hold with rfl | hnone
      · exact hfile
      · cases hnone
  · rcases OrderedMap.mem_insert hrecord with rfl | hnone
    · exact ⟨_, hmanifest⟩
    · cases hnone

/-- Two tables of Level 0, and no file id left. -/
def lastIdManifest : ManifestSnapshot :=
  ⟨1, u64 - 1, [⟨[1], 0, 1, 1, 1, 1, [1], [1], .Level0⟩, ⟨[2], 0, 1, 1, 2, 2, [1], [1], .Level0⟩]⟩

def lastIdFiles : OrderedMap Bytes SSTableFile :=
  pairDirectory [1] [2] (singleFile [1] [7] 0 1) (singleFile [1] [7] 0 2)

def lastIdStore : Except Error PersistentKeyValueStore :=
  PersistentKeyValueStore.create { sstables := pairOptions } lastIdFiles (onlyManifest lastIdManifest) []

/-- The name that the third table will get. -/
def staleName : Bytes := tablePath .Level0 3 7 11

/-- A directory that has this name already, and no file id given out. -/
def staleManifest : ManifestSnapshot :=
  ⟨1, 1, [⟨staleName, 0, 1, 1, 10, 10, [3], [3], .Level0⟩, ⟨[2], 0, 1, 1, 9, 9, [3], [3], .Level0⟩]⟩

def staleFiles : OrderedMap Bytes SSTableFile :=
  pairDirectory staleName [2] (singleFile [3] [7] 0 10) (singleFile [3] [7] 0 9)

theorem staleDirectory_read : ReadFrom staleFiles (onlyManifest staleManifest) := by
  have hold : Parsed (singleFile [3] [7] 0 10) := singleFile_parsed (by decide +kernel)
  have hother : Parsed (singleFile [3] [7] 0 9) := singleFile_parsed (by decide +kernel)
  exact readFrom_pair hold hother (by decide +kernel)

/-- A flush copies the two tables; a compaction replaces them; a second flush publishes a table under the
name of one of them; then the first flush counts over its copy, and loses the round. -/
def staleLabels : List TrafficLabel :=
  [.beginFlush (singleTable [3] 1 12), .advanceFlush 0, .beginCompaction true, .advance, .advance,
    .advance, .advance, .advance, .beginFlush (singleTable [8] 7 11), .advanceFlush 1, .advanceFlush 1,
    .advanceFlush 1, .advanceFlush 0, .advanceFlush 0]

/-- What the publication of a compaction that is at this point returns. -/
def Traffic.publication (traffic : Traffic) : Option (Except Error Unit) :=
  match traffic.compaction with
  | .written selection output =>
    some (publishOutput (selection.selected.map ManagedTable.path) output traffic.manager).1
  | _ => none

/-- **Two directories that are accepted.** In the first the manifest has handed out all file ids, so that
the compaction throws and the loop stops at the trigger. In the second the block of an old table is in the
cache under the name of a new one; the compaction takes it for the new one's, and its output overlaps the
output of the compaction before. -/
theorem accepted_directories_fail :
    (ReadFrom lastIdFiles (onlyManifest lastIdManifest) ∧
      ∃ store error, lastIdStore = .ok store ∧ store.automaticCompactionEnabled = true ∧
        (PersistentKeyValueStore.compactIfRequired store).1 = .error error ∧
        store.sstables.options.level0CompactionTrigger ≤
          (PersistentKeyValueStore.compactIfRequired store).2.sstables.levelTableCount .Level0) ∧
    ReadFrom staleFiles (onlyManifest staleManifest) ∧
      ∃ manager, create pairOptions staleFiles (onlyManifest staleManifest) = .ok manager ∧
        (Traffic.run { manager := manager } (staleLabels ++
          [.beginCompaction true, .advance, .advance, .advance])).publication =
            some (.error overlapError) := by
  have hone : Parsed (singleFile [1] [7] 0 1) := singleFile_parsed (by decide +kernel)
  have htwo : Parsed (singleFile [1] [7] 0 2) := singleFile_parsed (by decide +kernel)
  refine ⟨⟨readFrom_pair hone htwo (by decide +kernel), ?_⟩, staleDirectory_read, ?_⟩
  · have hloop : lastIdStore.map (fun store => (store.automaticCompactionEnabled,
        (PersistentKeyValueStore.compactIfRequired store).1.isOk,
        decide (store.sstables.options.level0CompactionTrigger ≤
          (PersistentKeyValueStore.compactIfRequired store).2.sstables.levelTableCount .Level0))) =
        .ok (true, false, true) := by
      decide +kernel
    obtain ⟨store, hstore, hloop⟩ := map_eq_ok hloop
    obtain ⟨hautomatic, hthrows⟩ := Prod.mk.inj hloop
    obtain ⟨hthrows, hcount⟩ := Prod.mk.inj hthrows
    cases hresult : (PersistentKeyValueStore.compactIfRequired store).1 with
    | ok value =>
      rw [hresult] at hthrows
      cases hthrows
    | error error => exact ⟨store, error, hstore, hautomatic, hresult, of_decide_eq_true hcount⟩
  · have hrun : (create pairOptions staleFiles (onlyManifest staleManifest)).map (fun manager =>
        (Traffic.run { manager := manager } (staleLabels ++
          [.beginCompaction true, .advance, .advance, .advance])).publication) =
            .ok (some (.error overlapError)) := by
      decide +kernel
    exact map_eq_ok hrun

end SSTableManager

end NebulaKV.Lsm
