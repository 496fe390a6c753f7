/-
# Writing and publishing tables

A table gets the next file id into its name, so no two tables share a path (`tablePath_fileId`). What
the manager keeps about its list of tables is `Proper`; a list that is proper is published unless one of
the counters is used up (`Full`), and the only other way for a write to fail is that the id counter is
used up, or that one table cannot hold the records (`Oversized`).
-/
import NebulaKV.Lsm.Merge
import NebulaKV.Lsm.TableWriter
import NebulaKV.Lsm.Selection

namespace NebulaKV.Lsm

open Containers Effects Program

/-! ## File names -/

theorem length_padded (width n : Nat) : (padded width n).length = width := by
  induction width generalizing n with
  | zero => rfl
  | succ width ih => rw [padded, List.length_append, ih, List.length_singleton]

theorem padded_inj {width n m : Nat} (hn : n < 10 ^ width) (hm : m < 10 ^ width)
    (h : padded width n = padded width m) : n = m := by
  induction width generalizing n m with
  | zero =>
    rw [pow_zero] at hn hm
    omega
  | succ width ih =>
    rw [pow_succ] at hn hm
    obtain ⟨hhigh, hlow⟩ := List.append_inj h (by rw [length_padded, length_padded])
    have hdiv := ih (Nat.div_lt_of_lt_mul (by omega)) (Nat.div_lt_of_lt_mul (by omega)) hhigh
    have hdigit := congrArg UInt8.toNat (List.singleton_inj.mp hlow)
    rw [UInt8.toNat_ofNat', UInt8.toNat_ofNat'] at hdigit
    omega

theorem tablePath_eq (level : SSTableLevel) (fileId generation maxSequence : Nat) :
    tablePath level fileId generation maxSequence =
      (ascii "sstable-" ++ levelName level ++ ascii "-f") ++ (padded 20 fileId ++
        (ascii "-g" ++ padded 20 generation ++ ascii "-s" ++ padded 20 maxSequence ++
          ascii ".sst")) := by
  simp only [tablePath, List.append_assoc]

theorem length_front (level : SSTableLevel) :
    (ascii "sstable-" ++ levelName level ++ ascii "-f").length = 12 := by
  cases level <;> decide

/-- The file id can be read off the path. -/
theorem tablePath_fileId {level level' : SSTableLevel} {fileId fileId' g g' s s' : Nat}
    (hid : fileId < u64) (hid' : fileId' < u64)
    (h : tablePath level fileId g s = tablePath level' fileId' g' s') : fileId = fileId' := by
  rw [tablePath_eq, tablePath_eq] at h
  obtain ⟨-, hrest⟩ := List.append_inj h (by rw [length_front, length_front])
  obtain ⟨hpadded, -⟩ := List.append_inj hrest (by rw [length_padded, length_padded])
  have hbig : u64 < 10 ^ 20 := by decide
  exact padded_inj (hid.trans hbig) (hid'.trans hbig) hpadded

theorem length_tablePath (level : SSTableLevel) (fileId generation maxSequence : Nat) :
    (tablePath level fileId generation maxSequence).length = 80 := by
  rw [tablePath_eq, List.length_append, length_front]
  simp only [List.length_append, length_padded]
  decide

theorem tablePath_ne_nil (level : SSTableLevel) (fileId generation maxSequence : Nat) :
    tablePath level fileId generation maxSequence ≠ [] := by
  intro hnil
  have := length_tablePath level fileId generation maxSequence
  rw [hnil] at this
  cases this

/-! ## Proper lists of tables -/

/-- The table was named with one of the ids given out. -/
def Named (nextFileId : Nat) (table : ManagedTable) : Prop :=
  ∃ level fileId generation maxSequence, fileId < nextFileId ∧
    table.path = tablePath level fileId generation maxSequence

/-- **What holds of the tables of a manager.** -/
structure Proper (nextFileId : Nat) (tables : List ManagedTable) : Prop where
  readable : Readable tables
  distinct : Distinct tables
  apart : Level1Apart tables
  named : ∀ table ∈ tables, Named nextFileId table
  generations : ∀ table ∈ tables, table.reader.metadata.generation < u64 - 1

section Proper

variable {n n' : Nat} {tables tables' : List ManagedTable} {table : ManagedTable}

theorem Named.mono (h : Named n table) (hn : n ≤ n') : Named n' table := by
  obtain ⟨level, fileId, generation, maxSequence, hlt, hpath⟩ := h
  exact ⟨level, fileId, generation, maxSequence, hlt.trans_le hn, hpath⟩

theorem Proper.mono (h : Proper n tables) (hn : n ≤ n') : Proper n' tables :=
  ⟨h.readable, h.distinct, h.apart, fun t ht => (h.named t ht).mono hn, h.generations⟩

theorem Proper.perm (h : Proper n tables) (hperm : tables.Perm tables') : Proper n tables' where
  readable := ⟨fun t ht => h.readable.wellFormed t (hperm.mem_iff.mpr ht),
    (hperm.map _).nodup_iff.mp h.readable.paths⟩
  distinct := h.distinct.of_sub fun _ ht => hperm.mem_iff.mpr ht
  apart := h.apart.perm hperm
  named t ht := h.named t (hperm.mem_iff.mpr ht)
  generations t ht := h.generations t (hperm.mem_iff.mpr ht)

theorem Proper.sublist (h : Proper n tables) (hsub : tables'.Sublist tables) : Proper n tables' where
  readable := ⟨fun t ht => h.readable.wellFormed t (hsub.subset ht),
    h.readable.paths.sublist (hsub.map _)⟩
  distinct := h.distinct.of_sub fun _ ht => hsub.subset ht
  apart := h.apart.sublist hsub
  named t ht := h.named t (hsub.subset ht)
  generations t ht := h.generations t (hsub.subset ht)

/-- A new table joins the others. -/
theorem Proper.cons (h : Proper n tables) (hw : table.reader.WellFormed) (hnamed : Named n table)
    (hfresh : table.path ∉ tables.map ManagedTable.path)
    (hgeneration : table.reader.metadata.generation < u64 - 1)
    (hdistinct : Distinct (table :: tables))
    (hapart : table.level = .Level1 → ∀ t ∈ tables, t.level = .Level1 → Apart table t) :
    Proper n (table :: tables) where
  readable := by
    refine ⟨fun t ht => ?_, List.nodup_cons.mpr ⟨hfresh, h.readable.paths⟩⟩
    rcases List.mem_cons.mp ht with rfl | ht
    · exact hw
    · exact h.readable.wellFormed t ht
  distinct := hdistinct
  apart := List.pairwise_cons.mpr ⟨fun t ht hlevel hlevel' => hapart hlevel t ht hlevel', h.apart⟩
  named t ht := by
    rcases List.mem_cons.mp ht with rfl | ht
    · exact hnamed
    · exact h.named t ht
  generations t ht := by
    rcases List.mem_cons.mp ht with rfl | ht
    · exact hgeneration
    · exact h.generations t ht

/-- The next id has not been used in a path. -/
theorem fresh_of_named (h : ∀ t ∈ tables, Named n t) (hn : n < u64) (level : SSTableLevel)
    (generation maxSequence : Nat) :
    tablePath level n generation maxSequence ∉ tables.map ManagedTable.path := by
  intro hmem
  obtain ⟨t, ht, heq⟩ := List.mem_map.mp hmem
  obtain ⟨level', fileId, g, s, hlt, hpath⟩ := h t ht
  have hsame := tablePath_fileId (hlt.trans hn) hn (hpath.symm.trans heq)
  omega

theorem Distinct.cons (h : Distinct tables) (hnew : ∀ key entry, table.reader.entryFor key = some entry →
    ∀ entry' ∈ Versioned.versions (lookups tables) key,
      entry'.sequenceNumber < entry.sequenceNumber) : Distinct (table :: tables) := by
  intro key entry he entry' he' heq
  rw [lookups_cons] at he he'
  rcases Versioned.mem_versions_cons.mp he with hown | hold
  · rcases Versioned.mem_versions_cons.mp he' with hown' | hold'
    · exact Option.some.inj (hown.symm.trans hown')
    · exact absurd heq (hnew key entry hown entry' hold').ne'
  · rcases Versioned.mem_versions_cons.mp he' with hown' | hold'
    · exact absurd heq (hnew key entry' hown' entry hold).ne
    · exact h key hold hold' heq

end Proper

/-! ## The manifest takes a proper list -/

theorem ManifestManager.checkTables_ok {filenames : List Bytes} {tables : List SSTableMetadata}
    (hpaths : (tables.map SSTableMetadata.path).Nodup)
    (hnew : ∀ table ∈ tables, table.path ∉ filenames)
    (hnames : ∀ table ∈ tables, table.path ≠ [] ∧ table.path.length ≤ kMaximumFilenameBytes)
    (hkeys : ∀ table ∈ tables, table.smallestKey ≠ [] ∧ table.largestKey ≠ [] ∧
      table.smallestKey ≤ table.largestKey) : checkTables filenames tables = .ok () := by
  induction tables generalizing filenames with
  | nil => rfl
  | cons table rest ih =>
    obtain ⟨hfresh, hrest⟩ := List.nodup_cons.mp hpaths
    obtain ⟨hname, hlength⟩ := hnames table (by simp)
    obtain ⟨hsmall, hlarge, hle⟩ := hkeys table (by simp)
    unfold checkTables
    rw [if_neg (by rw [not_or]; exact ⟨hname, not_lt.mpr hlength⟩), if_neg (hnew table (by simp)),
      if_neg (by rw [not_or, not_or]; exact ⟨hsmall, hlarge, not_lt.mpr hle⟩)]
    refine ih hrest (fun t ht hmem => ?_) (fun t ht => hnames t (by simp [ht]))
      fun t ht => hkeys t (by simp [ht])
    rcases List.mem_cons.mp hmem with heq | hmem
    · exact hfresh (List.mem_map.mpr ⟨t, ht, heq⟩)
    · exact hnew t (by simp [ht]) hmem

namespace SSTableManager

variable {manager : SSTableManager} {tables : List ManagedTable}

/-- A counter of the manifest is used up. -/
def Full (manager : SSTableManager) (tables : List ManagedTable) : Prop :=
  manager.manifest.currentGeneration = u64 - 1 ∨ kMaximumManifestTables < tables.length

theorem commit_ok (h : Proper manager.nextFileId tables) (hid : 0 < manager.nextFileId)
    (hfull : ¬ manager.Full tables) :
    ∃ manifest,
      manager.manifest.commit (tables.map ManagedTable.metadata) manager.nextFileId =
        .ok manifest ∧ manifest.currentGeneration = manager.manifest.currentGeneration + 1 := by
  obtain ⟨hgeneration, hcount⟩ := not_or.mp hfull
  have hpaths : (tables.map ManagedTable.metadata).map SSTableMetadata.path =
      tables.map ManagedTable.path := by
    rw [List.map_map]
    rfl
  have htables : ManifestManager.checkTables [] (tables.map ManagedTable.metadata) = .ok () := by
    refine ManifestManager.checkTables_ok (hpaths ▸ h.readable.paths) (by simp) ?_ ?_
    · intro metadata hmem
      obtain ⟨table, ht, rfl⟩ := List.mem_map.mp hmem
      obtain ⟨level, fileId, g, s, -, hpath⟩ := h.named table ht
      show table.path ≠ [] ∧ table.path.length ≤ kMaximumFilenameBytes
      rw [hpath, length_tablePath]
      exact ⟨tablePath_ne_nil _ _ _ _, by decide⟩
    · intro metadata hmem
      obtain ⟨table, ht, rfl⟩ := List.mem_map.mp hmem
      have hw := h.readable.wellFormed table ht
      obtain ⟨first, hfirst, hsmall⟩ := hw.exists_smallestKey
      obtain ⟨last, hlast, hlarge⟩ := hw.exists_largestKey
      show table.reader.metadata.smallestKey ≠ [] ∧ table.reader.metadata.largestKey ≠ [] ∧
        table.reader.metadata.smallestKey ≤ table.reader.metadata.largestKey
      exact ⟨hsmall ▸ (hw.valid first hfirst).key.1, hlarge ▸ (hw.valid last hlast).key.1,
        hw.smallestKey_le_largestKey⟩
  have hcheck : ManifestManager.checkManifest ⟨manager.manifest.currentGeneration + 1,
      manager.nextFileId, tables.map ManagedTable.metadata⟩ = .ok () := by
    unfold ManifestManager.checkManifest
    rw [if_neg (by dsimp only; omega), if_neg (by dsimp only; rw [List.length_map]; omega)]
    exact htables
  exact ⟨_, refuse_ok hgeneration <| bind_ok hcheck rfl, rfl⟩

/-- The fold takes the largest generation, or its start. -/
theorem foldl_maxGeneration_lt_iff (tables : List ManagedTable) {n start : Nat} :
    tables.foldl (fun acc (table : ManagedTable) => max acc table.reader.metadata.generation) start
      < n ↔ start < n ∧ ∀ table ∈ tables, table.reader.metadata.generation < n := by
  induction tables generalizing start with
  | nil => simp
  | cons table rest ih =>
    rw [List.foldl_cons, ih, max_lt_iff, List.forall_mem_cons, and_assoc]

theorem maxGeneration_lt (h : ∀ table ∈ tables, table.reader.metadata.generation < u64 - 1) :
    maxGeneration tables < u64 - 1 :=
  (foldl_maxGeneration_lt_iff tables).mpr ⟨by decide, h⟩

/-- A table of the last generation is the end. -/
theorem generationAfter_last {table : ManagedTable} (hmem : table ∈ tables)
    (hlast : table.reader.metadata.generation = u64 - 1)
    (h : ∀ table ∈ tables, table.reader.metadata.generation < u64) :
    ∃ e, generationAfter tables = .error e := by
  have hlt : maxGeneration tables < u64 :=
    (foldl_maxGeneration_lt_iff tables).mpr ⟨by decide, h⟩
  have hge : ¬ maxGeneration tables < u64 - 1 := fun hsmall =>
    (((foldl_maxGeneration_lt_iff tables).mp hsmall).2 table hmem).ne hlast
  unfold generationAfter
  rw [if_neg (List.ne_nil_of_mem hmem), if_pos (by omega)]
  exact ⟨_, rfl⟩

theorem generationAfter_ok (h : ∀ table ∈ tables, table.reader.metadata.generation < u64 - 1) :
    ∃ generation, generationAfter tables = .ok generation := by
  unfold generationAfter
  split_ifs with hnil hmax
  · exact ⟨0, rfl⟩
  · exact absurd hmax (maxGeneration_lt h).ne
  · exact ⟨_, rfl⟩

/-- What a manager looks like after a publication of the tables, in some order. -/
structure Published (manager : SSTableManager) (tables : List ManagedTable) (s : SSTableManager) :
    Prop where
  options : s.options = manager.options
  readers : s.readers.Perm tables
  cache : s.blockCache = manager.blockCache.clear
  generation : s.manifest.currentGeneration = manager.manifest.currentGeneration + 1
  nextFileId : s.nextFileId = manager.nextFileId
  few : s.readers.length ≤ kMaximumManifestTables

/-- **Publication** of a proper list. -/
theorem publishTables_outcome (manager : SSTableManager)
    (h : Proper manager.nextFileId tables) (hid : 0 < manager.nextFileId)
    (liveKeyCount : Nat) :
    Outcome (fun _ s => Published manager tables s)
      (fun s => s = manager ∧ manager.Full tables) (publishTables tables liveKeyCount manager) := by
  have hperm : (sortTables tables).Perm tables := List.perm_insertionSort _ _
  have hsorted := h.perm hperm.symm
  obtain ⟨generation, hgeneration⟩ := generationAfter_ok hsorted.generations
  unfold publishTables publishSorted
  rw [validateLevel1Ranges_ok hsorted.readable.wellFormed hsorted.apart, check_ok_bind, hgeneration,
    check_ok_bind, read_bind_apply]
  by_cases hfull : manager.Full (sortTables tables)
  · have hfull' : manager.Full tables := hfull.imp_right fun hlt => hperm.length_eq ▸ hlt
    refine Outcome.bind (M := fun manifest s => s = manager ∧
        manager.manifest.commit ((sortTables tables).map ManagedTable.metadata)
          manager.nextFileId = .ok manifest)
      (Outcome.check (fun manifest hok => ⟨rfl, hok⟩) (fun _ _ => ⟨rfl, hfull'⟩)) ?_
    rintro manifest s ⟨-, hok⟩
    -- neither of the two lets the commit through
    obtain ⟨hroom, hok⟩ := refuse_bind_eq_ok.mp hok
    obtain ⟨_, hcheck, -⟩ := bind_eq_ok.mp hok
    unfold ManifestManager.checkManifest at hcheck
    rcases hfull with hgen | hmany
    · exact absurd hgen hroom
    · rw [if_neg (by dsimp only; omega), if_pos (by dsimp only; rw [List.length_map]; exact hmany)]
        at hcheck
      cases hcheck
  · obtain ⟨manifest, hcommit, hnext⟩ := commit_ok hsorted hid hfull
    rw [hcommit, check_ok_bind]
    exact ⟨rfl, hperm, rfl, hnext, rfl, not_lt.mp fun hmany => hfull (Or.inr hmany)⟩

/-! ## Writing a table -/

/-- What a manager keeps between its calls. -/
structure Good (manager : SSTableManager) : Prop where
  proper : Proper manager.nextFileId manager.readers
  cache : CacheOK manager.readers manager.blockCache
  idPos : 0 < manager.nextFileId
  idLt : manager.nextFileId < u64
  target : ¬ (manager.options.targetDataBlockBytes = 0 ∨
    manager.options.targetDataBlockBytes > uint32Max)
  trigger : 2 ≤ manager.options.level0CompactionTrigger
  most : 2 ≤ manager.options.level0CompactionMaxTables

/-- Nothing but the cache, the files and perhaps one id has changed. -/
structure Kept (manager s : SSTableManager) : Prop where
  options : s.options = manager.options
  readers : s.readers = manager.readers
  manifest : s.manifest = manager.manifest
  cache : CacheOK s.readers s.blockCache
  idLe : manager.nextFileId ≤ s.nextFileId
  idNext : s.nextFileId ≤ manager.nextFileId + 1
  idLt : s.nextFileId < u64

theorem Kept.good {s : SSTableManager} (h : Kept manager s) (hgood : manager.Good) : s.Good where
  proper := by
    rw [h.readers]
    exact hgood.proper.mono h.idLe
  cache := h.cache
  idPos := hgood.idPos.trans_le h.idLe
  idLt := h.idLt
  target := by
    rw [h.options]
    exact hgood.target
  trigger := by
    rw [h.options]
    exact hgood.trigger
  most := by
    rw [h.options]
    exact hgood.most

theorem Good.kept (h : manager.Good) : Kept manager manager :=
  ⟨rfl, rfl, rfl, h.cache, le_rfl, Nat.le_succ _, h.idLt⟩

/-- A table with these records, under the next id. -/
structure WrittenAs (manager : SSTableManager) (level : SSTableLevel) (generation : Nat)
    (snapshot : Snapshot) (table : ManagedTable) : Prop where
  wellFormed : table.reader.WellFormed
  contents : table.reader.contents = snapshot
  path : table.path = tablePath level manager.nextFileId generation (snapshotMaxSequence snapshot)
  level_eq : table.level = level
  generation_eq : table.reader.metadata.generation = generation

/-- The data blocks of a table with these records. -/
def blocksOf (manager : SSTableManager) (records : Snapshot) : List DataBlock :=
  SSTableWriter.cutBlocks manager.options.targetDataBlockBytes [] SSTableWriter.emptyBlockSize records

/-- **One table cannot hold the records**: they need more than `2^32 - 1` data blocks, a file beyond the
largest `off_t`, or a Bloom filter beyond the limits of the process. -/
def Oversized (manager : SSTableManager) (records : Snapshot) : Prop :=
  uint32Max < (manager.blocksOf records).length ∨
    offMax < SSTableWriter.fileSize (manager.blocksOf records) ∨
    records ≠ [] ∧ manager.options.bloomSizing.bits records.length = none

theorem Oversized.count {records : Snapshot} (h : manager.Oversized records)
    (hvalid : ∀ record ∈ records, ValidRecord record) : uint32Max < records.length := by
  by_contra hfew
  have hfew := not_lt.mp hfew
  have hblocks : (manager.blocksOf records).length ≤ records.length :=
    SSTableWriter.length_blocksOf_le records ⟨[], manager.options.targetDataBlockBytes, 0⟩
  have hsize : SSTableWriter.fileSize (manager.blocksOf records) ≤ offMax :=
    SSTableWriter.fileSize_le ⟨[], manager.options.targetDataBlockBytes, 0⟩ hvalid hfew
  rcases h with hmany | hlarge | ⟨hne, hnone⟩
  · omega
  · omega
  · have hsized := manager.options.bloomSizing.sized records.length (List.length_pos_iff.mpr hne)
      (hfew.trans (by decide))
    rw [hnone] at hsized
    cases hsized

theorem Oversized.same {manager' : SSTableManager} {records : Snapshot} (h : manager.Oversized records)
    (hoptions : manager'.options = manager.options) : manager'.Oversized records := by
  unfold Oversized blocksOf at h ⊢
  rwa [hoptions]

/-- The three steps that make a table: a file is written, a Bloom filter built, the file opened. -/
structure Makes (manager : SSTableManager) (path : Bytes) (generation : Nat) (snapshot : Snapshot)
    (written : SSTableFile × SSTableMetadata) (filter : BloomFilter) (reader : SSTableReader) :
    Prop where
  write : SSTableWriter.write snapshot ⟨path, manager.options.targetDataBlockBytes, generation⟩ =
    .ok written
  build : BloomFilter.build manager.options.bloomSizing (snapshot.map Prod.fst) = .ok filter
  opens : SSTableReader.openFile path written.1 (some filter) = .ok reader

/-- **What `writeTable` does.** With an id left it makes a table, or a step fails and at most the file is
new. -/
theorem writeTable_runs (manager : SSTableManager) (level : SSTableLevel) (generation : Nat)
    (snapshot : Snapshot) {path : Bytes}
    (hpath : tablePath level manager.nextFileId generation (snapshotMaxSequence snapshot) = path) :
    Outcome
      (fun result s => manager.nextFileId ≠ u64 - 1 ∧ ∃ written filter reader,
        Makes manager path generation snapshot written filter reader ∧
        result.table = ⟨reader, level⟩ ∧
        s = { manager with
          nextFileId := manager.nextFileId + 1, files := manager.files.insert path written.1 })
      (fun s => manager.nextFileId = u64 - 1 ∧ s = manager ∨ manager.nextFileId ≠ u64 - 1 ∧
        (∀ written filter reader, ¬ Makes manager path generation snapshot written filter reader) ∧
        ∃ files, (files = manager.files ∨ ∃ file, files = manager.files.insert path file) ∧
          s = { manager with nextFileId := manager.nextFileId + 1, files := files })
      (writeTable level generation snapshot manager) := by
  unfold writeTable reserveFileId writeFile
  rw [bind_apply, read_bind_apply]
  by_cases hlast : manager.nextFileId = u64 - 1
  · rw [if_pos hlast]
    exact Or.inl ⟨hlast, rfl⟩
  rw [if_neg hlast]
  simp only [update_bind_apply, pure_apply, bind_bind, read_bind_apply, hpath]
  cases hwrite : SSTableWriter.write snapshot
      ⟨path, manager.options.targetDataBlockBytes, generation⟩ with
  | error e =>
    exact Or.inr ⟨hlast, fun _ _ _ hm => (by cases hwrite.symm.trans hm.write), _, Or.inl rfl, rfl⟩
  | ok written =>
  have hopened : written.2.path = path := by
    obtain ⟨_, _, _, -, -, rfl⟩ := SSTableWriter.write_eq_ok hwrite
    rfl
  simp only [check_ok_bind, update_bind_apply, pure_bind_apply, read_bind_apply, hopened]
  cases hbuild : BloomFilter.build manager.options.bloomSizing (snapshot.map Prod.fst) with
  | error e =>
    exact Or.inr ⟨hlast, fun _ _ _ hm => (by cases hbuild.symm.trans hm.build), _,
      Or.inr ⟨_, rfl⟩, rfl⟩
  | ok filter =>
  rw [check_ok_bind]
  cases hopen : SSTableReader.openFile path written.1 (some filter) with
  | error e =>
    refine Or.inr ⟨hlast, fun _ _ _ hm => ?_, _, Or.inr ⟨_, rfl⟩, rfl⟩
    obtain rfl := Except.ok.inj (hwrite.symm.trans hm.write)
    obtain rfl := Except.ok.inj (hbuild.symm.trans hm.build)
    cases hopen.symm.trans hm.opens
  | ok reader => exact ⟨hlast, written, filter, reader, ⟨hwrite, hbuild, hopen⟩, rfl, rfl⟩

/-- **Writing a table** fails only for want of an id, or for records that no table holds. -/
theorem writeTable_outcome (h : manager.Good) (level : SSTableLevel) (generation : Nat)
    {snapshot : Snapshot} (hne : snapshot ≠ []) (hsorted : KeySorted snapshot)
    (hvalid : ∀ record ∈ snapshot, ValidRecord record) :
    Outcome
      (fun written s => WrittenAs manager level generation snapshot written.table ∧
        Kept manager s ∧ s.nextFileId = manager.nextFileId + 1)
      (fun s => Kept manager s ∧
        (manager.nextFileId = u64 - 1 ∨ manager.Oversized snapshot))
      (writeTable level generation snapshot manager) := by
  have hlt := h.idLt
  have hkept : manager.nextFileId ≠ u64 - 1 → ∀ files,
      Kept manager { manager with nextFileId := manager.nextFileId + 1, files := files } :=
    fun hlast files => ⟨rfl, rfl, rfl, h.cache, Nat.le_succ _, le_rfl, by
      show manager.nextFileId + 1 < u64
      omega⟩
  refine (writeTable_runs manager level generation snapshot rfl).mono ?_ ?_
  · rintro result _ ⟨hlast, written, filter, reader, hm, htable, rfl⟩
    obtain ⟨hw, hcontents, hreader, hgeneration⟩ :=
      SSTableWriter.written_wellFormed hne hsorted hvalid hm.write hm.build hm.opens
    rw [htable]
    exact ⟨⟨hw, hcontents, hreader, rfl, hgeneration⟩, hkept hlast _, rfl⟩
  · rintro _ (⟨hlast, rfl⟩ | ⟨hlast, hfails, files, -, rfl⟩)
    · exact ⟨h.kept, Or.inl hlast⟩
    refine ⟨hkept hlast _, Or.inr (by_contra fun hroom => ?_)⟩
    -- where a table has room, none of the three steps fails
    obtain ⟨written, hwrite, -, hopens⟩ := SSTableWriter.write_ok
      ⟨_, manager.options.targetDataBlockBytes, generation⟩ hne hsorted hvalid
      (not_lt.mp fun hmany => hroom (Or.inl hmany))
      (not_lt.mp fun hlarge => hroom (Or.inr (Or.inl hlarge))) (tablePath_ne_nil _ _ _ _) h.target
    have hbits : manager.options.bloomSizing.bits (snapshot.map Prod.fst).length ≠ none := by
      rw [List.length_map]
      exact fun hnone => hroom (Or.inr (Or.inr ⟨hne, hnone⟩))
    obtain ⟨filter, hbuild⟩ := BloomFilter.build_ok (by simpa using hne) hbits
    obtain ⟨reader, hopen⟩ := hopens (some filter)
    exact hfails written filter reader ⟨hwrite, hbuild, hopen⟩

/-! ## An empty directory -/

/-- A manager without tables, as the constructor leaves it. -/
structure Fresh (options : SSTableManagerOptions) (manager : SSTableManager) : Prop where
  options : manager.options = options
  readers : manager.readers = []
  nextFileId : manager.nextFileId = 1
  generation : manager.manifest.currentGeneration = 1
  liveKeyCount : manager.liveKeyCount = 0
  maxSequenceNumber : manager.maxSequenceNumber = 0
  nextGeneration : manager.nextGeneration = 0

theorem proper_nil (n : Nat) : Proper n [] where
  readable := ⟨fun _ ht => (by cases ht), List.nodup_nil⟩
  distinct := fun _ _ he => by
    obtain ⟨t, ht, -⟩ := mem_versions.mp he
    cases ht
  apart := List.Pairwise.nil
  named := fun _ ht => by cases ht
  generations := fun _ ht => by cases ht

/-- **The constructor** on an empty directory. -/
theorem create_fresh {options : SSTableManagerOptions}
    (h : create options OrderedMap.empty {} = .ok manager) :
    Fresh options manager ∧ manager.Good := by
  obtain ⟨cache, hcache, h⟩ := bind_eq_ok.mp h
  obtain ⟨_, hoptions, h⟩ := bind_eq_ok.mp h
  obtain ⟨htarget, hoptions⟩ := refuse_bind_eq_ok.mp hoptions
  have hlimits := refuse_eq_ok.mp hoptions
  have hfresh : Fresh options manager ∧ manager.blockCache = cache.clear := by
    obtain rfl := Except.ok.inj h
    exact ⟨⟨rfl, rfl, rfl, rfl, rfl, rfl, rfl⟩, rfl⟩
  obtain ⟨hfresh, hclear⟩ := hfresh
  refine ⟨hfresh, ?_, ?_, ?_, ?_, ?_, ?_, ?_⟩
  · rw [hfresh.readers]
    exact proper_nil _
  · rw [hclear]
    exact BlockCache.sound_clear _ _
  · rw [hfresh.nextFileId]
    decide
  · rw [hfresh.nextFileId]
    decide
  · rw [hfresh.options]
    exact htarget
  · rw [hfresh.options]
    exact not_lt.mp fun hlt => hlimits (Or.inl hlt)
  · rw [hfresh.options]
    exact not_lt.mp fun hlt => hlimits (Or.inr (Or.inl hlt))

end SSTableManager

end NebulaKV.Lsm
