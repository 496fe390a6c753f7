/-
# A directory that is accepted

The constructor of `SSTableManager` reads every table of the manifest, or every table there is, and
refuses the directory when one of them cannot be read or two tables of Level 1 overlap. Whatever bytes
the files are, and whoever wrote them: what it has accepted are tables that can be read, under different
names, with Level 1 free of overlaps.
-/
import NebulaKV.Lsm.AcceptedTable
import NebulaKV.Lsm.ManifestFormat
import NebulaKV.Lsm.Publish
import NebulaKV.Lsm.Store

namespace NebulaKV.Lsm

open Containers Effects Program

/-! ## Reading a table whose blocks are not known yet -/

theorem BlockCache.Sound.mono {cache : BlockCache} {P P' : CacheKey → DataBlock → Prop}
    (h : cache.Sound P) (hP : ∀ key block, P key block → P' key block) : cache.Sound P' where
  blocks node hnode := hP _ _ (h.blocks node hnode)
  keys := h.keys
  slots_lt := h.slots_lt
  nodes_lt := h.nodes_lt

namespace SSTableReader

variable {reader : SSTableReader} {paths : List Bytes}

/-- The cache knows some paths, and of this file its own blocks. -/
def Known (paths : List Bytes) (reader : SSTableReader) (key : CacheKey) (block : DataBlock) : Prop :=
  key.tableId ∈ paths ∧ (key.tableId = reader.path →
    ∃ entry ∈ reader.file.index, entry.blockOffset = key.blockOffset ∧
      reader.parseBlock entry = .ok block)

theorem readDataBlock_known (hpath : reader.path ∈ paths)
    (hoffsets : (reader.file.index.map IndexEntry.blockOffset).Nodup) {entry : IndexEntry}
    (hentry : entry ∈ reader.file.index) :
    Holds (fun cache => cache.Sound (Known paths reader)) (reader.readDataBlock entry)
      (fun block cache => cache.Sound (Known paths reader) ∧ reader.parseBlock entry = .ok block)
      (fun _ => True) := by
  refine SSTableByteReader.readCached_holds fun block =>
    ⟨fun hknown => ?_, fun hblock => ⟨hpath, fun _ => ⟨entry, hentry, rfl, hblock⟩⟩⟩
  obtain ⟨other, hother, hoffset, hparse⟩ := hknown.2 rfl
  obtain rfl := List.inj_on_of_nodup_map hoffsets hother hentry hoffset
  exact hparse

theorem readAll_known (hpath : reader.path ∈ paths)
    (hoffsets : (reader.file.index.map IndexEntry.blockOffset).Nodup) {blockOf : IndexEntry → DataBlock}
    (hblocks : ∀ entry ∈ reader.file.index, ∀ block, reader.parseBlock entry = .ok block →
      blockOf entry = block) :
    Holds (fun cache => cache.Sound (Known paths reader)) reader.readAll
      (fun all cache => cache.Sound (Known paths reader) ∧
        (∀ entry ∈ reader.file.index, ∃ block, reader.parseBlock entry = .ok block) ∧
        all = (reader.file.index.flatMap fun entry => (blockOf entry).records) ∧
        all.length = reader.file.header.entryCount)
      (fun _ => True) := by
  intro cache hcache
  unfold readAll
  refine (SSTableByteReader.foldOver_blocks
    (fun entry hentry => readDataBlock_known hpath hoffsets hentry) hblocks [] cache hcache).bind ?_
  rintro all after ⟨hafter, hread, hrecords⟩
  rw [List.nil_append] at hrecords
  by_cases hcount : all.length ≠ reader.metadata.entryCount
  · rw [if_pos hcount]
    trivial
  · rw [if_neg hcount]
    exact ⟨hafter, hread, hrecords, not_not.mp hcount⟩

end SSTableReader

/-! ## Files as they are parsed -/

/-- The parts of a file, as its bytes are read. A block that cannot be parsed has no records, and then
does not match the index. -/
def Parsed (file : SSTableFile) : Prop :=
  ∃ path bytes reader, SSTableByteReader.openBytes path bytes none = .ok reader ∧
    file = reader.parts.file

section Parsed

variable {byteReader : SSTableByteReader} {path : Bytes} {filter : Option BloomFilter}

/-- What the parts give as a block is what the bytes give. -/
theorem parseBlock_parts (h : byteReader.Accepted) {entry : IndexEntry}
    (hentry : entry ∈ byteReader.index) {block : DataBlock}
    (hblock : SSTableReader.parseBlock ⟨path, byteReader.parts.file, filter⟩ entry = .ok block) :
    byteReader.parseBlock entry = .ok block := by
  obtain ⟨_, -, hblock⟩ := bind_eq_ok.mp hblock
  dsimp only [SSTableByteReader.parts] at hblock
  cases hfind : (byteReader.index.map fun entry =>
      (⟨entry.blockOffset, entry.blockSize, byteReader.blockOf entry⟩ : PlacedBlock)).find?
      (fun placed => placed.offset = entry.blockOffset ∧ placed.size = entry.blockSize) with
  | none =>
    rw [hfind] at hblock
    cases hblock
  | some placed =>
    rw [hfind] at hblock
    dsimp only at hblock
    split_ifs at hblock with hrange
    obtain rfl := Except.ok.inj hblock
    obtain ⟨other, hother, rfl⟩ := List.mem_map.mp (List.mem_of_find?_eq_some hfind)
    have hplace : other.blockOffset = entry.blockOffset ∧ other.blockSize = entry.blockSize := by
      simpa using List.find?_some hfind
    obtain rfl := List.inj_on_of_nodup_map h.offsets hother hentry hplace.1
    cases hparse : byteReader.parseBlock other with
    | ok parsed =>
      unfold SSTableByteReader.blockOf
      rw [hparse]
    | error e =>
      -- no records, so no first key
      exfalso
      refine hrange (Or.inl fun heq => (h.entries other hother).firstKey.1 ?_)
      rw [← heq]
      unfold SSTableByteReader.blockOf
      rw [hparse]
      rfl

/-- **A file that has been read is well-formed**, with a filter of its keys. -/
theorem Parsed.wellFormed {file : SSTableFile} (h : Parsed file) (hpath : path ≠ []) {paths : List Bytes}
    (hknown : path ∈ paths) :
    Holds (fun cache => cache.Sound (SSTableReader.Known paths ⟨path, file, none⟩))
      (SSTableReader.readAll ⟨path, file, none⟩)
      (fun contents cache => cache.Sound (SSTableReader.Known paths ⟨path, file, none⟩) ∧
        ∀ filter sizing, BloomFilter.build sizing (contents.map Prod.fst) = .ok filter →
          SSTableReader.WellFormed ⟨path, file, some filter⟩)
      (fun _ => True) := by
  obtain ⟨name, bytes, byteReader, hopen, rfl⟩ := h
  obtain ⟨haccepted, -, hbytes, -, hagain⟩ := SSTableByteReader.openBytes_accepted hopen
  intro cache hcache
  have hread := SSTableReader.readAll_known hknown haccepted.offsets
    (fun entry hentry block hblock => by
      have hparse := parseBlock_parts haccepted hentry hblock
      show byteReader.blockOf entry = block
      unfold SSTableByteReader.blockOf
      rw [hparse]) cache hcache
  refine hread.mono ?_ fun _ h => h
  rintro contents cache' ⟨hcache', hblocks, hcontents, hcount⟩
  refine ⟨hcache', fun filter sizing hfilter => ?_⟩
  have hfiltered := hagain path hpath (some filter)
  have haccepted' := (SSTableByteReader.openBytes_accepted hfiltered).1
  have hreadable : SSTableByteReader.BlocksReadable
      { byteReader with path := path, bloomFilter := some filter } := by
    intro entry hentry
    obtain ⟨block, hblock⟩ := hblocks entry hentry
    exact ⟨block, parseBlock_parts haccepted hentry hblock⟩
  have hparts : SSTableReader.contents
      (SSTableByteReader.parts { byteReader with path := path, bloomFilter := some filter }) =
        contents := by
    rw [SSTableByteReader.contents_parts, hcontents]
    rfl
  refine haccepted'.parts_wellFormed hreadable ?_ ?_
  · rw [hparts]
    exact hcount
  · rw [hparts]
    intro f hf
    obtain rfl := Option.some.inj hf
    exact ⟨sizing, hfilter⟩

end Parsed

namespace SSTableManager

/-- No table to come gets this name: it is made from no id that is still to be given out. -/
def Unclaimed (nextFileId : Nat) (path : Bytes) : Prop :=
  ∀ level fileId generation maxSequence, nextFileId ≤ fileId → fileId < u64 →
    path ≠ tablePath level fileId generation maxSequence

/-- **What holds on any directory that is accepted**: the tables can be read, those of Level 1 do not
overlap, and the limits of compaction are those the constructor takes. On the shelf are the tables that
somebody may read, those in use among them; the cache has blocks of these only, and no name will be
taken again. -/
structure Orderly (manager : SSTableManager) (shelf : List ManagedTable) : Prop where
  readable : Readable shelf
  cache : CacheOK shelf manager.blockCache
  used : ∀ table ∈ manager.readers, table ∈ shelf
  paths : (manager.readers.map ManagedTable.path).Nodup
  apart : Level1Apart manager.readers
  unclaimed : ∀ table ∈ shelf, Unclaimed manager.nextFileId table.path
  idLt : manager.nextFileId < u64
  current_lt : manager.manifest.currentGeneration < u64
  version_le : manager.stateVersion ≤ manager.manifest.currentGeneration
  trigger : 2 ≤ manager.options.level0CompactionTrigger
  most : 2 ≤ manager.options.level0CompactionMaxTables

/-! ## Loading -/

variable {manager : SSTableManager}
variable {rest rest' : Bytes} {start : SSTableManager}
variable {snapshot : ManifestSnapshot} {filenames : List Bytes} {options : SSTableManagerOptions}

/-- In the middle of loading: tables of different paths, and nothing else in the cache. -/
structure Loading (start manager : SSTableManager) : Prop where
  shape : ∃ readers cache, manager = { start with readers := readers, blockCache := cache }
  wellFormed : ∀ table ∈ manager.readers, table.reader.WellFormed
  cache : manager.blockCache.Sound fun key _ => key.tableId ∈ manager.readers.map ManagedTable.path

theorem loadTable_loads (h : Loading start manager)
    (hparsed : ∀ record ∈ start.files.entries, Parsed record.2) {path : Bytes}
    (hnew : path ∉ manager.readers.map ManagedTable.path) (accepts : SSTableMetadata → Bool) :
    Outcome (fun reader s => reader.path = path ∧ reader.WellFormed ∧ ∃ cache : BlockCache,
        s = { manager with blockCache := cache } ∧
        cache.Sound fun key _ => key.tableId ∈ path :: manager.readers.map ManagedTable.path)
      (fun _ => True) (loadTable path accepts manager) := by
  unfold loadTable
  rw [read_bind_apply]
  cases hfind : manager.files.find? path with
  | none => trivial
  | some file =>
    have hfile : Parsed file := by
      obtain ⟨readers, cache, rfl⟩ := h.shape
      exact hparsed _ (OrderedMap.find?_eq_some_iff.mp hfind)
    dsimp only
    cases hopen : SSTableReader.openFile path file none with
    | error e => trivial
    | ok uncached =>
      obtain ⟨rfl, -⟩ := SSTableWriter.openFile_eq_ok hopen
      have hpath : path ≠ [] := (refuse_bind_eq_ok.mp hopen).1
      rw [check_ok_bind]
      split_ifs
      · trivial
      have hknown : manager.blockCache.Sound (SSTableReader.Known
          (path :: manager.readers.map ManagedTable.path) ⟨path, file, none⟩) :=
        h.cache.mono fun key block hkey => ⟨List.mem_cons_of_mem _ hkey, fun heq => by
          have hsame : key.tableId = path := heq
          exact absurd (hsame ▸ hkey) hnew⟩
      have hread := hfile.wellFormed hpath List.mem_cons_self _ hknown
      refine Outcome.bind ((Outcome.zoom hread).mono (fun _ _ hs => hs) fun _ _ => trivial) ?_
      rintro contents s ⟨cache, ⟨hcache, hwell⟩, rfl⟩
      cases hbuild : BloomFilter.build manager.options.bloomSizing (contents.map Prod.fst) with
      | error e => trivial
      | ok filter =>
        rw [check_ok_bind]
        cases hagain : SSTableReader.openFile path file (some filter) with
        | error e => trivial
        | ok reader =>
          obtain ⟨rfl, -⟩ := SSTableWriter.openFile_eq_ok hagain
          exact ⟨rfl, hwell filter _ hbuild, cache, rfl, hcache.mono fun key block hkey => hkey.1⟩

/-- The loop over the tables, of a manifest or of the directory. -/
theorem loadTables_loads {α : Type} {path : α → Bytes} {accepts : α → SSTableMetadata → Bool}
    {level : α → SSTableLevel} {tables : List α} (h : Loading start manager)
    (hparsed : ∀ record ∈ start.files.entries, Parsed record.2)
    (hnodup : (manager.readers.map ManagedTable.path ++ tables.map path).Nodup) :
    Outcome (fun _ s => Loading start s ∧
        ∃ loaded : List ManagedTable, s.readers = manager.readers ++ loaded ∧
          loaded.map ManagedTable.path = tables.map path ∧
          loaded.map ManagedTable.level = tables.map level)
      (fun _ => True)
      (Program.forEach (fun table => do
        let reader ← loadTable (path table) (accepts table)
        Program.update (addReader reader (level table))) tables manager) := by
  induction tables generalizing manager with
  | nil => exact ⟨h, [], (List.append_nil _).symm, rfl, rfl⟩
  | cons table rest ih =>
    have hnew : path table ∉ manager.readers.map ManagedTable.path := by
      intro hmem
      exact (List.nodup_append.mp hnodup).2.2 _ hmem _ (by simp) rfl
    unfold Program.forEach
    refine Outcome.bind (M := fun _ s => Loading start s ∧ ∃ reader : SSTableReader,
      reader.path = path table ∧ s.readers = manager.readers ++ [⟨reader, level table⟩]) ?_ ?_
    · refine Outcome.bind (loadTable_loads h hparsed hnew (accepts table)) ?_
      rintro reader s ⟨hpath, hwell, cache, rfl, hcache⟩
      refine ⟨⟨?_, ?_, ?_⟩, reader, hpath, rfl⟩
      · obtain ⟨readers, cache', rfl⟩ := h.shape
        exact ⟨_, _, rfl⟩
      · intro t ht
        rcases List.mem_append.mp ht with ht | ht
        · exact h.wellFormed t ht
        · rw [List.mem_singleton.mp ht]
          exact hwell
      · refine hcache.mono fun key block hkey => ?_
        show key.tableId ∈ List.map ManagedTable.path (manager.readers ++ [⟨reader, level table⟩])
        rw [List.map_append]
        rcases List.mem_cons.mp hkey with heq | hmem
        · exact List.mem_append_right _ (by rw [heq, ← hpath]; exact List.mem_singleton.mpr rfl)
        · exact List.mem_append_left _ hmem
    · rintro _ s ⟨hloading, reader, hpath, hreaders⟩
      have hpaths : s.readers.map ManagedTable.path =
          manager.readers.map ManagedTable.path ++ [path table] := by
        rw [hreaders, List.map_append, ← hpath]
        rfl
      refine (ih hloading ?_).mono ?_ fun _ h => h
      · rw [hpaths, List.append_assoc]
        exact hnodup
      · rintro _ s' ⟨hloading', loaded, hloaded, hnames, hlevels⟩
        refine ⟨hloading', ⟨reader, level table⟩ :: loaded, ?_, ?_, ?_⟩
        · rw [hloaded, hreaders, List.append_assoc]
          rfl
        · rw [List.map_cons, List.map_cons, hnames]
          exact congrArg (· :: _) hpath
        · rw [List.map_cons, List.map_cons, hlevels]

theorem checkDisjoint_apart {metadata : List SSTableMetadata}
    (hranges : ∀ table ∈ metadata, table.smallestKey ≤ table.largestKey)
    (h : checkDisjoint metadata = .ok ()) :
    metadata.Pairwise fun left right => left.largestKey < right.smallestKey := by
  induction metadata with
  | nil => exact List.Pairwise.nil
  | cons left rest ih =>
    cases rest with
    | nil => exact List.pairwise_singleton _ _
    | cons right rest =>
      unfold checkDisjoint at h
      split_ifs at h with htouch
      have hrest := ih (List.forall_mem_cons.mp hranges).2 h
      have hnext := not_le.mp htouch
      refine List.pairwise_cons.mpr ⟨fun t ht => ?_, hrest⟩
      rcases List.mem_cons.mp ht with rfl | ht
      · exact hnext
      · -- the ranges in between lie behind each other
        exact hnext.trans_le ((hranges right (by simp)).trans
          (List.rel_of_pairwise_cons hrest ht).le)

/-- The check lets only tables without overlaps through. -/
theorem level1Apart_of_validate {tables : List ManagedTable}
    (hw : ∀ table ∈ tables, table.reader.WellFormed) (h : validateLevel1Ranges tables = .ok ()) :
    Level1Apart tables := by
  have hperm := List.perm_insertionSort
    (fun left right : SSTableMetadata => ¬ right.smallestKey < left.smallestKey)
    ((tables.filter (·.level = .Level1)).map ManagedTable.metadata)
  have hranges : ∀ metadata ∈ (tables.filter (·.level = .Level1)).map ManagedTable.metadata,
      metadata.smallestKey ≤ metadata.largestKey := by
    intro metadata hmem
    obtain ⟨table, ht, rfl⟩ := List.mem_map.mp hmem
    exact (hw table (List.mem_of_mem_filter ht)).smallestKey_le_largestKey
  have hsorted := checkDisjoint_apart (fun t ht => hranges t (hperm.mem_iff.mp ht)) h
  have hnone : ((tables.filter (·.level = .Level1)).map ManagedTable.metadata).Pairwise
      fun left right => ¬ rangesOverlap left.smallestKey left.largestKey right.smallestKey
        right.largestKey := by
    refine hperm.pairwise (hsorted.imp fun hlt hoverlap => ?_) fun hno hoverlap =>
      hno ⟨hoverlap.2, hoverlap.1⟩
    exact absurd hlt (not_lt.mpr hoverlap.2)
  have hfilter := List.pairwise_filter.mp (List.pairwise_map.mp hnone)
  exact hfilter.imp fun hpair hleft hright => hpair (by simpa using hleft) (by simpa using hright)

/-- All tables are there, and the counters are numbers of the machine. -/
structure Loaded (options : SSTableManagerOptions) (manager : SSTableManager) : Prop where
  options_eq : manager.options = options
  readable : Readable manager.readers
  apart : Level1Apart manager.readers
  idLt : manager.nextFileId < u64
  current_lt : manager.manifest.currentGeneration < u64
  version : manager.stateVersion = 0

/-- Where loading starts. -/
structure Start (start : SSTableManager) : Prop where
  readers : start.readers = []
  version : start.stateVersion = 0
  cache : ∀ P, start.blockCache.Sound P
  parsed : ∀ record ∈ start.files.entries, Parsed record.2

theorem Start.loading (h : Start start) : Loading start start :=
  ⟨⟨_, _, rfl⟩, fun _ ht => (by rw [h.readers] at ht; cases ht), h.cache _⟩

theorem nodup_sortReaders (h : (manager.readers.map ManagedTable.path).Nodup) :
    ((sortReaders manager).readers.map ManagedTable.path).Nodup :=
  ((List.perm_insertionSort _ _).map _).nodup_iff.mpr h

theorem loadManifestSnapshot_loaded (h : Start manager)
    (hnodup : (snapshot.tables.map SSTableMetadata.path).Nodup) (hid : snapshot.nextFileId < u64)
    (hcurrent : manager.manifest.currentGeneration < u64) :
    Outcome (fun _ s => Loaded manager.options s) (fun _ => True)
      (loadManifestSnapshot snapshot manager) := by
  unfold loadManifestSnapshot
  refine Outcome.bind (loadTables_loads h.loading h.parsed (by rw [h.readers]; exact hnodup)) ?_
  rintro _ s ⟨hloading, loaded, hloaded, hnames, -⟩
  have hpaths : (s.readers.map ManagedTable.path).Nodup := by
    rw [hloaded, h.readers, List.nil_append, hnames]
    exact hnodup
  have hw : ∀ table ∈ (sortReaders s).readers, table.reader.WellFormed := fun t ht =>
    hloading.wellFormed t ((List.perm_insertionSort _ _).mem_iff.mp ht)
  rw [update_bind_apply, read_bind_apply]
  cases hvalidate : validateLevel1Ranges (sortReaders s).readers with
  | error e => trivial
  | ok u =>
    rw [check_ok_bind]
    have hapart := level1Apart_of_validate hw hvalidate
    obtain ⟨readers, cache, rfl⟩ := hloading.shape
    exact ⟨rfl, ⟨hw, nodup_sortReaders hpaths⟩, hapart, hid, hcurrent, h.version⟩

theorem migrateLegacyTables_loaded (h : Start manager)
    (hcurrent : manager.manifest.currentGeneration < u64) :
    Outcome (fun _ s => Loaded manager.options s) (fun _ => True) (migrateLegacyTables manager) := by
  have hnodup : ((manager.files.entries.map Prod.fst).map id).Nodup := by
    rw [List.map_id]
    exact List.pairwise_map.mpr (manager.files.sorted.imp fun hlt => hlt.ne)
  unfold migrateLegacyTables
  rw [read_bind_apply]
  refine Outcome.bind (@loadTables_loads manager manager Bytes id (fun _ _ => true)
    (fun _ => .Level0) _ h.loading h.parsed (by rw [h.readers]; exact hnodup)) ?_
  rintro _ s ⟨hloading, loaded, hloaded, hnames, hlevels⟩
  have hreaders : s.readers = loaded := by rw [hloaded, h.readers, List.nil_append]
  have hpaths : (s.readers.map ManagedTable.path).Nodup := by
    rw [hreaders, hnames]
    exact hnodup
  have hlevel0 : ∀ table ∈ s.readers, table.level = .Level0 := by
    intro table ht
    rw [hreaders] at ht
    have hmem : table.level ∈ loaded.map ManagedTable.level := List.mem_map_of_mem ht
    rw [hlevels] at hmem
    obtain ⟨_, -, hlevel⟩ := List.mem_map.mp hmem
    exact hlevel.symm
  have hperm : (sortTables s.readers).Perm s.readers := List.perm_insertionSort _ _
  have hapart : Level1Apart (sortReaders s).readers := by
    refine List.Pairwise.imp_of_mem ?_ (List.pairwise_of_forall fun _ _ => trivial)
    intro left right hleft _ _ hlevel
    rw [hlevel0 left (hperm.mem_iff.mp hleft)] at hlevel
    cases hlevel
  have hw : ∀ table ∈ (sortReaders s).readers, table.reader.WellFormed := fun t ht =>
    hloading.wellFormed t (hperm.mem_iff.mp ht)
  rw [update_bind_apply, read_bind_apply]
  refine Outcome.bind (M := fun committed t => t = sortReaders s ∧
      (sortReaders s).manifest.commit ((sortReaders s).readers.map ManagedTable.metadata) 1 =
        .ok committed) (Outcome.check (fun _ hcommit => ⟨rfl, hcommit⟩) fun _ _ => trivial) ?_
  rintro committed _ ⟨rfl, hcommit⟩
  have hsorted := nodup_sortReaders hpaths
  obtain ⟨readers, cache, rfl⟩ := hloading.shape
  obtain ⟨hroom, hcommit⟩ := refuse_bind_eq_ok.mp hcommit
  obtain ⟨_, -, hcommit⟩ := bind_eq_ok.mp hcommit
  obtain rfl := Except.ok.inj hcommit
  have hlast : manager.manifest.currentGeneration ≠ u64 - 1 := hroom
  refine ⟨rfl, ⟨hw, hsorted⟩, hapart, show 1 < u64 by decide, ?_, h.version⟩
  show manager.manifest.currentGeneration + 1 < u64
  omega

/-! ## The constructor -/

theorem readTable_new {table : SSTableMetadata}
    (h : ManifestFormat.readTable filenames rest = .ok (table, rest')) :
    table.path ∉ filenames := by
  obtain ⟨⟨_, rest⟩, -, h⟩ := bind_eq_ok.mp h
  obtain ⟨⟨_, rest⟩, -, h⟩ := bind_eq_ok.mp h
  obtain ⟨-, h⟩ := refuse_bind_eq_ok.mp h
  obtain ⟨⟨_, rest⟩, -, h⟩ := bind_eq_ok.mp h
  obtain ⟨-, h⟩ := refuse_bind_eq_ok.mp h
  obtain ⟨_, -, h⟩ := bind_eq_ok.mp h
  obtain ⟨⟨_, rest⟩, -, h⟩ := bind_eq_ok.mp h
  obtain ⟨⟨_, rest⟩, -, h⟩ := bind_eq_ok.mp h
  obtain ⟨⟨_, rest⟩, -, h⟩ := bind_eq_ok.mp h
  obtain ⟨⟨_, rest⟩, -, h⟩ := bind_eq_ok.mp h
  obtain ⟨⟨_, rest⟩, -, h⟩ := bind_eq_ok.mp h
  obtain ⟨⟨_, rest⟩, -, h⟩ := bind_eq_ok.mp h
  obtain ⟨⟨_, rest⟩, -, h⟩ := bind_eq_ok.mp h
  obtain ⟨⟨_, rest⟩, -, h⟩ := bind_eq_ok.mp h
  obtain ⟨-, h⟩ := refuse_bind_eq_ok.mp h
  obtain ⟨⟨filename, rest⟩, -, h⟩ := bind_eq_ok.mp h
  obtain ⟨hnew, h⟩ := refuse_bind_eq_ok.mp h
  obtain ⟨⟨_, rest⟩, -, h⟩ := bind_eq_ok.mp h
  obtain ⟨⟨_, rest⟩, -, h⟩ := bind_eq_ok.mp h
  obtain ⟨rfl, -⟩ := Prod.mk.inj (Except.ok.inj h)
  exact fun hmem => hnew (Or.inr hmem)

theorem parseTables_nodup {count : Nat} {tables : List SSTableMetadata}
    (h : ManifestFormat.parseTables filenames count rest = .ok (tables, rest')) :
    (tables.map SSTableMetadata.path).Nodup ∧ ∀ table ∈ tables, table.path ∉ filenames := by
  induction count generalizing filenames rest rest' tables with
  | zero =>
    obtain ⟨rfl, -⟩ := Prod.mk.inj (Except.ok.inj h)
    exact ⟨List.nodup_nil, fun _ ht => by cases ht⟩
  | succ count ih =>
    obtain ⟨⟨table, middle⟩, htable, h⟩ := bind_eq_ok.mp h
    obtain ⟨-, h⟩ := refuse_bind_eq_ok.mp h
    obtain ⟨⟨others, last⟩, hothers, h⟩ := bind_eq_ok.mp h
    obtain ⟨rfl, -⟩ := Prod.mk.inj (Except.ok.inj h)
    obtain ⟨hnodup, hrest⟩ := ih hothers
    refine ⟨List.nodup_cons.mpr ⟨fun hmem => ?_, hnodup⟩, fun t ht => ?_⟩
    · obtain ⟨t, ht, hpath⟩ := List.mem_map.mp hmem
      exact hrest t ht (hpath ▸ List.mem_cons_self)
    · rcases List.mem_cons.mp ht with rfl | ht
      · exact readTable_new htable
      · exact fun hmem => hrest t ht (List.mem_cons_of_mem _ hmem)

/-- A manifest as it is parsed. -/
def ParsedManifest (snapshot : ManifestSnapshot) : Prop :=
  ∃ bytes, ManifestFormat.parseManifest bytes = .ok snapshot

theorem readUint64_lt {value : Nat}
    (h : ManifestFormat.Decoder.readUint64 rest = .ok (value, rest')) : value < u64 := by
  obtain ⟨⟨bytes, _⟩, hbytes, h⟩ := bind_eq_ok.mp h
  obtain ⟨-, hbytes⟩ := refuse_bind_eq_ok.mp hbytes
  obtain ⟨rfl, -⟩ := Prod.mk.inj (Except.ok.inj hbytes)
  obtain ⟨rfl, -⟩ := Prod.mk.inj (Except.ok.inj h)
  exact (Codec.leValue_lt _).trans_le
    (Nat.pow_le_pow_right (by decide) (List.length_take_le 8 rest))

theorem readManifestHeader_lt {generation nextFileId count : Nat}
    (h : ManifestFormat.readManifestHeader rest = .ok ((generation, nextFileId, count), rest')) :
    generation < u64 ∧ nextFileId < u64 := by
  obtain ⟨_, -, h⟩ := bind_eq_ok.mp h
  obtain ⟨⟨_, _⟩, -, h⟩ := bind_eq_ok.mp h
  obtain ⟨-, h⟩ := refuse_bind_eq_ok.mp h
  obtain ⟨⟨_, _⟩, -, h⟩ := bind_eq_ok.mp h
  obtain ⟨-, h⟩ := refuse_bind_eq_ok.mp h
  obtain ⟨⟨_, _⟩, hgeneration, h⟩ := bind_eq_ok.mp h
  obtain ⟨⟨_, _⟩, hnext, h⟩ := bind_eq_ok.mp h
  obtain ⟨⟨_, _⟩, -, h⟩ := bind_eq_ok.mp h
  obtain ⟨⟨_, _⟩, -, h⟩ := bind_eq_ok.mp h
  obtain ⟨-, h⟩ := refuse_bind_eq_ok.mp h
  obtain ⟨-, h⟩ := refuse_bind_eq_ok.mp h
  obtain ⟨hcounters, -⟩ := Prod.mk.inj (Except.ok.inj h)
  obtain ⟨rfl, hids⟩ := Prod.mk.inj hcounters
  obtain ⟨rfl, -⟩ := Prod.mk.inj hids
  exact ⟨readUint64_lt hgeneration, readUint64_lt hnext⟩

/-- Different paths, and counters of eight bytes. -/
theorem ParsedManifest.checked (h : ParsedManifest snapshot) :
    (snapshot.tables.map SSTableMetadata.path).Nodup ∧ snapshot.generation < u64 ∧
      snapshot.nextFileId < u64 := by
  obtain ⟨bytes, h⟩ := h
  obtain ⟨_, -, h⟩ := bind_eq_ok.mp h
  obtain ⟨⟨⟨_, _, _⟩, _⟩, hheader, h⟩ := bind_eq_ok.mp h
  obtain ⟨⟨tables, _⟩, htables, h⟩ := bind_eq_ok.mp h
  obtain ⟨-, h⟩ := refuse_bind_eq_ok.mp h
  obtain rfl := Except.ok.inj h
  exact ⟨(parseTables_nodup htables).1, readManifestHeader_lt hheader⟩

/-- The manifest in use is one of the directory, and its generation is the current one. -/
theorem loadManifest_found (manager : SSTableManager) :
    Outcome (fun found s => ∃ manifest : ManifestManager, s = { manager with manifest := manifest } ∧
        (found = none → manifest = manager.manifest) ∧
        ∀ snapshot, found = some snapshot → manifest.currentGeneration = snapshot.generation ∧
          ∃ generation, manager.manifest.manifests.find? generation = some snapshot)
      (fun _ => True) (loadManifest manager) := by
  unfold loadManifest
  rw [read_bind_apply]
  have hload : Outcome (fun found (manifest : ManifestManager) =>
        (found = none → manifest = manager.manifest) ∧ ∀ snapshot, found = some snapshot →
          manifest.currentGeneration = snapshot.generation ∧
          ∃ generation, manager.manifest.manifests.find? generation = some snapshot) (fun _ => True)
      (ManifestManager.load (fun path => (manager.files.find? path).isSome) manager.manifest) := by
    unfold ManifestManager.load
    rw [read_bind_apply]
    cases manager.manifest.current with
    | none =>
      dsimp only
      split_ifs
      · trivial
      · exact ⟨fun _ => rfl, fun snapshot hnone => by cases hnone⟩
    | some generation =>
      dsimp only
      cases hfind : manager.manifest.manifests.find? generation with
      | none => trivial
      | some snapshot =>
        dsimp only
        split_ifs with _ _ hgeneration
        · trivial
        · trivial
        · trivial
        · trivial
        · refine ⟨fun hnone => (by cases hnone), fun found hfound => ?_⟩
          obtain rfl := Option.some.inj hfound
          exact ⟨(not_not.mp hgeneration).symm, generation, hfind⟩
  refine (Outcome.zoom hload).mono ?_ fun _ _ => trivial
  rintro found s ⟨manifest, ⟨hnone, hfound⟩, rfl⟩
  exact ⟨manifest, rfl, hnone, hfound⟩

theorem finishLoading_loaded (h : Loaded options manager) :
    Outcome (fun _ s => Loaded options s ∧ ∀ P, s.blockCache.Sound P) (fun _ => True)
      (finishLoading manager) := by
  unfold finishLoading
  rw [update_bind_apply, read_bind_apply]
  refine Outcome.bind (M := fun _ t => Loaded options t) ?_ ?_
  · unfold withCache Program.zoom
    rcases computeLiveKeyCount (cleanupAbandonedFiles manager).readers
      (cleanupAbandonedFiles manager).blockCache with ⟨result, cache⟩
    cases result with
    | error e => trivial
    | ok count => exact ⟨h.options_eq, h.readable, h.apart, h.idLt, h.current_lt, h.version⟩
  intro liveCount t ht
  refine Outcome.bind (M := fun _ u => u = t) (Outcome.check (fun _ _ => rfl) fun _ _ => trivial) ?_
  rintro nextGeneration u rfl
  exact ⟨⟨ht.options_eq, ht.readable, ht.apart, ht.idLt, ht.current_lt, ht.version⟩,
    BlockCache.sound_clear _⟩

theorem loadExisting_loaded (h : Start manager)
    (hmanifests : ∀ record ∈ manager.manifest.manifests.entries, ParsedManifest record.2)
    (hcurrent : manager.manifest.currentGeneration < u64) :
    Outcome (fun _ s => Loaded manager.options s ∧ ∀ P, s.blockCache.Sound P) (fun _ => True)
      (loadExisting manager) := by
  unfold loadExisting
  refine Outcome.bind (loadManifest_found manager) ?_
  rintro found s ⟨manifest, rfl, hnone, hfound⟩
  have hstart : Start { manager with manifest := manifest } :=
    ⟨h.readers, h.version, h.cache, h.parsed⟩
  cases found with
  | none =>
    have hsame : manifest.currentGeneration < u64 := by
      rw [hnone rfl]
      exact hcurrent
    exact Outcome.bind (migrateLegacyTables_loaded hstart hsame) fun _ s hs =>
      finishLoading_loaded hs
  | some snapshot =>
    obtain ⟨hgeneration, generation, hfind⟩ := hfound snapshot rfl
    obtain ⟨hnodup, hlt, hid⟩ := (hmanifests _ (OrderedMap.find?_eq_some_iff.mp hfind)).checked
    exact Outcome.bind (loadManifestSnapshot_loaded hstart hnodup hid (hgeneration ▸ hlt))
      fun _ s hs => finishLoading_loaded hs

/-- **The constructor accepts orderly directories only**, where the names are not still to come. -/
theorem create_orderly {files : OrderedMap Bytes SSTableFile} {manifest : ManifestManager}
    (hfiles : ∀ record ∈ files.entries, Parsed record.2)
    (hmanifests : ∀ record ∈ manifest.manifests.entries, ParsedManifest record.2)
    (h : create options files manifest = .ok manager)
    (hnames : ∀ table ∈ manager.readers, Unclaimed manager.nextFileId table.path) :
    manager.Orderly manager.readers := by
  obtain ⟨blockCache, hcache, h⟩ := bind_eq_ok.mp h
  obtain ⟨_, hoptions, h⟩ := bind_eq_ok.mp h
  obtain ⟨-, hlimits⟩ := refuse_bind_eq_ok.mp hoptions
  have hlimits := refuse_eq_ok.mp hlimits
  have hstart : Start { options, blockCache, files, manifest := manifest.opened 0 } :=
    ⟨rfl, rfl, BlockCache.create_sound hcache, hfiles⟩
  have hload := loadExisting_loaded hstart hmanifests (show 0 < u64 by decide)
  rcases hrun : loadExisting { options, blockCache, files, manifest := manifest.opened 0 }
    with ⟨result, s⟩
  rw [hrun] at h hload
  cases result with
  | error e => cases h
  | ok u =>
    obtain rfl := Except.ok.inj h
    obtain ⟨hloaded, hclear⟩ := hload
    refine ⟨hloaded.readable, hclear _, fun _ ht => ht, hloaded.readable.paths, hloaded.apart,
      hnames, hloaded.idLt, hloaded.current_lt, by rw [hloaded.version]; exact Nat.zero_le _, ?_, ?_⟩
    · rw [hloaded.options_eq]
      show 2 ≤ options.level0CompactionTrigger
      omega
    · rw [hloaded.options_eq]
      show 2 ≤ options.level0CompactionMaxTables
      omega

end SSTableManager

end NebulaKV.Lsm
