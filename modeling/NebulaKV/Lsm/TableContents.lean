/-
# What a table holds, and that the reader finds it

`WellFormed reader` says that the parts of an open file fit together: its blocks, one after the other,
are ONE sorted list of entries (`contents`), the index describes the blocks, and the Bloom filter
denies no key of the list. Then, through whatever the block cache holds, `get` is a lookup in that list
and `readAll` returns it.

A lookup changes the cache. `CacheOK tables` is what it keeps: a cached block is a block of the table
it is cached for. So the results are stated with `Yields (CacheOK tables)`.
-/
import NebulaKV.Lsm.Store
import NebulaKV.Versioned.Newest

namespace NebulaKV.Lsm

open Containers Effects Program

/-! ## Blocks -/

namespace DataBlock

variable {block : DataBlock}
variable {record : Bytes × Entry}

theorem firstKey_le (hs : KeySorted block.records) (h : record ∈ block.records) :
    block.firstKey ≤ record.1 := by
  unfold firstKey
  cases hr : block.records with
  | nil =>
    rw [hr] at h
    cases h
  | cons first rest =>
    rw [hr] at h hs
    rcases List.mem_cons.mp h with rfl | h
    · exact le_rfl
    · exact (hs.lt_of_mem h).le

theorem exists_firstKey (hne : block.records ≠ []) :
    ∃ record ∈ block.records, record.1 = block.firstKey := by
  unfold firstKey
  cases hr : block.records with
  | nil => exact absurd hr hne
  | cons first rest => exact ⟨first, by simp, rfl⟩

theorem exists_lastKey (hne : block.records ≠ []) :
    ∃ record ∈ block.records, record.1 = block.lastKey :=
  ⟨block.records.getLast hne, List.getLast_mem hne, by
    unfold lastKey
    rw [List.getLast?_eq_some_getLast hne]
    rfl⟩

theorem le_lastKey (hs : KeySorted block.records) (h : record ∈ block.records) :
    record.1 ≤ block.lastKey := by
  have hne : block.records ≠ [] := List.ne_nil_of_mem h
  have hlast : block.lastKey = (block.records.getLast hne).1 := by
    unfold lastKey
    rw [List.getLast?_eq_some_getLast hne]
    rfl
  rw [hlast]
  have hsplit := List.dropLast_append_getLast hne
  rw [KeySorted, ← hsplit] at hs
  rw [← hsplit] at h
  rcases List.mem_append.mp h with h | h
  · exact ((List.pairwise_append.mp hs).2.2 record h _ (by simp)).le
  · rw [List.mem_singleton.mp h]

end DataBlock

theorem findRecord_eq {block : DataBlock} (hs : KeySorted block.records) (key : Bytes) :
    SSTableReader.findRecord block key = lookup key block.records := by
  have hreaches : ∀ record : Bytes × Entry,
      decide (¬ record.1 < key) = true ↔ ¬ Prod.fst record < key := fun _ => decide_eq_true_iff
  have hruns : lookup key (block.records.flatMap fun record => [record]) =
      (block.records.find? fun record => decide (¬ record.1 < key)).bind
        fun record => lookup key [record] :=
    lookup_flatMap (by simpa using hs) (by simp) (by simp) hreaches
  rw [List.flatMap_singleton'] at hruns
  rw [hruns]
  unfold SSTableReader.findRecord
  cases block.records.find? fun record => decide (¬ record.1 < key) with
  | none => rfl
  | some record =>
    obtain ⟨found, entry⟩ := record
    simp only [Option.bind_some, lookup, eq_comm]

/-! ## Readers -/

/-- An entry that every layer below the store accepts. -/
structure ValidRecord (record : Bytes × Entry) : Prop where
  key : ValidKey record.1
  value : ValidValue record.2.value
  sequence_pos : record.2.sequenceNumber ≠ 0
  tombstone : record.2.deleted = true → record.2.value = []

namespace SSTableReader

/-- The entries of a file, block by block. -/
def contents (reader : SSTableReader) : Snapshot :=
  reader.file.blocks.flatMap fun placed => placed.block.records

/-- What a table holds for a key. -/
def entryFor (reader : SSTableReader) (key : Bytes) : Option Entry := lookup key reader.contents

/-- **A table whose parts fit together.** -/
structure WellFormed (reader : SSTableReader) : Prop where
  sorted : KeySorted reader.contents
  nonempty : reader.contents ≠ []
  valid : ∀ record ∈ reader.contents, ValidRecord record
  blocks : ∀ placed ∈ reader.file.blocks, placed.block.records ≠ []
  index : reader.file.index = reader.file.blocks.map SSTableWriter.indexOf
  offsets : (reader.file.blocks.map PlacedBlock.offset).Nodup
  readable : ∀ placed ∈ reader.file.blocks, placed.offset ≤ offMax
  count : reader.file.header.entryCount = reader.contents.length
  bloom : ∀ record ∈ reader.contents, reader.denies record.1 = false

variable {reader : SSTableReader}
variable {record : Bytes × Entry}

section

variable (h : reader.WellFormed)
include h

theorem WellFormed.block_sorted {placed : PlacedBlock}
    (hp : placed ∈ reader.file.blocks) : KeySorted placed.block.records := by
  obtain ⟨before, after, hsplit⟩ := List.append_of_mem hp
  have hsorted := h.sorted
  rw [contents, hsplit, List.flatMap_append, List.flatMap_cons] at hsorted
  exact (List.pairwise_append.mp (List.pairwise_append.mp hsorted).2.1).1

theorem WellFormed.entryFor_eq_some_iff {key : Bytes} {entry : Entry} :
    reader.entryFor key = some entry ↔ (key, entry) ∈ reader.contents :=
  lookup_eq_some_iff h.sorted

/-- The index search finds the only block a key can be in. -/
theorem WellFormed.entryFor_eq (key : Bytes) :
    reader.entryFor key = (reader.file.blocks.find? fun placed => ¬ placed.block.lastKey < key).bind
      fun placed => lookup key placed.block.records :=
  lookup_flatMap h.sorted (fun _ hp _ ha => DataBlock.le_lastKey (h.block_sorted hp) ha)
    (fun placed hp => DataBlock.exists_lastKey (h.blocks placed hp)) (by simp)

theorem WellFormed.smallestKey_eq : reader.metadata.smallestKey =
    (reader.file.blocks.head?.map fun placed => placed.block.firstKey).getD [] := by
  simp [metadata, h.index, SSTableWriter.indexOf, Function.comp_def]

theorem WellFormed.largestKey_eq : reader.metadata.largestKey =
    (reader.file.blocks.getLast?.map fun placed => placed.block.lastKey).getD [] := by
  simp [metadata, h.index, SSTableWriter.indexOf, Function.comp_def]

theorem WellFormed.blocks_ne_nil : reader.file.blocks ≠ [] := by
  intro hnil
  apply h.nonempty
  simp [contents, hnil]

/-- The smallest key of the metadata is the key of an entry. -/
theorem WellFormed.exists_smallestKey :
    ∃ record ∈ reader.contents, record.1 = reader.metadata.smallestKey := by
  rw [h.smallestKey_eq]
  cases hb : reader.file.blocks with
  | nil => exact absurd hb h.blocks_ne_nil
  | cons first rest =>
    have hfirst : first ∈ reader.file.blocks := by simp [hb]
    obtain ⟨record, hrec, hkey⟩ := DataBlock.exists_firstKey (h.blocks first hfirst)
    exact ⟨record, List.mem_flatMap.mpr ⟨first, hfirst, hrec⟩, hkey⟩

theorem WellFormed.exists_largestKey :
    ∃ record ∈ reader.contents, record.1 = reader.metadata.largestKey := by
  have hlast := List.getLast_mem h.blocks_ne_nil
  obtain ⟨record, hrec, hkey⟩ := DataBlock.exists_lastKey (h.blocks _ hlast)
  refine ⟨record, List.mem_flatMap.mpr ⟨_, hlast, hrec⟩, ?_⟩
  rw [h.largestKey_eq, List.getLast?_eq_some_getLast h.blocks_ne_nil, hkey]
  rfl

theorem WellFormed.smallestKey_le (hr : record ∈ reader.contents) :
    reader.metadata.smallestKey ≤ record.1 := by
  rw [h.smallestKey_eq]
  obtain ⟨placed, hp, hrec⟩ := List.mem_flatMap.mp hr
  cases hb : reader.file.blocks with
  | nil => exact absurd hb h.blocks_ne_nil
  | cons first rest =>
    have hfirst : first ∈ reader.file.blocks := by simp [hb]
    rw [hb] at hp
    show first.block.firstKey ≤ record.1
    rcases List.mem_cons.mp hp with rfl | hp
    · exact DataBlock.firstKey_le (h.block_sorted hfirst) hrec
    · -- a later block lies behind the first one
      have hsorted := h.sorted
      rw [contents, hb, List.flatMap_cons] at hsorted
      obtain ⟨a, ha, hak⟩ := DataBlock.exists_firstKey (h.blocks first hfirst)
      rw [← hak]
      exact ((List.pairwise_append.mp hsorted).2.2 a ha record
        (List.mem_flatMap.mpr ⟨placed, hp, hrec⟩)).le

theorem WellFormed.le_largestKey (hr : record ∈ reader.contents) :
    record.1 ≤ reader.metadata.largestKey := by
  obtain ⟨placed, hp, hrec⟩ := List.mem_flatMap.mp hr
  have hne := h.blocks_ne_nil
  rw [h.largestKey_eq, List.getLast?_eq_some_getLast hne]
  show record.1 ≤ (reader.file.blocks.getLast hne).block.lastKey
  have hlast := List.getLast_mem hne
  have hsplit := List.dropLast_append_getLast hne
  rw [← hsplit] at hp
  rcases List.mem_append.mp hp with hp | hp
  · have hsorted := h.sorted
    rw [contents, ← hsplit, List.flatMap_append] at hsorted
    obtain ⟨a, ha, hak⟩ := DataBlock.exists_lastKey (h.blocks _ hlast)
    rw [← hak]
    exact ((List.pairwise_append.mp hsorted).2.2 record (List.mem_flatMap.mpr ⟨placed, hp, hrec⟩) a
      (List.mem_flatMap.mpr ⟨_, by simp, ha⟩)).le
  · rw [List.mem_singleton.mp hp] at hrec
    exact DataBlock.le_lastKey (h.block_sorted hlast) hrec

theorem WellFormed.smallestKey_le_largestKey :
    reader.metadata.smallestKey ≤ reader.metadata.largestKey := by
  obtain ⟨record, hrec⟩ := List.exists_mem_of_ne_nil _ h.nonempty
  exact (h.smallestKey_le hrec).trans (h.le_largestKey hrec)

/-- A key outside the range of the metadata is not in the table. -/
theorem WellFormed.entryFor_of_outside {key : Bytes}
    (hout : outside key reader.metadata) : reader.entryFor key = none := by
  refine lookup_eq_none_iff.mpr fun record hr hk => ?_
  subst hk
  rcases hout with hlt | hgt
  · exact absurd hlt (not_lt.mpr (h.smallestKey_le hr))
  · exact absurd hgt (not_lt.mpr (h.le_largestKey hr))

theorem WellFormed.candidate_eq (key : Bytes) :
    reader.candidate key = (reader.file.blocks.find? fun placed =>
      ¬ placed.block.lastKey < key).map SSTableWriter.indexOf := by
  unfold candidate
  rw [h.index, List.find?_map]
  rfl

end

end SSTableReader

/-! ## Reading through the cache -/

section Cached

variable {reader : SSTableReader} {key : Bytes}

/-- What a cache may hold for the blocks of a reader is these blocks. -/
structure Owns (P : CacheKey → DataBlock → Prop) (reader : SSTableReader) : Prop where
  own : ∀ placed ∈ reader.file.blocks,
    P (reader.cacheKey (SSTableWriter.indexOf placed)) placed.block
  unique : ∀ placed ∈ reader.file.blocks, ∀ block,
    P (reader.cacheKey (SSTableWriter.indexOf placed)) block → block = placed.block

variable {P : CacheKey → DataBlock → Prop}
variable {placed : PlacedBlock}

theorem parseBlock_eq (hw : reader.WellFormed) (hp : placed ∈ reader.file.blocks) :
    reader.parseBlock (SSTableWriter.indexOf placed) = .ok placed.block := by
  have hfind : reader.file.blocks.find? (fun other =>
      other.offset = placed.offset ∧ other.size = placed.size) = some placed := by
    cases hf : reader.file.blocks.find? (fun other =>
        decide (other.offset = placed.offset ∧ other.size = placed.size)) with
    | none => simpa using List.find?_eq_none.mp hf placed hp
    | some other =>
      have hother : other.offset = placed.offset ∧ other.size = placed.size := by
        simpa using List.find?_some hf
      rw [List.inj_on_of_nodup_map hw.offsets (List.mem_of_find?_eq_some hf) hp hother.1]
  have hoffset : SSTableReader.checkOffset placed.offset = .ok () :=
    if_neg (not_lt.mpr (hw.readable placed hp))
  have hindex : reader.file.blocks.find? (fun other =>
      other.offset = (SSTableWriter.indexOf placed).blockOffset ∧
        other.size = (SSTableWriter.indexOf placed).blockSize) = some placed := hfind
  unfold SSTableReader.parseBlock
  rw [hindex, show (SSTableWriter.indexOf placed).blockOffset = placed.offset from rfl, hoffset]
  exact if_neg (by simp [SSTableWriter.indexOf])

theorem Owns.readDataBlock_yields (ho : Owns P reader) (hw : reader.WellFormed)
    (hp : placed ∈ reader.file.blocks) :
    Yields (fun cache => cache.Sound P) (reader.readDataBlock (SSTableWriter.indexOf placed))
      placed.block := by
  intro cache hcache
  obtain ⟨hcache', hhit⟩ := BlockCache.Sound.get hcache
    (reader.cacheKey (SSTableWriter.indexOf placed))
  unfold SSTableReader.readDataBlock SSTableReader.readCached
  rw [bind_apply]
  simp only [SSTableReader.cached]
  cases hget : (cache.get (reader.cacheKey (SSTableWriter.indexOf placed))).1 with
  | some block =>
    -- a hit: the cached block can only be this one
    rw [ho.unique placed hp block (hhit block hget)]
    exact ⟨_, rfl, hcache'⟩
  | none =>
    refine ⟨_, ?_, BlockCache.Sound.put hcache' (ho.own placed hp)⟩
    simp only [parseBlock_eq hw hp]
    rfl

theorem Owns.get_yields (ho : Owns P reader) (hw : reader.WellFormed) (hkey : ValidKey key) :
    Yields (fun cache => cache.Sound P) (reader.get key) (reader.entryFor key) := by
  unfold SSTableReader.get
  refine (Yields.check (validateKey_eq_ok.mpr hkey)).bind ?_
  by_cases hout : outside key reader.metadata
  · rw [if_pos hout, hw.entryFor_of_outside hout]
    exact Yields.ret none
  rw [if_neg hout, hw.candidate_eq]
  have hentry := hw.entryFor_eq key
  cases hfind : reader.file.blocks.find? fun placed => ¬ placed.block.lastKey < key with
  | none =>
    rw [hfind] at hentry
    rw [hentry]
    exact Yields.ret none
  | some placed =>
    have hp := List.mem_of_find?_eq_some hfind
    have hsorted := hw.block_sorted hp
    rw [hfind, Option.bind_some] at hentry
    simp only [Option.map_some]
    by_cases hfirst : key < (SSTableWriter.indexOf placed).firstKey
    · have hnone : reader.entryFor key = none := by
        rw [hentry]
        refine lookup_eq_none_iff.mpr fun record hrec hk => ?_
        exact absurd (hk ▸ DataBlock.firstKey_le hsorted hrec) (not_le.mpr hfirst)
      rw [if_pos hfirst, hnone]
      exact Yields.ret none
    rw [if_neg hfirst]
    by_cases hdenied : reader.denies key = true
    · -- the filter denies no key of the table
      have hnone : reader.entryFor key = none := by
        refine lookup_eq_none_iff.mpr fun record hrec hk => ?_
        have := hw.bloom record hrec
        rw [hk, hdenied] at this
        cases this
      rw [if_pos hdenied, hnone]
      exact Yields.ret none
    · rw [if_neg hdenied, hentry, ← findRecord_eq hsorted]
      exact (ho.readDataBlock_yields hw hp).bind (Yields.ret _)

theorem Owns.readAll_yields (ho : Owns P reader) (hw : reader.WellFormed) :
    Yields (fun cache => cache.Sound P) reader.readAll reader.contents := by
  unfold SSTableReader.readAll
  rw [hw.index]
  have hfold : Yields (fun cache => cache.Sound P)
      (Program.foldOver (fun records indexEntry => do
        let block ← reader.readDataBlock indexEntry
        return records ++ block.records) ([] : Snapshot)
        (reader.file.blocks.map SSTableWriter.indexOf)) reader.contents := by
    suffices h : ∀ (blocks : List PlacedBlock) (records : Snapshot),
        (∀ placed ∈ blocks, placed ∈ reader.file.blocks) →
        Yields (fun cache => cache.Sound P)
          (Program.foldOver (fun records indexEntry => do
            let block ← reader.readDataBlock indexEntry
            return records ++ block.records) records (blocks.map SSTableWriter.indexOf))
          (records ++ blocks.flatMap fun placed => placed.block.records) by
      exact h _ [] fun _ hp => hp
    intro blocks
    induction blocks with
    | nil =>
      intro records _
      simpa [Program.foldOver] using Yields.ret records
    | cons placed rest ih =>
      intro records hsub
      have hstep := (ho.readDataBlock_yields hw (hsub placed (by simp))).bind
        (f := fun block => pure (records ++ block.records)) (Yields.ret _)
      have hrest := ih (records ++ placed.block.records) fun p hp => hsub p (by simp [hp])
      rw [List.append_assoc] at hrest
      exact hstep.bind hrest
  refine hfold.bind ?_
  rw [if_neg (by simp [SSTableReader.metadata, hw.count])]
  exact Yields.ret _

end Cached

/-! ## Tables that share a cache -/

/-- A block of the table its key names. -/
def BlockOf (tables : List ManagedTable) (key : CacheKey) (block : DataBlock) : Prop :=
  ∃ table ∈ tables, table.path = key.tableId ∧
    ∃ placed ∈ table.reader.file.blocks, placed.offset = key.blockOffset ∧ placed.block = block

/-- The cache holds blocks of the tables only. -/
def CacheOK (tables : List ManagedTable) (cache : BlockCache) : Prop := cache.Sound (BlockOf tables)

/-- Tables that can be read: well-formed, and no two under one path. -/
structure Readable (tables : List ManagedTable) : Prop where
  wellFormed : ∀ table ∈ tables, table.reader.WellFormed
  paths : (tables.map ManagedTable.path).Nodup

section Reading

variable {tables : List ManagedTable} {table : ManagedTable} {key : Bytes}

theorem Readable.eq_of_path (h : Readable tables) {table' : ManagedTable} (ht : table ∈ tables)
    (ht' : table' ∈ tables) (hpath : table.path = table'.path) : table = table' :=
  List.inj_on_of_nodup_map h.paths ht ht' hpath

/-- Offsets and paths are unique. -/
theorem Readable.owns (h : Readable tables) (ht : table ∈ tables) :
    Owns (BlockOf tables) table.reader where
  own placed hp := ⟨table, ht, rfl, placed, hp, rfl, rfl⟩
  unique placed hp block := by
    rintro ⟨table', ht', hpath, placed', hp', hoffset, hblock⟩
    obtain rfl := h.eq_of_path ht' ht hpath
    obtain rfl := List.inj_on_of_nodup_map (h.wellFormed _ ht).offsets hp' hp hoffset
    exact hblock.symm

theorem get_yields (hr : Readable tables) (ht : table ∈ tables) (hkey : ValidKey key) :
    Yields (CacheOK tables) (table.reader.get key) (table.reader.entryFor key) :=
  (hr.owns ht).get_yields (hr.wellFormed table ht) hkey

theorem readAll_yields (hr : Readable tables) (ht : table ∈ tables) :
    Yields (CacheOK tables) table.reader.readAll table.reader.contents :=
  (hr.owns ht).readAll_yields (hr.wellFormed table ht)

end Reading

end NebulaKV.Lsm
