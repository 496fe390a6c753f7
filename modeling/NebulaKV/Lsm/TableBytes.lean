/-
# An SSTable on disk

The writer and the reader on BYTES: `SSTableWriter.writeBytes` is what `write` puts into the file, and
`SSTableByteReader` is the reader over a file of bytes, with every check of its constructor. The reader
over the parts of a file (`SSTableReader`) is what they refine: a written file, opened, `Mirrors` its
layout, and then every lookup does the same on both.

So what is written is read back (`write_read_back`), with or without a Bloom filter and whatever blocks of
the file the cache holds. Neither the system's `write` nor its `pread` reaches beyond the largest
`off_t`; a file that was written lies within that range.
-/
import NebulaKV.Lsm.TableFormat

namespace NebulaKV.Lsm

open Containers Effects Program SSTableFormat

/-! ## The writer -/

namespace SSTableWriter

/-- The third loop: the bytes of the blocks, the index, and where the last block ends. -/
def writeBlocks (offset : Nat) : List DataBlock → Except Error (Bytes × List IndexEntry × Nat)
  | [] => .ok ([], [], offset)
  | block :: rest => do
    let encoded ← serializeDataBlock block
    let (bytes, index, last) ← writeBlocks (offset + encoded.length) rest
    return (encoded ++ bytes,
      ⟨block.firstKey, block.lastKey, offset, encoded.length⟩ :: index, last)

/-- The content of the file, and its metadata. The system's `write` refuses (`EFBIG`) to reach beyond the
largest `off_t`. -/
def writeBytes (entries : Snapshot) (options : SSTableWriterOptions) :
    Except Error (Bytes × SSTableMetadata) := do
  refuse (options.outputPath = []) (.invalidArgument "SSTable output path must not be empty")
  refuse (entries = []) (.invalidArgument "cannot write an empty SSTable")
  let targetBlockSize ← narrowBlockSize options.targetDataBlockBytes
  let sequences ← checkEntries [] (u64 - 1) 0 entries
  refuse ((blocksOf entries options).length > uint32Max)
    (.lengthError "SSTable contains too many data blocks")
  let header : Header := ⟨options.generation, entries.length, (blocksOf entries options).length,
    targetBlockSize, sequences.1, sequences.2⟩
  let (blocks, index, indexOffset) ← writeBlocks kHeaderSize (blocksOf entries options)
  let encodedIndex ← serializeIndexBlock index
  let footer : SSTableFooter := ⟨indexOffset, encodedIndex.length, entries.length,
    (blocksOf entries options).length, sequences.1, sequences.2⟩
  let content := serializeHeader header ++ (blocks ++ (encodedIndex ++ serializeFooter footer))
  refuse (content.length > offMax) (.runtimeError "failed to write SSTable file")
  return (content, metadataOf entries options sequences)

end SSTableWriter

/-! ## The reader -/

/-- A reader with its file open. -/
structure SSTableByteReader where
  path : Bytes
  bytes : Bytes
  header : Header
  footer : SSTableFooter
  index : List IndexEntry
  bloomFilter : Option BloomFilter

namespace SSTableByteReader

/-- `pread` until all is there. Each call asks for all that is missing, and the system's `pread` refuses
(`EINVAL`) what reaches beyond the largest `off_t`. -/
def readExact (bytes : Bytes) (offset size : Nat) : Except Error Bytes := do
  SSTableReader.checkOffset offset
  refuse (offset + size > offMax) (.runtimeError "failed to read SSTable file")
  refuse (bytes.length < offset + size)
    (.corruption (max offset bytes.length) "SSTable file is truncated")
  return subspan bytes offset size

def openBytes (path bytes : Bytes) (bloomFilter : Option BloomFilter) :
    Except Error SSTableByteReader := do
  refuse (path = []) (.invalidArgument "SSTable path must not be empty")
  refuse (bytes.length < kHeaderSize + kFooterSize)
    (.corruption 0 "SSTable file is too small")
  let headerBytes ← readExact bytes 0 kHeaderSize
  let header ← parseHeader headerBytes 0
  let footerOffset := bytes.length - kFooterSize
  let footerBytes ← readExact bytes footerOffset kFooterSize
  let footer ← parseFooter footerBytes footerOffset
  refuse (footer.indexOffset < kHeaderSize ∨ footer.indexOffset > footerOffset ∨
      footer.indexSize > footerOffset - footer.indexOffset)
    (.corruption footerOffset "SSTable footer references an invalid index range")
  refuse (SSTableReader.disagrees header footer)
    (.corruption footerOffset "SSTable header and footer metadata disagree")
  let indexBytes ← readExact bytes footer.indexOffset footer.indexSize
  let index ← parseIndexBlock indexBytes footer.indexOffset
  refuse (index.length ≠ footer.blockCount)
    (.corruption footer.indexOffset "SSTable block count does not match the index")
  let previousEnd ← SSTableReader.checkPlaces footer.indexOffset kHeaderSize index
  refuse (previousEnd ≠ footer.indexOffset)
    (.corruption footer.indexOffset "SSTable data blocks do not end at the index")
  return ⟨path, bytes, header, footer, index, bloomFilter⟩

def metadata (reader : SSTableByteReader) : SSTableMetadata :=
  { path := reader.path
    generation := reader.header.generation
    entryCount := reader.header.entryCount
    blockCount := reader.header.blockCount
    minSequenceNumber := reader.header.minSequenceNumber
    maxSequenceNumber := reader.header.maxSequenceNumber
    smallestKey := (reader.index.head?.map IndexEntry.firstKey).getD []
    largestKey := (reader.index.getLast?.map IndexEntry.lastKey).getD [] }

def cacheKey (reader : SSTableByteReader) (indexEntry : IndexEntry) : CacheKey :=
  ⟨reader.path, indexEntry.blockOffset⟩

def parseBlock (reader : SSTableByteReader) (indexEntry : IndexEntry) : Except Error DataBlock := do
  let bytes ← readExact reader.bytes indexEntry.blockOffset indexEntry.blockSize
  let block ← parseDataBlock bytes indexEntry.blockOffset
  refuse (block.firstKey ≠ indexEntry.firstKey ∨ block.lastKey ≠ indexEntry.lastKey)
    (.corruption indexEntry.blockOffset "SSTable data block does not match its index range")
  return block

def readDataBlock (reader : SSTableByteReader) (indexEntry : IndexEntry) :
    Program BlockCache Error DataBlock :=
  SSTableReader.readCached (reader.cacheKey indexEntry) (reader.parseBlock indexEntry)

def candidate (reader : SSTableByteReader) (key : Bytes) : Option IndexEntry :=
  reader.index.find? fun entry => ¬ entry.lastKey < key

def denies (reader : SSTableByteReader) (key : Bytes) : Bool :=
  reader.bloomFilter.any fun filter => !filter.mayContain key

def get (reader : SSTableByteReader) (key : Bytes) : Program BlockCache Error (Option Entry) := do
  Program.check (validateKey key)
  if outside key reader.metadata then return none
  else
    match reader.candidate key with
    | none => return none
    | some indexEntry =>
      if key < indexEntry.firstKey then return none
      else if reader.denies key then return none
      else do
        let block ← reader.readDataBlock indexEntry
        return SSTableReader.findRecord block key

def readAll (reader : SSTableByteReader) : Program BlockCache Error Snapshot := do
  let result ← Program.foldOver (fun records indexEntry => do
    let block ← reader.readDataBlock indexEntry
    return records ++ block.records) [] reader.index
  if result.length ≠ reader.metadata.entryCount then
    Program.raise (.corruption 0 "SSTable entry count does not match its metadata")
  else return result

/-! ## The refinement -/

/-- The reader of the bytes has the parts of the reader of the parts, and parses the same blocks. -/
structure Mirrors (reader : SSTableByteReader) (parts : SSTableReader) : Prop where
  path : reader.path = parts.path
  header : reader.header = parts.file.header
  index : reader.index = parts.file.index
  bloomFilter : reader.bloomFilter = parts.bloomFilter
  blocks : ∀ indexEntry ∈ reader.index, reader.parseBlock indexEntry = parts.parseBlock indexEntry

section Mirrors

variable {reader : SSTableByteReader} {parts : SSTableReader}

theorem Mirrors.metadata_eq (h : Mirrors reader parts) : reader.metadata = parts.metadata := by
  unfold metadata SSTableReader.metadata
  rw [h.path, h.header, h.index]

theorem Mirrors.readDataBlock_eq (h : Mirrors reader parts) {indexEntry : IndexEntry}
    (hentry : indexEntry ∈ reader.index) :
    reader.readDataBlock indexEntry = parts.readDataBlock indexEntry := by
  unfold readDataBlock cacheKey
  rw [h.path, h.blocks indexEntry hentry]
  rfl

theorem Mirrors.get_eq (h : Mirrors reader parts) (key : Bytes) : reader.get key = parts.get key := by
  have hcandidate : reader.candidate key = parts.candidate key := by
    unfold candidate SSTableReader.candidate
    rw [h.index]
  have hdenies : reader.denies key = parts.denies key := by
    unfold denies SSTableReader.denies
    rw [h.bloomFilter]
  unfold get SSTableReader.get
  rw [h.metadata_eq, ← hcandidate, hdenies]
  cases hfound : reader.candidate key with
  | none => rfl
  | some indexEntry =>
    dsimp only
    rw [h.readDataBlock_eq (List.mem_of_find?_eq_some hfound)]

theorem foldOver_congr {S ε α β : Type} {step step' : α → β → Program S ε α} {l : List β}
    (h : ∀ a, ∀ b ∈ l, step a b = step' a b) (a : α) :
    Program.foldOver step a l = Program.foldOver step' a l := by
  induction l generalizing a with
  | nil => rfl
  | cons b rest ih =>
    unfold Program.foldOver
    rw [h a b List.mem_cons_self]
    congr 1
    funext a'
    exact ih (fun a b hb => h a b (List.mem_cons_of_mem _ hb)) a'

theorem Mirrors.readAll_eq (h : Mirrors reader parts) : reader.readAll = parts.readAll := by
  unfold readAll SSTableReader.readAll
  rw [h.metadata_eq, ← h.index]
  congr 1
  refine foldOver_congr (fun records indexEntry hentry => ?_) []
  rw [h.readDataBlock_eq hentry]

end Mirrors

end SSTableByteReader

/-! ## The bytes of the parts -/

/-- The parts, one after the other. -/
def SSTableFile.bytes (file : SSTableFile) : Bytes :=
  serializeHeader file.header ++
    (file.blocks.flatMap (fun placed => withChecksum (dataBlockFields placed.block)) ++
      (withChecksum (indexFields file.index) ++ serializeFooter file.footer))

namespace SSTableWriter

theorem length_blockBytes (block : DataBlock) :
    (withChecksum (dataBlockFields block)).length = encodedBlockSize block := by
  rw [length_withChecksum, length_dataBlockFields]

theorem length_indexBytes (index : List IndexEntry) :
    (withChecksum (indexFields index)).length = encodedIndexSize index := by
  rw [length_withChecksum, length_indexFields]

variable {offset last : Nat}
variable {placed : List PlacedBlock}

theorem Chained.length_blocks (h : Chained offset placed last) :
    offset + (placed.flatMap fun p => withChecksum (dataBlockFields p.block)).length = last := by
  induction placed generalizing offset with
  | nil => exact h
  | cons first rest ih =>
    obtain ⟨-, hsize, hrest⟩ := h
    have hnext := ih hrest
    rw [List.flatMap_cons, List.length_append, length_blockBytes]
    omega

theorem Chained.end_le (h : Chained offset placed last) {p : PlacedBlock} (hp : p ∈ placed) :
    p.offset + p.size ≤ last := by
  induction placed generalizing offset with
  | nil => cases hp
  | cons first rest ih =>
    obtain ⟨hoffset, -, hrest⟩ := h
    rcases List.mem_cons.mp hp with rfl | hp
    · have hle := hrest.le
      omega
    · exact ih hrest hp

theorem subspan_middle {front part : Bytes} {size : Nat} (hfront : front.length = offset)
    (hpart : part.length = size) (back : Bytes) :
    subspan (front ++ (part ++ back)) offset size = part := by
  rw [subspan_skip hfront.le, hfront, Nat.sub_self]
  exact subspan_here hpart back

/-- The bytes at a block's place are its bytes. -/
theorem Chained.subspan_block (h : Chained offset placed last) {front : Bytes}
    (hfront : front.length = offset) (back : Bytes) {p : PlacedBlock} (hp : p ∈ placed) :
    subspan (front ++ (placed.flatMap (fun q => withChecksum (dataBlockFields q.block)) ++ back))
      p.offset p.size = withChecksum (dataBlockFields p.block) := by
  induction placed generalizing offset front with
  | nil => cases hp
  | cons first rest ih =>
    obtain ⟨hoffset, hsize, hrest⟩ := h
    rw [List.flatMap_cons, List.append_assoc]
    rcases List.mem_cons.mp hp with rfl | hp
    · exact subspan_middle (by rw [hfront, hoffset]) (by rw [length_blockBytes, hsize]) _
    · -- the first block joins what lies in front
      rw [← List.append_assoc]
      refine ih hrest ?_ hp
      rw [List.length_append, length_blockBytes]
      omega

theorem writeBlocks_ok {blocks : List DataBlock} (hfits : ∀ block ∈ blocks, BlockFits block)
    {placed : List PlacedBlock × Nat} (h : placeBlocks offset blocks = .ok placed) :
    writeBlocks offset blocks = .ok
      (placed.1.flatMap fun p => withChecksum (dataBlockFields p.block), placed.1.map indexOf,
        placed.2) := by
  induction blocks generalizing offset placed with
  | nil =>
    obtain rfl := Except.ok.inj h
    rfl
  | cons block rest ih =>
    obtain ⟨_, -, h⟩ := bind_eq_ok.mp h
    obtain ⟨placed', hrest, h⟩ := bind_eq_ok.mp h
    obtain rfl := Except.ok.inj h
    have hnext := ih (List.forall_mem_cons.mp hfits).2 hrest
    refine bind_ok (serializeDataBlock_ok (hfits block List.mem_cons_self)) ?_
    rw [length_blockBytes]
    exact bind_ok hnext rfl

/-- The least and greatest sequence number make sense for the format. -/
theorem checkEntries_bounds {entries : Snapshot} {previousKey : Bytes} {low high : Nat}
    {sequences : Nat × Nat} (h : checkEntries previousKey low high entries = .ok sequences)
    (hnumbers : ∀ record ∈ entries, record.2.sequenceNumber < u64) (hpos : low ≠ 0)
    (hlow : low < u64) (hhigh : high < u64) :
    sequences.1 ≠ 0 ∧ sequences.1 < u64 ∧ sequences.2 < u64 ∧ sequences.1 ≤ low ∧
      high ≤ sequences.2 ∧ (entries ≠ [] → sequences.1 ≤ sequences.2) := by
  induction entries generalizing previousKey low high with
  | nil =>
    obtain rfl := Except.ok.inj h
    exact ⟨hpos, hlow, hhigh, le_rfl, le_rfl, fun hne => absurd rfl hne⟩
  | cons record rest ih =>
    obtain ⟨key, entry⟩ := record
    unfold checkEntries at h
    split_ifs at h with horder hzero
    have hnumber : entry.sequenceNumber < u64 := hnumbers (key, entry) List.mem_cons_self
    obtain ⟨h1, h2, h3, h4, h5, -⟩ := ih h
      (List.forall_mem_cons.mp hnumbers).2 (by omega) (by omega) (by omega)
    exact ⟨h1, h2, h3, by omega, by omega, fun _ => by omega⟩

section Written

variable {entries : Snapshot} {options : SSTableWriterOptions}

theorem blockFits (hsorted : KeySorted entries) (hfits : ∀ record ∈ entries, RecordFits record)
    (htarget : options.targetDataBlockBytes ≤ uint32Max) {block : DataBlock}
    (hb : block ∈ blocksOf entries options) : BlockFits block :=
  ⟨cutBlocks_ne_nil hb, length_records_le htarget hb, block_sorted hsorted hb,
    fun record hr => hfits record (mem_of_mem_block hb hr)⟩

theorem length_layout (target : Nat) (sequences : Nat × Nat) {placed : List PlacedBlock × Nat}
    (hplaced : placeBlocks kHeaderSize (blocksOf entries options) = .ok placed) :
    (layout entries options target sequences placed).bytes.length =
      fileSize (blocksOf entries options) := by
  rw [← footerOffset_layout target sequences hplaced]
  have hblocks := (placeBlocks_chained hplaced).2.length_blocks
  unfold SSTableFile.bytes layout
  simp only [List.length_append, length_serializeHeader, length_serializeFooter, length_indexBytes]
  omega

/-- What `write` lays out, `writeBytes` writes. -/
theorem writeBytes_parts (options : SSTableWriterOptions) (hne : entries ≠ [])
    (hsorted : KeySorted entries) (hfits : ∀ record ∈ entries, RecordFits record)
    (hfew : (blocksOf entries options).length ≤ uint32Max) (hpath : options.outputPath ≠ [])
    (htarget : 1 ≤ options.targetDataBlockBytes ∧ options.targetDataBlockBytes ≤ uint32Max) :
    ∃ sequences placed, checkEntries [] (u64 - 1) 0 entries = .ok sequences ∧
      placeBlocks kHeaderSize (blocksOf entries options) = .ok placed ∧
      checkIndexBlock (placed.1.map indexOf) = .ok () ∧
      writeBytes entries options =
        if fileSize (blocksOf entries options) > offMax then
          .error (.runtimeError "failed to write SSTable file")
        else .ok ((layout entries options options.targetDataBlockBytes sequences placed).bytes,
          metadataOf entries options sequences) := by
  have hnarrow : ¬ (options.targetDataBlockBytes = 0 ∨
      options.targetDataBlockBytes > uint32Max) := by omega
  obtain ⟨sequences, placed, hsequences, hplaced, hindex, -⟩ := write_parts options hne
    hsorted (fun r hr => (hfits r hr).toValidRecord) hfew hpath hnarrow
  have hblocks := writeBlocks_ok (fun b hb => blockFits hsorted hfits htarget.2 hb) hplaced
  have hserialized : serializeIndexBlock (placed.1.map indexOf) =
      .ok (withChecksum (indexFields (placed.1.map indexOf))) :=
    bind_ok hindex rfl
  have hbytes : serializeHeader ⟨options.generation, entries.length, (blocksOf entries options).length,
        options.targetDataBlockBytes, sequences.1, sequences.2⟩ ++
      (placed.1.flatMap (fun p => withChecksum (dataBlockFields p.block)) ++
        (withChecksum (indexFields (placed.1.map indexOf)) ++ serializeFooter ⟨placed.2,
          (withChecksum (indexFields (placed.1.map indexOf))).length, entries.length,
          (blocksOf entries options).length, sequences.1, sequences.2⟩)) =
      (layout entries options options.targetDataBlockBytes sequences placed).bytes := by
    rw [length_indexBytes]
    rfl
  refine ⟨sequences, placed, hsequences, hplaced, hindex, ?_⟩
  unfold writeBytes
  simp only [refuse, if_neg hpath, if_neg hne, narrowBlockSize, if_neg hnarrow, hsequences,
    if_neg (not_lt.mpr hfew), hblocks, hserialized, bind, Except.bind, hbytes, length_layout _ _ hplaced]
  split_ifs <;> rfl

end Written

end SSTableWriter

/-! ## Opening what was written -/

namespace SSTableByteReader

open SSTableWriter

theorem readExact_ok {bytes : Bytes} {offset size : Nat} (hbytes : bytes.length ≤ offMax)
    (hsize : offset + size ≤ bytes.length) :
    readExact bytes offset size = .ok (subspan bytes offset size) :=
  bind_ok (checkOffset_ok (by omega)) <| refuse_ok (not_lt.mpr (hsize.trans hbytes)) <|
  refuse_ok (not_lt.mpr hsize) rfl

/-- A cached block of this file is one that the reader would read. -/
def OwnBlock (reader : SSTableByteReader) (key : CacheKey) (block : DataBlock) : Prop :=
  key.tableId = reader.path → ∃ indexEntry ∈ reader.index,
    indexEntry.blockOffset = key.blockOffset ∧ reader.parseBlock indexEntry = .ok block

section Laid

variable {entries : Snapshot} {options : SSTableWriterOptions} {target : Nat}
  {sequences : Nat × Nat} {placed : List PlacedBlock × Nat}

/-- The parts of a laid out file fit the format. -/
structure Laid (entries : Snapshot) (options : SSTableWriterOptions) (target : Nat)
    (sequences : Nat × Nat) (placed : List PlacedBlock × Nat) : Prop where
  chained : Chained kHeaderSize placed.1 placed.2
  length : placed.1.length = (blocksOf entries options).length
  blocks : ∀ p ∈ placed.1, BlockFits p.block
  header : HeaderFits (layout entries options target sequences placed).header
  footer : FooterFits (layout entries options target sequences placed).footer
  index : IndexFits (placed.1.map indexOf)
  inRange : (layout entries options target sequences placed).bytes.length ≤ offMax
  size : (layout entries options target sequences placed).bytes.length =
    placed.2 + encodedIndexSize (placed.1.map indexOf) + kFooterSize

/-- The reader that opens a laid out file. -/
def opened (path : Bytes) (filter : Option BloomFilter) (file : SSTableFile) : SSTableByteReader :=
  ⟨path, file.bytes, file.header, file.footer, file.index, filter⟩

section

variable (h : Laid entries options target sequences placed)
include h

theorem Laid.length_front :
    (serializeHeader (layout entries options target sequences placed).header ++
      placed.1.flatMap fun p => withChecksum (dataBlockFields p.block)).length = placed.2 := by
  rw [List.length_append, length_serializeHeader]
  exact h.chained.length_blocks

theorem Laid.subspan_index :
    subspan (layout entries options target sequences placed).bytes placed.2
      (encodedIndexSize (placed.1.map indexOf)) =
        withChecksum (indexFields (placed.1.map indexOf)) := by
  unfold SSTableFile.bytes
  rw [← List.append_assoc]
  exact subspan_middle h.length_front (length_indexBytes _) _

theorem Laid.subspan_footer :
    subspan (layout entries options target sequences placed).bytes
      (placed.2 + encodedIndexSize (placed.1.map indexOf)) kFooterSize =
        serializeFooter (layout entries options target sequences placed).footer := by
  have hfront := h.length_front
  rw [← length_indexBytes, ← hfront, ← List.length_append]
  unfold SSTableFile.bytes
  rw [← List.append_assoc, ← List.append_assoc, ← List.append_nil (serializeFooter _)]
  exact subspan_middle rfl (length_serializeFooter _) []

theorem Laid.openBytes_ok {path : Bytes} (hpath : path ≠ []) (filter : Option BloomFilter) :
    openBytes path (layout entries options target sequences placed).bytes filter =
      .ok (opened path filter (layout entries options target sequences placed)) := by
  have hsize := h.size
  have hle := h.chained.le
  have hheader : subspan (layout entries options target sequences placed).bytes 0 kHeaderSize =
      serializeHeader (layout entries options target sequences placed).header :=
    subspan_here (length_serializeHeader _) _
  have hfooterOffset : (layout entries options target sequences placed).bytes.length - kFooterSize =
      placed.2 + encodedIndexSize (placed.1.map indexOf) := by omega
  unfold openBytes
  rw [hfooterOffset]
  -- the checks of the constructor, in their order
  refine refuse_ok hpath <| refuse_ok (by omega) <|
    bind_ok (readExact_ok h.inRange (by omega)) <|
    bind_ok (hheader ▸ parseHeader_serialize h.header 0) <|
    bind_ok (readExact_ok h.inRange (by omega)) <|
    bind_ok (h.subspan_footer ▸ parseFooter_serialize h.footer _) <| refuse_ok ?_ <|
    refuse_ok ?_ <| bind_ok (readExact_ok h.inRange ?_) <|
    bind_ok (h.subspan_index ▸ parseIndexBlock_serialize h.index _) <| refuse_ok ?_ <|
    bind_ok (h.chained.checkPlaces le_rfl) <| refuse_ok ?_ rfl
  · simp only [layout]
    omega
  · rintro (h | h | h | h) <;> exact h rfl
  · simp only [layout] at hsize ⊢
    omega
  · simp [layout, h.length]
  · simp [layout]

/-- The opened reader parses each block at its place. -/
theorem Laid.parseBlock_ok (path : Bytes) (filter : Option BloomFilter) {p : PlacedBlock}
    (hp : p ∈ placed.1) :
    (opened path filter (layout entries options target sequences placed)).parseBlock (indexOf p) =
      .ok p.block := by
  have hspan : subspan (layout entries options target sequences placed).bytes p.offset p.size =
      withChecksum (dataBlockFields p.block) :=
    h.chained.subspan_block (length_serializeHeader _) _ hp
  have hbounds := h.chained.bounds hp
  have hwithin := h.chained.end_le hp
  have hsize := h.size
  refine bind_ok (readExact_ok h.inRange ?_) <| bind_ok (a := p.block) ?_ <|
    refuse_ok (by simp [indexOf]) rfl
  · show p.offset + p.size ≤ (layout entries options target sequences placed).bytes.length
    omega
  · show parseDataBlock (subspan (layout entries options target sequences placed).bytes p.offset
      p.size) _ = _
    rw [hspan]
    exact parseDataBlock_serialize (h.blocks p hp) _

variable {path : Bytes} {filter : Option BloomFilter}

theorem Laid.mirrors
    (hwell : SSTableReader.WellFormed ⟨path, layout entries options target sequences placed, filter⟩) :
    Mirrors (opened path filter (layout entries options target sequences placed))
      ⟨path, layout entries options target sequences placed, filter⟩ := by
  refine ⟨rfl, rfl, rfl, rfl, fun indexEntry hentry => ?_⟩
  obtain ⟨p, hp, rfl⟩ := List.mem_map.mp hentry
  rw [h.parseBlock_ok path filter hp]
  exact (parseBlock_eq hwell hp).symm

theorem Laid.owns :
    Owns (opened path filter (layout entries options target sequences placed)).OwnBlock
      ⟨path, layout entries options target sequences placed, filter⟩ where
  own := fun p hp _ => ⟨indexOf p, List.mem_map_of_mem hp, rfl, h.parseBlock_ok path filter hp⟩
  unique := by
    intro p hp block hblock
    obtain ⟨indexEntry, hentry, hoffset, hparse⟩ := hblock rfl
    obtain ⟨q, hq, rfl⟩ := List.mem_map.mp hentry
    -- two blocks at one offset are one block
    have hsame : q = p := List.inj_on_of_nodup_map h.chained.nodup hq hp hoffset
    rw [h.parseBlock_ok path filter hq, hsame] at hparse
    exact (Except.ok.inj hparse).symm

end

end Laid

section RoundTrip

variable {entries : Snapshot} {options : SSTableWriterOptions}
variable {sequences : Nat × Nat} {placed : List PlacedBlock × Nat}

theorem length_le_sum_encodedRecordSize (entries : Snapshot) :
    entries.length ≤ (entries.map encodedRecordSize).sum := by
  have hlength := List.length_le_sum_of_one_le (entries.map encodedRecordSize) (by
    intro size hmem
    obtain ⟨record, -, rfl⟩ := List.mem_map.mp hmem
    unfold encodedRecordSize kRecordFixedSize
    omega)
  rwa [List.length_map] at hlength

theorem blocksOf_length_ne_zero (options : SSTableWriterOptions) (hne : entries ≠ []) :
    (blocksOf entries options).length ≠ 0 := by
  intro hzero
  have hflat := flatMap_blocksOf entries options
  rw [List.length_eq_zero_iff.mp hzero] at hflat
  exact hne hflat.symm

theorem headerFits (hne : entries ≠ []) (hfits : ∀ record ∈ entries, RecordFits record)
    (hgeneration : options.generation < u64) (htarget : options.targetDataBlockBytes ≤ uint32Max)
    (hfew : (blocksOf entries options).length ≤ uint32Max) (hcount : entries.length < u64)
    (hsequences : checkEntries [] (u64 - 1) 0 entries = .ok sequences) :
    HeaderFits
      (layout entries options options.targetDataBlockBytes sequences placed).header := by
  obtain ⟨hmin, hminLt, hmaxLt, -, -, hordered⟩ := checkEntries_bounds hsequences
    (fun r hr => (hfits r hr).sequence_lt) (by decide) (by decide) (by decide)
  refine ⟨hgeneration, hcount, hfew, htarget, hminLt, hmaxLt, ?_⟩
  rintro (h | h | h | h)
  · exact hne (List.length_eq_zero_iff.mp h)
  · exact blocksOf_length_ne_zero options hne h
  · exact hmin h
  · exact absurd (hordered hne) (not_le.mpr h)

/-- What `writeBytes` laid out fits the format, if it lies within the file range. -/
theorem laid (hne : entries ≠ []) (hsorted : KeySorted entries)
    (hfits : ∀ record ∈ entries, RecordFits record) (hgeneration : options.generation < u64)
    (htarget : options.targetDataBlockBytes ≤ uint32Max)
    (hfew : (blocksOf entries options).length ≤ uint32Max)
    (hsequences : checkEntries [] (u64 - 1) 0 entries = .ok sequences)
    (hplaced : placeBlocks kHeaderSize (blocksOf entries options) = .ok placed)
    (hindex : checkIndexBlock (placed.1.map indexOf) = .ok ())
    (hrange : fileSize (blocksOf entries options) ≤ offMax) :
    Laid entries options options.targetDataBlockBytes sequences placed := by
  obtain ⟨hblocks, hchained⟩ := placeBlocks_chained hplaced
  have hlength : placed.1.length = (blocksOf entries options).length := by
    rw [← hblocks, List.length_map]
  have hmem : ∀ p ∈ placed.1, p.block ∈ blocksOf entries options := fun p hp =>
    hblocks ▸ List.mem_map_of_mem hp
  -- the records lie in the file, so there are fewer of them than the file has bytes
  have hrecords := length_le_sum_encodedRecordSize entries
  have hsizes := sum_encodedBlockSize (blocksOf entries options)
  rw [flatMap_blocksOf] at hsizes
  have hlast := hchained.last_eq
  rw [hblocks] at hlast
  have hend : placed.2 + encodedIndexSize (placed.1.map indexOf) + kFooterSize =
      fileSize (blocksOf entries options) :=
    footerOffset_layout options.targetDataBlockBytes sequences hplaced
  have hlayout := length_layout options.targetDataBlockBytes sequences hplaced
  have hu64 : offMax < u64 := by decide
  have hindexSize : encodedIndexSize (placed.1.map indexOf) ≠ 0 := by
    unfold encodedIndexSize kPrefixSize
    omega
  have hheader : HeaderFits
      (layout entries options options.targetDataBlockBytes sequences placed).header :=
    headerFits hne hfits hgeneration htarget hfew (by omega) hsequences
  refine ⟨hchained, hlength, fun p hp => blockFits hsorted hfits htarget (hmem p hp), hheader, ?_,
    ⟨hindex, ?_, ?_⟩, hlayout.trans_le hrange, hlayout.trans hend.symm⟩
  · -- the footer repeats the numbers of the header
    refine ⟨?_, ?_, hheader.entryCount, hfew, hheader.minSequence, hheader.maxSequence, ?_⟩
    · show placed.2 < u64
      omega
    · show encodedIndexSize (placed.1.map indexOf) < u64
      omega
    · rintro (h | h)
      · exact hindexSize h
      · exact hheader.sensible h
  · intro indexEntry hentry
    obtain ⟨p, hp, rfl⟩ := List.mem_map.mp hentry
    exact validKey_of_mem_block (fun r hr => (hfits r hr).toValidRecord) (hmem p hp)
  · intro indexEntry hentry
    obtain ⟨p, hp, rfl⟩ := List.mem_map.mp hentry
    have hbounds := hchained.bounds hp
    have hwithin := hchained.end_le hp
    exact ⟨show p.offset < u64 by omega, show p.size < u64 by omega⟩

/-- **What is written is read back**: by `readAll` as a whole and by `get` for every key, without a filter
or with one of the keys, and through any cache whose blocks of this file are the file's. The writer writes
every file that lies within the platform's file range. -/
theorem write_read_back (entries : Snapshot) (options : SSTableWriterOptions) (hne : entries ≠ [])
    (hsorted : KeySorted entries) (hfits : ∀ record ∈ entries, RecordFits record)
    (hgeneration : options.generation < u64) (hpath : options.outputPath ≠ [])
    (htarget : 1 ≤ options.targetDataBlockBytes ∧ options.targetDataBlockBytes ≤ uint32Max)
    (hfew : (blocksOf entries options).length ≤ uint32Max) :
    ((∃ bytes metadata, writeBytes entries options = .ok (bytes, metadata)) ↔
      fileSize (blocksOf entries options) ≤ offMax) ∧
    ∀ bytes metadata, writeBytes entries options = .ok (bytes, metadata) →
      ∀ filter, FilterOf (entries.map Prod.fst) filter →
        ∃ reader, openBytes options.outputPath bytes filter = .ok reader ∧
          Yields (fun cache => cache.Sound reader.OwnBlock) reader.readAll entries ∧
          ∀ key, ValidKey key →
            Yields (fun cache => cache.Sound reader.OwnBlock) (reader.get key)
              (lookup key entries) := by
  have hvalid : ∀ record ∈ entries, ValidRecord record := fun r hr => (hfits r hr).toValidRecord
  obtain ⟨sequences, placed, hsequences, hplaced, hindex, hwrite⟩ := writeBytes_parts options
    hne hsorted hfits hfew hpath htarget
  rw [hwrite]
  split_ifs with hlarge
  · refine ⟨⟨?_, fun hle => absurd hle (not_le.mpr hlarge)⟩, fun _ _ herror => (by cases herror)⟩
    rintro ⟨_, _, herror⟩
    cases herror
  have hrange := not_lt.mp hlarge
  refine ⟨⟨fun _ => hrange, fun _ => ⟨_, _, rfl⟩⟩, ?_⟩
  rintro bytes metadata hok filter hfilter
  obtain ⟨rfl, rfl⟩ := Prod.mk.inj (Except.ok.inj hok)
  have hlaid := laid hne hsorted hfits hgeneration htarget.2 hfew hsequences hplaced hindex hrange
  have hend := footerOffset_layout options.targetDataBlockBytes sequences hplaced
  have hlayout : SSTableReader.WellFormed ⟨options.outputPath, layout entries options
      options.targetDataBlockBytes sequences placed, filter⟩ ∧ _ :=
    layout_wellFormed hne hsorted hvalid hplaced (by omega) hfilter
  obtain ⟨hwell, hcontents⟩ := hlayout
  have hmirrors := hlaid.mirrors hwell
  have howns : Owns (opened options.outputPath filter (layout entries options
      options.targetDataBlockBytes sequences placed)).OwnBlock _ := hlaid.owns
  refine ⟨_, hlaid.openBytes_ok hpath filter, ?_, fun key hkey => ?_⟩
  · rw [hmirrors.readAll_eq]
    have hall := howns.readAll_yields hwell
    rwa [hcontents] at hall
  · rw [hmirrors.get_eq]
    have hget := howns.get_yields hwell hkey
    unfold SSTableReader.entryFor at hget
    rwa [hcontents] at hget

def pairEntries : Snapshot :=
  [([1], { sequenceNumber := 2, value := [7], deleted := false }),
   ([2], { sequenceNumber := 1, value := [], deleted := true })]

def pairOptions : SSTableWriterOptions := ⟨[116], 1, 5⟩

theorem write_read_back_pair : ∃ bytes metadata reader,
    writeBytes pairEntries pairOptions = .ok (bytes, metadata) ∧
      openBytes [116] bytes none = .ok reader ∧
      Yields (fun cache => cache.Sound reader.OwnBlock) reader.readAll pairEntries ∧
      Yields (fun cache => cache.Sound reader.OwnBlock) (reader.get [2])
        (some { sequenceNumber := 1, value := [], deleted := true }) := by
  obtain ⟨hwrites, hread⟩ := write_read_back pairEntries pairOptions (by decide)
    (by unfold KeySorted pairEntries; decide)
    (by
      intro record hrecord
      rcases List.mem_cons.mp hrecord with rfl | hrecord
      · exact ⟨⟨by decide, by decide, by decide, by decide⟩, by decide⟩
      · rw [List.mem_singleton.mp hrecord]
        exact ⟨⟨by decide, by decide, by decide, by decide⟩, by decide⟩)
    (by decide) (by decide) (by decide) (by decide)
  obtain ⟨bytes, metadata, hwrite⟩ := hwrites.mpr (by decide)
  obtain ⟨reader, hopen, hall, hget⟩ := hread bytes metadata hwrite none (fun f hf => by cases hf)
  exact ⟨bytes, metadata, reader, hwrite, hopen, hall, hget [2] (by decide)⟩

end RoundTrip

end SSTableByteReader

end NebulaKV.Lsm
