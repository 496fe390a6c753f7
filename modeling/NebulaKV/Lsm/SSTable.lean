/-
# SSTables: the writer and the reader

`sstable_writer.cpp` cuts a sorted run of entries into data blocks of about the target size and lays
them out behind a header, followed by the index and the footer; `sstable_reader.cpp` checks the layout
when it opens a file and then finds a key through the index, the Bloom filter, the block cache and one
block.

A file is kept here as its PARTS. What lies between the parts and the bytes is the codec of
`sstable_format.cpp`; of it this module has the sizes, which decide where the blocks lie, and
everything the serializers refuse. An open file stays readable after it is removed from its
directory, so a reader carries its file.
-/
import NebulaKV.Effects.Program
import NebulaKV.Lsm.BlockCache
import NebulaKV.Lsm.BloomFilter

namespace NebulaKV.Lsm

open Effects

inductive SSTableLevel where
  | Level0
  | Level1
  deriving DecidableEq

structure SSTableMetadata where
  path : Bytes
  generation : Nat
  entryCount : Nat
  blockCount : Nat
  minSequenceNumber : Nat
  maxSequenceNumber : Nat
  smallestKey : Bytes
  largestKey : Bytes
  level : SSTableLevel := .Level0
  deriving DecidableEq

structure IndexEntry where
  firstKey : Bytes
  lastKey : Bytes
  blockOffset : Nat
  blockSize : Nat
  deriving DecidableEq

structure Header where
  generation : Nat
  entryCount : Nat
  blockCount : Nat
  targetDataBlockBytes : Nat
  minSequenceNumber : Nat
  maxSequenceNumber : Nat
  deriving DecidableEq

structure SSTableFooter where
  indexOffset : Nat
  indexSize : Nat
  entryCount : Nat
  blockCount : Nat
  minSequenceNumber : Nat
  maxSequenceNumber : Nat
  deriving DecidableEq

/-- A data block and where it lies. -/
structure PlacedBlock where
  offset : Nat
  size : Nat
  block : DataBlock
  deriving DecidableEq

structure SSTableFile where
  header : Header
  blocks : List PlacedBlock
  index : List IndexEntry
  footerOffset : Nat
  footer : SSTableFooter
  deriving DecidableEq

def kHeaderSize : Nat := 56

def kFooterSize : Nat := 64

def kChecksumSize : Nat := 4

def kRecordFixedSize : Nat := 20

/-- The magic value and the record count in front of a data block or an index. -/
def kPrefixSize : Nat := 12

def kEntryFixedSize : Nat := 24

namespace DataBlock

def firstKey (block : DataBlock) : Bytes := (block.records.head?.map Prod.fst).getD []

def lastKey (block : DataBlock) : Bytes := (block.records.getLast?.map Prod.fst).getD []

end DataBlock

/-- The largest `off_t`. -/
def offMax : Nat := 9223372036854775807

/-! ## What the serializers write, and refuse -/

def encodedRecordSize (record : Bytes × Entry) : Nat :=
  kRecordFixedSize + record.1.length + record.2.value.length

def encodedBlockSize (block : DataBlock) : Nat :=
  kPrefixSize + (block.records.map encodedRecordSize).sum + kChecksumSize

def encodedIndexSize (index : List IndexEntry) : Nat :=
  kPrefixSize + (index.map fun entry =>
    kEntryFixedSize + entry.firstKey.length + entry.lastKey.length).sum + kChecksumSize

/-- The loop of `serialize_data_block`. -/
def checkRecords (previousKey : Bytes) : Snapshot → Except Error Unit
  | [] => .ok ()
  | (key, entry) :: rest =>
    if key = [] ∨ key.length > kMaxKeySize ∨ entry.value.length > kMaxValueSize ∨
        entry.sequenceNumber = 0 ∨ (entry.deleted ∧ entry.value ≠ []) then
      .error (.invalidArgument "invalid entry supplied to SSTable data block")
    else if previousKey ≠ [] ∧ key ≤ previousKey then
      .error (.invalidArgument "SSTable data block keys must be strictly sorted")
    else checkRecords key rest

def checkDataBlock (block : DataBlock) : Except Error Unit :=
  if block.records = [] then
    .error (.invalidArgument "cannot serialize an empty SSTable data block")
  else if block.records.length > uint32Max then
    .error (.lengthError "SSTable data block contains too many records")
  else checkRecords [] block.records

/-- The loop of `serialize_index_block`. -/
def checkIndexEntries (previousLastKey : Bytes) : List IndexEntry → Except Error Unit
  | [] => .ok ()
  | entry :: rest =>
    if entry.firstKey = [] ∨ entry.lastKey = [] ∨ entry.firstKey > entry.lastKey ∨
        entry.blockSize = 0 ∨ (previousLastKey ≠ [] ∧ entry.firstKey ≤ previousLastKey) then
      .error (.invalidArgument "invalid SSTable index entry")
    else checkIndexEntries entry.lastKey rest

def checkIndexBlock (index : List IndexEntry) : Except Error Unit :=
  if index = [] then .error (.invalidArgument "cannot serialize an empty SSTable index")
  else if index.length > uint32Max then
    .error (.lengthError "SSTable index contains too many blocks")
  else checkIndexEntries [] index

/-! ## The writer -/

structure SSTableWriterOptions where
  outputPath : Bytes
  targetDataBlockBytes : Nat
  generation : Nat

namespace SSTableWriter

/-- The first loop: order, sequence numbers, and the least and greatest of them. -/
def checkEntries (previousKey : Bytes) (minSequence maxSequence : Nat) :
    Snapshot → Except Error (Nat × Nat)
  | [] => .ok (minSequence, maxSequence)
  | (key, entry) :: rest =>
    if previousKey ≠ [] ∧ key ≤ previousKey then
      .error (.invalidArgument "SSTable input keys must be strictly sorted")
    else if entry.sequenceNumber = 0 then
      .error (.invalidArgument "SSTable entries require non-zero sequence numbers")
    else
      checkEntries key (min minSequence entry.sequenceNumber)
        (max maxSequence entry.sequenceNumber) rest

/-- The size of a block without records. -/
def emptyBlockSize : Nat := 12 + kChecksumSize

/-- The second loop: start a new block where the next record would exceed the target. -/
def cutBlocks (target : Nat) (current : Snapshot) (currentSize : Nat) : Snapshot → List DataBlock
  | [] => if current = [] then [] else [⟨current⟩]
  | record :: rest =>
    if current ≠ [] ∧ currentSize + encodedRecordSize record > target then
      ⟨current⟩ :: cutBlocks target [record] (emptyBlockSize + encodedRecordSize record) rest
    else cutBlocks target (current ++ [record]) (currentSize + encodedRecordSize record) rest

/-- The third loop: where each block lies, and where the last one ends. -/
def placeBlocks (offset : Nat) : List DataBlock → Except Error (List PlacedBlock × Nat)
  | [] => .ok ([], offset)
  | block :: rest => do
    checkDataBlock block
    let placed ← placeBlocks (offset + encodedBlockSize block) rest
    return (⟨offset, encodedBlockSize block, block⟩ :: placed.1, placed.2)

def indexOf (placed : PlacedBlock) : IndexEntry :=
  ⟨placed.block.firstKey, placed.block.lastKey, placed.offset, placed.size⟩

def narrowBlockSize (value : Nat) : Except Error Nat :=
  if value = 0 ∨ value > uint32Max then
    .error (.invalidArgument "SSTable target data block size must fit in a 32-bit field")
  else .ok value

def blocksOf (entries : Snapshot) (options : SSTableWriterOptions) : List DataBlock :=
  cutBlocks options.targetDataBlockBytes [] emptyBlockSize entries

/-- The file: `placed` are the data blocks and the end of the last one. -/
def layout (entries : Snapshot) (options : SSTableWriterOptions) (targetBlockSize : Nat)
    (sequences : Nat × Nat) (placed : List PlacedBlock × Nat) : SSTableFile :=
  { header := ⟨options.generation, entries.length, (blocksOf entries options).length,
      targetBlockSize, sequences.1, sequences.2⟩
    blocks := placed.1
    index := placed.1.map indexOf
    footerOffset := placed.2 + encodedIndexSize (placed.1.map indexOf)
    footer := ⟨placed.2, encodedIndexSize (placed.1.map indexOf), entries.length,
      (blocksOf entries options).length, sequences.1, sequences.2⟩ }

/-- The size of a file with these data blocks. -/
def fileSize (blocks : List DataBlock) : Nat :=
  kHeaderSize + (blocks.map encodedBlockSize).sum + (kPrefixSize + (blocks.map fun block =>
    kEntryFixedSize + block.firstKey.length + block.lastKey.length).sum + kChecksumSize) + kFooterSize

def metadataOf (entries : Snapshot) (options : SSTableWriterOptions) (sequences : Nat × Nat) :
    SSTableMetadata :=
  { path := options.outputPath
    generation := options.generation
    entryCount := entries.length
    blockCount := (blocksOf entries options).length
    minSequenceNumber := sequences.1
    maxSequenceNumber := sequences.2
    smallestKey := (entries.head?.map Prod.fst).getD []
    largestKey := (entries.getLast?.map Prod.fst).getD [] }

/-- The file and its metadata. The system's `write` does not reach beyond the largest `off_t`. -/
def write (entries : Snapshot) (options : SSTableWriterOptions) :
    Except Error (SSTableFile × SSTableMetadata) := do
  refuse (options.outputPath = []) (.invalidArgument "SSTable output path must not be empty")
  refuse (entries = []) (.invalidArgument "cannot write an empty SSTable")
  let targetBlockSize ← narrowBlockSize options.targetDataBlockBytes
  let sequences ← checkEntries [] (u64 - 1) 0 entries
  refuse ((blocksOf entries options).length > uint32Max)
    (.lengthError "SSTable contains too many data blocks")
  let placed ← placeBlocks kHeaderSize (blocksOf entries options)
  checkIndexBlock (placed.1.map indexOf)
  refuse (fileSize (blocksOf entries options) > offMax) (.runtimeError "failed to write SSTable file")
  return (layout entries options targetBlockSize sequences placed,
    metadataOf entries options sequences)

end SSTableWriter

/-! ## The reader -/

/-- The key cannot be in a table with this range. -/
def outside (key : Bytes) (metadata : SSTableMetadata) : Prop :=
  key < metadata.smallestKey ∨ key > metadata.largestKey

instance decidableOutside (key : Bytes) (metadata : SSTableMetadata) :
    Decidable (outside key metadata) :=
  inferInstanceAs (Decidable (_ ∨ _))

structure SSTableReader where
  path : Bytes
  file : SSTableFile
  bloomFilter : Option BloomFilter
  deriving DecidableEq

namespace SSTableReader

def metadata (reader : SSTableReader) : SSTableMetadata :=
  { path := reader.path
    generation := reader.file.header.generation
    entryCount := reader.file.header.entryCount
    blockCount := reader.file.header.blockCount
    minSequenceNumber := reader.file.header.minSequenceNumber
    maxSequenceNumber := reader.file.header.maxSequenceNumber
    smallestKey := (reader.file.index.head?.map IndexEntry.firstKey).getD []
    largestKey := (reader.file.index.getLast?.map IndexEntry.lastKey).getD [] }

/-- The check of `read_exact`. -/
def checkOffset (offset : Nat) : Except Error Unit :=
  if offset > offMax then
    .error (.overflowError "SSTable offset exceeds the platform file range")
  else .ok ()

/-- The loop over the index: every block lies behind the one before it, and in front of the index. -/
def checkPlaces (indexOffset previousEnd : Nat) : List IndexEntry → Except Error Nat
  | [] => .ok previousEnd
  | entry :: rest =>
    if entry.blockOffset < kHeaderSize ∨ entry.blockOffset < previousEnd ∨
        entry.blockOffset > indexOffset ∨ entry.blockSize > indexOffset - entry.blockOffset then
      .error (.corruption indexOffset "SSTable index references an invalid data block")
    else checkPlaces indexOffset (entry.blockOffset + entry.blockSize) rest

/-- The index lies between the data blocks and the footer. -/
def badIndexRange (file : SSTableFile) : Prop :=
  file.footer.indexOffset < kHeaderSize ∨ file.footer.indexOffset > file.footerOffset ∨
    file.footer.indexSize > file.footerOffset - file.footer.indexOffset

instance decidableBadIndexRange (file : SSTableFile) : Decidable (badIndexRange file) :=
  inferInstanceAs (Decidable (_ ∨ _))

/-- Header and footer repeat the same numbers. -/
def disagrees (header : Header) (footer : SSTableFooter) : Prop :=
  header.entryCount ≠ footer.entryCount ∨ header.blockCount ≠ footer.blockCount ∨
    header.minSequenceNumber ≠ footer.minSequenceNumber ∨
    header.maxSequenceNumber ≠ footer.maxSequenceNumber

instance decidableDisagrees (header : Header) (footer : SSTableFooter) :
    Decidable (disagrees header footer) :=
  inferInstanceAs (Decidable (_ ∨ _))

def openFile (path : Bytes) (file : SSTableFile) (bloomFilter : Option BloomFilter) :
    Except Error SSTableReader := do
  refuse (path = []) (.invalidArgument "SSTable path must not be empty")
  refuse (file.footerOffset + kFooterSize < kHeaderSize + kFooterSize)
    (.corruption 0 "SSTable file is too small")
  checkOffset file.footerOffset
  refuse (badIndexRange file)
    (.corruption file.footerOffset "SSTable footer references an invalid index range")
  refuse (disagrees file.header file.footer)
    (.corruption file.footerOffset "SSTable header and footer metadata disagree")
  checkOffset file.footer.indexOffset
  refuse (file.index.length ≠ file.footer.blockCount)
    (.corruption file.footer.indexOffset "SSTable block count does not match the index")
  let previousEnd ← checkPlaces file.footer.indexOffset kHeaderSize file.index
  refuse (previousEnd ≠ file.footer.indexOffset)
    (.corruption file.footer.indexOffset "SSTable data blocks do not end at the index")
  return ⟨path, file, bloomFilter⟩

/-- What a reader's own cache lookup does to the cache. -/
def cached (key : CacheKey) : Program BlockCache Error (Option DataBlock) := fun cache =>
  (.ok (cache.get key).1, (cache.get key).2)

def cacheKey (reader : SSTableReader) (indexEntry : IndexEntry) : CacheKey :=
  ⟨reader.path, indexEntry.blockOffset⟩

/-- The bytes of an index entry, parsed. -/
def parseBlock (reader : SSTableReader) (indexEntry : IndexEntry) : Except Error DataBlock := do
  checkOffset indexEntry.blockOffset
  match reader.file.blocks.find? fun placed =>
      placed.offset = indexEntry.blockOffset ∧ placed.size = indexEntry.blockSize with
  | none => .error (.corruption indexEntry.blockOffset "SSTable data block magic mismatch")
  | some placed =>
    if placed.block.firstKey ≠ indexEntry.firstKey ∨
        placed.block.lastKey ≠ indexEntry.lastKey then
      .error (.corruption indexEntry.blockOffset
        "SSTable data block does not match its index range")
    else .ok placed.block

/-- A block from the cache, or else parsed and put there. -/
def readCached (key : CacheKey) (parse : Except Error DataBlock) :
    Program BlockCache Error DataBlock := do
  match ← cached key with
  | some block => return block
  | none => do
    let block ← Program.check parse
    Program.update fun cache => cache.put key block
    return block

def readDataBlock (reader : SSTableReader) (indexEntry : IndexEntry) :
    Program BlockCache Error DataBlock :=
  readCached (reader.cacheKey indexEntry) (reader.parseBlock indexEntry)

/-- `std::lower_bound` over the index: the first block that does not end before the key. -/
def candidate (reader : SSTableReader) (key : Bytes) : Option IndexEntry :=
  reader.file.index.find? fun entry => ¬ entry.lastKey < key

/-- `std::lower_bound` over the records of a block. -/
def findRecord (block : DataBlock) (key : Bytes) : Option Entry :=
  match block.records.find? fun record => ¬ record.1 < key with
  | some (found, entry) => if found = key then some entry else none
  | none => none

/-- The Bloom filter rules the key out. -/
def denies (reader : SSTableReader) (key : Bytes) : Bool :=
  reader.bloomFilter.any fun filter => !filter.mayContain key

def get (reader : SSTableReader) (key : Bytes) : Program BlockCache Error (Option Entry) := do
  Program.check (validateKey key)
  if outside key reader.metadata then return none
  else
    match reader.candidate key with
    | none => return none
    | some indexEntry =>
      if key < indexEntry.firstKey then return none
      else if reader.denies key then return none
      else do
        let block ← reader.readDataBlock indexEntry
        return findRecord block key

def readAll (reader : SSTableReader) : Program BlockCache Error Snapshot := do
  let result ← Program.foldOver (fun records indexEntry => do
    let block ← reader.readDataBlock indexEntry
    return records ++ block.records) [] reader.file.index
  if result.length ≠ reader.metadata.entryCount then
    Program.raise (.corruption 0 "SSTable entry count does not match its metadata")
  else return result

end SSTableReader

end NebulaKV.Lsm
