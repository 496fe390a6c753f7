/-
# The bytes of an SSTable

`sstable_format.cpp`: the header, a data block, the index and the footer, each behind a magic value and
in front of its CRC-32. A parser that works with a cursor has here the bytes that are still unread, and
the cursor only for the offset it reports.

What a serializer has written, the parser takes back (`parseHeader_serialize`, `parseDataBlock_serialize`,
`parseIndexBlock_serialize`, `parseFooter_serialize`), as long as every number fits its field.
-/
import NebulaKV.Lsm.TableWriter

namespace NebulaKV.Lsm

open Containers Codec

namespace SSTableFormat

def kHeaderMagic : Bytes := [78, 66, 76, 83, 83, 84, 48, 49]

def kDataBlockMagic : Bytes := [78, 66, 76, 68, 65, 84, 48, 49]

def kIndexMagic : Bytes := [78, 66, 76, 73, 68, 88, 48, 49]

def kFooterMagic : Bytes := [78, 66, 76, 70, 84, 82, 48, 49]

def kVersion : Nat := 1

/-- `bytes.subspan(offset, size)`. -/
def subspan (bytes : Bytes) (offset size : Nat) : Bytes := (bytes.drop offset).take size

/-- The little-endian integer at an offset. -/
def readUint (bytes : Bytes) (offset size : Nat) : Nat := leValue (subspan bytes offset size)

/-- `append_uint32(bytes, ChecksumCalculator::crc32(bytes))`. -/
def withChecksum (bytes : Bytes) : Bytes := bytes ++ leBytes 4 (ChecksumCalculator.crc32 bytes)

def hasMagic (bytes magic : Bytes) : Prop :=
  magic.length ≤ bytes.length ∧ bytes.take magic.length = magic

instance decidableHasMagic (bytes magic : Bytes) : Decidable (hasMagic bytes magic) :=
  inferInstanceAs (Decidable (_ ∧ _))

def validateChecksum (bytes : Bytes) (fileOffset : Nat) (component : String) :
    Except Error Unit := do
  refuse (bytes.length < kChecksumSize)
    (.corruption fileOffset (component ++ " is shorter than its checksum"))
  refuse (leValue (bytes.drop (bytes.length - kChecksumSize)) ≠
      ChecksumCalculator.crc32 (bytes.take (bytes.length - kChecksumSize)))
    (.corruption (fileOffset + bytes.length - kChecksumSize) (component ++ " checksum mismatch"))

def requireSize (bytes : Bytes) (expected fileOffset : Nat) (component : String) :
    Except Error Unit :=
  refuse (bytes.length ≠ expected) (.corruption fileOffset (component ++ " has an invalid size"))

/-- The next bytes as a string, and what is left. -/
def readString (rest : Bytes) (length fileOffset : Nat) (component : String) :
    Except Error (Bytes × Bytes) := do
  refuse (rest.length < length)
    (.corruption fileOffset (component ++ " contains a truncated string"))
  return (rest.take length, rest.drop length)

/-! ## The header -/

def headerFields (header : Header) : Bytes :=
  kHeaderMagic ++ (leBytes 2 kVersion ++ (leBytes 2 kHeaderSize ++ (leBytes 8 header.generation ++
    (leBytes 8 header.entryCount ++ (leBytes 4 header.blockCount ++
    (leBytes 4 header.targetDataBlockBytes ++ (leBytes 8 header.minSequenceNumber ++
    leBytes 8 header.maxSequenceNumber)))))))

def serializeHeader (header : Header) : Bytes := withChecksum (headerFields header)

def parseHeader (bytes : Bytes) (fileOffset : Nat) : Except Error Header := do
  requireSize bytes kHeaderSize fileOffset "SSTable header"
  validateChecksum bytes fileOffset "SSTable header"
  refuse (¬ hasMagic bytes kHeaderMagic)
    (.corruption fileOffset "SSTable header magic mismatch")
  refuse (readUint bytes 8 2 ≠ kVersion)
    (.corruption (fileOffset + 8) "unsupported SSTable version")
  refuse (readUint bytes 10 2 ≠ kHeaderSize)
    (.corruption (fileOffset + 10) "invalid SSTable header size")
  let header : Header :=
    { generation := readUint bytes 12 8
      entryCount := readUint bytes 20 8
      blockCount := readUint bytes 28 4
      targetDataBlockBytes := readUint bytes 32 4
      minSequenceNumber := readUint bytes 36 8
      maxSequenceNumber := readUint bytes 44 8 }
  refuse (header.entryCount = 0 ∨ header.blockCount = 0 ∨ header.minSequenceNumber = 0 ∨
      header.minSequenceNumber > header.maxSequenceNumber)
    (.corruption fileOffset "SSTable header metadata is invalid")
  return header

/-! ## Data blocks -/

def encodeRecord (record : Bytes × Entry) : Bytes :=
  leBytes 4 record.1.length ++ (leBytes 4 record.2.value.length ++
    (leBytes 8 record.2.sequenceNumber ++ ([if record.2.deleted then 1 else 0] ++ ([0, 0, 0] ++
    (record.1 ++ record.2.value)))))

def dataBlockFields (block : DataBlock) : Bytes :=
  kDataBlockMagic ++ (leBytes 4 block.records.length ++ block.records.flatMap encodeRecord)

def serializeDataBlock (block : DataBlock) : Except Error Bytes := do
  checkDataBlock block
  return withChecksum (dataBlockFields block)

/-- The fixed part of a record. -/
structure RecordFields where
  keySize : Nat
  valueSize : Nat
  sequenceNumber : Nat
  flags : UInt8

def recordFields (rest : Bytes) : RecordFields :=
  { keySize := readUint rest 0 4
    valueSize := readUint rest 4 4
    sequenceNumber := readUint rest 8 8
    flags := (rest.drop 16).headD 0 }

/-- The loop of `parse_data_block`. -/
def parseRecords (fileOffset : Nat) : Nat → Nat → Bytes → Bytes → Except Error Snapshot
  | 0, cursor, _, rest => do
    refuse (rest ≠ [])
      (.corruption (fileOffset + cursor) "SSTable data block contains trailing bytes")
    return []
  | count + 1, cursor, previousKey, rest => do
    refuse (rest.length < kRecordFixedSize)
      (.corruption (fileOffset + cursor) "SSTable data block record header is truncated")
    let fields := recordFields rest
    refuse (fields.keySize = 0 ∨ fields.keySize > kMaxKeySize ∨ fields.valueSize > kMaxValueSize ∨
        fields.sequenceNumber = 0 ∨ fields.flags > 1)
      (.corruption (fileOffset + cursor) "SSTable data block record metadata is invalid")
    refuse (fields.flags = 1 ∧ fields.valueSize ≠ 0)
      (.corruption (fileOffset + cursor + kRecordFixedSize - 4)
        "SSTable tombstone contains a value")
    let (key, rest) ← readString (rest.drop kRecordFixedSize) fields.keySize
      (fileOffset + cursor + kRecordFixedSize) "SSTable data block"
    let (value, rest) ← readString rest fields.valueSize
      (fileOffset + cursor + kRecordFixedSize + fields.keySize) "SSTable data block"
    refuse (previousKey ≠ [] ∧ key ≤ previousKey)
      (.corruption (fileOffset + cursor + kRecordFixedSize + fields.keySize + fields.valueSize)
        "SSTable data block keys are not strictly sorted")
    let records ← parseRecords fileOffset count
      (cursor + kRecordFixedSize + fields.keySize + fields.valueSize) key rest
    return (key, ⟨value, fields.sequenceNumber, decide (fields.flags = 1)⟩) :: records

def parseDataBlock (bytes : Bytes) (fileOffset : Nat) : Except Error DataBlock := do
  refuse (bytes.length < kPrefixSize + kChecksumSize)
    (.corruption fileOffset "SSTable data block is truncated")
  validateChecksum bytes fileOffset "SSTable data block"
  refuse (¬ hasMagic bytes kDataBlockMagic)
    (.corruption fileOffset "SSTable data block magic mismatch")
  refuse (readUint bytes 8 4 = 0)
    (.corruption (fileOffset + 8) "SSTable data block is empty")
  let records ← parseRecords fileOffset (readUint bytes 8 4) kPrefixSize []
    ((bytes.take (bytes.length - kChecksumSize)).drop kPrefixSize)
  return ⟨records⟩

/-! ## The index -/

def encodeIndexEntry (entry : IndexEntry) : Bytes :=
  leBytes 8 entry.blockOffset ++ (leBytes 8 entry.blockSize ++ (leBytes 4 entry.firstKey.length ++
    (leBytes 4 entry.lastKey.length ++ (entry.firstKey ++ entry.lastKey))))

def indexFields (index : List IndexEntry) : Bytes :=
  kIndexMagic ++ (leBytes 4 index.length ++ index.flatMap encodeIndexEntry)

def serializeIndexBlock (index : List IndexEntry) : Except Error Bytes := do
  checkIndexBlock index
  return withChecksum (indexFields index)

/-- The loop of `parse_index_block`. -/
def parseIndexEntries (fileOffset : Nat) : Nat → Nat → Bytes → Bytes → Except Error (List IndexEntry)
  | 0, cursor, _, rest => do
    refuse (rest ≠ [])
      (.corruption (fileOffset + cursor) "SSTable index contains trailing bytes")
    return []
  | count + 1, cursor, previousLastKey, rest => do
    refuse (rest.length < kEntryFixedSize)
      (.corruption (fileOffset + cursor) "SSTable index entry is truncated")
    let blockOffset := readUint rest 0 8
    let blockSize := readUint rest 8 8
    let firstSize := readUint rest 16 4
    let lastSize := readUint rest 20 4
    refuse (firstSize = 0 ∨ firstSize > kMaxKeySize ∨ lastSize = 0 ∨ lastSize > kMaxKeySize ∨
        blockSize = 0)
      (.corruption (fileOffset + cursor) "SSTable index metadata is invalid")
    let (firstKey, rest) ← readString (rest.drop kEntryFixedSize) firstSize
      (fileOffset + cursor + kEntryFixedSize) "SSTable index"
    let (lastKey, rest) ← readString rest lastSize
      (fileOffset + cursor + kEntryFixedSize + firstSize) "SSTable index"
    refuse (firstKey > lastKey ∨ (previousLastKey ≠ [] ∧ firstKey ≤ previousLastKey))
      (.corruption (fileOffset + cursor + kEntryFixedSize + firstSize + lastSize)
        "SSTable index key ranges are invalid")
    let entries ← parseIndexEntries fileOffset count
      (cursor + kEntryFixedSize + firstSize + lastSize) lastKey rest
    return ⟨firstKey, lastKey, blockOffset, blockSize⟩ :: entries

def parseIndexBlock (bytes : Bytes) (fileOffset : Nat) : Except Error (List IndexEntry) := do
  refuse (bytes.length < kPrefixSize + kChecksumSize)
    (.corruption fileOffset "SSTable index block is truncated")
  validateChecksum bytes fileOffset "SSTable index block"
  refuse (¬ hasMagic bytes kIndexMagic)
    (.corruption fileOffset "SSTable index magic mismatch")
  refuse (readUint bytes 8 4 = 0) (.corruption (fileOffset + 8) "SSTable index is empty")
  parseIndexEntries fileOffset (readUint bytes 8 4) kPrefixSize []
    ((bytes.take (bytes.length - kChecksumSize)).drop kPrefixSize)

/-! ## The footer -/

def footerFields (footer : SSTableFooter) : Bytes :=
  kFooterMagic ++ (leBytes 2 kVersion ++ (leBytes 2 kFooterSize ++ (leBytes 8 footer.indexOffset ++
    (leBytes 8 footer.indexSize ++ (leBytes 8 footer.entryCount ++ (leBytes 4 footer.blockCount ++
    (leBytes 4 0 ++ (leBytes 8 footer.minSequenceNumber ++
    leBytes 8 footer.maxSequenceNumber))))))))

def serializeFooter (footer : SSTableFooter) : Bytes := withChecksum (footerFields footer)

def parseFooter (bytes : Bytes) (fileOffset : Nat) : Except Error SSTableFooter := do
  requireSize bytes kFooterSize fileOffset "SSTable footer"
  validateChecksum bytes fileOffset "SSTable footer"
  refuse (¬ hasMagic bytes kFooterMagic)
    (.corruption fileOffset "SSTable footer magic mismatch")
  refuse (readUint bytes 8 2 ≠ kVersion)
    (.corruption (fileOffset + 8) "unsupported SSTable footer version")
  refuse (readUint bytes 10 2 ≠ kFooterSize)
    (.corruption (fileOffset + 10) "invalid SSTable footer size")
  let footer : SSTableFooter :=
    { indexOffset := readUint bytes 12 8
      indexSize := readUint bytes 20 8
      entryCount := readUint bytes 28 8
      blockCount := readUint bytes 36 4
      minSequenceNumber := readUint bytes 44 8
      maxSequenceNumber := readUint bytes 52 8 }
  refuse (footer.indexSize = 0 ∨ footer.entryCount = 0 ∨ footer.blockCount = 0 ∨
      footer.minSequenceNumber = 0 ∨ footer.minSequenceNumber > footer.maxSequenceNumber)
    (.corruption fileOffset "SSTable footer metadata is invalid")
  return footer

/-! ## Reading fields back -/

variable {front : Bytes} {size value : Nat}

theorem subspan_skip {rest : Bytes} {offset : Nat} (h : front.length ≤ offset) (size : Nat) :
    subspan (front ++ rest) offset size = subspan rest (offset - front.length) size := by
  unfold subspan
  rw [List.drop_append, List.drop_of_length_le h, List.nil_append]

theorem subspan_here (h : front.length = size) (rest : Bytes) :
    subspan (front ++ rest) 0 size = front := by
  unfold subspan
  rw [List.drop_zero, ← h, List.take_left]

theorem readUint_skip {rest : Bytes} {offset : Nat} (h : front.length ≤ offset) (size : Nat) :
    readUint (front ++ rest) offset size = readUint rest (offset - front.length) size := by
  unfold readUint
  rw [subspan_skip h]

theorem readUint_here (h : value < 256 ^ size) (rest : Bytes) :
    readUint (leBytes size value ++ rest) 0 size = value := by
  unfold readUint
  rw [subspan_here (length_leBytes size value), leValue_leBytes_of_lt h]

theorem length_withChecksum (bytes : Bytes) :
    (withChecksum bytes).length = bytes.length + kChecksumSize := by
  simp [withChecksum, kChecksumSize]

theorem validateChecksum_withChecksum (bytes : Bytes) (fileOffset : Nat) (component : String) :
    validateChecksum (withChecksum bytes) fileOffset component = .ok () := by
  have hlength := length_withChecksum bytes
  have hcut : (withChecksum bytes).length - kChecksumSize = bytes.length := by omega
  refine refuse_ok (by omega) (refuse_eq_ok.mpr ?_)
  rw [hcut, not_not, withChecksum, List.drop_left, List.take_left,
    leValue_leBytes_of_lt (ChecksumCalculator.crc32_lt bytes)]

theorem payload_withChecksum (bytes : Bytes) :
    (withChecksum bytes).take ((withChecksum bytes).length - kChecksumSize) = bytes := by
  rw [length_withChecksum, Nat.add_sub_cancel, withChecksum, List.take_left]

theorem hasMagic_withChecksum {magic rest : Bytes} : hasMagic (withChecksum (magic ++ rest)) magic := by
  rw [withChecksum, List.append_assoc]
  exact ⟨by simp, List.take_left⟩

theorem drop_front (h : front.length = size) (rest : Bytes) : (front ++ rest).drop size = rest := by
  rw [← h, List.drop_left]

theorem readString_append (text rest : Bytes) (fileOffset : Nat) (component : String) :
    readString (text ++ rest) text.length fileOffset component = .ok (text, rest) := by
  refine refuse_ok (by simp) ?_
  rw [List.take_left, List.drop_left]
  rfl

@[simp] theorem length_kHeaderMagic : kHeaderMagic.length = 8 := by simp [kHeaderMagic]

@[simp] theorem length_kDataBlockMagic : kDataBlockMagic.length = 8 := by simp [kDataBlockMagic]

@[simp] theorem length_kIndexMagic : kIndexMagic.length = 8 := by simp [kIndexMagic]

@[simp] theorem length_kFooterMagic : kFooterMagic.length = 8 := by simp [kFooterMagic]

theorem lt_of_u64 (h : value < u64) : value < 256 ^ 8 := h

theorem lt_of_uint32Max (h : value ≤ uint32Max) : value < 256 ^ 4 :=
  Nat.lt_succ_of_le h

/-! ## Header and footer -/

/-- A header whose numbers fit their fields and make sense. -/
structure HeaderFits (header : Header) : Prop where
  generation : header.generation < u64
  entryCount : header.entryCount < u64
  blockCount : header.blockCount ≤ uint32Max
  target : header.targetDataBlockBytes ≤ uint32Max
  minSequence : header.minSequenceNumber < u64
  maxSequence : header.maxSequenceNumber < u64
  sensible : ¬ (header.entryCount = 0 ∨ header.blockCount = 0 ∨ header.minSequenceNumber = 0 ∨
    header.minSequenceNumber > header.maxSequenceNumber)

theorem length_serializeHeader (header : Header) : (serializeHeader header).length = kHeaderSize := by
  rw [serializeHeader, length_withChecksum]
  simp [headerFields, kHeaderSize, kChecksumSize]

theorem parseHeader_serialize {header : Header} (h : HeaderFits header) (fileOffset : Nat) :
    parseHeader (serializeHeader header) fileOffset = .ok header := by
  have hversion : readUint (serializeHeader header) 8 2 = kVersion := by
    simp [serializeHeader, withChecksum, headerFields, readUint_skip, readUint_here, kVersion]
  have hsize : readUint (serializeHeader header) 10 2 = kHeaderSize := by
    simp [serializeHeader, withChecksum, headerFields, readUint_skip, readUint_here, kHeaderSize]
  have hfields : (⟨readUint (serializeHeader header) 12 8, readUint (serializeHeader header) 20 8,
      readUint (serializeHeader header) 28 4, readUint (serializeHeader header) 32 4,
      readUint (serializeHeader header) 36 8, readUint (serializeHeader header) 44 8⟩ : Header) =
      header := by
    simp [serializeHeader, withChecksum, headerFields, readUint_skip,
      readUint_here (lt_of_u64 h.generation), readUint_here (lt_of_u64 h.entryCount),
      readUint_here (lt_of_uint32Max h.blockCount), readUint_here (lt_of_uint32Max h.target),
      readUint_here (lt_of_u64 h.minSequence), readUint_here (lt_of_u64 h.maxSequence)]
  unfold parseHeader
  refine refuse_ok (not_not.mpr (length_serializeHeader header)) <|
    bind_ok (validateChecksum_withChecksum _ _ _) <| refuse_ok (not_not.mpr hasMagic_withChecksum) <|
    refuse_ok (not_not.mpr hversion) <| refuse_ok (not_not.mpr hsize) ?_
  rw [hfields]
  exact refuse_ok h.sensible rfl

structure FooterFits (footer : SSTableFooter) : Prop where
  indexOffset : footer.indexOffset < u64
  indexSize : footer.indexSize < u64
  entryCount : footer.entryCount < u64
  blockCount : footer.blockCount ≤ uint32Max
  minSequence : footer.minSequenceNumber < u64
  maxSequence : footer.maxSequenceNumber < u64
  sensible : ¬ (footer.indexSize = 0 ∨ footer.entryCount = 0 ∨ footer.blockCount = 0 ∨
    footer.minSequenceNumber = 0 ∨ footer.minSequenceNumber > footer.maxSequenceNumber)

theorem length_serializeFooter (footer : SSTableFooter) :
    (serializeFooter footer).length = kFooterSize := by
  rw [serializeFooter, length_withChecksum]
  simp [footerFields, kFooterSize, kChecksumSize]

theorem parseFooter_serialize {footer : SSTableFooter} (h : FooterFits footer) (fileOffset : Nat) :
    parseFooter (serializeFooter footer) fileOffset = .ok footer := by
  have hversion : readUint (serializeFooter footer) 8 2 = kVersion := by
    simp [serializeFooter, withChecksum, footerFields, readUint_skip, readUint_here, kVersion]
  have hsize : readUint (serializeFooter footer) 10 2 = kFooterSize := by
    simp [serializeFooter, withChecksum, footerFields, readUint_skip, readUint_here, kFooterSize]
  have hfields : (⟨readUint (serializeFooter footer) 12 8, readUint (serializeFooter footer) 20 8,
      readUint (serializeFooter footer) 28 8, readUint (serializeFooter footer) 36 4,
      readUint (serializeFooter footer) 44 8, readUint (serializeFooter footer) 52 8⟩ :
      SSTableFooter) = footer := by
    simp [serializeFooter, withChecksum, footerFields, readUint_skip,
      readUint_here (lt_of_u64 h.indexOffset), readUint_here (lt_of_u64 h.indexSize),
      readUint_here (lt_of_u64 h.entryCount), readUint_here (lt_of_uint32Max h.blockCount),
      readUint_here (lt_of_u64 h.minSequence), readUint_here (lt_of_u64 h.maxSequence)]
  unfold parseFooter
  refine refuse_ok (not_not.mpr (length_serializeFooter footer)) <|
    bind_ok (validateChecksum_withChecksum _ _ _) <| refuse_ok (not_not.mpr hasMagic_withChecksum) <|
    refuse_ok (not_not.mpr hversion) <| refuse_ok (not_not.mpr hsize) ?_
  rw [hfields]
  exact refuse_ok h.sensible rfl

/-- A block: a magic value, a count and a body, in front of the checksum. -/
theorem block_parts {magic : Bytes} (hmagic : magic.length = 8) (hvalue : value ≤ uint32Max)
    (body : Bytes) :
    ¬ (withChecksum (magic ++ (leBytes 4 value ++ body))).length < kPrefixSize + kChecksumSize ∧
    readUint (withChecksum (magic ++ (leBytes 4 value ++ body))) 8 4 = value ∧
    ((withChecksum (magic ++ (leBytes 4 value ++ body))).take
      ((withChecksum (magic ++ (leBytes 4 value ++ body))).length - kChecksumSize)).drop
        kPrefixSize = body := by
  refine ⟨?_, ?_, ?_⟩
  · rw [length_withChecksum, List.length_append, List.length_append, hmagic, length_leBytes]
    unfold kPrefixSize
    omega
  · simp [withChecksum, readUint_skip, hmagic, readUint_here (lt_of_uint32Max hvalue)]
  · rw [payload_withChecksum, ← List.append_assoc]
    exact drop_front (by simp [hmagic, kPrefixSize]) _

/-! ## Data blocks -/

/-- A record that the format can hold. -/
structure RecordFits (record : Bytes × Entry) : Prop extends ValidRecord record where
  sequence_lt : record.2.sequenceNumber < u64

theorem length_encodeRecord (record : Bytes × Entry) :
    (encodeRecord record).length = encodedRecordSize record := by
  simp only [encodeRecord, encodedRecordSize, kRecordFixedSize, List.length_append, length_leBytes,
    List.length_cons, List.length_nil]
  omega

/-- The fixed part of a record is read back. -/
theorem recordFields_encode {record : Bytes × Entry} (h : RecordFits record) (rest : Bytes) :
    recordFields (encodeRecord record ++ rest) =
      ⟨record.1.length, record.2.value.length, record.2.sequenceNumber,
        if record.2.deleted then 1 else 0⟩ := by
  have hkey : record.1.length < 256 ^ 4 := h.key.2.trans_lt (by decide)
  have hvalue : record.2.value.length < 256 ^ 4 := lt_of_le_of_lt h.value (by decide)
  unfold recordFields encodeRecord
  simp only [List.append_assoc]
  have hflags : ∀ tail : Bytes, ((leBytes 4 record.1.length ++ (leBytes 4 record.2.value.length ++
      (leBytes 8 record.2.sequenceNumber ++ ([if record.2.deleted then 1 else 0] ++ tail)))).drop
      16).headD 0 = if record.2.deleted then 1 else 0 := fun tail => by
    rw [List.drop_append, List.drop_append, List.drop_append]
    simp
  rw [hflags]
  simp [readUint_skip, readUint_here hkey, readUint_here hvalue,
    readUint_here (lt_of_u64 h.sequence_lt)]

/-- **The records of a block are read back**, one after the other. -/
theorem parseRecords_encode {records : Snapshot} (hsorted : KeySorted records)
    (hfits : ∀ record ∈ records, RecordFits record) {previousKey : Bytes}
    (hprevious : previousKey = [] ∨ ∀ record ∈ records, previousKey < record.1)
    (fileOffset cursor : Nat) :
    parseRecords fileOffset records.length cursor previousKey (records.flatMap encodeRecord) =
      .ok records := by
  induction records generalizing previousKey cursor with
  | nil => rfl
  | cons record rest ih =>
    obtain ⟨key, entry⟩ := record
    have hrecord := hfits (key, entry) List.mem_cons_self
    have hfields := recordFields_encode hrecord (rest.flatMap encodeRecord)
    have hlength := length_encodeRecord (key, entry)
    have htail : (encodeRecord (key, entry) ++ rest.flatMap encodeRecord).drop kRecordFixedSize =
        key ++ (entry.value ++ rest.flatMap encodeRecord) := by
      have hsplit : encodeRecord (key, entry) ++ rest.flatMap encodeRecord =
          (leBytes 4 key.length ++ (leBytes 4 entry.value.length ++
            (leBytes 8 entry.sequenceNumber ++ ([if entry.deleted then 1 else 0] ++ [0, 0, 0])))) ++
            (key ++ (entry.value ++ rest.flatMap encodeRecord)) := by
        rw [encodeRecord]
        simp only [List.append_assoc]
      rw [hsplit]
      exact drop_front (by simp [kRecordFixedSize]) _
    rw [List.length_cons, List.flatMap_cons]
    unfold parseRecords
    refine refuse_ok ?_ ?_
    · rw [List.length_append, hlength]
      unfold encodedRecordSize
      omega
    dsimp only
    rw [hfields, htail]
    dsimp only
    refine refuse_ok ?_ <| refuse_ok ?_ <| bind_ok (readString_append _ _ _ _) <|
      bind_ok (readString_append _ _ _ _) <| refuse_ok ?_ <| bind_ok (a := rest) ?_ ?_
    · rintro (h | h | h | h | h)
      · exact hrecord.key.1 (List.length_eq_zero_iff.mp h)
      · exact absurd hrecord.key.2 (not_le.mpr h)
      · exact absurd hrecord.value (not_le.mpr h)
      · exact hrecord.sequence_pos h
      · revert h
        cases entry.deleted <;> decide
    · rintro ⟨hdead, hvalue⟩
      cases hdeleted : entry.deleted with
      | false => simp [hdeleted] at hdead
      | true => exact hvalue (List.length_eq_zero_iff.mpr (hrecord.tombstone hdeleted))
    · rintro ⟨hne, hle⟩
      rcases hprevious with hnil | hlt
      · exact hne hnil
      · exact absurd hle (not_le.mpr (hlt (key, entry) List.mem_cons_self))
    · exact ih hsorted.tail (List.forall_mem_cons.mp hfits).2
        (Or.inr fun r hr => hsorted.lt_of_mem hr) _
    · cases hdeleted : entry.deleted <;> simp [← hdeleted] <;> rfl

/-- A block that the format can hold. -/
structure BlockFits (block : DataBlock) : Prop where
  nonempty : block.records ≠ []
  length_le : block.records.length ≤ uint32Max
  sorted : KeySorted block.records
  records : ∀ record ∈ block.records, RecordFits record

theorem length_dataBlockFields (block : DataBlock) :
    (dataBlockFields block).length + kChecksumSize = encodedBlockSize block := by
  have hrecords : (block.records.flatMap encodeRecord).length =
      (block.records.map encodedRecordSize).sum := by
    rw [List.length_flatMap]
    congr 1
    exact List.map_congr_left fun record _ => length_encodeRecord record
  simp only [dataBlockFields, List.length_append, length_kDataBlockMagic, length_leBytes, hrecords,
    encodedBlockSize, kPrefixSize]
  omega

theorem serializeDataBlock_ok {block : DataBlock} (h : BlockFits block) :
    serializeDataBlock block = .ok (withChecksum (dataBlockFields block)) := by
  have hchecked : checkDataBlock block = .ok () := by
    unfold checkDataBlock
    rw [if_neg h.nonempty, if_neg (not_lt.mpr h.length_le)]
    exact SSTableWriter.checkRecords_ok h.sorted (fun r hr => (h.records r hr).toValidRecord)
      (Or.inl rfl)
  exact bind_ok hchecked rfl

theorem parseDataBlock_serialize {block : DataBlock} (h : BlockFits block) (fileOffset : Nat) :
    parseDataBlock (withChecksum (dataBlockFields block)) fileOffset = .ok block := by
  obtain ⟨hlength, hcount, hpayload⟩ := block_parts length_kDataBlockMagic h.length_le
    (block.records.flatMap encodeRecord)
  unfold parseDataBlock dataBlockFields
  rw [hcount, hpayload]
  refine refuse_ok hlength <| bind_ok (validateChecksum_withChecksum _ _ _) <|
    refuse_ok (not_not.mpr hasMagic_withChecksum) <| refuse_ok ?_ <|
    bind_ok (parseRecords_encode h.sorted h.records (Or.inl rfl) _ _) rfl
  exact fun hzero => h.nonempty (List.length_eq_zero_iff.mp hzero)

/-! ## The index -/

/-- An index that the format can hold. -/
structure IndexFits (index : List IndexEntry) : Prop where
  checked : checkIndexBlock index = .ok ()
  keys : ∀ entry ∈ index, ValidKey entry.firstKey ∧ ValidKey entry.lastKey
  numbers : ∀ entry ∈ index, entry.blockOffset < u64 ∧ entry.blockSize < u64

theorem length_encodeIndexEntry (entry : IndexEntry) : (encodeIndexEntry entry).length =
    kEntryFixedSize + entry.firstKey.length + entry.lastKey.length := by
  simp only [encodeIndexEntry, kEntryFixedSize, List.length_append, length_leBytes]
  omega

theorem length_indexFields (index : List IndexEntry) :
    (indexFields index).length + kChecksumSize = encodedIndexSize index := by
  have hentries : (index.flatMap encodeIndexEntry).length = (index.map fun entry =>
      kEntryFixedSize + entry.firstKey.length + entry.lastKey.length).sum := by
    rw [List.length_flatMap]
    congr 1
    exact List.map_congr_left fun entry _ => length_encodeIndexEntry entry
  simp only [indexFields, List.length_append, length_kIndexMagic, length_leBytes, hentries,
    encodedIndexSize, kPrefixSize]
  omega

/-- The index refuses on reading what it refuses on writing. -/
theorem parseIndexEntries_encode {index : List IndexEntry} {previousLastKey : Bytes}
    (hchecked : checkIndexEntries previousLastKey index = .ok ())
    (hkeys : ∀ entry ∈ index, ValidKey entry.firstKey ∧ ValidKey entry.lastKey)
    (hnumbers : ∀ entry ∈ index, entry.blockOffset < u64 ∧ entry.blockSize < u64)
    (fileOffset cursor : Nat) :
    parseIndexEntries fileOffset index.length cursor previousLastKey
      (index.flatMap encodeIndexEntry) = .ok index := by
  induction index generalizing previousLastKey cursor with
  | nil => rfl
  | cons entry rest ih =>
    obtain ⟨hfirst, hlast⟩ := hkeys entry List.mem_cons_self
    obtain ⟨hoffset, hsize⟩ := hnumbers entry List.mem_cons_self
    have hfirstSize : entry.firstKey.length < 256 ^ 4 := hfirst.2.trans_lt (by decide)
    have hlastSize : entry.lastKey.length < 256 ^ 4 := hlast.2.trans_lt (by decide)
    unfold checkIndexEntries at hchecked
    split_ifs at hchecked with hrefused
    have hlength := length_encodeIndexEntry entry
    have htail : (encodeIndexEntry entry ++ rest.flatMap encodeIndexEntry).drop kEntryFixedSize =
        entry.firstKey ++ (entry.lastKey ++ rest.flatMap encodeIndexEntry) := by
      have hsplit : encodeIndexEntry entry ++ rest.flatMap encodeIndexEntry =
          (leBytes 8 entry.blockOffset ++ (leBytes 8 entry.blockSize ++
            (leBytes 4 entry.firstKey.length ++ leBytes 4 entry.lastKey.length))) ++
            (entry.firstKey ++ (entry.lastKey ++ rest.flatMap encodeIndexEntry)) := by
        rw [encodeIndexEntry]
        simp only [List.append_assoc]
      rw [hsplit]
      exact drop_front (by simp [kEntryFixedSize]) _
    have hfields : readUint (encodeIndexEntry entry ++ rest.flatMap encodeIndexEntry) 0 8 =
          entry.blockOffset ∧
        readUint (encodeIndexEntry entry ++ rest.flatMap encodeIndexEntry) 8 8 =
          entry.blockSize ∧
        readUint (encodeIndexEntry entry ++ rest.flatMap encodeIndexEntry) 16 4 =
          entry.firstKey.length ∧
        readUint (encodeIndexEntry entry ++ rest.flatMap encodeIndexEntry) 20 4 =
          entry.lastKey.length := by
      generalize rest.flatMap encodeIndexEntry = tail
      unfold encodeIndexEntry
      simp [readUint_skip, readUint_here (lt_of_u64 hoffset), readUint_here (lt_of_u64 hsize),
        readUint_here hfirstSize, readUint_here hlastSize]
    obtain ⟨hf₁, hf₂, hf₃, hf₄⟩ := hfields
    rw [List.length_cons, List.flatMap_cons]
    unfold parseIndexEntries
    rw [hf₁, hf₂, hf₃, hf₄, htail]
    refine refuse_ok ?_ <| refuse_ok ?_ <| bind_ok (readString_append _ _ _ _) <|
      bind_ok (readString_append _ _ _ _) <| refuse_ok ?_ <| bind_ok (a := rest) ?_ rfl
    · rw [List.length_append, hlength]
      omega
    · rintro (h | h | h | h | h)
      · exact hfirst.1 (List.length_eq_zero_iff.mp h)
      · exact absurd hfirst.2 (not_le.mpr h)
      · exact hlast.1 (List.length_eq_zero_iff.mp h)
      · exact absurd hlast.2 (not_le.mpr h)
      · exact hrefused (Or.inr (Or.inr (Or.inr (Or.inl h))))
    · rintro (h | h)
      · exact hrefused (Or.inr (Or.inr (Or.inl h)))
      · exact hrefused (Or.inr (Or.inr (Or.inr (Or.inr h))))
    · exact ih hchecked (List.forall_mem_cons.mp hkeys).2
        (List.forall_mem_cons.mp hnumbers).2 _

theorem parseIndexBlock_serialize {index : List IndexEntry} (h : IndexFits index)
    (fileOffset : Nat) : parseIndexBlock (withChecksum (indexFields index)) fileOffset = .ok index := by
  have hchecked := h.checked
  unfold checkIndexBlock at hchecked
  split_ifs at hchecked with hnil hmany
  obtain ⟨hlength, hcount, hpayload⟩ := block_parts length_kIndexMagic (not_lt.mp hmany)
    (index.flatMap encodeIndexEntry)
  unfold parseIndexBlock indexFields
  rw [hcount, hpayload]
  refine refuse_ok hlength <| bind_ok (validateChecksum_withChecksum _ _ _) <|
    refuse_ok (not_not.mpr hasMagic_withChecksum) <| refuse_ok ?_ <|
    parseIndexEntries_encode hchecked h.keys h.numbers _ _
  exact fun hzero => hnil (List.length_eq_zero_iff.mp hzero)

end SSTableFormat

end NebulaKV.Lsm
