/-
# The bytes of the manifest

`manifest.cpp` on BYTES: `MANIFEST-…` and `CURRENT`, each in front of its CRC-32, written by `commit` and
read by `load`. `ManifestManager` has the same files as records; `Encodes` relates the two, and `commit`
and `load` keep to it (`Encodes.commit`, `Encodes.load`).

Writer and reader check different things. What the writer takes and the numbers of an open table fit, the
parser takes back (`parseManifest_fields`), up to one check: the reader refuses a file of more than 64 MiB,
and nobody keeps the writer from making one. So a committed manifest loads exactly if it is no larger
(`committed_loads_iff`).
-/
import NebulaKV.Lsm.AcceptedTable
import NebulaKV.Lsm.Publish

namespace NebulaKV.Lsm

open Containers Effects Codec

namespace ManifestFormat

def kManifestMagic : Bytes := [78, 66, 76, 77, 65, 78, 48, 49]

def kCurrentMagic : Bytes := [78, 66, 76, 67, 85, 82, 48, 49]

def kManifestVersion : Nat := 1

/-! ## The decoder

A reader returns the bytes that are still unread. -/

namespace Decoder

def readString (rest : Bytes) (size : Nat) : Except Error (Bytes × Bytes) := do
  refuse (size > rest.length) (.runtimeError "metadata file is truncated")
  return (rest.take size, rest.drop size)

def readUint (size : Nat) (rest : Bytes) : Except Error (Nat × Bytes) := do
  let (bytes, rest) ← readString rest size
  return (leValue bytes, rest)

def readUint8 : Bytes → Except Error (Nat × Bytes) := readUint 1

def readUint16 : Bytes → Except Error (Nat × Bytes) := readUint 2

def readUint32 : Bytes → Except Error (Nat × Bytes) := readUint 4

def readUint64 : Bytes → Except Error (Nat × Bytes) := readUint 8

def expectMagic (magic rest : Bytes) : Except Error Bytes := do
  let (bytes, rest) ← readString rest magic.length
  refuse (bytes ≠ magic) (.runtimeError "metadata file has an invalid magic value")
  return rest

theorem readString_append (text rest : Bytes) :
    readString (text ++ rest) text.length = .ok (text, rest) := by
  refine refuse_ok (by simp) ?_
  rw [List.take_left, List.drop_left]
  rfl

theorem readUint_append {size value : Nat} (h : value < 256 ^ size) (rest : Bytes) :
    readUint size (leBytes size value ++ rest) = .ok (value, rest) := by
  have hread := readString_append (leBytes size value) rest
  rw [length_leBytes] at hread
  refine bind_ok hread ?_
  show Except.ok (leValue (leBytes size value), rest) = _
  rw [leValue_leBytes_of_lt h]

theorem expectMagic_append (magic rest : Bytes) : expectMagic magic (magic ++ rest) = .ok rest :=
  bind_ok (readString_append magic rest) <| refuse_ok (not_not.mpr rfl) rfl

end Decoder

/-! ## The checksum -/

def appendChecksum (bytes : Bytes) : Bytes := bytes ++ leBytes 4 (ChecksumCalculator.crc32 bytes)

def verifiedPayload (bytes : Bytes) : Except Error Bytes := do
  refuse (bytes.length < 4) (.runtimeError "metadata file is too small")
  let payloadSize := bytes.length - 4
  let (expected, _) ← Decoder.readUint32 (bytes.drop payloadSize)
  refuse (ChecksumCalculator.crc32 (bytes.take payloadSize) ≠ expected)
    (.runtimeError "metadata checksum mismatch")
  return bytes.take payloadSize

theorem length_appendChecksum (bytes : Bytes) : (appendChecksum bytes).length = bytes.length + 4 := by
  simp [appendChecksum]

/-- Exactly the bytes with their checksum are verified. -/
theorem verifiedPayload_eq_ok {bytes payload : Bytes} :
    verifiedPayload bytes = .ok payload ↔ bytes = appendChecksum payload := by
  constructor
  · intro h
    obtain ⟨hsize, h⟩ := refuse_bind_eq_ok.mp h
    obtain ⟨⟨expected, unread⟩, hexpected, h⟩ := bind_eq_ok.mp h
    obtain ⟨hsum, hpayload⟩ := refuse_bind_eq_ok.mp h
    obtain ⟨⟨stored, after⟩, hstored, hvalue⟩ := bind_eq_ok.mp hexpected
    obtain ⟨-, hread⟩ := refuse_bind_eq_ok.mp hstored
    obtain ⟨rfl, rfl⟩ := Prod.mk.inj (Except.ok.inj hread)
    obtain ⟨rfl, -⟩ := Prod.mk.inj (Except.ok.inj hvalue)
    obtain rfl := Except.ok.inj hpayload
    have hlast : (bytes.drop (bytes.length - 4)).length = 4 := by
      rw [List.length_drop]
      omega
    rw [appendChecksum, not_not.mp hsum, List.take_of_length_le hlast.le]
    have hbytes := leBytes_leValue (bytes.drop (bytes.length - 4))
    rw [hlast] at hbytes
    rw [hbytes, List.take_append_drop]
  · rintro rfl
    have hcut : (appendChecksum payload).length - 4 = payload.length := by
      rw [length_appendChecksum, Nat.add_sub_cancel]
    have htake : (appendChecksum payload).take payload.length = payload := List.take_left
    have hread : Decoder.readUint32 ((appendChecksum payload).drop payload.length) =
        .ok (ChecksumCalculator.crc32 payload, []) := by
      rw [appendChecksum, List.drop_left, ← List.append_nil (leBytes 4 _)]
      exact Decoder.readUint_append (ChecksumCalculator.crc32_lt payload) []
    refine refuse_bind_eq_ok.mpr ⟨by rw [length_appendChecksum]; omega, ?_⟩
    simp only [hcut, htake, hread]
    exact refuse_ok (not_not.mpr rfl) rfl

/-! ## CURRENT -/

/-- The separator of paths: a path is absolute or has a parent only with one. -/
def slash : UInt8 := 47

def manifestPrefix : Bytes := ascii "MANIFEST-"

def manifestName (generation : Nat) : Bytes := manifestPrefix ++ padded 20 generation

def currentFields (manifestFilename : Bytes) : Bytes :=
  kCurrentMagic ++ (leBytes 2 kManifestVersion ++ (leBytes 2 0 ++
    (leBytes 4 manifestFilename.length ++ manifestFilename)))

def serializeCurrent (manifestFilename : Bytes) : Except Error Bytes := do
  refuse (manifestFilename = [] ∨ manifestFilename.length > kMaximumFilenameBytes)
    (.invalidArgument "manifest filename is invalid")
  return appendChecksum (currentFields manifestFilename)

def parseCurrent (bytes : Bytes) : Except Error Bytes := do
  let rest ← verifiedPayload bytes
  let rest ← Decoder.expectMagic kCurrentMagic rest
  let (version, rest) ← Decoder.readUint16 rest
  refuse (version ≠ kManifestVersion)
    (.runtimeError "CURRENT references an unsupported metadata version")
  let (flags, rest) ← Decoder.readUint16 rest
  refuse (flags ≠ 0) (.runtimeError "CURRENT contains unsupported flags")
  let (size, rest) ← Decoder.readUint32 rest
  refuse (size = 0 ∨ size > kMaximumFilenameBytes)
    (.runtimeError "CURRENT contains an invalid manifest filename length")
  let (filename, rest) ← Decoder.readString rest size
  refuse (rest ≠ []) (.runtimeError "CURRENT contains trailing data")
  refuse (slash ∈ filename ∨ filename.take manifestPrefix.length ≠ manifestPrefix)
    (.runtimeError "CURRENT contains an unsafe manifest filename")
  return filename

/-! ## MANIFEST -/

def levelCode : SSTableLevel → Nat
  | .Level0 => 0
  | .Level1 => 1

def parseLevel : Nat → Except Error SSTableLevel
  | 0 => .ok .Level0
  | 1 => .ok .Level1
  | _ => .error (.runtimeError "manifest contains an unsupported SSTable level")

def tableFields (table : SSTableMetadata) : Bytes :=
  leBytes 1 (levelCode table.level) ++ (leBytes 1 0 ++ (leBytes 2 0 ++ (leBytes 8 table.generation ++
    (leBytes 8 table.entryCount ++ (leBytes 4 table.blockCount ++ (leBytes 8 table.minSequenceNumber ++
    (leBytes 8 table.maxSequenceNumber ++ (leBytes 4 table.path.length ++
    (leBytes 4 table.smallestKey.length ++ (leBytes 4 table.largestKey.length ++ (table.path ++
    (table.smallestKey ++ table.largestKey))))))))))))

def checkedUint32 (value : Nat) (context : String) : Except Error Unit :=
  refuse (value > uint32Max) (.lengthError context)

/-- The loop of `serialize_manifest`. -/
def serializeTables (filenames : List Bytes) : List SSTableMetadata → Except Error Bytes
  | [] => .ok []
  | table :: rest => do
    refuse (table.path = [] ∨ table.path.length > kMaximumFilenameBytes ∨ slash ∈ table.path)
      (.invalidArgument "manifest SSTable path must be a filename")
    refuse (table.path ∈ filenames)
      (.invalidArgument "manifest contains duplicate SSTable filenames")
    refuse (table.smallestKey = [] ∨ table.largestKey = [] ∨ table.smallestKey > table.largestKey)
      (.invalidArgument "manifest contains an invalid SSTable key range")
    checkedUint32 table.smallestKey.length "SSTable smallest key is too large"
    checkedUint32 table.largestKey.length "SSTable largest key is too large"
    let bytes ← serializeTables (table.path :: filenames) rest
    return tableFields table ++ bytes

def manifestHeader (snapshot : ManifestSnapshot) : Bytes :=
  kManifestMagic ++ (leBytes 2 kManifestVersion ++ (leBytes 2 0 ++ (leBytes 8 snapshot.generation ++
    (leBytes 8 snapshot.nextFileId ++ (leBytes 4 snapshot.tables.length ++ leBytes 4 0)))))

def manifestFields (snapshot : ManifestSnapshot) : Bytes :=
  manifestHeader snapshot ++ snapshot.tables.flatMap tableFields

def serializeManifest (snapshot : ManifestSnapshot) : Except Error Bytes := do
  refuse (snapshot.generation = 0 ∨ snapshot.nextFileId = 0)
    (.invalidArgument "manifest counters must be non-zero")
  refuse (snapshot.tables.length > kMaximumManifestTables)
    (.lengthError "manifest contains too many SSTables")
  let tables ← serializeTables [] snapshot.tables
  return appendChecksum (manifestHeader snapshot ++ tables)

/-- The fields of one table, up to the check of its numbers. -/
def readTable (filenames : List Bytes) (rest : Bytes) : Except Error (SSTableMetadata × Bytes) := do
  let (rawLevel, rest) ← Decoder.readUint8 rest
  let (flags, rest) ← Decoder.readUint8 rest
  refuse (flags ≠ 0) (.runtimeError "manifest table record contains unsupported flags")
  let (flags, rest) ← Decoder.readUint16 rest
  refuse (flags ≠ 0) (.runtimeError "manifest table record contains unsupported flags")
  let level ← parseLevel rawLevel
  let (generation, rest) ← Decoder.readUint64 rest
  let (entryCount, rest) ← Decoder.readUint64 rest
  let (blockCount, rest) ← Decoder.readUint32 rest
  let (minSequenceNumber, rest) ← Decoder.readUint64 rest
  let (maxSequenceNumber, rest) ← Decoder.readUint64 rest
  let (filenameSize, rest) ← Decoder.readUint32 rest
  let (smallestSize, rest) ← Decoder.readUint32 rest
  let (largestSize, rest) ← Decoder.readUint32 rest
  refuse (filenameSize = 0 ∨ filenameSize > kMaximumFilenameBytes ∨ smallestSize = 0 ∨
      largestSize = 0)
    (.runtimeError "manifest contains invalid variable-length fields")
  let (filename, rest) ← Decoder.readString rest filenameSize
  refuse (slash ∈ filename ∨ filename ∈ filenames)
    (.runtimeError "manifest contains an unsafe or duplicate SSTable filename")
  let (smallestKey, rest) ← Decoder.readString rest smallestSize
  let (largestKey, rest) ← Decoder.readString rest largestSize
  return (⟨filename, generation, entryCount, blockCount, minSequenceNumber, maxSequenceNumber,
    smallestKey, largestKey, level⟩, rest)

/-- The loop of `parse_manifest`. -/
def parseTables (filenames : List Bytes) : Nat → Bytes → Except Error (List SSTableMetadata × Bytes)
  | 0, rest => .ok ([], rest)
  | count + 1, rest => do
    let (table, rest) ← readTable filenames rest
    refuse (table.smallestKey > table.largestKey ∨ invalidMetadata table = true)
      (.runtimeError "manifest contains invalid SSTable metadata")
    let (tables, rest) ← parseTables (table.path :: filenames) count rest
    return (table :: tables, rest)

/-- The fields in front of the tables: the counters and how many tables there are. -/
def readManifestHeader (rest : Bytes) : Except Error ((Nat × Nat × Nat) × Bytes) := do
  let rest ← Decoder.expectMagic kManifestMagic rest
  let (version, rest) ← Decoder.readUint16 rest
  refuse (version ≠ kManifestVersion) (.runtimeError "manifest uses an unsupported version")
  let (flags, rest) ← Decoder.readUint16 rest
  refuse (flags ≠ 0) (.runtimeError "manifest contains unsupported flags")
  let (generation, rest) ← Decoder.readUint64 rest
  let (nextFileId, rest) ← Decoder.readUint64 rest
  let (tableCount, rest) ← Decoder.readUint32 rest
  let (flags, rest) ← Decoder.readUint32 rest
  refuse (flags ≠ 0) (.runtimeError "manifest header contains unsupported flags")
  refuse (generation = 0 ∨ nextFileId = 0 ∨ tableCount > kMaximumManifestTables)
    (.runtimeError "manifest header contains invalid counters")
  return ((generation, nextFileId, tableCount), rest)

def parseManifest (bytes : Bytes) : Except Error ManifestSnapshot := do
  let rest ← verifiedPayload bytes
  let ((generation, nextFileId, tableCount), rest) ← readManifestHeader rest
  let (tables, rest) ← parseTables [] tableCount rest
  refuse (rest ≠ []) (.runtimeError "manifest contains trailing data")
  return ⟨generation, nextFileId, tables⟩

/-! ## What is written is parsed -/

/-- A table that the writer takes. -/
structure TableStorable (table : SSTableMetadata) : Prop where
  path_ne : table.path ≠ []
  path_le : table.path.length ≤ kMaximumFilenameBytes
  path_safe : slash ∉ table.path
  smallest_ne : table.smallestKey ≠ []
  largest_ne : table.largestKey ≠ []
  ordered : table.smallestKey ≤ table.largestKey
  smallest_le : table.smallestKey.length ≤ uint32Max
  largest_le : table.largestKey.length ≤ uint32Max

/-- Numbers of the machine. -/
structure TableNumbers (table : SSTableMetadata) : Prop where
  generation : table.generation < u64
  entryCount : table.entryCount < u64
  blockCount : table.blockCount ≤ uint32Max
  minSequence : table.minSequenceNumber < u64
  maxSequence : table.maxSequenceNumber < u64

theorem parseLevel_levelCode (level : SSTableLevel) : parseLevel (levelCode level) = .ok level := by
  cases level <;> rfl

theorem levelCode_lt (level : SSTableLevel) : levelCode level < 256 ^ 1 := by
  cases level <;> decide

variable {tables : List SSTableMetadata} {filenames : List Bytes}

theorem serializeTables_eq_ok {bytes : Bytes} : serializeTables filenames tables = .ok bytes ↔
      bytes = tables.flatMap tableFields ∧ (∀ table ∈ tables, TableStorable table) ∧
      (tables.map SSTableMetadata.path).Nodup ∧ ∀ table ∈ tables, table.path ∉ filenames := by
  induction tables generalizing filenames bytes with
  | nil =>
    refine ⟨fun h => ⟨(Except.ok.inj h).symm, by simp, List.nodup_nil, by simp⟩, ?_⟩
    rintro ⟨rfl, -⟩
    rfl
  | cons table rest ih =>
    constructor
    · intro h
      obtain ⟨hpath, h⟩ := refuse_bind_eq_ok.mp h
      obtain ⟨hnew, h⟩ := refuse_bind_eq_ok.mp h
      obtain ⟨hkeys, h⟩ := refuse_bind_eq_ok.mp h
      obtain ⟨hsmallest, h⟩ := refuse_bind_eq_ok.mp h
      obtain ⟨hlargest, h⟩ := refuse_bind_eq_ok.mp h
      obtain ⟨later, hlater, h⟩ := bind_eq_ok.mp h
      obtain rfl := Except.ok.inj h
      obtain ⟨rfl, hstorable, hnodup, hfresh⟩ := ih.mp hlater
      push Not at hpath hkeys hsmallest hlargest
      refine ⟨rfl, ?_, List.nodup_cons.mpr ⟨?_, hnodup⟩, ?_⟩
      · intro other hother
        rcases List.mem_cons.mp hother with rfl | hother
        · exact ⟨hpath.1, hpath.2.1, hpath.2.2, hkeys.1, hkeys.2.1, hkeys.2.2, hsmallest, hlargest⟩
        · exact hstorable other hother
      · intro hmem
        obtain ⟨other, hother, heq⟩ := List.mem_map.mp hmem
        exact hfresh other hother (heq ▸ List.mem_cons_self)
      · intro other hother
        rcases List.mem_cons.mp hother with rfl | hother
        · exact hnew
        · exact fun hmem => hfresh other hother (List.mem_cons_of_mem _ hmem)
    · rintro ⟨rfl, hstorable, hnodup, hfresh⟩
      obtain ⟨hnot, hnodup⟩ := List.nodup_cons.mp hnodup
      have hs := hstorable table List.mem_cons_self
      have hlater := (@ih (table.path :: filenames)).mpr ⟨rfl,
        (List.forall_mem_cons.mp hstorable).2, hnodup,
        fun other hother hmem => by
          rcases List.mem_cons.mp hmem with heq | hmem
          · exact hnot (heq ▸ List.mem_map_of_mem hother)
          · exact hfresh other (List.mem_cons_of_mem _ hother) hmem⟩
      refine refuse_ok ?_ <| refuse_ok (hfresh table List.mem_cons_self) <| refuse_ok ?_ <|
        refuse_ok (not_lt.mpr hs.smallest_le) <| refuse_ok (not_lt.mpr hs.largest_le) <|
        bind_ok hlater rfl
      · push Not
        exact ⟨hs.path_ne, hs.path_le, hs.path_safe⟩
      · push Not
        exact ⟨hs.smallest_ne, hs.largest_ne, hs.ordered⟩

section Table

variable {table : SSTableMetadata} {filenames : List Bytes}

theorem readTable_fields (hs : TableStorable table) (hn : TableNumbers table)
    (hnew : table.path ∉ filenames) (rest : Bytes) :
    readTable filenames (tableFields table ++ rest) = .ok (table, rest) := by
  have hpathLength : table.path.length < 256 ^ 4 :=
    hs.path_le.trans_lt (by decide)
  have hsizes : ¬ (table.path.length = 0 ∨ table.path.length > kMaximumFilenameBytes ∨
      table.smallestKey.length = 0 ∨ table.largestKey.length = 0) := by
    simp only [List.length_eq_zero_iff]
    push Not
    exact ⟨hs.path_ne, hs.path_le, hs.smallest_ne, hs.largest_ne⟩
  unfold tableFields
  simp only [List.append_assoc]
  refine bind_ok (Decoder.readUint_append (levelCode_lt table.level) _) ?_
  refine bind_ok (Decoder.readUint_append (by decide) _) ?_
  refine refuse_ok (not_not.mpr rfl) ?_
  refine bind_ok (Decoder.readUint_append (by decide) _) ?_
  refine refuse_ok (not_not.mpr rfl) ?_
  refine bind_ok (parseLevel_levelCode table.level) ?_
  refine bind_ok (Decoder.readUint_append hn.generation _) ?_
  refine bind_ok (Decoder.readUint_append hn.entryCount _) ?_
  refine bind_ok (Decoder.readUint_append (SSTableFormat.lt_of_uint32Max hn.blockCount) _) ?_
  refine bind_ok (Decoder.readUint_append hn.minSequence _) ?_
  refine bind_ok (Decoder.readUint_append hn.maxSequence _) ?_
  refine bind_ok (Decoder.readUint_append hpathLength _) ?_
  refine bind_ok (Decoder.readUint_append (SSTableFormat.lt_of_uint32Max hs.smallest_le) _) ?_
  refine bind_ok (Decoder.readUint_append (SSTableFormat.lt_of_uint32Max hs.largest_le) _) ?_
  refine refuse_ok hsizes ?_
  refine bind_ok (Decoder.readString_append table.path _) ?_
  refine refuse_ok (not_or.mpr ⟨hs.path_safe, hnew⟩) ?_
  refine bind_ok (Decoder.readString_append table.smallestKey _) ?_
  exact bind_ok (Decoder.readString_append table.largestKey _) rfl

end Table

/-- The tables come back, unless one has numbers that the parser refuses. -/
theorem parseTables_fields (hs : ∀ table ∈ tables, TableStorable table)
    (hn : ∀ table ∈ tables, TableNumbers table) (hnodup : (tables.map SSTableMetadata.path).Nodup)
    (hnew : ∀ table ∈ tables, table.path ∉ filenames) (rest : Bytes) :
    parseTables filenames tables.length (tables.flatMap tableFields ++ rest) =
      if tables.any invalidMetadata then
        .error (.runtimeError "manifest contains invalid SSTable metadata")
      else .ok (tables, rest) := by
  induction tables generalizing filenames with
  | nil => rfl
  | cons table later ih =>
    obtain ⟨hnot, hnodup⟩ := List.nodup_cons.mp hnodup
    have htable := readTable_fields (hs table List.mem_cons_self) (hn table List.mem_cons_self)
      (hnew table List.mem_cons_self) (later.flatMap tableFields ++ rest)
    have hordered : ¬ table.smallestKey > table.largestKey :=
      not_lt.mpr (hs table List.mem_cons_self).ordered
    have hunused : ∀ other ∈ later, other.path ∉ table.path :: filenames := fun other hother hmem => by
      rcases List.mem_cons.mp hmem with heq | hmem
      · exact hnot (heq ▸ List.mem_map_of_mem hother)
      · exact hnew other (List.mem_cons_of_mem _ hother) hmem
    have hlater := ih (List.forall_mem_cons.mp hs).2
      (List.forall_mem_cons.mp hn).2 hnodup hunused
    rw [List.flatMap_cons, List.append_assoc, List.length_cons, List.any_cons]
    unfold parseTables
    rw [htable]
    by_cases hinvalid : invalidMetadata table = true
    · rw [hinvalid, Bool.true_or, if_pos rfl]
      show (refuse _ _ >>= _) = _
      rw [refuse, if_pos (Or.inr hinvalid)]
      rfl
    · rw [Bool.not_eq_true] at hinvalid
      rw [hinvalid, Bool.false_or]
      show (refuse _ _ >>= fun _ => parseTables _ _ _ >>= _) = _
      rw [refuse, if_neg (by simp [hordered, hinvalid]), hlater]
      by_cases hany : later.any invalidMetadata = true
      · rw [if_pos hany, if_pos hany]
        rfl
      · rw [if_neg hany, if_neg hany]
        rfl

/-- On names and keys that need no further check, the writer checks what the records are checked for. -/
theorem serializeTables_eq
    (hsafe : ∀ table ∈ tables, slash ∉ table.path ∧ table.smallestKey.length ≤ uint32Max ∧
      table.largestKey.length ≤ uint32Max) (filenames : List Bytes) :
    serializeTables filenames tables =
      ManifestManager.checkTables filenames tables >>= fun _ => .ok (tables.flatMap tableFields) := by
  induction tables generalizing filenames with
  | nil => rfl
  | cons table rest ih =>
    obtain ⟨hslash, hsmallest, hlargest⟩ := hsafe table List.mem_cons_self
    have hrest := ih (List.forall_mem_cons.mp hsafe).2
      (table.path :: filenames)
    have hfits : checkedUint32 table.smallestKey.length "SSTable smallest key is too large" = .ok () ∧
        checkedUint32 table.largestKey.length "SSTable largest key is too large" = .ok () :=
      ⟨if_neg (not_lt.mpr hsmallest), if_neg (not_lt.mpr hlargest)⟩
    unfold serializeTables ManifestManager.checkTables
    simp only [hslash, or_false, hfits, ok_bind, hrest, refuse_bind]
    split_ifs
    · rfl
    · rfl
    · rfl
    · cases ManifestManager.checkTables (table.path :: filenames) rest <;> rfl

/-- A manifest of the machine that the writer takes. -/
structure ManifestFits (snapshot : ManifestSnapshot) : Prop where
  generation : snapshot.generation ≠ 0 ∧ snapshot.generation < u64
  nextFileId : snapshot.nextFileId ≠ 0 ∧ snapshot.nextFileId < u64
  few : snapshot.tables.length ≤ kMaximumManifestTables
  storable : ∀ table ∈ snapshot.tables, TableStorable table
  numbers : ∀ table ∈ snapshot.tables, TableNumbers table
  names : (snapshot.tables.map SSTableMetadata.path).Nodup

section Manifest

variable {snapshot : ManifestSnapshot}

theorem serializeManifest_eq_ok {bytes : Bytes} : serializeManifest snapshot = .ok bytes ↔
    bytes = appendChecksum (manifestFields snapshot) ∧ snapshot.generation ≠ 0 ∧
      snapshot.nextFileId ≠ 0 ∧ snapshot.tables.length ≤ kMaximumManifestTables ∧
      (∀ table ∈ snapshot.tables, TableStorable table) ∧
      (snapshot.tables.map SSTableMetadata.path).Nodup := by
  constructor
  · intro h
    obtain ⟨hcounters, h⟩ := refuse_bind_eq_ok.mp h
    obtain ⟨hfew, h⟩ := refuse_bind_eq_ok.mp h
    obtain ⟨tables, htables, h⟩ := bind_eq_ok.mp h
    obtain rfl := Except.ok.inj h
    obtain ⟨rfl, hstorable, hnodup, -⟩ := serializeTables_eq_ok.mp htables
    exact ⟨rfl, (not_or.mp hcounters).1, (not_or.mp hcounters).2, not_lt.mp hfew, hstorable, hnodup⟩
  · rintro ⟨rfl, hgeneration, hnext, hfew, hstorable, hnodup⟩
    exact refuse_ok (not_or.mpr ⟨hgeneration, hnext⟩) <| refuse_ok (not_lt.mpr hfew) <|
      bind_ok (serializeTables_eq_ok.mpr ⟨rfl, hstorable, hnodup, by simp⟩) rfl

theorem serializeManifest_eq (hsafe : ∀ table ∈ snapshot.tables, slash ∉ table.path ∧
      table.smallestKey.length ≤ uint32Max ∧ table.largestKey.length ≤ uint32Max) :
    serializeManifest snapshot = ManifestManager.checkManifest snapshot >>= fun _ =>
      .ok (appendChecksum (manifestFields snapshot)) := by
  unfold serializeManifest ManifestManager.checkManifest
  simp only [serializeTables_eq hsafe, refuse_bind]
  split_ifs
  · rfl
  · rfl
  · cases ManifestManager.checkTables [] snapshot.tables <;> rfl

theorem readManifestHeader_fields (h : ManifestFits snapshot) (rest : Bytes) :
    readManifestHeader (manifestHeader snapshot ++ rest) =
      .ok ((snapshot.generation, snapshot.nextFileId, snapshot.tables.length), rest) := by
  have hcount : snapshot.tables.length < 256 ^ 4 := h.few.trans_lt (by decide)
  unfold manifestHeader
  simp only [List.append_assoc]
  refine bind_ok (Decoder.expectMagic_append _ _) ?_
  refine bind_ok (Decoder.readUint_append (by decide) _) ?_
  refine refuse_ok (not_not.mpr rfl) ?_
  refine bind_ok (Decoder.readUint_append (by decide) _) ?_
  refine refuse_ok (not_not.mpr rfl) ?_
  refine bind_ok (Decoder.readUint_append h.generation.2 _) ?_
  refine bind_ok (Decoder.readUint_append h.nextFileId.2 _) ?_
  refine bind_ok (Decoder.readUint_append hcount _) ?_
  refine bind_ok (Decoder.readUint_append (by decide) _) ?_
  refine refuse_ok (not_not.mpr rfl) <| refuse_ok ?_ rfl
  push Not
  exact ⟨h.generation.1, h.nextFileId.1, h.few⟩

/-- **What was written is parsed**, unless a table has numbers that the parser refuses. -/
theorem parseManifest_fields (h : ManifestFits snapshot) :
    parseManifest (appendChecksum (manifestFields snapshot)) =
      if snapshot.tables.any invalidMetadata then
        .error (.runtimeError "manifest contains invalid SSTable metadata")
      else .ok snapshot := by
  have htables := parseTables_fields h.storable h.numbers h.names
    (show ∀ table ∈ snapshot.tables, table.path ∉ [] by simp) []
  rw [List.append_nil] at htables
  unfold parseManifest
  rw [verifiedPayload_eq_ok.mpr rfl, ok_bind, manifestFields, readManifestHeader_fields h,
    ok_bind]
  dsimp only
  rw [htables]
  split_ifs
  · rfl
  · rfl

theorem length_tableFields (table : SSTableMetadata) : (tableFields table).length =
    52 + table.path.length + table.smallestKey.length + table.largestKey.length := by
  simp only [tableFields, List.length_append, length_leBytes]
  omega

theorem length_manifest (snapshot : ManifestSnapshot) :
    (appendChecksum (manifestFields snapshot)).length = encodedManifestSize snapshot := by
  rw [length_appendChecksum, manifestFields, List.length_append, List.length_flatMap,
    List.map_congr_left fun table _ => length_tableFields table, encodedManifestSize]
  simp only [manifestHeader, kManifestMagic, List.length_append, length_leBytes, List.length_cons,
    List.length_nil]
  omega

end Manifest

/-! ## The name of a manifest -/

theorem slash_notMem_padded (width n : Nat) : slash ∉ padded width n := by
  induction width generalizing n with
  | zero => simp [padded]
  | succ width ih =>
    rw [padded, List.mem_append, List.mem_singleton]
    rintro (h | h)
    · exact ih _ h
    · have hvalue := congrArg UInt8.toNat h
      rw [UInt8.toNat_ofNat', show slash.toNat = 47 from rfl] at hvalue
      omega

theorem slash_notMem_tablePath (level : SSTableLevel) (fileId generation maxSequence : Nat) :
    slash ∉ tablePath level fileId generation maxSequence := by
  have hnames : slash ∉ ascii "sstable-" ∧ slash ∉ levelName level ∧ slash ∉ ascii "-f" ∧
      slash ∉ ascii "-g" ∧ slash ∉ ascii "-s" ∧ slash ∉ ascii ".sst" := by
    cases level <;> decide
  simp only [tablePath, List.mem_append, slash_notMem_padded, hnames]
  simp

theorem length_manifestName (generation : Nat) : (manifestName generation).length = 29 := by
  rw [manifestName, List.length_append, length_padded]
  rfl

theorem manifestName_inj {g g' : Nat} (hg : g < u64) (hg' : g' < u64)
    (h : manifestName g = manifestName g') : g = g' := by
  have hbig : u64 < 10 ^ 20 := by decide
  exact padded_inj (hg.trans hbig) (hg'.trans hbig) (List.append_cancel_left h)

theorem serializeCurrent_name (generation : Nat) :
    serializeCurrent (manifestName generation) =
      .ok (appendChecksum (currentFields (manifestName generation))) := by
  refine refuse_ok ?_ rfl
  have hlength := length_manifestName generation
  rintro (hnil | hlong)
  · rw [hnil] at hlength
    cases hlength
  · rw [hlength] at hlong
    exact absurd hlong (by decide)

theorem parseCurrent_name (generation : Nat) :
    parseCurrent (appendChecksum (currentFields (manifestName generation))) =
      .ok (manifestName generation) := by
  have hlength := length_manifestName generation
  have hsafe : slash ∉ manifestName generation := by
    rw [manifestName, List.mem_append]
    rintro (h | h)
    · exact absurd h (by decide)
    · exact slash_notMem_padded _ _ h
  have hprefix : (manifestName generation).take manifestPrefix.length = manifestPrefix :=
    List.take_left
  have hname := Decoder.readString_append (manifestName generation) []
  rw [List.append_nil] at hname
  unfold currentFields
  refine bind_ok (verifiedPayload_eq_ok.mpr rfl) ?_
  refine bind_ok (Decoder.expectMagic_append _ _) ?_
  refine bind_ok (Decoder.readUint_append (by decide) _) ?_
  refine refuse_ok (not_not.mpr rfl) ?_
  refine bind_ok (Decoder.readUint_append (by decide) _) ?_
  refine refuse_ok (not_not.mpr rfl) ?_
  refine bind_eq_ok.mpr ⟨_, Decoder.readUint_append (by rw [hlength]; decide) _, ?_⟩
  refine refuse_bind_eq_ok.mpr ⟨by rw [hlength]; decide, ?_⟩
  refine bind_ok hname ?_
  refine refuse_ok (not_not.mpr rfl) ?_
  exact refuse_ok (not_or.mpr ⟨hsafe, not_not.mpr hprefix⟩) rfl

end ManifestFormat

/-! ## The files -/

open ManifestFormat

/-- The manifest manager with its files: the bytes of the `MANIFEST-…` files by name, and of `CURRENT`. -/
structure ManifestFiles where
  currentGeneration : Nat := 0
  manifests : OrderedMap Bytes Bytes := OrderedMap.empty
  current : Option Bytes := none

namespace ManifestFiles

def readFile (bytes : Bytes) : Except Error Bytes := do
  refuse (bytes.length > kMaximumMetadataFileBytes)
    (.runtimeError "metadata file exceeds the supported size limit")
  return bytes

def commit (files : ManifestFiles) (tables : List SSTableMetadata) (nextFileId : Nat) :
    Except Error ManifestFiles := do
  refuse (files.currentGeneration = u64 - 1)
    (.overflowError "manifest generation space is exhausted")
  let generation := files.currentGeneration + 1
  let manifest ← serializeManifest ⟨generation, nextFileId, tables⟩
  let current ← serializeCurrent (manifestName generation)
  .ok
    { currentGeneration := generation
      manifests := files.manifests.insert (manifestName generation) manifest
      current := some current }

/-- `load`; `present` are the files that exist. -/
def load (present : Bytes → Bool) : Program ManifestFiles Error (Option ManifestSnapshot) := do
  let files ← Program.read
  match files.current with
  | none =>
    if files.manifests.entries ≠ [] then
      Program.raise (.runtimeError "CURRENT is missing while versioned manifests are present")
    else return none
  | some current => do
    let filename ← Program.check (readFile current >>= parseCurrent)
    match files.manifests.find? filename with
    | none => Program.raise (.runtimeError "CURRENT references a missing manifest")
    | some bytes => do
      let snapshot ← Program.check (readFile bytes >>= parseManifest)
      if filename ≠ manifestName snapshot.generation then
        Program.raise (.runtimeError "manifest filename does not match its generation")
      else if snapshot.tables.any fun table => !present table.path then
        Program.raise (.runtimeError "manifest references a missing SSTable")
      else do
        Program.update fun files => { files with currentGeneration := snapshot.generation }
        return some snapshot

theorem readFile_eq (bytes : Bytes) :
    readFile bytes = if bytes.length > kMaximumMetadataFileBytes then
      .error (.runtimeError "metadata file exceeds the supported size limit") else .ok bytes := by
  unfold readFile refuse
  split_ifs <;> rfl

theorem readFile_current (generation : Nat) :
    readFile (appendChecksum (currentFields (manifestName generation))) >>= parseCurrent =
      .ok (manifestName generation) := by
  refine bind_ok ((readFile_eq _).trans (if_neg ?_)) (parseCurrent_name generation)
  simp only [length_appendChecksum, currentFields, List.length_append, length_leBytes,
    length_manifestName]
  decide

theorem readFile_manifest {snapshot : ManifestSnapshot} (h : ManifestFits snapshot) :
    readFile (appendChecksum (manifestFields snapshot)) >>= parseManifest =
      if encodedManifestSize snapshot > kMaximumMetadataFileBytes then
        .error (.runtimeError "metadata file exceeds the supported size limit")
      else if snapshot.tables.any invalidMetadata then
        .error (.runtimeError "manifest contains invalid SSTable metadata")
      else .ok snapshot := by
  rw [readFile_eq, length_manifest]
  split_ifs with hlarge hinvalid
  · rfl
  · rw [ok_bind, parseManifest_fields h, if_pos hinvalid]
  · rw [ok_bind, parseManifest_fields h, if_neg hinvalid]

/-! ## The refinement -/

/-- The files hold the encodings of the records. -/
structure Encodes (files : ManifestFiles) (manager : ManifestManager) : Prop where
  generation : files.currentGeneration = manager.currentGeneration
  generation_lt : manager.currentGeneration < u64
  current : files.current =
    manager.current.map fun generation => appendChecksum (currentFields (manifestName generation))
  current_lt : ∀ generation, manager.current = some generation → generation < u64
  manifests : ∀ generation < u64, files.manifests.find? (manifestName generation) =
    (manager.manifests.find? generation).map fun snapshot => appendChecksum (manifestFields snapshot)
  fits : ∀ generation snapshot, manager.manifests.find? generation = some snapshot →
    ManifestFits snapshot
  empty : files.manifests.entries = [] ↔ manager.manifests.entries = []

section Encodes

variable {files : ManifestFiles} {manager : ManifestManager}

/-- **Loading the bytes is loading the records.** -/
theorem Encodes.load (h : Encodes files manager) (present : Bytes → Bool) :
    (ManifestFiles.load present files).1 = (ManifestManager.load present manager).1 ∧
      Encodes (ManifestFiles.load present files).2 (ManifestManager.load present manager).2 := by
  unfold ManifestFiles.load ManifestManager.load
  simp only [Program.read_bind_apply, h.current]
  cases hcurrent : manager.current with
  | none =>
    simp only [Option.map_none, ne_eq, h.empty]
    split_ifs
    · exact ⟨rfl, h⟩
    · exact ⟨rfl, h⟩
  | some generation =>
    have hlt := h.current_lt generation hcurrent
    simp only [Option.map_some, readFile_current, Program.check_ok_bind, h.manifests generation hlt]
    cases hfind : manager.manifests.find? generation with
    | none => exact ⟨rfl, h⟩
    | some snapshot =>
      have hfits := h.fits generation snapshot hfind
      simp only [Option.map_some, readFile_manifest hfits]
      by_cases hlarge : encodedManifestSize snapshot > kMaximumMetadataFileBytes
      · rw [if_pos hlarge, if_pos hlarge]
        exact ⟨rfl, h⟩
      rw [if_neg hlarge, if_neg hlarge]
      by_cases hinvalid : snapshot.tables.any invalidMetadata = true
      · rw [if_pos hinvalid, if_pos hinvalid]
        exact ⟨rfl, h⟩
      rw [if_neg hinvalid, if_neg hinvalid, Program.check_ok_bind]
      -- the name says the generation
      by_cases hname : snapshot.generation ≠ generation
      · rw [if_pos hname, if_pos fun heq => hname
          (manifestName_inj hlt hfits.generation.2 heq).symm]
        exact ⟨rfl, h⟩
      rw [if_neg hname, if_neg (by rw [not_not.mp hname]; exact not_not.mpr rfl)]
      obtain rfl := not_not.mp hname
      split_ifs
      · exact ⟨rfl, h⟩
      · exact ⟨rfl, ⟨rfl, hlt, hcurrent ▸ h.current, h.current_lt, h.manifests, h.fits, h.empty⟩⟩

/-- **Committing the bytes is committing the records**, for tables with numbers of the machine. -/
theorem Encodes.commit (h : Encodes files manager) {tables : List SSTableMetadata} {nextFileId : Nat}
    (hnext : nextFileId < u64) (hnumbers : ∀ table ∈ tables, TableNumbers table)
    (hsafe : ∀ table ∈ tables, slash ∉ table.path ∧ table.smallestKey.length ≤ uint32Max ∧
      table.largestKey.length ≤ uint32Max) :
    (∃ files' manager', files.commit tables nextFileId = .ok files' ∧
      manager.commit tables nextFileId = .ok manager' ∧ Encodes files' manager') ∨
    ∃ error, files.commit tables nextFileId = .error error ∧
      manager.commit tables nextFileId = .error error := by
  have hserialize := @serializeManifest_eq ⟨manager.currentGeneration + 1, nextFileId, tables⟩ hsafe
  unfold ManifestFiles.commit ManifestManager.commit
  rw [h.generation]
  by_cases hlast : manager.currentGeneration = u64 - 1
  · rw [refuse, if_pos hlast]
    exact Or.inr ⟨_, rfl, rfl⟩
  rw [refuse, if_neg hlast, ok_bind, ok_bind]
  dsimp only
  rw [hserialize]
  cases hcheck : ManifestManager.checkManifest
      ⟨manager.currentGeneration + 1, nextFileId, tables⟩ with
  | error e => exact Or.inr ⟨_, rfl, rfl⟩
  | ok u =>
    have hgeneration : manager.currentGeneration + 1 < u64 := by
      have := h.generation_lt
      omega
    rw [hcheck, ok_bind] at hserialize
    obtain ⟨-, hgeneration0, hnext0, hfew, hstorable, hnames⟩ :=
      serializeManifest_eq_ok.mp hserialize
    refine Or.inl ⟨_, _, by
      rw [ok_bind, ok_bind, serializeCurrent_name, ok_bind], rfl, ?_⟩
    refine ⟨rfl, hgeneration, rfl, fun g hg => ?_, fun g hg => ?_, fun g snapshot hfind => ?_, ?_⟩
    · obtain rfl := Option.some.inj hg
      exact hgeneration
    · rw [OrderedMap.find?_insert, OrderedMap.find?_insert]
      by_cases heq : g = manager.currentGeneration + 1
      · rw [if_pos (by rw [heq]), if_pos heq]
        rfl
      · rw [if_neg fun hname => heq (manifestName_inj hg hgeneration hname), if_neg heq]
        exact h.manifests g hg
    · rw [OrderedMap.find?_insert] at hfind
      split_ifs at hfind with heq
      · obtain rfl := Option.some.inj hfind
        exact ⟨⟨hgeneration0, hgeneration⟩, ⟨hnext0, hnext⟩, hfew, hstorable, hnumbers, hnames⟩
      · exact h.fits g snapshot hfind
    · exact ⟨fun hnil => absurd hnil (OrderedMap.entries_insert_ne_nil _ _ _),
        fun hnil => absurd hnil (OrderedMap.entries_insert_ne_nil _ _ _)⟩

end Encodes

/-! ## A committed manifest, loaded -/

/-- The metadata of an open table, under a name that `table_path` makes. -/
def Reported (table : SSTableMetadata) : Prop :=
  ∃ fileId generation sequence bytes filter reader,
    SSTableByteReader.openBytes (tablePath table.level fileId generation sequence) bytes filter =
      .ok reader ∧ table = { reader.metadata with level := table.level }

theorem Reported.fits {table : SSTableMetadata} (h : Reported table) :
    TableStorable table ∧ TableNumbers table ∧ invalidMetadata table = false := by
  obtain ⟨fileId, generation, sequence, bytes, filter, reader, hopen, htable⟩ := h
  generalize table.level = level at hopen htable
  subst htable
  obtain ⟨haccepted, hpath, -⟩ := SSTableByteReader.openBytes_accepted hopen
  obtain ⟨hsmallest, hlargest, hordered⟩ := haccepted.keyRange
  have hheader := haccepted.header
  have hkeys : ∀ key, ValidKey key → key.length ≤ uint32Max :=
    fun key hkey => hkey.2.trans (by decide)
  have hsensible := hheader.sensible
  push Not at hsensible
  obtain ⟨hentries, hblocks, hmin, hmax⟩ := hsensible
  have hname : reader.metadata.path = tablePath level fileId generation sequence := hpath
  refine ⟨⟨?_, ?_, ?_, hsmallest.1, hlargest.1, hordered, hkeys _ hsmallest, hkeys _ hlargest⟩,
    ⟨hheader.generation, hheader.entryCount, hheader.blockCount, hheader.minSequence,
      hheader.maxSequence⟩, ?_⟩
  · rw [hname]
    exact tablePath_ne_nil _ _ _ _
  · rw [hname, length_tablePath]
    decide
  · rw [hname]
    exact slash_notMem_tablePath _ _ _ _
  · simp [invalidMetadata, SSTableByteReader.metadata, hentries, hblocks, hmin, hmax]

section Committed

variable {files files' : ManifestFiles} {tables : List SSTableMetadata} {nextFileId : Nat}

/-- What `load` does with the manifest that was committed last. -/
theorem load_committed (hgeneration : files.currentGeneration < u64) (hnext : nextFileId < u64)
    (htables : ∀ table ∈ tables, Reported table)
    (hcommit : files.commit tables nextFileId = .ok files') {present : Bytes → Bool}
    (hpresent : ∀ table ∈ tables, present table.path = true) :
    load present files' =
      if encodedManifestSize ⟨files.currentGeneration + 1, nextFileId, tables⟩ >
          kMaximumMetadataFileBytes then
        (.error (.runtimeError "metadata file exceeds the supported size limit"), files')
      else (.ok (some ⟨files.currentGeneration + 1, nextFileId, tables⟩), files') := by
  obtain ⟨hlast, hcommit⟩ := refuse_bind_eq_ok.mp hcommit
  obtain ⟨manifest, hmanifest, hcommit⟩ := bind_eq_ok.mp hcommit
  obtain ⟨current, hcurrent, hcommit⟩ := bind_eq_ok.mp hcommit
  rw [serializeCurrent_name] at hcurrent
  obtain rfl := Except.ok.inj hcurrent
  obtain rfl := Except.ok.inj hcommit
  obtain ⟨rfl, hgeneration0, hnext0, hfew, hstorable, hnames⟩ := serializeManifest_eq_ok.mp hmanifest
  have hfits : ManifestFits ⟨files.currentGeneration + 1, nextFileId, tables⟩ :=
    ⟨⟨hgeneration0, by show files.currentGeneration + 1 < u64; omega⟩, ⟨hnext0, hnext⟩, hfew, hstorable,
      fun table htable => (htables table htable).fits.2.1, hnames⟩
  have hvalid : ¬ tables.any invalidMetadata = true := by
    rw [List.any_eq_true]
    rintro ⟨table, htable, hinvalid⟩
    rw [(htables table htable).fits.2.2] at hinvalid
    cases hinvalid
  have hexist : ¬ (tables.any fun table => !present table.path) = true := by
    rw [List.any_eq_true]
    rintro ⟨table, htable, habsent⟩
    rw [hpresent table htable] at habsent
    cases habsent
  unfold load
  simp only [Program.read_bind_apply, readFile_current, Program.check_ok_bind,
    OrderedMap.find?_insert, if_true, readFile_manifest hfits]
  split_ifs
  · rfl
  · rw [Program.check_ok_bind, if_neg (not_not.mpr rfl), if_neg hexist]
    rfl

/-- **A committed manifest loads exactly if it has at most 64 MiB.** Then `load` returns the generation,
the next file id and the tables that were committed. -/
theorem committed_loads_iff (hgeneration : files.currentGeneration < u64) (hnext : nextFileId < u64)
    (htables : ∀ table ∈ tables, Reported table)
    (hcommit : files.commit tables nextFileId = .ok files') {present : Bytes → Bool}
    (hpresent : ∀ table ∈ tables, present table.path = true) :
    (load present files').1 = .ok (some ⟨files.currentGeneration + 1, nextFileId, tables⟩) ↔
      encodedManifestSize ⟨files.currentGeneration + 1, nextFileId, tables⟩ ≤
        kMaximumMetadataFileBytes := by
  rw [load_committed hgeneration hnext htables hcommit hpresent]
  split_ifs with hlarge
  · exact ⟨fun h => (by cases h), fun h => absurd hlarge (not_lt.mpr h)⟩
  · exact ⟨fun _ => not_lt.mp hlarge, fun _ => rfl⟩

end Committed

/-! ## Many tables -/

/-- The metadata of a file of two records, as table number `fileId`. -/
def pairTable (fileId : Nat) : SSTableMetadata :=
  { path := tablePath .Level0 fileId 5 2
    generation := 5
    entryCount := 2
    blockCount := 2
    minSequenceNumber := 1
    maxSequenceNumber := 2
    smallestKey := [1]
    largestKey := [2] }

theorem pairTable_reported (fileId : Nat) : Reported (pairTable fileId) := by
  have hmetadata : (SSTableByteReader.openBytes [116] SSTableByteReader.pairFile none).map
      SSTableByteReader.metadata = .ok { pairTable 0 with path := [116] } := by
    decide +kernel
  cases hopen : SSTableByteReader.openBytes [116] SSTableByteReader.pairFile none with
  | error e =>
    rw [hopen] at hmetadata
    cases hmetadata
  | ok reader =>
    obtain ⟨-, -, -, -, hopens⟩ := SSTableByteReader.openBytes_accepted hopen
    rw [hopen] at hmetadata
    have hsame : reader.metadata = { pairTable 0 with path := [116] } := Except.ok.inj hmetadata
    refine ⟨fileId, 5, 2, _, none, _, hopens _ (tablePath_ne_nil _ _ _ _) none, ?_⟩
    show pairTable fileId = { reader.metadata with
      path := tablePath .Level0 fileId 5 2, level := .Level0 }
    rw [hsame]
    rfl

def manyTables (count : Nat) : List SSTableMetadata :=
  (List.range count).map fun id => pairTable (id + 1)

theorem manyTables_reported {count : Nat} : ∀ table ∈ manyTables count, Reported table := by
  intro table htable
  obtain ⟨id, -, rfl⟩ := List.mem_map.mp htable
  exact pairTable_reported (id + 1)

theorem encodedManifestSize_many (generation nextFileId count : Nat) :
    encodedManifestSize ⟨generation, nextFileId, manyTables count⟩ = 40 + count * 134 := by
  have hsize : ∀ id, 52 + (pairTable id).path.length + (pairTable id).smallestKey.length +
      (pairTable id).largestKey.length = 134 := by
    intro id
    show 52 + (tablePath .Level0 id 5 2).length + 1 + 1 = 134
    rw [length_tablePath]
  simp only [encodedManifestSize, manyTables, List.map_map, Function.comp_def, hsize]
  rw [List.map_const', List.sum_replicate, List.length_range, nsmul_eq_mul, Nat.cast_id]

theorem commit_many {count : Nat} (hcount : count ≤ kMaximumManifestTables) :
    ∃ files', commit {} (manyTables count) (count + 1) = .ok files' := by
  have hnames : ((manyTables count).map SSTableMetadata.path).Nodup := by
    rw [manyTables, List.map_map]
    refine List.Nodup.map_on (fun id hid id' hid' heq => ?_) List.nodup_range
    have hsmall : ∀ i ∈ List.range count, i + 1 < u64 := fun i hi => by
      have hlt := List.mem_range.mp hi
      have hbound : kMaximumManifestTables < u64 := by decide
      omega
    have hids := tablePath_fileId (hsmall id hid) (hsmall id' hid') heq
    omega
  have hmanifest := (@serializeManifest_eq_ok ⟨1, count + 1, manyTables count⟩ _).mpr
    ⟨rfl, Nat.one_ne_zero, Nat.succ_ne_zero count, by simpa [manyTables] using hcount,
      fun table htable => (manyTables_reported table htable).fits.1, hnames⟩
  exact ⟨_, refuse_ok (by decide) <| bind_ok hmanifest <| bind_ok (serializeCurrent_name _) rfl⟩

theorem committed_loads_one : ∃ files', commit {} (manyTables 1) 2 = .ok files' ∧
    (load (fun _ => true) files').1 = .ok (some ⟨1, 2, manyTables 1⟩) := by
  obtain ⟨files', hcommit⟩ := commit_many (show 1 ≤ kMaximumManifestTables by decide)
  refine ⟨files', hcommit, ?_⟩
  refine (committed_loads_iff (by decide) (by decide) manyTables_reported hcommit fun _ _ => rfl).mpr ?_
  show encodedManifestSize ⟨1, 2, manyTables 1⟩ ≤ kMaximumMetadataFileBytes
  rw [encodedManifestSize_many]
  decide

/-- 500813 tables with keys of one byte are committed, and never loaded again. -/
theorem many_tables_not_loaded : (∀ table ∈ manyTables 500813, Reported table) ∧
    ∃ files', commit {} (manyTables 500813) 500814 = .ok files' ∧
      load (fun _ => true) files' =
        (.error (.runtimeError "metadata file exceeds the supported size limit"), files') := by
  obtain ⟨files', hcommit⟩ := commit_many (show 500813 ≤ kMaximumManifestTables by decide)
  refine ⟨manyTables_reported, files', hcommit, ?_⟩
  rw [load_committed (by decide) (by decide) manyTables_reported hcommit fun _ _ => rfl,
    encodedManifestSize_many, if_pos (by decide)]

end ManifestFiles

end NebulaKV.Lsm
