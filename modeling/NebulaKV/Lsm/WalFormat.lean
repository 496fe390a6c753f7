/-
# The format of the write-ahead log

`wal_format.cpp` with `checksum_calculator.cpp`: a record is a header of 16 bytes (magic, version,
operation, a reserved zero, the two lengths), the key, the value, and the CRC-32 of all of them. What
`serialize` refuses is in `validate`; the check of the lengths against 32 bits comes after it and
never fires.
-/
import NebulaKV.Core.LittleEndian
import NebulaKV.Core.Validation

namespace NebulaKV.Lsm

open Codec

/-! ## The checksum -/

namespace ChecksumCalculator

def kPolynomial : BitVec 32 := 0xEDB88320#32

/-- One round of the inner loop. -/
def crcBit (checksum : BitVec 32) : BitVec 32 :=
  (checksum >>> 1) ^^^ (kPolynomial &&& (0#32 - (checksum &&& 1#32)))

def crcByte (checksum : BitVec 32) (value : UInt8) : BitVec 32 :=
  crcBit^[8] (checksum ^^^ BitVec.ofNat 32 value.toNat)

def crc32 (data : Bytes) : Nat :=
  (data.foldl crcByte 0xFFFFFFFF#32 ^^^ 0xFFFFFFFF#32).toNat

theorem crc32_lt (data : Bytes) : crc32 data < 256 ^ 4 := BitVec.isLt _

end ChecksumCalculator

/-! ## Records -/

inductive OperationType where
  | Put
  | Delete
  deriving DecidableEq

/-- The byte of an operation. -/
def OperationType.code : OperationType → UInt8
  | .Put => 1
  | .Delete => 2

structure WalRecord where
  operation : OperationType
  key : Bytes
  value : Bytes
  deriving DecidableEq

/-- The checks of `wal_format::serialize`. -/
def WalRecord.validate (record : WalRecord) : Except Error Unit := do
  validateKey record.key
  match record.operation with
  | .Put => validateValue record.value
  | .Delete =>
    refuse (record.value ≠ []) (.invalidArgument "delete WAL records must not contain a value")

namespace WalFormat

def kMagic : Bytes := [78, 75, 86, 87]

def kVersion : Nat := 1

def kHeaderSize : Nat := 16

def kChecksumSize : Nat := 4

def header (record : WalRecord) : Bytes :=
  kMagic ++ leBytes 2 kVersion ++ [record.operation.code] ++ [0] ++
    leBytes 4 record.key.length ++ leBytes 4 record.value.length

/-- What the checksum is taken of. -/
def body (record : WalRecord) : Bytes := header record ++ (record.key ++ record.value)

def encode (record : WalRecord) : Bytes :=
  body record ++ leBytes 4 (ChecksumCalculator.crc32 (body record))

def serialize (record : WalRecord) : Except Error Bytes := do
  record.validate
  refuse (record.key.length > uint32Max ∨ record.value.length > uint32Max)
    (.lengthError "WAL record length exceeds the binary format")
  return encode record

/-- The log of some records. -/
def encodeAll (records : List WalRecord) : Bytes := records.flatMap encode

@[simp] theorem length_header (record : WalRecord) : (header record).length = kHeaderSize := by
  simp [header, kMagic, kHeaderSize]

theorem length_encode (record : WalRecord) : (encode record).length =
    kHeaderSize + (record.key.length + record.value.length) + kChecksumSize := by
  simp [encode, body, kChecksumSize, Nat.add_assoc]

theorem encode_ne_nil (record : WalRecord) : encode record ≠ [] := by
  intro h
  have hlen := length_encode record
  rw [h, kHeaderSize, List.length_nil] at hlen
  omega

@[simp] theorem encodeAll_nil : encodeAll [] = [] := rfl

@[simp] theorem encodeAll_cons (record : WalRecord) (records : List WalRecord) :
    encodeAll (record :: records) = encode record ++ encodeAll records := rfl

@[simp] theorem encodeAll_append (records records' : List WalRecord) :
    encodeAll (records ++ records') = encodeAll records ++ encodeAll records' :=
  List.flatMap_append

theorem length_le_length_encodeAll (records : List WalRecord) :
    records.length ≤ (encodeAll records).length := by
  induction records with
  | nil => simp
  | cons record rest ih =>
    have hpos := List.length_pos_iff.mpr (encode_ne_nil record)
    simp only [encodeAll_cons, List.length_append, List.length_cons]
    omega

end WalFormat

open WalFormat

theorem WalRecord.validate_eq_ok {record : WalRecord} : record.validate = .ok () ↔
    ValidKey record.key ∧ ValidValue record.value ∧
      (record.operation = .Delete → record.value = []) := by
  unfold validate
  rw [bind_eq_ok]
  cases hop : record.operation with
  | Put =>
    constructor
    · rintro ⟨_, hkey, hvalue⟩
      exact ⟨validateKey_eq_ok.mp hkey, validateValue_eq_ok.mp hvalue, fun h => by cases h⟩
    · rintro ⟨hkey, hvalue, -⟩
      exact ⟨(), validateKey_eq_ok.mpr hkey, validateValue_eq_ok.mpr hvalue⟩
  | Delete =>
    constructor
    · rintro ⟨_, hkey, hvalue⟩
      have hnil : record.value = [] := not_not.mp (refuse_eq_ok.mp hvalue)
      exact ⟨validateKey_eq_ok.mp hkey, by simp [hnil, ValidValue], fun _ => hnil⟩
    · rintro ⟨hkey, -, hvalue⟩
      exact ⟨(), validateKey_eq_ok.mpr hkey, refuse_eq_ok.mpr (not_not.mpr (hvalue rfl))⟩

theorem serialize_eq_ok {record : WalRecord} {bytes : Bytes} :
    serialize record = .ok bytes ↔ record.validate = .ok () ∧ encode record = bytes := by
  constructor
  · intro h
    obtain ⟨_, hvalid, h⟩ := bind_eq_ok.mp h
    obtain ⟨-, h⟩ := refuse_bind_eq_ok.mp h
    exact ⟨hvalid, Except.ok.inj h⟩
  · rintro ⟨hvalid, rfl⟩
    obtain ⟨hkey, hvalue, -⟩ := WalRecord.validate_eq_ok.mp hvalid
    refine bind_ok hvalid <| refuse_ok ?_ rfl
    have hk := hkey.2
    unfold ValidValue at hvalue
    unfold kMaxKeySize at hk
    unfold kMaxValueSize at hvalue
    unfold uint32Max
    omega

end NebulaKV.Lsm
