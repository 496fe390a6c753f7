/-
# Scanning the write-ahead log

`WalReader::scan` of `wal_reader.cpp`: read a header, then the payload it announces, then the checksum,
until the file ends or something is wrong. `read_exact` of `n` bytes is `take n` here, and comes up
short only at the end of the file; an error of `read` itself is not modelled.

`readRecord` is one round of the loop. It is the INVERSE of `encode` on valid records
(`readRecord_eq_record`), and a file that ends within a record is incomplete (`readRecord_cut`);
everything `scan` promises follows by induction over its rounds.
-/
import NebulaKV.Lsm.WalFormat

namespace NebulaKV.Lsm

open Codec WalFormat

inductive WalReadIssueCode where
  | IncompleteRecord
  | InvalidMagic
  | UnsupportedVersion
  | InvalidOperation
  | InvalidRecordLength
  | InvalidDeleteRecord
  | ChecksumMismatch
  deriving DecidableEq

structure WalReadIssue where
  code : WalReadIssueCode
  byteOffset : Nat
  deriving DecidableEq

/-- The result, with the records the visitor was called with. -/
structure WalScanResult where
  records : List WalRecord := []
  recordsRead : Nat := 0
  validBytes : Nat := 0
  issue : Option WalReadIssue := none
  deriving DecidableEq

namespace WalReader

/-- `subspan(offset, size)`. -/
def field (bytes : Bytes) (offset size : Nat) : Bytes := (bytes.drop offset).take size

/-- One round of the loop. -/
inductive Round where
  | finished
  | stopped (code : WalReadIssueCode)
  | read (record : WalRecord) (rest : Bytes)
  deriving DecidableEq

def operationOf (value : UInt8) : Option OperationType :=
  if value = OperationType.code .Put then some .Put
  else if value = OperationType.code .Delete then some .Delete
  else none

/-- What follows a header that has been found in order. -/
def readPayload (header : Bytes) (operation : OperationType) (keySize valueSize : Nat)
    (bytes : Bytes) : Round :=
  let payload := bytes.take (keySize + valueSize)
  let afterPayload := bytes.drop (keySize + valueSize)
  let checksumBytes := afterPayload.take WalFormat.kChecksumSize
  if payload.length ≠ keySize + valueSize then .stopped .IncompleteRecord
  else if checksumBytes.length ≠ WalFormat.kChecksumSize then .stopped .IncompleteRecord
  else if ChecksumCalculator.crc32 (header ++ payload) ≠ leValue checksumBytes then
    .stopped .ChecksumMismatch
  else .read ⟨operation, payload.take keySize, payload.drop keySize⟩
    (afterPayload.drop WalFormat.kChecksumSize)

/-- What follows the operation byte. -/
def readSized (header : Bytes) (operation : OperationType) (bytes : Bytes) : Round :=
  let keySize := leValue (field header 8 4)
  let valueSize := leValue (field header 12 4)
  if header.getD 7 0 ≠ 0 then .stopped .InvalidRecordLength
  else if keySize = 0 ∨ keySize > kMaxKeySize ∨ valueSize > kMaxValueSize then
    .stopped .InvalidRecordLength
  else if operation = .Delete ∧ valueSize ≠ 0 then .stopped .InvalidDeleteRecord
  else readPayload header operation keySize valueSize bytes

def readRecord (bytes : Bytes) : Round :=
  let header := bytes.take WalFormat.kHeaderSize
  if header.length = 0 then .finished
  else if header.length ≠ WalFormat.kHeaderSize then .stopped .IncompleteRecord
  else if field header 0 4 ≠ kMagic then .stopped .InvalidMagic
  else if leValue (field header 4 2) ≠ kVersion then .stopped .UnsupportedVersion
  else
    match operationOf (header.getD 6 0) with
    | none => .stopped .InvalidOperation
    | some operation => readSized header operation (bytes.drop WalFormat.kHeaderSize)

/-- `while (true)`; every round but the last reads a record, so the fuel is not what ends it. -/
def scanLoop : Nat → WalScanResult → Bytes → WalScanResult
  | 0, result, _ => result
  | rounds + 1, result, bytes =>
    match readRecord bytes with
    | .finished => result
    | .stopped code => { result with issue := some ⟨code, result.validBytes⟩ }
    | .read record rest =>
      scanLoop rounds
        { result with
          records := result.records ++ [record]
          recordsRead := result.recordsRead + 1
          validBytes := result.validBytes +
            (WalFormat.kHeaderSize + (record.key.length + record.value.length) + WalFormat.kChecksumSize) }
        rest

def scan (bytes : Bytes) : WalScanResult := scanLoop (bytes.length + 1) {} bytes

/-! ## One round -/

theorem eq_of_length_16 {header : Bytes} (h : header.length = 16) :
    header = field header 0 4 ++ field header 4 2 ++ [header.getD 6 0] ++ [header.getD 7 0] ++
      field header 8 4 ++ field header 12 4 := by
  match header, h with
  | [_, _, _, _, _, _, _, _, _, _, _, _, _, _, _, _], _ => rfl

theorem length_field {header : Bytes} (h : header.length = 16) {offset size : Nat}
    (hle : offset + size ≤ 16) : (field header offset size).length = size := by
  simp only [field, List.length_take, List.length_drop]
  omega

/-- The fields of a header that was written. -/
theorem fields_header (record : WalRecord) :
    field (header record) 0 4 = kMagic ∧ field (header record) 4 2 = leBytes 2 kVersion ∧
      (header record).getD 6 0 = record.operation.code ∧ (header record).getD 7 0 = 0 ∧
      field (header record) 8 4 = leBytes 4 record.key.length ∧
      field (header record) 12 4 = leBytes 4 record.value.length :=
  ⟨rfl, rfl, rfl, rfl, rfl, rfl⟩

theorem operationOf_eq_some {value : UInt8} {operation : OperationType} :
    operationOf value = some operation ↔ value = operation.code := by
  unfold operationOf
  cases operation with
  | Put =>
    split_ifs with h₁ h₂
    · simp [h₁]
    · simp [h₁]
    · simp [h₁]
  | Delete =>
    split_ifs with h₁ h₂
    · simp [h₁, OperationType.code]
    · simp [h₂]
    · simp [h₂]

variable {records : List WalRecord} {record : WalRecord} {cut : Nat} {bytes rest : Bytes}

/-- A valid header leads to its payload. -/
theorem readRecord_header (hvalid : record.validate = .ok ()) (rest : Bytes) :
    readRecord (header record ++ rest) =
      readPayload (header record) record.operation record.key.length record.value.length rest := by
  obtain ⟨hkey, hvalue, hdelete⟩ := WalRecord.validate_eq_ok.mp hvalid
  obtain ⟨hmagic, hversion, hoperation, hzero, hkeySize, hvalueSize⟩ := fields_header record
  have hk := hkey.2
  have hkne : record.key.length ≠ 0 := fun h => hkey.1 (List.length_eq_zero_iff.mp h)
  unfold ValidValue at hvalue
  have hkeyValue : leValue (leBytes 4 record.key.length) = record.key.length := by
    apply leValue_leBytes_of_lt
    unfold kMaxKeySize at hk
    omega
  have hvalueValue : leValue (leBytes 4 record.value.length) = record.value.length := by
    apply leValue_leBytes_of_lt
    unfold kMaxValueSize at hvalue
    omega
  have hop : operationOf record.operation.code = some record.operation :=
    operationOf_eq_some.mpr rfl
  unfold readRecord readSized
  simp only [List.take_left' (length_header record), List.drop_left' (length_header record),
    length_header, hmagic, hversion, hoperation, hzero, hkeySize, hvalueSize, hop, hkeyValue,
    hvalueValue]
  rw [if_neg (by decide), if_neg (by simp), if_neg (by simp), if_neg (by decide), if_neg (by simp),
    if_neg (by omega), if_neg]
  rintro ⟨hdel, hne⟩
  exact hne (by rw [hdelete hdel]; rfl)

theorem readPayload_append {head : Bytes} (rest : Bytes) :
    readPayload head record.operation record.key.length record.value.length
      ((record.key ++ record.value) ++
        leBytes 4 (ChecksumCalculator.crc32 (head ++ (record.key ++ record.value))) ++ rest) =
      .read record rest := by
  have hlen : (record.key ++ record.value).length = record.key.length + record.value.length :=
    List.length_append
  have hsum : (leBytes 4 (ChecksumCalculator.crc32 (head ++ (record.key ++ record.value)))).length =
      WalFormat.kChecksumSize := length_leBytes _ _
  unfold readPayload
  simp only [List.append_assoc (record.key ++ record.value), List.take_left' hlen,
    List.drop_left' hlen, List.take_left' hsum, List.drop_left' hsum]
  rw [if_neg (by simp), if_neg (by simp [WalFormat.kChecksumSize]),
    if_neg (by rw [leValue_leBytes_of_lt (ChecksumCalculator.crc32_lt _)]; simp),
    List.take_left' rfl, List.drop_left' rfl]

/-- Conversely, what is read as a payload has this form. -/
theorem eq_of_readPayload {head : Bytes} {operation : OperationType} {keySize valueSize : Nat}
    (h : readPayload head operation keySize valueSize bytes = .read record rest) :
    record.operation = operation ∧ record.key.length = keySize ∧ record.value.length = valueSize ∧
      bytes = (record.key ++ record.value) ++
        leBytes 4 (ChecksumCalculator.crc32 (head ++ (record.key ++ record.value))) ++ rest := by
  unfold readPayload at h
  dsimp only at h
  split_ifs at h with hpayload hsum hcrc
  obtain ⟨rfl, rfl⟩ := Round.read.inj h
  rw [not_not] at hpayload hsum hcrc
  dsimp only
  rw [List.take_append_drop, hcrc]
  refine ⟨rfl, ?_, ?_, ?_⟩
  · rw [List.length_take, hpayload]
    omega
  · rw [List.length_drop, hpayload]
    omega
  · have hbytes : leBytes 4 (leValue ((bytes.drop (keySize + valueSize)).take WalFormat.kChecksumSize)) =
        (bytes.drop (keySize + valueSize)).take WalFormat.kChecksumSize := by
      conv_rhs => rw [← leBytes_leValue ((bytes.drop (keySize + valueSize)).take WalFormat.kChecksumSize), hsum]
      rfl
    rw [hbytes, List.append_assoc, List.take_append_drop, List.take_append_drop]

/-- **One round inverts `serialize`.** -/
theorem readRecord_eq_read :
    readRecord bytes = .read record rest ↔
      record.validate = .ok () ∧ bytes = encode record ++ rest := by
  constructor
  · intro h
    unfold readRecord at h
    dsimp only at h
    split_ifs at h with hempty hshort hmagic hversion
    rw [not_not] at hshort hmagic hversion
    cases hop : operationOf ((bytes.take WalFormat.kHeaderSize).getD 6 0) with
    | none =>
      rw [hop] at h
      cases h
    | some operation =>
      rw [hop] at h
      unfold readSized at h
      dsimp only at h
      split_ifs at h with hzero hsizes hdelete
      rw [not_not] at hzero
      obtain ⟨rfl, hk, hv, hbytes⟩ := eq_of_readPayload h
      have hheader : bytes.take WalFormat.kHeaderSize = header record := by
        have hversionBytes : field (bytes.take WalFormat.kHeaderSize) 4 2 = leBytes 2 kVersion := by
          rw [← hversion]
          conv_lhs => rw [← leBytes_leValue (field (bytes.take WalFormat.kHeaderSize) 4 2),
            length_field hshort (by omega)]
        have hkeyBytes : field (bytes.take WalFormat.kHeaderSize) 8 4 = leBytes 4 record.key.length := by
          rw [hk]
          conv_lhs => rw [← leBytes_leValue (field (bytes.take WalFormat.kHeaderSize) 8 4),
            length_field hshort (by omega)]
        have hvalueBytes : field (bytes.take WalFormat.kHeaderSize) 12 4 =
            leBytes 4 record.value.length := by
          rw [hv]
          conv_lhs => rw [← leBytes_leValue (field (bytes.take WalFormat.kHeaderSize) 12 4),
            length_field hshort (by omega)]
        rw [eq_of_length_16 hshort, hmagic, hversionBytes, operationOf_eq_some.mp hop, hzero,
          hkeyBytes, hvalueBytes]
        rfl
      refine ⟨WalRecord.validate_eq_ok.mpr ⟨⟨?_, ?_⟩, ?_, ?_⟩, ?_⟩
      · rintro hnil
        rw [hnil] at hk
        exact hsizes (Or.inl hk.symm)
      · by_contra hlarge
        exact hsizes (Or.inr (Or.inl (hk ▸ not_le.mp hlarge)))
      · by_contra hlarge
        exact hsizes (Or.inr (Or.inr (hv ▸ not_le.mp hlarge)))
      · intro hdel
        by_contra hne
        exact hdelete ⟨hdel, fun hzero => hne (List.length_eq_zero_iff.mp (hv.trans hzero))⟩
      · rw [← List.take_append_drop WalFormat.kHeaderSize bytes, hbytes, hheader]
        simp [encode, body]
  · rintro ⟨hvalid, rfl⟩
    have hform : encode record ++ rest = header record ++ ((record.key ++ record.value) ++
        leBytes 4 (ChecksumCalculator.crc32 (header record ++ (record.key ++ record.value))) ++
          rest) := by
      simp [encode, body]
    rw [hform, readRecord_header hvalid]
    exact readPayload_append rest

theorem readRecord_eq_finished : readRecord bytes = .finished ↔ bytes = [] := by
  constructor
  · intro h
    unfold readRecord at h
    dsimp only at h
    split_ifs at h with hempty
    · rw [List.length_take, WalFormat.kHeaderSize] at hempty
      exact List.length_eq_zero_iff.mp (by omega)
    · split at h
      · cases h
      · unfold readSized readPayload at h
        dsimp only at h
        split_ifs at h
  · rintro rfl
    rfl

/-- A file that ends within a record. -/
theorem readRecord_cut (hvalid : record.validate = .ok ()) (hpos : cut ≠ 0)
    (hcut : cut < (encode record).length) :
    readRecord ((encode record).take cut) = .stopped .IncompleteRecord := by
  rw [length_encode, WalFormat.kHeaderSize, WalFormat.kChecksumSize] at hcut
  by_cases hheader : cut < WalFormat.kHeaderSize
  · -- within the header
    rw [WalFormat.kHeaderSize] at hheader
    have hlen : (((encode record).take cut).take WalFormat.kHeaderSize).length = cut := by
      simp only [List.length_take, length_encode, WalFormat.kHeaderSize, WalFormat.kChecksumSize]
      omega
    unfold readRecord
    dsimp only
    rw [if_neg (by omega), if_pos (by rw [hlen, WalFormat.kHeaderSize]; omega)]
  · -- behind it: the payload or the checksum is short
    rw [WalFormat.kHeaderSize] at hheader
    have hform : (encode record).take cut = header record ++ ((record.key ++ record.value) ++
        leBytes 4 (ChecksumCalculator.crc32 (body record))).take (cut - 16) := by
      rw [encode, body, List.append_assoc, List.take_append, length_header, WalFormat.kHeaderSize,
        List.take_of_length_le (by rw [length_header, WalFormat.kHeaderSize]; omega)]
    rw [hform, readRecord_header hvalid]
    unfold readPayload
    dsimp only
    by_cases hpayload : cut - 16 < record.key.length + record.value.length
    · rw [if_pos]
      simp only [List.length_take, List.length_append, length_leBytes]
      omega
    · rw [if_neg, if_pos]
      · simp only [List.length_take, List.length_drop, List.length_append, length_leBytes,
          WalFormat.kChecksumSize]
        omega
      · simp only [List.length_take, List.length_append, length_leBytes]
        omega

/-! ## The whole scan -/

/-- The result after some more records. -/
def advance (result : WalScanResult) (records : List WalRecord) : WalScanResult :=
  { result with
    records := result.records ++ records
    recordsRead := result.recordsRead + records.length
    validBytes := result.validBytes + (encodeAll records).length }

/-- The result at the last round. -/
def stop (result : WalScanResult) : Round → WalScanResult
  | .stopped code => { result with issue := some ⟨code, result.validBytes⟩ }
  | _ => result

theorem scanLoop_append (hvalid : ∀ r ∈ records, r.validate = .ok ()) (rounds : Nat)
    (result : WalScanResult) (rest : Bytes) :
    scanLoop (records.length + rounds) result (encodeAll records ++ rest) =
      scanLoop rounds (advance result records) rest := by
  induction records generalizing result with
  | nil => simp [advance]
  | cons record records ih =>
    have hread : readRecord (encodeAll (record :: records) ++ rest) =
        .read record (encodeAll records ++ rest) :=
      readRecord_eq_read.mpr ⟨hvalid record (by simp), by simp⟩
    rw [List.length_cons, show records.length + 1 + rounds = records.length + rounds + 1 by omega,
      scanLoop, hread]
    dsimp only
    rw [ih fun r hr => hvalid r (by simp [hr])]
    refine congrArg (fun next => scanLoop rounds next rest) ?_
    simp only [advance, encodeAll_cons, List.length_append, length_encode, List.length_cons,
      List.append_assoc, List.cons_append, List.nil_append, WalScanResult.mk.injEq, true_and,
      and_true]
    omega

/-- Every file is a log of valid records and a rest that does not start with one. -/
theorem exists_records (bytes : Bytes) :
    ∃ records rest, bytes = encodeAll records ++ rest ∧ (∀ r ∈ records, r.validate = .ok ()) ∧
      ∀ record rest', readRecord rest ≠ .read record rest' := by
  induction hn : bytes.length using Nat.strong_induction_on generalizing bytes with
  | _ n ih =>
    by_cases hread : ∃ record rest, readRecord bytes = .read record rest
    · obtain ⟨record, rest, hread⟩ := hread
      obtain ⟨hvalid, rfl⟩ := readRecord_eq_read.mp hread
      have hpos := List.length_pos_iff.mpr (encode_ne_nil record)
      rw [List.length_append] at hn
      obtain ⟨records, rest', rfl, hall, hend⟩ := ih rest.length (by omega) rest rfl
      refine ⟨record :: records, rest', by simp, fun r hr => ?_, hend⟩
      rcases List.mem_cons.mp hr with rfl | hr
      · exact hvalid
      · exact hall r hr
    · exact ⟨[], bytes, rfl, by simp, fun record rest h => hread ⟨record, rest, h⟩⟩

/-- **What a scan finds.** -/
theorem scan_eq (hvalid : ∀ r ∈ records, r.validate = .ok ()) (rest : Bytes)
    (hrest : ∀ record rest', readRecord rest ≠ .read record rest') :
    scan (encodeAll records ++ rest) = stop (advance {} records) (readRecord rest) := by
  have hle := length_le_length_encodeAll records
  have hfuel : (encodeAll records ++ rest).length + 1 =
      records.length + ((encodeAll records ++ rest).length - records.length + 1) := by
    rw [List.length_append]
    omega
  rw [scan, hfuel, scanLoop_append hvalid, scanLoop]
  cases hr : readRecord rest with
  | finished => rfl
  | stopped code => rfl
  | read record rest' => exact absurd hr (hrest record rest')

theorem records_scan (hvalid : ∀ r ∈ records, r.validate = .ok ())
    (hrest : ∀ record rest', readRecord rest ≠ .read record rest') :
    (scan (encodeAll records ++ rest)).records = records := by
  rw [scan_eq hvalid rest hrest]
  cases readRecord rest <;> rfl

/-- What is left of a scan: the records, and that the rest did not start with another. -/
theorem scan_cases (bytes : Bytes) :
    ∃ rest, bytes = encodeAll (scan bytes).records ++ rest ∧
      (∀ r ∈ (scan bytes).records, r.validate = .ok ()) ∧
      (∀ record rest', readRecord rest ≠ .read record rest') ∧
      scan bytes = stop (advance {} (scan bytes).records) (readRecord rest) := by
  obtain ⟨records, rest, hbytes, hvalid, hrest⟩ := exists_records bytes
  have hscan := scan_eq hvalid _ hrest
  rw [← hbytes] at hscan
  have hrecords : (scan bytes).records = records := by
    rw [hbytes]
    exact records_scan hvalid hrest
  rw [hrecords]
  exact ⟨rest, hbytes, hvalid, hrest, hscan⟩

/-- **Exact**: the valid bytes are the encodings of the records, and the file has an issue unless
that is all of it. -/
structure Exact (bytes : Bytes) : Prop where
  serialized : ∀ record ∈ (scan bytes).records, serialize record = .ok (encode record)
  within : (scan bytes).validBytes ≤ bytes.length
  valid : bytes.take (scan bytes).validBytes = encodeAll (scan bytes).records
  count : (scan bytes).recordsRead = (scan bytes).records.length
  issue : (scan bytes).issue = none ↔ encodeAll (scan bytes).records = bytes

theorem scan_exact (bytes : Bytes) : Exact bytes := by
  obtain ⟨rest, hbytes, hvalid, hrest, hscan⟩ := scan_cases bytes
  generalize hrecords : (scan bytes).records = records at *
  have hvalidBytes : (scan bytes).validBytes = (encodeAll records).length := by
    rw [hscan]
    cases readRecord rest <;> simp [stop, advance]
  refine ⟨fun r hr => ?_, ?_, ?_, ?_, ?_⟩
  · exact serialize_eq_ok.mpr ⟨hvalid r (hrecords ▸ hr), rfl⟩
  · rw [hvalidBytes, hbytes, List.length_append]
    omega
  · rw [hvalidBytes, hrecords, hbytes, List.take_left' rfl]
  · rw [hrecords, hscan]
    cases readRecord rest <;> simp [stop, advance]
  · rw [hrecords]
    constructor
    · intro hnone
      have hfinished : rest = [] := by
        apply readRecord_eq_finished.mp
        rw [hscan] at hnone
        cases hr : readRecord rest with
        | finished => rfl
        | stopped code => simp [hr, stop] at hnone
        | read record rest' => exact absurd hr (hrest record rest')
      rw [hbytes, hfinished, List.append_nil]
    · intro hwhole
      have hnil : rest = [] := by
        have hlen := congrArg List.length (hwhole.trans hbytes)
        rw [List.length_append] at hlen
        exact List.length_eq_zero_iff.mp (by omega)
      rw [hscan, hnil]
      rfl

/-- **Cut**: the scan of a log that was cut off delivers the records wholly before the cut. -/
structure Cut (records : List WalRecord) (cut : Nat) (file : Bytes) : Prop where
  before : ∃ n ≤ records.length, (scan file).records = records.take n ∧
    ∀ m ≤ records.length, m ≤ n ↔ (encodeAll (records.take m)).length ≤ cut
  boundary : (scan file).issue = none ↔
    ∃ m ≤ records.length, (encodeAll (records.take m)).length = cut
  incomplete : (scan file).issue ≠ none →
    (scan file).issue = some ⟨.IncompleteRecord, (scan file).validBytes⟩
  again : scan (file.take (scan file).validBytes) = { scan file with issue := none }

theorem encodeAll_take_lt {m n : Nat} (hlt : m < n) (hn : n ≤ records.length) :
    (encodeAll (records.take m)).length < (encodeAll (records.take n)).length := by
  have hsplit : records.take n = records.take m ++ (records.take n).drop m := by
    conv_lhs => rw [← List.take_append_drop m (records.take n), List.take_take, min_eq_left hlt.le]
  have hmore := length_le_length_encodeAll ((records.take n).drop m)
  rw [List.length_drop, List.length_take] at hmore
  rw [hsplit, encodeAll_append, List.length_append]
  omega

/-- A cut falls between two records or within one. -/
theorem take_encodeAll (hcut : cut ≤ (encodeAll records).length) :
    ∃ n ≤ records.length, ∃ rest, (encodeAll records).take cut = encodeAll (records.take n) ++ rest ∧
      (rest = [] ∨ ∃ record, records[n]? = some record ∧ rest.length ≠ 0 ∧
        rest.length < (encode record).length ∧ rest = (encode record).take rest.length) := by
  induction records generalizing cut with
  | nil => exact ⟨0, le_rfl, [], by simp, Or.inl rfl⟩
  | cons record records ih =>
    by_cases hwhole : (encode record).length ≤ cut
    · rw [encodeAll_cons, List.length_append] at hcut
      obtain ⟨n, hn, rest, htake, hrest⟩ := ih
        (show cut - (encode record).length ≤ (encodeAll records).length by omega)
      refine ⟨n + 1, by simpa using hn, rest, ?_, by simpa using hrest⟩
      rw [encodeAll_cons, List.take_append, List.take_of_length_le hwhole, htake]
      simp
    · have hlen : ((encode record).take cut).length = cut := by
        rw [List.length_take]
        omega
      refine ⟨0, by simp, (encode record).take cut, ?_, ?_⟩
      · rw [encodeAll_cons, List.take_append_of_le_length (by omega)]
        rfl
      · by_cases hzero : cut = 0
        · exact Or.inl (by simp [hzero])
        · exact Or.inr ⟨record, rfl, by omega, by omega, by rw [hlen]⟩

/-- The records before the cut are those that end by it. -/
theorem le_iff_encodeAll_le {n rest : Nat} (hn : n ≤ records.length)
    (hlen : (encodeAll (records.take n)).length + rest = cut)
    (hrest : rest = 0 ∨ ∃ record, records[n]? = some record ∧ rest < (encode record).length)
    {m : Nat} (hm : m ≤ records.length) : m ≤ n ↔ (encodeAll (records.take m)).length ≤ cut := by
  constructor
  · intro hmn
    rcases Nat.lt_or_eq_of_le hmn with hlt | rfl
    · have := encodeAll_take_lt hlt hn
      omega
    · omega
  · intro hle
    by_contra hmn
    have hstep := encodeAll_take_lt (not_le.mp hmn) hm
    rcases hrest with rfl | ⟨record, hrecord, hlt⟩
    · omega
    · have hnext : records.take (n + 1) = records.take n ++ [record] := by
        rw [List.take_add_one, hrecord]
        rfl
      have hend : (encodeAll (records.take (n + 1))).length ≤
          (encodeAll (records.take m)).length := by
        rcases Nat.lt_or_ge (n + 1) m with h | h
        · exact (encodeAll_take_lt h hm).le
        · obtain rfl : m = n + 1 := by omega
          exact le_rfl
      rw [hnext, encodeAll_append, List.length_append] at hend
      simp only [encodeAll_cons, encodeAll_nil, List.append_nil] at hend
      omega

theorem scan_encodeAll (hvalid : ∀ r ∈ records, r.validate = .ok ()) :
    scan (encodeAll records) = advance {} records := by
  have h := scan_eq hvalid [] (fun record rest h => by cases h)
  rwa [List.append_nil] at h

theorem scan_cut (hvalid : ∀ r ∈ records, r.validate = .ok ())
    (hcut : cut ≤ (encodeAll records).length) : Cut records cut ((encodeAll records).take cut) := by
  obtain ⟨n, hn, rest, htake, hrest⟩ := take_encodeAll hcut
  have htaken : ∀ r ∈ records.take n, r.validate = .ok () := fun r hr =>
    hvalid r (List.mem_of_mem_take hr)
  have hround : readRecord rest = if rest = [] then .finished else .stopped .IncompleteRecord := by
    rcases hrest with rfl | ⟨record, hrecord, hpos, hlt, hform⟩
    · rfl
    · rw [if_neg (fun h => hpos (by rw [h]; rfl)), hform]
      exact readRecord_cut (hvalid record (List.mem_of_getElem? hrecord)) hpos hlt
  have hscan := scan_eq htaken rest (fun record rest' h => by
    rw [hround] at h
    split_ifs at h)
  rw [hround, ← htake] at hscan
  have hlen : (encodeAll (records.take n)).length + rest.length = cut := by
    have := congrArg List.length htake
    rw [List.length_take, List.length_append] at this
    omega
  have hbefore : ∀ m ≤ records.length, m ≤ n ↔ (encodeAll (records.take m)).length ≤ cut :=
    fun m hm => le_iff_encodeAll_le hn hlen
      (hrest.imp (fun h => by rw [h]; rfl) fun ⟨record, hrecord, _, hlt, _⟩ =>
        ⟨record, hrecord, hlt⟩) hm
  have hagain : ∀ result : WalScanResult, result.validBytes = (encodeAll (records.take n)).length →
      scan (((encodeAll records).take cut).take result.validBytes) = advance {} (records.take n) := by
    intro result hresult
    rw [hresult, htake, List.take_left' rfl, scan_encodeAll htaken]
  by_cases hnil : rest = []
  · rw [if_pos hnil] at hscan
    have hend : (encodeAll (records.take n)).length = cut := by simpa [hnil] using hlen
    refine ⟨⟨n, hn, by simp [hscan, advance, stop], hbefore⟩, ?_, ?_, ?_⟩
    · exact ⟨fun _ => ⟨n, hn, hend⟩, fun _ => by rw [hscan]; rfl⟩
    · intro h
      rw [hscan] at h
      exact absurd rfl h
    · rw [hagain _ (by simp [hscan, stop, advance]), hscan]
      rfl
  · rw [if_neg hnil] at hscan
    have hpos : rest.length ≠ 0 := fun h => hnil (List.length_eq_zero_iff.mp h)
    refine ⟨⟨n, hn, by simp [hscan, advance, stop], hbefore⟩, ⟨fun h => ?_, ?_⟩, fun _ => ?_, ?_⟩
    · rw [hscan] at h
      cases h
    · rintro ⟨m, hm, hm'⟩
      have hmn := (hbefore m hm).mpr hm'.le
      rcases Nat.lt_or_eq_of_le hmn with hlt | rfl
      · have := encodeAll_take_lt hlt hn
        omega
      · omega
    · rw [hscan]
      rfl
    · rw [hagain _ (by simp [hscan, stop, advance]), hscan]
      rfl

/-- **Scanning the log.** -/
theorem scan_exact_and_cut (bytes : Bytes) {records : List WalRecord} {cut : Nat}
    (hvalid : ∀ r ∈ records, ∃ encoded, serialize r = .ok encoded)
    (hcut : cut ≤ (encodeAll records).length) :
    Exact bytes ∧ Cut records cut ((encodeAll records).take cut) :=
  ⟨scan_exact bytes, scan_cut (fun r hr => by
    obtain ⟨_, h⟩ := hvalid r hr
    exact (serialize_eq_ok.mp h).1) hcut⟩

/-- Three records, and a cut within the third. -/
def threeRecords : List WalRecord := [⟨.Put, [1], [2]⟩, ⟨.Delete, [1], []⟩, ⟨.Put, [3], [4]⟩]

theorem scan_exact_and_cut_three :
    Exact [78, 75] ∧ Cut threeRecords 50 ((encodeAll threeRecords).take 50) ∧
      (scan ((encodeAll threeRecords).take 50)).records = threeRecords.take 2 := by
  obtain ⟨hexact, hcut⟩ := @scan_exact_and_cut [78, 75] threeRecords 50
    (fun r hr => ⟨encode r, serialize_eq_ok.mpr ⟨by revert r; decide, rfl⟩⟩) (by decide)
  exact ⟨hexact, hcut, by decide +kernel⟩

end WalReader

end NebulaKV.Lsm
