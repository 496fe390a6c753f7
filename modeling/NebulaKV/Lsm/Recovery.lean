/-
# Recovery from the write-ahead log

`RecoveryManager::recover`: scan the log, hand each record to a `KeyValueStore`, report what was found,
and cut off a tail that is no record. The store is a parameter, as it is in the source;
`InMemoryKeyValueStore` is the plain one, a map.

A record says what its key is afterwards and nothing about before, so the records of a log are a
`Journal.redo`. That is what makes recovery REPEATABLE: a second one, over the map and the file that the
first one left, finds the same records and changes neither.
-/
import NebulaKV.Journal.Redo
import NebulaKV.Containers.OrderedMap
import NebulaKV.Effects.Program
import NebulaKV.Lsm.WalReader

namespace NebulaKV.Lsm

open Containers Effects Program Journal WalFormat WalReader

/-- What a record of the log does to the map. -/
def WalRecord.write (record : WalRecord) : Write Bytes Bytes :=
  ⟨record.key,
    match record.operation with
    | .Put => some record.value
    | .Delete => none⟩

/-- The map that a log makes of a view. -/
def replayed (wal : List WalRecord) (view : Bytes → Option Bytes) : Bytes → Option Bytes :=
  redo (wal.map WalRecord.write) view

/-- The interface `KeyValueStore`. -/
structure KeyValueStore (S : Type) where
  put : Bytes → Bytes → Program S Error Unit
  get : Bytes → Program S Error (Option Bytes)
  remove : Bytes → Program S Error Bool
  existsKey : Bytes → Program S Error Bool

/-! ## `InMemoryKeyValueStore` -/

namespace InMemoryKeyValueStore

def put (key value : Bytes) : Program (OrderedMap Bytes Bytes) Error Unit := do
  Program.check (validateKey key)
  Program.check (validateValue value)
  Program.update fun entries => entries.insert key value

def get (key : Bytes) : Program (OrderedMap Bytes Bytes) Error (Option Bytes) := do
  Program.check (validateKey key)
  let entries ← Program.read
  return entries.find? key

def remove (key : Bytes) : Program (OrderedMap Bytes Bytes) Error Bool := do
  Program.check (validateKey key)
  let entries ← Program.read
  if (entries.find? key).isNone then return false
  else do
    Program.update fun entries => entries.erase key
    return true

def existsKey (key : Bytes) : Program (OrderedMap Bytes Bytes) Error Bool := do
  Program.check (validateKey key)
  let entries ← Program.read
  return (entries.find? key).isSome

def store : KeyValueStore (OrderedMap Bytes Bytes) := ⟨put, get, remove, existsKey⟩

/-- The map after a record. -/
def applied (entries : OrderedMap Bytes Bytes) (record : WalRecord) : OrderedMap Bytes Bytes :=
  match record.operation with
  | .Put => entries.insert record.key record.value
  | .Delete => entries.erase record.key

theorem find?_applied (entries : OrderedMap Bytes Bytes) (record : WalRecord) :
    (applied entries record).find? =
      Function.update entries.find? record.key record.write.value := by
  obtain ⟨operation, key, value⟩ := record
  funext k
  rw [Function.update_apply]
  cases operation with
  | Put =>
    show (entries.insert key value).find? k = if k = key then some value else entries.find? k
    rw [OrderedMap.find?_insert]
    congr
  | Delete =>
    show (entries.erase key).find? k = if k = key then none else entries.find? k
    rw [OrderedMap.find?_erase]
    congr

theorem find?_foldl_applied (entries : OrderedMap Bytes Bytes) (records : List WalRecord) :
    (records.foldl applied entries).find? = replayed records entries.find? := by
  induction records generalizing entries with
  | nil => rfl
  | cons record rest ih =>
    rw [List.foldl_cons, ih, find?_applied]
    rfl

theorem put_eq {key value : Bytes} (hkey : ValidKey key) (hvalue : ValidValue value)
    (entries : OrderedMap Bytes Bytes) : put key value entries = (.ok (), entries.insert key value) := by
  unfold put
  rw [validateKey_eq_ok.mpr hkey, check_ok_bind, validateValue_eq_ok.mpr hvalue, check_ok_bind]
  rfl

theorem remove_eq {key : Bytes} (hkey : ValidKey key) (entries : OrderedMap Bytes Bytes) :
    remove key entries = (.ok (entries.find? key).isSome, entries.erase key) := by
  unfold remove
  rw [validateKey_eq_ok.mpr hkey, check_ok_bind, read_bind_apply]
  cases hfind : entries.find? key with
  | none =>
    -- nothing is erased, as `erase` would do
    refine congrArg (Except.ok false, ·) (OrderedMap.ext_find? fun k => ?_)
    rw [OrderedMap.find?_erase]
    split_ifs with hk
    · rw [hk, hfind]
    · rfl
  | some value => rfl

end InMemoryKeyValueStore

/-! ## `RecoveryManager` -/

/-- `diagnostics` says whether there is a stream to write to. -/
structure RecoveryOptions where
  truncateInvalidTail : Bool := true
  diagnostics : Bool := false

structure RecoveryReport where
  recordsApplied : Nat := 0
  putsApplied : Nat := 0
  deletesApplied : Nat := 0
  validWalBytes : Nat := 0
  invalidTailTruncated : Bool := false
  issue : Option WalReadIssue := none
  deriving DecidableEq

def WalReadIssueCode.toString : WalReadIssueCode → String
  | .IncompleteRecord => "incomplete_record"
  | .InvalidMagic => "invalid_magic"
  | .UnsupportedVersion => "unsupported_version"
  | .InvalidOperation => "invalid_operation"
  | .InvalidRecordLength => "invalid_record_length"
  | .InvalidDeleteRecord => "invalid_delete_record"
  | .ChecksumMismatch => "checksum_mismatch"

/-- The store that is filled, the file of the log, the report and what was written to the stream. -/
structure Recovery (S : Type) where
  destination : S
  wal : Option Bytes
  report : RecoveryReport := {}
  diagnostics : List String := []

namespace RecoveryManager

variable {S : Type}

def onDestination {α : Type} (m : Program S Error α) : Program (Recovery S) Error α :=
  Program.zoom Recovery.destination (fun destination recovery => { recovery with destination }) m

def onReport (change : RecoveryReport → RecoveryReport) : Program (Recovery S) Error Unit :=
  Program.update fun recovery => { recovery with report := change recovery.report }

/-- The visitor that `recover` passes to `scan`. -/
def visit (store : KeyValueStore S) (record : WalRecord) : Program (Recovery S) Error Unit := do
  match record.operation with
  | .Put => do
    onDestination (store.put record.key record.value)
    onReport fun report => { report with putsApplied := report.putsApplied + 1 }
  | .Delete => do
    let _ ← onDestination (store.remove record.key)
    onReport fun report => { report with deletesApplied := report.deletesApplied + 1 }
  onReport fun report => { report with recordsApplied := report.recordsApplied + 1 }

def diagnostic (issue : WalReadIssue) : String :=
  "\x7b\"level\":\"error\",\"component\":\"wal_recovery\",\"offset\":" ++
    Nat.repr issue.byteOffset ++ ",\"error\":\"" ++ issue.code.toString ++ "\"\x7d\n"

/-- What follows the scan: the report, the diagnostics, the cut. -/
def finish (options : RecoveryOptions) (scan : WalScanResult) (recovery : Recovery S) : Recovery S :=
  let cut : Bool := scan.issue.isSome && options.truncateInvalidTail
  { recovery with
    report :=
      { recovery.report with
        validWalBytes := scan.validBytes
        issue := scan.issue
        invalidTailTruncated := cut }
    diagnostics := recovery.diagnostics ++
      if options.diagnostics then scan.issue.toList.map diagnostic else []
    wal := if cut then recovery.wal.map (·.take scan.validBytes) else recovery.wal }

def recover (store : KeyValueStore S) (options : RecoveryOptions) :
    Program (Recovery S) Error Unit := do
  let recovery ← Program.read
  match recovery.wal with
  | none => pure ()
  | some bytes => do
    let scan := WalReader.scan bytes
    -- a record that the store refuses ends the scan, and the file stays as it is
    Program.forEach (visit store) scan.records
    Program.update (finish options scan)

/-! ## What it does to a map -/

def countOf (operation : OperationType) (records : List WalRecord) : Nat :=
  records.countP fun record => record.operation = operation

/-- With these records in the map and in the report. -/
def seen (recovery : Recovery (OrderedMap Bytes Bytes)) (records : List WalRecord) :
    Recovery (OrderedMap Bytes Bytes) :=
  { recovery with
    destination := records.foldl InMemoryKeyValueStore.applied recovery.destination
    report :=
      { recovery.report with
        recordsApplied := recovery.report.recordsApplied + records.length
        putsApplied := recovery.report.putsApplied + countOf .Put records
        deletesApplied := recovery.report.deletesApplied + countOf .Delete records } }

variable {recovery : Recovery (OrderedMap Bytes Bytes)} {records : List WalRecord}

theorem onDestination_bind {α β : Type} {m : Program S Error α} {recovery : Recovery S} {a : α}
    {destination : S} (h : m recovery.destination = (.ok a, destination))
    (f : α → Program (Recovery S) Error β) :
    (onDestination m >>= f) recovery = f a { recovery with destination } := by
  have hzoom : onDestination m recovery = (.ok a, { recovery with destination }) := by
    unfold onDestination Program.zoom
    rw [h]
  rw [bind_apply, hzoom]

theorem visit_eq {record : WalRecord} (h : record.validate = .ok ()) :
    visit InMemoryKeyValueStore.store record recovery = (.ok (), seen recovery [record]) := by
  obtain ⟨operation, key, value⟩ := record
  obtain ⟨hkey, hvalue, -⟩ := WalRecord.validate_eq_ok.mp h
  cases operation with
  | Put => exact onDestination_bind (InMemoryKeyValueStore.put_eq hkey hvalue _) _
  | Delete => exact onDestination_bind (InMemoryKeyValueStore.remove_eq hkey _) _

theorem seen_append (recovery : Recovery (OrderedMap Bytes Bytes)) (records records' : List WalRecord) :
    seen recovery (records ++ records') = seen (seen recovery records) records' := by
  unfold seen countOf
  simp only [List.foldl_append, List.length_append, List.countP_append, Nat.add_assoc]

/-- **All records reach the map, in their order.** -/
theorem forEach_visit (h : ∀ record ∈ records, record.validate = .ok ()) :
    Program.forEach (visit InMemoryKeyValueStore.store) records recovery =
      (.ok (), seen recovery records) := by
  induction records generalizing recovery with
  | nil => rfl
  | cons record rest ih =>
    show (visit InMemoryKeyValueStore.store record >>= fun _ =>
      Program.forEach (visit InMemoryKeyValueStore.store) rest) recovery = _
    rw [bind_apply, visit_eq (h record List.mem_cons_self)]
    dsimp only
    rw [ih (List.forall_mem_cons.mp h).2, ← seen_append]
    rfl

/-- **A map refuses no record of a log.** -/
theorem recover_eq (options : RecoveryOptions) (entries : OrderedMap Bytes Bytes) (bytes : Bytes) :
    recover InMemoryKeyValueStore.store options { destination := entries, wal := some bytes } =
      (.ok (), finish options (scan bytes)
        (seen { destination := entries, wal := some bytes } (scan bytes).records)) := by
  obtain ⟨-, -, hvalid, -, -⟩ := scan_cases bytes
  show (Program.forEach (visit InMemoryKeyValueStore.store) (scan bytes).records >>= fun _ =>
    Program.update (finish options (scan bytes))) _ = _
  rw [bind_apply, forEach_visit hvalid]
  rfl

/-- The file is cut to what the scan has accepted, if there is anything else in it. -/
theorem wal_finish (entries : OrderedMap Bytes Bytes) (loud : Bool) (bytes : Bytes) :
    (finish { diagnostics := loud } (scan bytes)
      (seen { destination := entries, wal := some bytes } (scan bytes).records)).wal =
        some (encodeAll (scan bytes).records) := by
  have hexact := scan_exact bytes
  unfold finish
  cases hissue : (scan bytes).issue with
  | none => exact congrArg some (hexact.issue.mp hissue).symm
  | some issue => exact congrArg some hexact.valid

/-- A second scan, of what the first one accepted. -/
theorem scan_again (bytes : Bytes) :
    scan (encodeAll (scan bytes).records) = { scan bytes with issue := none } := by
  obtain ⟨rest, -, hvalid, -, hscan⟩ := scan_cases bytes
  rw [scan_encodeAll hvalid, hscan]
  cases readRecord rest <;> rfl

theorem countOf_put_add_delete (records : List WalRecord) :
    countOf .Put records + countOf .Delete records = records.length := by
  unfold countOf
  induction records with
  | nil => rfl
  | cons record rest ih =>
    rw [List.countP_cons, List.countP_cons, List.length_cons, ← ih]
    cases record.operation <;> simp <;> omega

/-- **Recovery can be repeated.** The map has the records of the log, the file has nothing else any
more, and a second recovery of what the first one left changes neither and has nothing to report. -/
theorem recover_twice (loud : Bool) (options : RecoveryOptions) (entries : OrderedMap Bytes Bytes)
    (bytes : Bytes) :
    ∃ first second : Recovery (OrderedMap Bytes Bytes),
      recover InMemoryKeyValueStore.store { diagnostics := loud }
        { destination := entries, wal := some bytes } = (.ok (), first) ∧
      (∀ key, first.destination.find? key = replayed (scan bytes).records entries.find? key) ∧
      first.wal = some (bytes.take first.report.validWalBytes) ∧
      first.report.recordsApplied = (scan bytes).records.length ∧
      first.report.putsApplied + first.report.deletesApplied = first.report.recordsApplied ∧
      recover InMemoryKeyValueStore.store options
        { destination := first.destination, wal := first.wal } = (.ok (), second) ∧
      second.destination = first.destination ∧ second.wal = first.wal ∧
      second.report = { first.report with invalidTailTruncated := false, issue := none } ∧
      second.diagnostics = [] := by
  have hwal := wal_finish entries loud bytes
  refine ⟨_, _, recover_eq _ entries bytes, fun key => ?_, ?_, Nat.zero_add _, ?_,
    by rw [hwal]; exact recover_eq options _ _, ?_, ?_, ?_, ?_⟩
  · exact congrFun (InMemoryKeyValueStore.find?_foldl_applied entries _) key
  · rw [hwal]
    exact congrArg some (scan_exact bytes).valid.symm
  · show 0 + countOf .Put _ + (0 + countOf .Delete _) = 0 + _
    rw [Nat.zero_add, Nat.zero_add, Nat.zero_add, countOf_put_add_delete]
  · -- the records over the records
    rw [scan_again]
    refine OrderedMap.ext_find? fun key => ?_
    show (List.foldl _ (List.foldl _ entries _) _).find? key = (List.foldl _ entries _).find? key
    rw [InMemoryKeyValueStore.find?_foldl_applied, InMemoryKeyValueStore.find?_foldl_applied]
    exact congrFun (redo_redo _ _) key
  · rw [scan_again, hwal]
    rfl
  · rw [scan_again]
    rfl
  · rw [scan_again]
    show (if options.diagnostics then [] else []) = []
    exact ite_self []

end RecoveryManager

end NebulaKV.Lsm
