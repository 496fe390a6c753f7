/-
# The files of a Raft node

`raft/storage.cpp` on bytes: three files, each a magic value, a version, the payload and the payload's
CRC-32. A node's `PersistentState` is what `load` makes of them.

An envelope has exactly one content (`unwrapPayload_eq_ok`), and a payload exactly one value
(`decodeHardState_eq_ok`, `decodeLog_eq_ok`, `decodeSnapshot_eq_ok`): from these both halves of
`storage_round_trip` follow. The texts of the exceptions end in the path of the file, which is left out;
a count that `reserve` cannot allocate for is followed by too few bytes, and refused for that.
-/
import NebulaKV.Lsm.WalFormat
import NebulaKV.Raft.StateMachine
import Mathlib.Tactic.FinCases

namespace NebulaKV.Raft

open Codec Effects Serialization

def kHardMagic : Bytes := [78, 66, 72, 82]

def kLogMagic : Bytes := [78, 66, 82, 76]

def kSnapshotMagic : Bytes := [78, 66, 82, 83]

def kStorageVersion : Nat := 1

/-! ## The envelope -/

def wrapPayload (magic payload : Bytes) : Bytes :=
  appendU32 (appendU32 magic kStorageVersion ++ payload) (Lsm.ChecksumCalculator.crc32 payload)

def kEnvelopeBytes : Nat := 4 + 4 + 4

def unwrapPayload (expectedMagic encoded : Bytes) : Except Error Bytes := do
  refuse (encoded.length < kEnvelopeBytes) (.runtimeError "truncated Raft file")
  refuse (encoded.take 4 ≠ expectedMagic) (.runtimeError "invalid Raft file magic")
  let (version, _) ← Decoder.readU32 ((encoded.drop 4).take 4)
  refuse (version ≠ kStorageVersion) (.runtimeError "unsupported Raft file version")
  let payload := (encoded.drop 8).take (encoded.length - kEnvelopeBytes)
  let (storedChecksum, _) ← Decoder.readU32 (encoded.drop (encoded.length - 4))
  refuse (storedChecksum ≠ Lsm.ChecksumCalculator.crc32 payload)
    (.runtimeError "Raft file checksum mismatch")
  return payload

theorem wrapPayload_eq (magic payload : Bytes) :
    wrapPayload magic payload = magic ++ (leBytes 4 kStorageVersion ++
      (payload ++ leBytes 4 (Lsm.ChecksumCalculator.crc32 payload))) := by
  simp [wrapPayload, appendU32]

/-- The parts of something long enough to be an envelope. -/
theorem exists_parts {encoded : Bytes} (h : ¬ encoded.length < kEnvelopeBytes) :
    ∃ magic version payload checksum : Bytes,
      encoded = magic ++ (version ++ (payload ++ checksum)) ∧ magic.length = 4 ∧
        version.length = 4 ∧ checksum.length = 4 := by
  unfold kEnvelopeBytes at h
  refine ⟨encoded.take 4, (encoded.drop 4).take 4,
    (encoded.drop 8).take (encoded.length - 12), encoded.drop (encoded.length - 4), ?_, ?_, ?_, ?_⟩
  · have htail : encoded.drop (encoded.length - 4) =
        (encoded.drop 8).drop (encoded.length - 12) := by
      rw [List.drop_drop]
      congr 1
      omega
    have hmiddle : encoded.drop 8 = (encoded.drop 4).drop 4 := by rw [List.drop_drop]
    rw [htail, List.take_append_drop, hmiddle, List.take_append_drop, List.take_append_drop]
  · rw [List.length_take]
    omega
  · rw [List.length_take, List.length_drop]
    omega
  · rw [List.length_drop]
    omega

variable {payload : Bytes} {entries : List LogEntry}

/-- What `unwrap_payload` looks at. -/
theorem unwrapPayload_parts {expectedMagic magic version checksum : Bytes}
    (hmagic : magic.length = 4) (hversion : version.length = 4) (hchecksum : checksum.length = 4)
    {result : Bytes} :
    unwrapPayload expectedMagic (magic ++ (version ++ (payload ++ checksum))) = .ok result ↔
      magic = expectedMagic ∧ leValue version = kStorageVersion ∧
        leValue checksum = Lsm.ChecksumCalculator.crc32 payload ∧ payload = result := by
  have hlength : (magic ++ (version ++ (payload ++ checksum))).length = payload.length + 12 := by
    simp only [List.length_append]
    omega
  have hfront : (magic ++ (version ++ (payload ++ checksum))).take 4 = magic := by
    rw [← hmagic, List.take_left]
  have hdrop4 : (magic ++ (version ++ (payload ++ checksum))).drop 4 =
      version ++ (payload ++ checksum) := by
    rw [← hmagic, List.drop_left]
  have hdrop8 : (magic ++ (version ++ (payload ++ checksum))).drop 8 = payload ++ checksum := by
    rw [show 8 = 4 + 4 by rfl, ← List.drop_drop, hdrop4, ← hversion, List.drop_left]
  have htail : (magic ++ (version ++ (payload ++ checksum))).drop (payload.length + 8) = checksum := by
    rw [Nat.add_comm, ← List.drop_drop, hdrop8, List.drop_left]
  have hread : ∀ bytes : Bytes, bytes.length = 4 →
      Decoder.readU32 bytes = .ok (leValue bytes, []) := fun bytes hbytes => by
    refine readU32_eq_ok.mpr ⟨?_, ?_⟩
    · have hlt := leValue_lt bytes
      rw [hbytes] at hlt
      exact Nat.le_of_lt_succ hlt
    · rw [← hbytes, leBytes_leValue, List.append_nil]
  have hversion4 : (version ++ (payload ++ checksum)).take 4 = version := by
    rw [← hversion, List.take_left]
  unfold unwrapPayload
  rw [hlength, hfront, hdrop4, hdrop8, hversion4, show payload.length + 12 - 4 = payload.length + 8 by
    rfl, htail, hread version hversion, hread checksum hchecksum]
  have hpayload : (payload ++ checksum).take (payload.length + 12 - kEnvelopeBytes) = payload := by
    rw [show payload.length + 12 - kEnvelopeBytes = payload.length by rfl, List.take_left]
  rw [hpayload, refuse_bind_eq_ok, refuse_bind_eq_ok]
  show _ ∧ _ ∧ (refuse _ _ >>= fun _ => (refuse _ _ >>= fun _ => pure payload)) = _ ↔ _
  rw [refuse_bind_eq_ok, refuse_bind_eq_ok]
  simp only [kEnvelopeBytes, pure, Except.pure, Except.ok.injEq, ne_eq, not_not]
  constructor
  · rintro ⟨-, h⟩
    exact h
  · intro h
    exact ⟨by omega, h⟩

/-- **An envelope has one content**, and a content one envelope. -/
theorem unwrapPayload_eq_ok {magic encoded : Bytes} (hmagic : magic.length = 4) :
    unwrapPayload magic encoded = .ok payload ↔ encoded = wrapPayload magic payload := by
  constructor
  · intro h
    have hlong : ¬ encoded.length < kEnvelopeBytes := (refuse_bind_eq_ok.mp h).1
    obtain ⟨magic', version, payload', checksum, rfl, hmagic', hversion, hchecksum⟩ :=
      exists_parts hlong
    obtain ⟨rfl, hversionValue, hchecksumValue, rfl⟩ :=
      (unwrapPayload_parts hmagic' hversion hchecksum).mp h
    rw [wrapPayload_eq, ← hversionValue, ← hchecksumValue]
    have hsame : ∀ bytes : Bytes, bytes.length = 4 → leBytes 4 (leValue bytes) = bytes :=
      fun bytes hbytes => by rw [← hbytes, leBytes_leValue]
    rw [hsame version hversion, hsame checksum hchecksum]
  · rintro rfl
    rw [wrapPayload_eq]
    refine (unwrapPayload_parts hmagic (length_leBytes _ _) (length_leBytes _ _)).mpr
      ⟨rfl, leValue_leBytes_of_lt (by decide), ?_, rfl⟩
    exact leValue_leBytes_of_lt (Lsm.ChecksumCalculator.crc32_lt payload)

/-! ## The three payloads -/

/-- The payload that `save_hard_state` writes. -/
def encodeHardState (state : HardState) : Except Error Bytes := do
  let payload ← appendBytes (appendU64 [] state.currentTerm) state.votedFor
  return appendU64 (appendU64 payload state.commitIndex) state.lastApplied

def decodeHardState (payload : Bytes) : Except Error HardState := do
  let (currentTerm, decoder) ← Decoder.readU64 payload
  let (votedFor, decoder) ← Decoder.readBytes decoder
  let (commitIndex, decoder) ← Decoder.readU64 decoder
  let (lastApplied, decoder) ← Decoder.readU64 decoder
  refuse (decoder ≠ []) (.runtimeError "unexpected bytes in Raft hard state")
  return ⟨currentTerm, votedFor, commitIndex, lastApplied⟩

def encodeLogEntries : List LogEntry → Bytes → Except Error Bytes
  | [], payload => .ok payload
  | entry :: rest, payload => do
    let payload ← encodeEntry payload entry
    encodeLogEntries rest payload

/-- The payload that `replace_log` writes. -/
def encodeLog (entries : List LogEntry) : Except Error Bytes :=
  encodeLogEntries entries (appendU64 [] entries.length)

def decodeEntries : Nat → Decoder → Except Error (List LogEntry × Decoder)
  | 0, decoder => .ok ([], decoder)
  | count + 1, decoder => do
    let (entry, decoder) ← decodeEntry decoder
    let (entries, decoder) ← decodeEntries count decoder
    return (entry :: entries, decoder)

/-- Every index is one more than the one before it, as 64-bit numbers. -/
def follows : List LogEntry → Bool
  | a :: b :: rest => if b.index ≠ (a.index + 1) % u64 then false else follows (b :: rest)
  | _ => true

def decodeLog (payload : Bytes) : Except Error (List LogEntry) := do
  let (count, decoder) ← Decoder.readU64 payload
  let (entries, decoder) ← decodeEntries count decoder
  refuse (decoder ≠ []) (.runtimeError "unexpected bytes in Raft log")
  refuse (¬ follows entries) (.runtimeError "Raft log indices are not contiguous")
  return entries

/-- The payload that `save_snapshot` writes. -/
def encodeSnapshot (snapshot : Snapshot) : Except Error Bytes :=
  appendBytes (appendU64 (appendU64 [] snapshot.lastIncludedIndex) snapshot.lastIncludedTerm)
    snapshot.payload

def decodeSnapshot (payload : Bytes) : Except Error Snapshot := do
  let (lastIncludedIndex, decoder) ← Decoder.readU64 payload
  let (lastIncludedTerm, decoder) ← Decoder.readU64 decoder
  let (contents, decoder) ← Decoder.readBytes decoder
  refuse (decoder ≠ []) (.runtimeError "unexpected bytes in Raft snapshot")
  return ⟨lastIncludedIndex, lastIncludedTerm, contents⟩

/-! ### Each payload is one value -/

structure HardStateFits (state : HardState) : Prop where
  currentTerm : state.currentTerm < u64
  votedFor : state.votedFor.length ≤ uint32Max
  commitIndex : state.commitIndex < u64
  lastApplied : state.lastApplied < u64

def hardStateBytes (state : HardState) : Bytes :=
  leBytes 8 state.currentTerm ++ (stringBytes state.votedFor ++
    (leBytes 8 state.commitIndex ++ leBytes 8 state.lastApplied))

theorem encodeHardState_ok {state : HardState} (h : state.votedFor.length ≤ uint32Max) :
    encodeHardState state = .ok (hardStateBytes state) := by
  refine bind_ok (appendBytes_eq_ok.mpr ⟨h, rfl⟩) ?_
  simp [appendU64, hardStateBytes, pure, Except.pure]

theorem decodeHardState_eq_ok {state : HardState} :
    decodeHardState payload = .ok state ↔
      HardStateFits state ∧ payload = hardStateBytes state := by
  unfold hardStateBytes
  constructor
  · intro h
    obtain ⟨⟨term, d₁⟩, hterm, h⟩ := bind_eq_ok.mp h
    obtain ⟨⟨vote, d₂⟩, hvote, h⟩ := bind_eq_ok.mp h
    obtain ⟨⟨commit, d₃⟩, hcommit, h⟩ := bind_eq_ok.mp h
    obtain ⟨⟨applied, d₄⟩, happlied, h⟩ := bind_eq_ok.mp h
    obtain ⟨hend, h⟩ := refuse_bind_eq_ok.mp h
    obtain rfl := Except.ok.inj h
    obtain ⟨htermFits, hpayload⟩ := readU64_eq_ok.mp hterm
    obtain ⟨hvoteFits, rfl⟩ := readBytes_eq_ok.mp hvote
    obtain ⟨hcommitFits, rfl⟩ := readU64_eq_ok.mp hcommit
    obtain ⟨happliedFits, rfl⟩ := readU64_eq_ok.mp happlied
    obtain rfl := not_not.mp hend
    rw [List.append_nil] at hpayload
    exact ⟨⟨htermFits, hvoteFits, hcommitFits, happliedFits⟩, hpayload⟩
  · rintro ⟨hfits, rfl⟩
    refine bind_ok (readU64_eq_ok.mpr ⟨hfits.currentTerm, rfl⟩) ?_
    refine bind_ok (readBytes_eq_ok.mpr ⟨hfits.votedFor, rfl⟩) ?_
    refine bind_ok (readU64_eq_ok.mpr ⟨hfits.commitIndex, rfl⟩) ?_
    refine bind_ok (readU64_eq_ok.mpr ⟨hfits.lastApplied, (List.append_nil _).symm⟩) ?_
    exact refuse_ok (not_not.mpr rfl) rfl

theorem encodeLogEntries_ok (h : ∀ entry ∈ entries, CommandFits entry.command) (payload : Bytes) :
    encodeLogEntries entries payload = .ok (payload ++ entries.flatMap entryBytes) := by
  induction entries generalizing payload with
  | nil => simp [encodeLogEntries]
  | cons entry rest ih =>
    refine bind_ok (encodeEntry_eq_ok.mpr ⟨h entry List.mem_cons_self, rfl⟩) ?_
    rw [ih (List.forall_mem_cons.mp h).2, List.flatMap_cons, List.append_assoc]

theorem decodeEntries_eq_ok {count : Nat} {decoder rest : Decoder} :
    decodeEntries count decoder = .ok (entries, rest) ↔ entries.length = count ∧
      (∀ entry ∈ entries, EntryFits entry) ∧ decoder = entries.flatMap entryBytes ++ rest := by
  induction count generalizing decoder entries with
  | zero =>
    unfold decodeEntries
    constructor
    · intro h
      obtain ⟨rfl, rfl⟩ := Prod.mk.inj (Except.ok.inj h)
      exact ⟨rfl, fun _ he => (by cases he), rfl⟩
    · rintro ⟨hlength, -, rfl⟩
      rw [List.length_eq_zero_iff.mp hlength]
      rfl
  | succ count ih =>
    constructor
    · intro h
      obtain ⟨⟨entry, d₁⟩, hentry, h⟩ := bind_eq_ok.mp h
      obtain ⟨⟨others, d₂⟩, hothers, h⟩ := bind_eq_ok.mp h
      obtain ⟨rfl, rfl⟩ := Prod.mk.inj (Except.ok.inj h)
      obtain ⟨hfits, hdecoder⟩ := decodeEntry_eq_ok.mp hentry
      obtain ⟨hlength, hothersFit, rfl⟩ := ih.mp hothers
      refine ⟨by rw [List.length_cons, hlength], ?_, ?_⟩
      · exact List.forall_mem_cons.mpr ⟨hfits, hothersFit⟩
      · rw [hdecoder, List.flatMap_cons, List.append_assoc]
    · rintro ⟨hlength, hfits, rfl⟩
      cases entries with
      | nil => cases hlength
      | cons entry others =>
        obtain ⟨hentry, hothers⟩ := List.forall_mem_cons.mp hfits
        rw [List.flatMap_cons, List.append_assoc]
        refine bind_ok (decodeEntry_eq_ok.mpr ⟨hentry, rfl⟩) ?_
        exact bind_ok (ih.mpr ⟨Nat.succ.inj hlength, hothers, rfl⟩) rfl

structure LogFits (log : List LogEntry) : Prop where
  length : log.length < u64
  entries : ∀ entry ∈ log, EntryFits entry
  follows : follows log = true

def logBytes (entries : List LogEntry) : Bytes :=
  leBytes 8 entries.length ++ entries.flatMap entryBytes

theorem encodeLog_ok (h : ∀ entry ∈ entries, CommandFits entry.command) :
    encodeLog entries = .ok (logBytes entries) :=
  encodeLogEntries_ok h _

theorem decodeLog_eq_ok :
    decodeLog payload = .ok entries ↔ LogFits entries ∧ payload = logBytes entries := by
  constructor
  · intro h
    obtain ⟨⟨count, d₁⟩, hcount, h⟩ := bind_eq_ok.mp h
    obtain ⟨⟨others, d₂⟩, hentries, h⟩ := bind_eq_ok.mp h
    obtain ⟨hend, h⟩ := refuse_bind_eq_ok.mp h
    obtain ⟨hfollows, h⟩ := refuse_bind_eq_ok.mp h
    obtain rfl := Except.ok.inj h
    obtain ⟨hcountFits, hpayload⟩ := readU64_eq_ok.mp hcount
    obtain ⟨rfl, hfits, rfl⟩ := decodeEntries_eq_ok.mp hentries
    obtain rfl := not_not.mp hend
    rw [List.append_nil] at hpayload
    exact ⟨⟨hcountFits, hfits, not_not.mp hfollows⟩, hpayload⟩
  · rintro ⟨hfits, rfl⟩
    refine bind_ok (readU64_eq_ok.mpr ⟨hfits.length, rfl⟩) ?_
    refine bind_ok (decodeEntries_eq_ok.mpr ⟨rfl, hfits.entries, (List.append_nil _).symm⟩) ?_
    refine refuse_ok (not_not.mpr rfl) ?_
    exact refuse_ok (not_not.mpr hfits.follows) rfl

structure SnapshotFits (snapshot : Snapshot) : Prop where
  lastIncludedIndex : snapshot.lastIncludedIndex < u64
  lastIncludedTerm : snapshot.lastIncludedTerm < u64
  payload : snapshot.payload.length ≤ uint32Max

def snapshotBytes (snapshot : Snapshot) : Bytes :=
  leBytes 8 snapshot.lastIncludedIndex ++
    (leBytes 8 snapshot.lastIncludedTerm ++ stringBytes snapshot.payload)

theorem encodeSnapshot_ok {snapshot : Snapshot} (h : snapshot.payload.length ≤ uint32Max) :
    encodeSnapshot snapshot = .ok (snapshotBytes snapshot) :=
  appendBytes_eq_ok.mpr ⟨h, by simp [appendU64, snapshotBytes]⟩

theorem decodeSnapshot_eq_ok {snapshot : Snapshot} :
    decodeSnapshot payload = .ok snapshot ↔
      SnapshotFits snapshot ∧ payload = snapshotBytes snapshot := by
  unfold snapshotBytes
  constructor
  · intro h
    obtain ⟨⟨index, d₁⟩, hindex, h⟩ := bind_eq_ok.mp h
    obtain ⟨⟨term, d₂⟩, hterm, h⟩ := bind_eq_ok.mp h
    obtain ⟨⟨contents, d₃⟩, hcontents, h⟩ := bind_eq_ok.mp h
    obtain ⟨hend, h⟩ := refuse_bind_eq_ok.mp h
    obtain rfl := Except.ok.inj h
    obtain ⟨hindexFits, hpayload⟩ := readU64_eq_ok.mp hindex
    obtain ⟨htermFits, rfl⟩ := readU64_eq_ok.mp hterm
    obtain ⟨hcontentsFit, rfl⟩ := readBytes_eq_ok.mp hcontents
    obtain rfl := not_not.mp hend
    rw [List.append_nil] at hpayload
    exact ⟨⟨hindexFits, htermFits, hcontentsFit⟩, hpayload⟩
  · rintro ⟨hfits, rfl⟩
    refine bind_ok (readU64_eq_ok.mpr ⟨hfits.lastIncludedIndex, rfl⟩) ?_
    refine bind_ok (readU64_eq_ok.mpr ⟨hfits.lastIncludedTerm, rfl⟩) ?_
    refine bind_ok (readBytes_eq_ok.mpr ⟨hfits.payload, (List.append_nil _).symm⟩) ?_
    exact refuse_ok (not_not.mpr rfl) rfl

/-! ## The storage -/

/-- The contents of `hard-state.bin`, `raft-log.bin` and `snapshot.bin`, as far as they exist. -/
structure RaftStorage where
  hardState : Option Bytes := none
  log : Option Bytes := none
  snapshot : Option Bytes := none
  deriving DecidableEq

namespace RaftStorage

/-- A file that exists is unwrapped and decoded. -/
def loadFile {α : Type} (magic : Bytes) (decode : Bytes → Except Error α) (default : α) :
    Option Bytes → Except Error α
  | none => .ok default
  | some encoded => do
    let payload ← unwrapPayload magic encoded
    decode payload

def load (storage : RaftStorage) : Except Error PersistentState := do
  let hardState ← loadFile kHardMagic decodeHardState {} storage.hardState
  let log ← loadFile kLogMagic decodeLog [] storage.log
  let snapshot ← loadFile kSnapshotMagic (fun payload => some <$> decodeSnapshot payload) none
    storage.snapshot
  return ⟨hardState, log, snapshot⟩

def saveHardState (state : HardState) : Program RaftStorage Error Unit := do
  let payload ← Program.check (encodeHardState state)
  Program.update fun storage => { storage with hardState := some (wrapPayload kHardMagic payload) }

def replaceLog (entries : List LogEntry) : Program RaftStorage Error Unit := do
  let payload ← Program.check (encodeLog entries)
  Program.update fun storage => { storage with log := some (wrapPayload kLogMagic payload) }

def saveSnapshot (snapshot : Snapshot) : Program RaftStorage Error Unit := do
  Program.check (refuse (snapshot.lastIncludedIndex = 0)
    (.invalidArgument "snapshot index must be greater than zero"))
  let payload ← Program.check (encodeSnapshot snapshot)
  Program.update fun storage =>
    { storage with snapshot := some (wrapPayload kSnapshotMagic payload) }

/-- One of the three calls that write. -/
inductive Save where
  | hardState (state : HardState)
  | log (entries : List LogEntry)
  | snapshot (snapshot : Snapshot)

def Save.perform : Save → Program RaftStorage Error Unit
  | .hardState saved => saveHardState saved
  | .log saved => replaceLog saved
  | .snapshot saved => saveSnapshot saved

/-- What is on disk then. -/
def Save.apply (state : PersistentState) : Save → PersistentState
  | .hardState saved => { state with hardState := saved }
  | .log saved => { state with log := saved }
  | .snapshot saved => { state with snapshot := some saved }

/-- The numbers have 64 bits, the strings fewer than 2^32 bytes, the indices of a log are consecutive, and
the index of a snapshot is not zero. -/
def Save.Fits : Save → Prop
  | .hardState saved => HardStateFits saved
  | .log saved => LogFits saved
  | .snapshot saved => SnapshotFits saved ∧ saved.lastIncludedIndex ≠ 0

variable {storage : RaftStorage} {state : PersistentState}

theorem load_eq_ok :
    storage.load = .ok state ↔
      loadFile kHardMagic decodeHardState {} storage.hardState = .ok state.hardState ∧
      loadFile kLogMagic decodeLog [] storage.log = .ok state.log ∧
      loadFile kSnapshotMagic (fun payload => some <$> decodeSnapshot payload) none
        storage.snapshot = .ok state.snapshot := by
  constructor
  · intro h
    obtain ⟨hardState, hhard, h⟩ := bind_eq_ok.mp h
    obtain ⟨log, hlog, h⟩ := bind_eq_ok.mp h
    obtain ⟨snapshot, hsnapshot, h⟩ := bind_eq_ok.mp h
    obtain rfl := Except.ok.inj h
    exact ⟨hhard, hlog, hsnapshot⟩
  · rintro ⟨hhard, hlog, hsnapshot⟩
    exact bind_ok hhard <| bind_ok hlog <| bind_ok hsnapshot rfl

theorem loadFile_wrap {α : Type} {magic payload : Bytes} (hmagic : magic.length = 4)
    (decode : Bytes → Except Error α) (default : α) :
    loadFile magic decode default (some (wrapPayload magic payload)) = decode payload := by
  show (unwrapPayload magic (wrapPayload magic payload) >>= decode) = decode payload
  rw [(unwrapPayload_eq_ok hmagic).mpr rfl]
  rfl

/-- One write, and what is loaded then. -/
theorem load_perform (h : storage.load = .ok state) {save : Save} (hfits : save.Fits) :
    ∃ storage', save.perform storage = (.ok (), storage') ∧
      storage'.load = .ok (save.apply state) := by
  obtain ⟨hhard, hlog, hsnapshot⟩ := load_eq_ok.mp h
  cases save with
  | hardState hardState =>
    refine ⟨{ storage with hardState := some (wrapPayload kHardMagic (hardStateBytes hardState)) },
      ?_, load_eq_ok.mpr ⟨?_, hlog, hsnapshot⟩⟩
    · show saveHardState hardState storage = _
      unfold saveHardState
      rw [encodeHardState_ok hfits.votedFor]
      rfl
    · rw [loadFile_wrap rfl]
      exact decodeHardState_eq_ok.mpr ⟨hfits, rfl⟩
  | log entries =>
    refine ⟨{ storage with log := some (wrapPayload kLogMagic (logBytes entries)) },
      ?_, load_eq_ok.mpr ⟨hhard, ?_, hsnapshot⟩⟩
    · show replaceLog entries storage = _
      unfold replaceLog
      rw [encodeLog_ok fun entry he => (hfits.entries entry he).command]
      rfl
    · rw [loadFile_wrap rfl]
      exact decodeLog_eq_ok.mpr ⟨hfits, rfl⟩
  | snapshot snapshot =>
    refine ⟨{ storage with snapshot := some (wrapPayload kSnapshotMagic (snapshotBytes snapshot)) },
      ?_, load_eq_ok.mpr ⟨hhard, hlog, ?_⟩⟩
    · show saveSnapshot snapshot storage = _
      unfold saveSnapshot
      rw [refuse, if_neg hfits.2, Program.check_ok_bind, encodeSnapshot_ok hfits.1.payload]
      rfl
    · rw [loadFile_wrap rfl, decodeSnapshot_eq_ok.mpr ⟨hfits.1, rfl⟩]
      rfl

def performAll (saves : List Save) : Program RaftStorage Error Unit :=
  Program.forEach Save.perform saves

theorem load_performAll (h : storage.load = .ok state) {saves : List Save}
    (hfits : ∀ save ∈ saves, save.Fits) :
    ∃ storage', performAll saves storage = (.ok (), storage') ∧
      storage'.load = .ok (saves.foldl Save.apply state) := by
  induction saves generalizing storage state with
  | nil => exact ⟨storage, rfl, h⟩
  | cons save rest ih =>
    obtain ⟨hsave, hrest⟩ := List.forall_mem_cons.mp hfits
    obtain ⟨storage₁, hperform, hload⟩ := load_perform h hsave
    obtain ⟨storage₂, hperform₂, hload₂⟩ := ih hload hrest
    refine ⟨storage₂, ?_, hload₂⟩
    unfold performAll Program.forEach
    rw [Program.bind_apply, hperform]
    exact hperform₂

/-- **The storage returns what was saved last**, and a payload that is decoded is the encoding of its
value. -/
theorem storage_round_trip :
    (∀ (storage : RaftStorage) (state : PersistentState) (saves : List Save),
      storage.load = .ok state → (∀ save ∈ saves, save.Fits) →
        ∃ storage', performAll saves storage = (.ok (), storage') ∧
          storage'.load = .ok (saves.foldl Save.apply state)) ∧
    RaftStorage.load {} = .ok {} ∧
    (∀ payload state, decodeHardState payload = .ok state → encodeHardState state = .ok payload) ∧
    (∀ payload entries, decodeLog payload = .ok entries → encodeLog entries = .ok payload) ∧
    ∀ payload snapshot, decodeSnapshot payload = .ok snapshot →
      encodeSnapshot snapshot = .ok payload := by
  refine ⟨fun storage state saves h hfits => load_performAll h hfits, rfl, ?_, ?_, ?_⟩
  · intro payload state h
    obtain ⟨hfits, rfl⟩ := decodeHardState_eq_ok.mp h
    exact encodeHardState_ok hfits.votedFor
  · intro payload entries h
    obtain ⟨hfits, rfl⟩ := decodeLog_eq_ok.mp h
    exact encodeLog_ok fun entry he => (hfits.entries entry he).command
  · intro payload snapshot h
    obtain ⟨hfits, rfl⟩ := decodeSnapshot_eq_ok.mp h
    exact encodeSnapshot_ok hfits.payload

/-- Two logs, one over the other, and a vote between them. -/
theorem storage_round_trip_overwrite :
    ∃ storage, performAll [.log [⟨1, 1, ⟨.Put, [7], [0, 8]⟩⟩], .hardState ⟨2, [110], 1, 1⟩,
        .log [⟨1, 1, {}⟩, ⟨2, 2, {}⟩]] {} = (.ok (), storage) ∧
      storage.load = .ok ⟨⟨2, [110], 1, 1⟩, [⟨1, 1, {}⟩, ⟨2, 2, {}⟩], none⟩ := by
  refine storage_round_trip.1 {} {} _ rfl ?_
  intro save hsave
  fin_cases hsave
  · exact ⟨by decide, fun e he => by fin_cases he; exact ⟨by decide, by decide, by decide, by decide⟩,
      rfl⟩
  · exact ⟨by decide, by decide, by decide, by decide⟩
  · exact ⟨by decide, fun e he => by
      fin_cases he <;> exact ⟨by decide, by decide, by decide, by decide⟩, rfl⟩

end RaftStorage

end NebulaKV.Raft
