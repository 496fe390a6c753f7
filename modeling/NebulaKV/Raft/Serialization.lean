/-
# The byte encoding of the Raft layer

`raft/serialization.hpp`. The encoders append to the output; a decoder is the input that is still
unread. Lengths are 32 bits wide, so a string longer than `UINT32_MAX` is refused.
-/
import NebulaKV.Core.CyclicCode
import NebulaKV.Raft.Types

namespace NebulaKV.Raft.Serialization

open Codec

def appendU8 (output : Bytes) (value : UInt8) : Bytes := output ++ [value]

def appendU32 (output : Bytes) (value : Nat) : Bytes := output ++ leBytes 4 value

def appendU64 (output : Bytes) (value : Nat) : Bytes := output ++ leBytes 8 value

def appendBytes (output value : Bytes) : Except Error Bytes :=
  if value.length > uint32Max then .error (.lengthError "encoded string is too large")
  else .ok (appendU32 output value.length ++ value)

/-- What is left of the input. -/
abbrev Decoder := Bytes

/-- `require(count)`, then the next `count` bytes. -/
def Decoder.read (decoder : Decoder) (count : Nat) : Except Error (Bytes × Decoder) :=
  if count > decoder.length then .error (.runtimeError "truncated encoded data")
  else .ok (decoder.take count, decoder.drop count)

def Decoder.readU8 (decoder : Decoder) : Except Error (UInt8 × Decoder) :=
  match decoder with
  | [] => .error (.runtimeError "truncated encoded data")
  | byte :: rest => .ok (byte, rest)

def Decoder.readU32 (decoder : Decoder) : Except Error (Nat × Decoder) := do
  let (bytes, rest) ← decoder.read 4
  return (leValue bytes, rest)

def Decoder.readU64 (decoder : Decoder) : Except Error (Nat × Decoder) := do
  let (bytes, rest) ← decoder.read 8
  return (leValue bytes, rest)

def Decoder.readBytes (decoder : Decoder) : Except Error (Bytes × Decoder) := do
  let (size, rest) ← decoder.readU32
  Decoder.read rest size

/-! ## Commands and entries -/

/-- `static_cast<std::uint8_t>(command.type)`. -/
def typeCode : CommandType → UInt8
  | .Noop => 0
  | .Put => 1
  | .Delete => 2

def typeOf (code : UInt8) : Option CommandType :=
  if code = 0 then some .Noop else if code = 1 then some .Put
  else if code = 2 then some .Delete else none

def encodeCommand (output : Bytes) (command : Command) : Except Error Bytes := do
  let output ← appendBytes (appendU8 output (typeCode command.type)) command.key
  appendBytes output command.value

def decodeCommand (decoder : Decoder) : Except Error (Command × Decoder) := do
  let (code, decoder) ← decoder.readU8
  match typeOf code with
  | none => .error (.runtimeError "invalid Raft command type")
  | some type => do
    let (key, decoder) ← Decoder.readBytes decoder
    let (value, decoder) ← Decoder.readBytes decoder
    return (⟨type, key, value⟩, decoder)

def encodeEntry (output : Bytes) (entry : LogEntry) : Except Error Bytes :=
  encodeCommand (appendU64 (appendU64 output entry.index) entry.term) entry.command

def decodeEntry (decoder : Decoder) : Except Error (LogEntry × Decoder) := do
  let (index, decoder) ← decoder.readU64
  let (term, decoder) ← Decoder.readU64 decoder
  let (command, decoder) ← decodeCommand decoder
  return (⟨index, term, command⟩, decoder)

/-! ## Reading back what was written -/

theorem read_append (bytes rest : Bytes) :
    Decoder.read (bytes ++ rest) bytes.length = .ok (bytes, rest) := by
  unfold Decoder.read
  rw [if_neg (by simp)]
  simp

theorem readU32_append {value : Nat} (h : value ≤ uint32Max) (rest : Bytes) :
    Decoder.readU32 (leBytes 4 value ++ rest) = .ok (value, rest) := by
  have hread := read_append (leBytes 4 value) rest
  rw [length_leBytes] at hread
  have hlt : value < 256 ^ 4 := by
    unfold uint32Max at h
    norm_num
    omega
  simp only [Decoder.readU32, hread, bind, Except.bind, pure, Except.pure,
    leValue_leBytes_of_lt hlt]

theorem readU64_append {value : Nat} (h : value < u64) (rest : Bytes) :
    Decoder.readU64 (leBytes 8 value ++ rest) = .ok (value, rest) := by
  have hread := read_append (leBytes 8 value) rest
  rw [length_leBytes] at hread
  have hlt : value < 256 ^ 8 := by
    unfold u64 at h
    norm_num
    omega
  simp only [Decoder.readU64, hread, bind, Except.bind, pure, Except.pure,
    leValue_leBytes_of_lt hlt]

variable {decoder rest : Decoder} {value output result : Bytes}

theorem readBytes_append (h : value.length ≤ uint32Max) (rest : Bytes) :
    Decoder.readBytes (leBytes 4 value.length ++ (value ++ rest)) = .ok (value, rest) := by
  simp only [Decoder.readBytes, readU32_append h, bind, Except.bind]
  exact read_append value rest

theorem appendBytes_of_le (h : value.length ≤ uint32Max) :
    appendBytes output value = .ok (output ++ leBytes 4 value.length ++ value) := by
  unfold appendBytes
  rw [if_neg (by omega)]
  rfl

theorem appendBytes_of_gt (h : ¬ value.length ≤ uint32Max) :
    appendBytes output value = .error (.lengthError "encoded string is too large") := by
  unfold appendBytes
  rw [if_pos (by omega)]

/-! ## Only what was written is read

Every reader has ONE input for what it returns: the bytes of that value, and the rest. -/

theorem read_eq_ok {count : Nat} {bytes : Bytes} :
    decoder.read count = .ok (bytes, rest) ↔ bytes.length = count ∧ decoder = bytes ++ rest := by
  constructor
  · intro h
    unfold Decoder.read at h
    split_ifs at h with hshort
    obtain ⟨rfl, rfl⟩ := Prod.mk.inj (Except.ok.inj h)
    exact ⟨List.length_take_of_le (not_lt.mp hshort), (List.take_append_drop _ _).symm⟩
  · rintro ⟨rfl, rfl⟩
    exact read_append bytes rest

theorem readU8_eq_ok {byte : UInt8} :
    decoder.readU8 = .ok (byte, rest) ↔ decoder = byte :: rest := by
  cases decoder <;> simp [Decoder.readU8]

/-- The bytes of a number of some width have its value. -/
theorem leValue_read {width : Nat} {bytes : Bytes} (h : decoder.read width = .ok (bytes, rest)) :
    leValue bytes < 256 ^ width ∧ decoder = leBytes width (leValue bytes) ++ rest := by
  obtain ⟨rfl, rfl⟩ := read_eq_ok.mp h
  exact ⟨leValue_lt bytes, by rw [leBytes_leValue]⟩

theorem readU32_eq_ok {value : Nat} :
    decoder.readU32 = .ok (value, rest) ↔ value ≤ uint32Max ∧ decoder = leBytes 4 value ++ rest := by
  constructor
  · intro h
    obtain ⟨⟨bytes, rest'⟩, hread, h⟩ := bind_eq_ok.mp h
    obtain ⟨rfl, rfl⟩ := Prod.mk.inj (Except.ok.inj h)
    obtain ⟨hlt, hdecoder⟩ := leValue_read hread
    exact ⟨Nat.le_of_lt_succ hlt, hdecoder⟩
  · rintro ⟨hle, rfl⟩
    exact readU32_append hle rest

theorem readU64_eq_ok {value : Nat} :
    decoder.readU64 = .ok (value, rest) ↔ value < u64 ∧ decoder = leBytes 8 value ++ rest := by
  constructor
  · intro h
    obtain ⟨⟨bytes, rest'⟩, hread, h⟩ := bind_eq_ok.mp h
    obtain ⟨rfl, rfl⟩ := Prod.mk.inj (Except.ok.inj h)
    exact leValue_read hread
  · rintro ⟨hlt, rfl⟩
    exact readU64_append hlt rest

/-- The bytes of a string: its length, and it. -/
def stringBytes (value : Bytes) : Bytes := leBytes 4 value.length ++ value

theorem readBytes_eq_ok :
    decoder.readBytes = .ok (value, rest) ↔
      value.length ≤ uint32Max ∧ decoder = stringBytes value ++ rest := by
  constructor
  · intro h
    obtain ⟨⟨size, rest'⟩, hsize, hvalue⟩ := bind_eq_ok.mp h
    obtain ⟨hle, hdecoder⟩ := readU32_eq_ok.mp hsize
    obtain ⟨rfl, rfl⟩ := read_eq_ok.mp hvalue
    exact ⟨hle, hdecoder.trans (List.append_assoc _ _ _).symm⟩
  · rintro ⟨hle, rfl⟩
    unfold stringBytes
    rw [List.append_assoc]
    exact readBytes_append hle rest

theorem appendBytes_eq_ok :
    appendBytes output value = .ok result ↔
      value.length ≤ uint32Max ∧ result = output ++ stringBytes value := by
  by_cases h : value.length ≤ uint32Max
  · rw [appendBytes_of_le h, List.append_assoc]
    simp [h, stringBytes, eq_comm]
  · rw [appendBytes_of_gt h]
    simp [h]

theorem typeOf_eq_some {code : UInt8} {type : CommandType} :
    typeOf code = some type ↔ code = typeCode type := by
  unfold typeOf
  cases type <;> split_ifs <;> simp_all [typeCode]

/-- The strings of a command are short enough for their length fields. -/
structure CommandFits (command : Command) : Prop where
  key : command.key.length ≤ uint32Max
  value : command.value.length ≤ uint32Max

def commandBytes (command : Command) : Bytes :=
  typeCode command.type :: (stringBytes command.key ++ stringBytes command.value)

theorem encodeCommand_eq_ok {command : Command} :
    encodeCommand output command = .ok result ↔
      CommandFits command ∧ result = output ++ commandBytes command := by
  unfold encodeCommand appendU8 commandBytes
  constructor
  · intro h
    obtain ⟨middle, hfirst, hsecond⟩ := bind_eq_ok.mp h
    obtain ⟨hkey, rfl⟩ := appendBytes_eq_ok.mp hfirst
    obtain ⟨hvalue, rfl⟩ := appendBytes_eq_ok.mp hsecond
    exact ⟨⟨hkey, hvalue⟩, by simp⟩
  · rintro ⟨hfits, rfl⟩
    exact bind_ok (appendBytes_eq_ok.mpr ⟨hfits.key, rfl⟩) (appendBytes_eq_ok.mpr ⟨hfits.value, by
      simp⟩)

theorem decodeCommand_eq_ok {command : Command} :
    decodeCommand decoder = .ok (command, rest) ↔
      CommandFits command ∧ decoder = commandBytes command ++ rest := by
  constructor
  · intro h
    obtain ⟨⟨code, tail⟩, hcode, hrest⟩ := bind_eq_ok.mp h
    dsimp only at hrest
    cases htype : typeOf code with
    | none => rw [htype] at hrest; cases hrest
    | some type =>
      rw [htype] at hrest
      obtain ⟨⟨key, tail'⟩, hkey, hrest⟩ := bind_eq_ok.mp hrest
      obtain ⟨⟨value, tail''⟩, hvalue, hrest⟩ := bind_eq_ok.mp hrest
      obtain ⟨rfl, rfl⟩ := Prod.mk.inj (Except.ok.inj hrest)
      obtain ⟨hkeyFits, rfl⟩ := readBytes_eq_ok.mp hkey
      obtain ⟨hvalueFits, rfl⟩ := readBytes_eq_ok.mp hvalue
      refine ⟨⟨hkeyFits, hvalueFits⟩, ?_⟩
      rw [readU8_eq_ok.mp hcode, typeOf_eq_some.mp htype]
      simp [commandBytes]
  · rintro ⟨hfits, rfl⟩
    refine bind_ok (readU8_eq_ok.mpr rfl) ?_
    show (match typeOf (typeCode command.type) with | none => _ | some _ => _) = _
    rw [typeOf_eq_some.mpr rfl]
    refine bind_ok (readBytes_eq_ok.mpr ⟨hfits.key, List.append_assoc _ _ _⟩) ?_
    exact bind_ok (readBytes_eq_ok.mpr ⟨hfits.value, rfl⟩) rfl

structure EntryFits (entry : LogEntry) : Prop where
  index : entry.index < u64
  term : entry.term < u64
  command : CommandFits entry.command

def entryBytes (entry : LogEntry) : Bytes :=
  leBytes 8 entry.index ++ (leBytes 8 entry.term ++ commandBytes entry.command)

theorem encodeEntry_eq_ok {entry : LogEntry} :
    encodeEntry output entry = .ok result ↔
      CommandFits entry.command ∧ result = output ++ entryBytes entry := by
  unfold encodeEntry appendU64 entryBytes
  rw [encodeCommand_eq_ok, List.append_assoc, List.append_assoc]

theorem decodeEntry_eq_ok {entry : LogEntry} :
    decodeEntry decoder = .ok (entry, rest) ↔
      EntryFits entry ∧ decoder = entryBytes entry ++ rest := by
  unfold entryBytes
  constructor
  · intro h
    obtain ⟨⟨index, tail⟩, hindex, hrest⟩ := bind_eq_ok.mp h
    obtain ⟨⟨term, tail'⟩, hterm, hrest⟩ := bind_eq_ok.mp hrest
    obtain ⟨⟨command, tail''⟩, hcommand, hrest⟩ := bind_eq_ok.mp hrest
    obtain ⟨rfl, rfl⟩ := Prod.mk.inj (Except.ok.inj hrest)
    obtain ⟨hindexFits, rfl⟩ := readU64_eq_ok.mp hindex
    obtain ⟨htermFits, rfl⟩ := readU64_eq_ok.mp hterm
    obtain ⟨hcommandFits, rfl⟩ := decodeCommand_eq_ok.mp hcommand
    exact ⟨⟨hindexFits, htermFits, hcommandFits⟩, by simp⟩
  · rintro ⟨hfits, rfl⟩
    refine bind_ok (readU64_eq_ok.mpr ⟨hfits.index, List.append_assoc _ _ _⟩) ?_
    refine bind_ok (readU64_eq_ok.mpr ⟨hfits.term, List.append_assoc _ _ _⟩) ?_
    exact bind_ok (decodeCommand_eq_ok.mpr ⟨hfits.command, rfl⟩) rfl

end NebulaKV.Raft.Serialization
