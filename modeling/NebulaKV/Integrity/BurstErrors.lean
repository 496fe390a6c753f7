/-
# Bursts are detected

A burst changes at most four bytes in a row. `ChecksumCalculator` is the cyclic code of a register of 32
bits (`crcBit_eq`), so two byte strings that a burst tells apart never have the same checksum.

In a file the checksum lies behind the bytes it covers, and a burst may reach from these into the
checksum. The register does not care: run over the bytes AND their checksum it always ends at one value,
the residue (`register_sealed`). Two sealed strings have the same register, hence no burst between them.
-/
import NebulaKV.Core.CyclicCode
import NebulaKV.Lsm.ManifestFormat
import NebulaKV.Raft.Storage

namespace NebulaKV.Integrity

open Codec Lsm.ChecksumCalculator

/-- The strings differ in at most four bytes in a row. -/
def Burst (bytes changed : Bytes) : Prop :=
  ∃ before window window' after : Bytes, bytes = before ++ (window ++ after) ∧
    changed = before ++ (window' ++ after) ∧ window.length = window'.length ∧ window.length ≤ 4

variable {changed payload bytes : Bytes}

theorem Burst.drop (h : Burst bytes changed) (count : Nat) :
    Burst (bytes.drop count) (changed.drop count) := by
  obtain ⟨before, window, window', after, rfl, rfl, hlength, hshort⟩ := h
  refine ⟨before.drop count, window.drop (count - before.length),
    window'.drop (count - before.length), after.drop (count - before.length - window.length), ?_, ?_,
    ?_, ?_⟩
  · rw [List.drop_append, List.drop_append]
  · rw [List.drop_append, List.drop_append, hlength]
  · rw [List.length_drop, List.length_drop, hlength]
  · rw [List.length_drop]
    omega

/-! ## The checksum is a cyclic code -/

theorem crcBit_eq (c : BitVec 32) : crcBit c = Crc.shift kPolynomial c := by
  unfold crcBit Crc.shift
  rw [BitVec.and_one_eq_setWidth_ofBool_getLsbD]
  cases c.getLsbD 0
  · show c >>> 1 ^^^ (kPolynomial &&& 0#32) = c >>> 1
    rw [BitVec.and_zero, BitVec.xor_zero]
  · show c >>> 1 ^^^ (kPolynomial &&& BitVec.allOnes 32) = c >>> 1 ^^^ kPolynomial
    rw [BitVec.and_allOnes]

/-- The register behind some bytes. -/
def register (bytes : Bytes) : BitVec 32 := Crc.feedAll kPolynomial 0xFFFFFFFF#32 bytes

theorem crc32_eq (bytes : Bytes) : crc32 bytes = (register bytes ^^^ 0xFFFFFFFF#32).toNat := by
  have hbyte : crcByte = Crc.feed kPolynomial := by
    funext c byte
    unfold crcByte Crc.feed
    rw [funext crcBit_eq]
  unfold crc32 register Crc.feedAll
  rw [hbyte]

theorem kPolynomial_msb : kPolynomial.msb = true := by decide

theorem register_burst (hburst : Burst bytes changed) (h : register bytes = register changed) :
    bytes = changed := by
  obtain ⟨before, window, window', after, rfl, rfl, hlength, hshort⟩ := hburst
  rw [Crc.feedAll_burst kPolynomial_msb hlength (by omega) h]

theorem crc32_inj_register (h : crc32 bytes = crc32 changed) :
    register bytes = register changed := by
  rw [crc32_eq, crc32_eq] at h
  have hxor := BitVec.eq_of_toNat_eq h
  rwa [BitVec.xor_left_inj] at hxor

/-! ## The residue -/

/-- Bytes in front of their checksum. -/
def sealed (payload : Bytes) : Bytes := payload ++ leBytes 4 (crc32 payload)

theorem register_sealed (payload : Bytes) :
    register (sealed payload) = (Crc.shift kPolynomial)^[32] 0xFFFFFFFF#32 := by
  have hstored : BitVec.ofNat 32 (leValue (leBytes 4 (crc32 payload))) =
      register payload ^^^ 0xFFFFFFFF#32 := by
    rw [leValue_leBytes_of_lt (crc32_lt payload), crc32_eq, BitVec.ofNat_toNat, BitVec.setWidth_eq]
  have hfour : 8 * (leBytes 4 (crc32 payload)).length ≤ 32 := by rw [length_leBytes]
  have htail := Crc.feedAll_short (p := kPolynomial) hfour (register payload)
  rw [hstored, length_leBytes, ← BitVec.xor_assoc, BitVec.xor_self, BitVec.zero_xor] at htail
  rw [← htail]
  unfold register sealed Crc.feedAll
  rw [List.foldl_append]

theorem sealed_burst {payload' : Bytes} (h : Burst (sealed payload) (sealed payload')) :
    sealed payload = sealed payload' :=
  register_burst h (by rw [register_sealed, register_sealed])

/-! ## The files -/

theorem exists_error {α : Type} {result : Except Error α} (h : ∀ a, result ≠ .ok a) :
    ∃ error, result = .error error := by
  cases result with
  | ok a => exact absurd rfl (h a)
  | error e => exact ⟨e, rfl⟩

theorem wrapPayload_drop {magic : Bytes} (hmagic : magic.length = 4) :
    (Raft.wrapPayload magic payload).drop 8 = sealed payload := by
  have hfront : (magic ++ leBytes 4 Raft.kStorageVersion).length = 8 := by
    rw [List.length_append, hmagic, length_leBytes]
  rw [Raft.wrapPayload_eq, ← List.append_assoc, ← hfront, List.drop_left]
  rfl

/-- A change in front is refused with the magic value or the version, one behind with the checksum. -/
theorem unwrapPayload_burst {magic : Bytes} (hmagic : magic.length = 4)
    (hburst : Burst (Raft.wrapPayload magic payload) changed)
    (hchanged : changed ≠ Raft.wrapPayload magic payload) :
    ∃ error, Raft.unwrapPayload magic changed = .error error := by
  refine exists_error fun payload' hok => hchanged ?_
  obtain rfl := (Raft.unwrapPayload_eq_ok hmagic).mp hok
  have hdrop := hburst.drop 8
  rw [wrapPayload_drop hmagic, wrapPayload_drop hmagic] at hdrop
  -- the two have the same front, so their sealed parts make them equal
  have hsame := sealed_burst hdrop
  rw [Raft.wrapPayload_eq, Raft.wrapPayload_eq]
  show magic ++ (leBytes 4 Raft.kStorageVersion ++ sealed payload') =
    magic ++ (leBytes 4 Raft.kStorageVersion ++ sealed payload)
  rw [hsame]

theorem verifiedPayload_burst (hburst : Burst (Lsm.ManifestFormat.appendChecksum payload) changed)
    (hchanged : changed ≠ Lsm.ManifestFormat.appendChecksum payload) :
    ∃ error, Lsm.ManifestFormat.verifiedPayload changed = .error error := by
  refine exists_error fun payload' hok => hchanged ?_
  obtain rfl := Lsm.ManifestFormat.verifiedPayload_eq_ok.mp hok
  exact (sealed_burst hburst).symm

/-- **Every burst is detected.** The checksums of two strings that a burst tells apart differ. A burst in a
file of the Raft storage, or in a metadata file of the tables, makes reading it throw, wherever it lies. -/
theorem bursts_detected :
    (∀ bytes changed, Burst bytes changed → bytes ≠ changed → crc32 bytes ≠ crc32 changed) ∧
    (∀ magic ∈ [Raft.kHardMagic, Raft.kLogMagic, Raft.kSnapshotMagic], ∀ payload changed,
      Burst (Raft.wrapPayload magic payload) changed → changed ≠ Raft.wrapPayload magic payload →
        ∃ error, Raft.unwrapPayload magic changed = .error error) ∧
    (∀ payload changed, Burst (Lsm.ManifestFormat.appendChecksum payload) changed →
      changed ≠ Lsm.ManifestFormat.appendChecksum payload →
        ∃ error, Lsm.ManifestFormat.verifiedPayload changed = .error error) := by
  refine ⟨fun bytes changed hburst hne hsame => hne (register_burst hburst (crc32_inj_register hsame)),
    fun magic hmagic payload changed => unwrapPayload_burst ?_, fun payload changed =>
    verifiedPayload_burst⟩
  have hlengths : ∀ m ∈ [Raft.kHardMagic, Raft.kLogMagic, Raft.kSnapshotMagic], m.length = 4 := by
    decide
  exact hlengths magic hmagic

/-- A change of the last byte of the payload and the first of the checksum. -/
theorem bursts_detected_boundary : crc32 [1, 2, 3] ≠ crc32 [1, 9, 3] ∧
    (∃ error, Raft.unwrapPayload Raft.kLogMagic
      (Raft.kLogMagic ++ ([1, 0, 0, 0] ++ ([7, 9] ++ [11, 12, 67, 0]))) = .error error) ∧
    ∃ error, Lsm.ManifestFormat.verifiedPayload [7, 9, 11, 12, 67, 0] = .error error := by
  obtain ⟨hchecksum, hraft, hmetadata⟩ := bursts_detected
  refine ⟨hchecksum _ _ ⟨[1], [2], [9], [3], rfl, rfl, rfl, by decide⟩ (by decide),
    hraft Raft.kLogMagic (by decide) [7, 8] _ ?_ (by decide +kernel),
    hmetadata [7, 8] _ ?_ (by decide +kernel)⟩
  · exact ⟨Raft.kLogMagic ++ [1, 0, 0, 0, 7], [8, 10], [9, 11], [12, 67, 0], by decide +kernel,
      by decide +kernel, rfl, by decide⟩
  · exact ⟨[7], [8, 10], [9, 11], [12, 67, 0], by decide +kernel, rfl, rfl, by decide⟩

end NebulaKV.Integrity
