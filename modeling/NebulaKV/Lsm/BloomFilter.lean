/-
# The Bloom filter of an SSTable

`bloom_filter.cpp`: `hash_count` bits for each key, in words of 64 bits. The arithmetic of the hashes
is modulo `2^64`. How many bits and how many hashes a filter gets is computed in floating point from
the false-positive rate: here that computation is a PARAMETER, `BloomSizing`, and everything that
follows it in the constructor is as in the source.

The one thing the store relies on is `build_mayContain`: a filter never denies a key it was given.
-/
import NebulaKV.Core.Validation

namespace NebulaKV.Lsm

abbrev Word := BitVec 64

/-- What the floating-point formulas give for one false-positive rate. -/
structure BloomSizing where
  /-- `ceil(-entries * log(rate) / (log 2)^2)`, or nothing where that is not a positive size. -/
  bits : Nat → Option Nat
  /-- `round(bits / entries * log 2)`. -/
  hashes : Nat → Nat → Nat
  /-- The manager's constructor accepts only rates strictly between zero and one. For a `double`
  there, `-log(rate)` lies between `1.1e-16` and `746`, so up to `2^53` entries get a positive size of
  less than `1556 * 2^53 < 2^64`. -/
  sized : ∀ entries, 0 < entries → entries ≤ 2 ^ 53 → (bits entries).isSome

/-- One bit a key, and one hash. -/
def BloomSizing.oneBit : BloomSizing := ⟨fun n => some n, fun _ _ => 1, fun _ _ _ => rfl⟩

def kBitsPerWord : Nat := 64

def kMaximumHashCount : Nat := 32

def mix64 (value : Word) : Word :=
  let value := (value ^^^ (value >>> 30)) * 0xBF58476D1CE4E5B9#64
  let value := (value ^^^ (value >>> 27)) * 0x94D049BB133111EB#64
  value ^^^ (value >>> 31)

structure BloomFilter where
  words : List Word
  bitCount : Nat
  hashCount : Nat
  deriving DecidableEq

namespace BloomFilter

def checkedBitCount (sizing : BloomSizing) (expectedEntries : Nat) : Except Error Nat :=
  match sizing.bits expectedEntries with
  | none => .error (.lengthError "Bloom filter size exceeds process limits")
  | some bits => .ok (max bits kBitsPerWord)

def checkedHashCount (sizing : BloomSizing) (bitCount expectedEntries : Nat) : Nat :=
  min (max 1 (sizing.hashes bitCount expectedEntries)) kMaximumHashCount

def wordCount (bits : Nat) : Nat := (bits + kBitsPerWord - 1) / kBitsPerWord

def create (sizing : BloomSizing) (expectedEntries : Nat) : Except Error BloomFilter := do
  refuse (expectedEntries = 0)
    (.invalidArgument "Bloom filter expected entry count must be positive")
  let bits ← checkedBitCount sizing expectedEntries
  return ⟨List.replicate (wordCount bits) 0#64, wordCount bits * kBitsPerWord,
    checkedHashCount sizing bits expectedEntries⟩

def primaryHash (key : Bytes) : Word :=
  mix64 (key.foldl (fun hash byte => (hash ^^^ BitVec.ofNat 64 byte.toNat) * 1099511628211#64)
    14695981039346656037#64)

def secondaryHash (key : Bytes) : Word :=
  let hash := key.foldl (fun (hash : Word) byte =>
    hash ^^^ (BitVec.ofNat 64 byte.toNat + 0x9E3779B97F4A7C15#64 + (hash <<< 6) + (hash >>> 2)))
    0x9E3779B97F4A7C15#64
  let hash := mix64 (hash ^^^ 0xD6E8FEB86659FD93#64)
  if hash = 0#64 then 0xA0761D6478BD642F#64 else hash

def bitIndex (filter : BloomFilter) (first second : Word) (hashIndex : Nat) : Nat :=
  (first + BitVec.ofNat 64 hashIndex * second).toNat % filter.bitCount

/-- The bits of a key. -/
def bitsOf (filter : BloomFilter) (key : Bytes) : List Nat :=
  (List.range filter.hashCount).map (filter.bitIndex (primaryHash key) (secondaryHash key))

/-- The word with a single bit set. -/
def mask (bit : Nat) : Word := 1#64 <<< (bit % kBitsPerWord)

def setBit (words : List Word) (bit : Nat) : List Word :=
  words.modify (bit / kBitsPerWord) (· ||| mask bit)

def hasBit (words : List Word) (bit : Nat) : Bool :=
  (words[bit / kBitsPerWord]?).any fun word => word &&& mask bit ≠ 0#64

def add (filter : BloomFilter) (key : Bytes) : BloomFilter :=
  { filter with words := (filter.bitsOf key).foldl setBit filter.words }

def mayContain (filter : BloomFilter) (key : Bytes) : Bool :=
  (filter.bitsOf key).all (hasBit filter.words)

/-- `build_bloom_filter`: a filter for all keys of a table. -/
def build (sizing : BloomSizing) (keys : List Bytes) : Except Error BloomFilter := do
  let filter ← create sizing keys.length
  return keys.foldl add filter

/-! ## No false negatives -/

theorem mask_eq (bit : Nat) : mask bit = BitVec.twoPow 64 (bit % kBitsPerWord) := by
  rw [mask, BitVec.twoPow_eq]

theorem bit_lt (bit : Nat) : bit % kBitsPerWord < 64 := Nat.mod_lt _ (by decide)

theorem and_mask_ne_zero (word : Word) (bit : Nat) :
    word &&& mask bit ≠ 0#64 ↔ word.getLsbD (bit % kBitsPerWord) = true := by
  rw [mask_eq, BitVec.and_twoPow]
  split_ifs with h
  · simp only [h, iff_true]
    intro hzero
    have := congrArg (fun w => w.getLsbD (bit % kBitsPerWord)) hzero
    simp [bit_lt] at this
  · simp [h]

variable {filter : BloomFilter} {bit : Nat} {words : List Word} {key : Bytes} {keys : List Bytes}
  {sizing : BloomSizing}

theorem hasBit_iff :
    hasBit words bit = true ↔
      ∃ word, words[bit / kBitsPerWord]? = some word ∧ word.getLsbD (bit % kBitsPerWord) = true := by
  unfold hasBit
  cases words[bit / kBitsPerWord]? with
  | none => simp
  | some word => simpa using and_mask_ne_zero word bit

@[simp] theorem length_setBit (words : List Word) (bit : Nat) :
    (setBit words bit).length = words.length := by
  simp [setBit]

theorem hasBit_setBit_self (h : bit / kBitsPerWord < words.length) :
    hasBit (setBit words bit) bit = true := by
  rw [hasBit_iff]
  refine ⟨words.get ⟨_, h⟩ ||| mask bit, ?_, ?_⟩
  · simp [setBit, List.getElem?_eq_getElem h]
  · rw [mask_eq, BitVec.getLsbD_or, BitVec.getLsbD_twoPow]
    simp [bit_lt]

theorem hasBit_setBit (other : Nat) (h : hasBit words bit = true) :
    hasBit (setBit words other) bit = true := by
  obtain ⟨word, hword, hbit⟩ := hasBit_iff.mp h
  rw [hasBit_iff]
  unfold setBit
  rw [List.getElem?_modify, hword]
  refine ⟨_, rfl, ?_⟩
  dsimp only
  split_ifs
  · rw [BitVec.getLsbD_or, hbit, Bool.true_or]
  · exact hbit

theorem hasBit_foldl_setBit (bits : List Nat) (h : hasBit words bit = true) :
    hasBit (bits.foldl setBit words) bit = true := by
  induction bits generalizing words with
  | nil => exact h
  | cons other rest ih => exact ih (hasBit_setBit other h)

theorem hasBit_foldl_of_mem {bits : List Nat} (hrange : ∀ b ∈ bits, b / kBitsPerWord < words.length)
    (h : bit ∈ bits) : hasBit (bits.foldl setBit words) bit = true := by
  induction bits generalizing words with
  | nil => cases h
  | cons first rest ih =>
    rcases List.mem_cons.mp h with rfl | h
    · exact hasBit_foldl_setBit rest (hasBit_setBit_self (hrange bit (by simp)))
    · exact ih (fun b hb => by simpa using hrange b (by simp [hb])) h

/-- The words hold all the bits that are counted, and there are some. -/
def Sized (filter : BloomFilter) : Prop :=
  filter.words.length * kBitsPerWord = filter.bitCount ∧ 0 < filter.bitCount

theorem length_foldl_setBit (words : List Word) (bits : List Nat) :
    (bits.foldl setBit words).length = words.length := by
  induction bits generalizing words with
  | nil => rfl
  | cons bit rest ih => rw [List.foldl_cons, ih, length_setBit]

theorem Sized.add (h : filter.Sized) (key : Bytes) : (filter.add key).Sized := by
  refine ⟨?_, h.2⟩
  show (List.foldl setBit filter.words _).length * _ = _
  rw [length_foldl_setBit]
  exact h.1

theorem Sized.bit_in_words (h : filter.Sized) (hbit : bit ∈ filter.bitsOf key) :
    bit / kBitsPerWord < filter.words.length := by
  obtain ⟨index, -, rfl⟩ := List.mem_map.mp hbit
  refine Nat.div_lt_of_lt_mul ?_
  rw [Nat.mul_comm, h.1]
  exact Nat.mod_lt _ h.2

theorem mayContain_add_self (h : filter.Sized) (key : Bytes) :
    (filter.add key).mayContain key = true := by
  refine List.all_eq_true.mpr fun bit hbit => ?_
  exact hasBit_foldl_of_mem (fun b hb => h.bit_in_words hb) hbit

theorem mayContain_add (other : Bytes) (h : filter.mayContain key = true) :
    (filter.add other).mayContain key = true := by
  refine List.all_eq_true.mpr fun bit hbit => ?_
  exact hasBit_foldl_setBit _ (List.all_eq_true.mp h bit hbit)

theorem mayContain_foldl_add (keys : List Bytes) (h : filter.mayContain key = true) :
    (keys.foldl add filter).mayContain key = true := by
  induction keys generalizing filter with
  | nil => exact h
  | cons other rest ih => exact ih (mayContain_add other h)

theorem mayContain_foldl_of_mem (hsized : filter.Sized) (h : key ∈ keys) :
    (keys.foldl add filter).mayContain key = true := by
  induction keys generalizing filter with
  | nil => cases h
  | cons first rest ih =>
    rcases List.mem_cons.mp h with rfl | h
    · exact mayContain_foldl_add rest (mayContain_add_self hsized key)
    · exact ih (hsized.add first) h

theorem le_checkedBitCount {expectedEntries bits : Nat}
    (h : checkedBitCount sizing expectedEntries = .ok bits) : kBitsPerWord ≤ bits := by
  unfold checkedBitCount at h
  cases hs : sizing.bits expectedEntries with
  | none =>
    rw [hs] at h
    cases h
  | some calculated =>
    rw [hs] at h
    obtain rfl := Except.ok.inj h
    exact le_max_right _ _

theorem create_sized {expectedEntries : Nat} (h : create sizing expectedEntries = .ok filter) :
    filter.Sized := by
  obtain ⟨-, h⟩ := refuse_bind_eq_ok.mp h
  obtain ⟨bits, hbits, h⟩ := bind_eq_ok.mp h
  obtain rfl := Except.ok.inj h
  have hpos := le_checkedBitCount hbits
  refine ⟨by simp, ?_⟩
  show 0 < wordCount bits * kBitsPerWord
  unfold wordCount
  unfold kBitsPerWord at hpos ⊢
  omega

/-- **A filter never denies a key it was built from.** -/
theorem build_mayContain (h : build sizing keys = .ok filter) (hkey : key ∈ keys) :
    filter.mayContain key = true := by
  obtain ⟨start, hstart, h⟩ := bind_eq_ok.mp h
  obtain rfl := Except.ok.inj h
  exact mayContain_foldl_of_mem (create_sized hstart) hkey

theorem build_ok (hkeys : keys ≠ []) (hbits : sizing.bits keys.length ≠ none) :
    ∃ filter, build sizing keys = .ok filter := by
  have hpos : keys.length ≠ 0 := fun h => hkeys (List.length_eq_zero_iff.mp h)
  obtain ⟨bits, hbits⟩ := Option.ne_none_iff_exists'.mp hbits
  unfold build create checkedBitCount
  rw [refuse, if_neg hpos, hbits]
  exact ⟨_, rfl⟩

/-! ## The order of the keys -/

theorem setBit_comm (words : List Word) (first second : Nat) :
    setBit (setBit words first) second = setBit (setBit words second) first := by
  apply List.ext_getElem?
  intro i
  simp only [setBit, List.getElem?_modify]
  cases words[i]? with
  | none => rfl
  | some word =>
    simp only [Option.map_eq_map, Option.map_some, Option.some.injEq]
    split_ifs
    · rw [BitVec.or_assoc, BitVec.or_assoc, BitVec.or_comm (mask first)]
    · rfl
    · rfl
    · rfl

theorem foldl_setBit_perm {bits bits' : List Nat} (h : bits.Perm bits') (words : List Word) :
    bits.foldl setBit words = bits'.foldl setBit words :=
  h.foldl_eq' (fun first _ second _ current => setBit_comm current first second) words

theorem add_comm (filter : BloomFilter) (first second : Bytes) :
    (filter.add first).add second = (filter.add second).add first := by
  -- which bits a key has does not depend on the words
  have hwords : ((filter.add first).add second).words = ((filter.add second).add first).words := by
    show (filter.bitsOf second).foldl setBit ((filter.bitsOf first).foldl setBit filter.words) =
      (filter.bitsOf first).foldl setBit ((filter.bitsOf second).foldl setBit filter.words)
    rw [← List.foldl_append, ← List.foldl_append]
    exact foldl_setBit_perm List.perm_append_comm filter.words
  unfold add at hwords ⊢
  exact congrArg (fun words => { filter with words := words }) hwords

theorem foldl_add_perm {keys' : List Bytes} (h : keys.Perm keys') (filter : BloomFilter) :
    keys.foldl add filter = keys'.foldl add filter :=
  h.foldl_eq' (fun first _ second _ current => add_comm current first second) filter

theorem Sized.foldl_add (h : filter.Sized) (keys : List Bytes) :
    (keys.foldl BloomFilter.add filter).Sized := by
  induction keys generalizing filter with
  | nil => exact h
  | cons key rest ih => exact ih (h.add key)

theorem length_foldl_add (filter : BloomFilter) (keys : List Bytes) :
    (keys.foldl add filter).words.length = filter.words.length := by
  induction keys generalizing filter with
  | nil => rfl
  | cons key rest ih =>
    rw [List.foldl_cons, ih]
    exact length_foldl_setBit filter.words _

/-- **The Bloom filter.** However many bits and hashes the constructor has chosen: no key that was added
is denied, no access leaves the words, and the order of the additions does not show. -/
theorem no_false_negatives {filter : BloomFilter} (hpos : 0 < filter.bitCount)
    (hmultiple : kBitsPerWord ∣ filter.bitCount)
    (hwords : filter.words.length = filter.bitCount / kBitsPerWord) (keys : List Bytes) :
    (∀ key ∈ keys, (keys.foldl add filter).mayContain key = true) ∧
      (keys.foldl add filter).words.length = filter.words.length ∧
      (∀ key, ∀ bit ∈ (keys.foldl add filter).bitsOf key,
        bit / kBitsPerWord < (keys.foldl add filter).words.length) ∧
      ∀ keys', keys.Perm keys' →
        (keys'.foldl add filter).words = (keys.foldl add filter).words := by
  have hsized : filter.Sized := by
    refine ⟨?_, hpos⟩
    rw [hwords]
    exact Nat.div_mul_cancel hmultiple
  refine ⟨?_, length_foldl_add filter keys, ?_, ?_⟩
  · intro key hkey
    exact mayContain_foldl_of_mem hsized hkey
  · intro key bit hbit
    exact (hsized.foldl_add keys).bit_in_words hbit
  · intro keys' hperm
    rw [foldl_add_perm hperm]

theorem no_false_negatives_two :
    (([[1], [2, 0]].foldl add ⟨[0#64, 0#64], 128, 7⟩).mayContain [2, 0] = true) ∧
      ([[2, 0], [1]].foldl add ⟨[0#64, 0#64], 128, 7⟩).words =
        ([[1], [2, 0]].foldl add ⟨[0#64, 0#64], 128, 7⟩).words := by
  obtain ⟨hcontains, -, -, horder⟩ :=
    @no_false_negatives ⟨[0#64, 0#64], 128, 7⟩ (by decide) (by decide) rfl [[1], [2, 0]]
  exact ⟨hcontains [2, 0] (by simp), horder _ (List.Perm.swap _ _ _)⟩

end BloomFilter

end NebulaKV.Lsm
