/-
# What the writer writes

`SSTableWriter.write` cuts the entries into blocks WITHOUT losing or reordering one
(`flatMap_cutBlocks`) and lays the blocks end to end (`Chained`). So a file it has written, once the
reader has opened it, is well-formed and holds exactly the entries (`written_wellFormed`); and valid
entries that fit into `2^32 - 1` blocks and the platform's file range are not refused (`write_ok`).
-/
import NebulaKV.Lsm.TableContents
import Mathlib.Algebra.Order.BigOperators.Group.List
import Mathlib.Algebra.Order.Ring.Nat

namespace NebulaKV.Lsm

open Containers Effects

namespace SSTableWriter

/-! ## Cutting -/

theorem flatMap_cutBlocks (target size : Nat) (current entries : Snapshot) :
    (cutBlocks target current size entries).flatMap DataBlock.records = current ++ entries := by
  induction entries generalizing current size with
  | nil =>
    unfold cutBlocks
    split_ifs with h
    · simp [h]
    · simp
  | cons record rest ih =>
    unfold cutBlocks
    split_ifs with h
    · rw [List.flatMap_cons, ih]
      simp
    · rw [ih]
      simp

variable {offset last target : Nat} {placed : List PlacedBlock} {block : DataBlock}
  {path previousKey : Bytes} {reader : SSTableReader} {written : SSTableFile × SSTableMetadata}
  {sequences : Nat × Nat} {filter : Option BloomFilter}

theorem cutBlocks_ne_nil {size : Nat} {current entries : Snapshot}
    (h : block ∈ cutBlocks target current size entries) : block.records ≠ [] := by
  induction entries generalizing current size with
  | nil =>
    unfold cutBlocks at h
    split_ifs at h with hc
    · cases h
    · rw [List.mem_singleton.mp h]
      exact hc
  | cons record rest ih =>
    unfold cutBlocks at h
    split_ifs at h with hc
    · rcases List.mem_cons.mp h with rfl | h
      · exact hc.1
      · exact ih h
    · exact ih h

theorem length_cutBlocks_le (target size : Nat) (current entries : Snapshot) :
    (cutBlocks target current size entries).length ≤
      entries.length + if current = [] then 0 else 1 := by
  induction entries generalizing current size with
  | nil =>
    unfold cutBlocks
    split_ifs <;> simp
  | cons record rest ih =>
    unfold cutBlocks
    split_ifs with h hc hc
    · exact absurd hc h.1
    · have := ih (emptyBlockSize + encodedRecordSize record) [record]
      simp only [List.length_cons, List.cons_ne_self, if_false] at this ⊢
      omega
    · have := ih (size + encodedRecordSize record) (current ++ [record])
      simp only [List.length_cons, List.append_eq_nil_iff, List.cons_ne_self, and_false,
        if_false] at this ⊢
      omega
    · have := ih (size + encodedRecordSize record) (current ++ [record])
      simp only [List.length_cons, List.append_eq_nil_iff, List.cons_ne_self, and_false,
        if_false] at this ⊢
      omega

section Blocks

variable {entries : Snapshot} {options : SSTableWriterOptions}

theorem flatMap_blocksOf (entries : Snapshot) (options : SSTableWriterOptions) :
    (blocksOf entries options).flatMap DataBlock.records = entries :=
  flatMap_cutBlocks _ _ [] entries

theorem length_blocksOf_le (entries : Snapshot) (options : SSTableWriterOptions) :
    (blocksOf entries options).length ≤ entries.length := by
  unfold blocksOf
  simpa using length_cutBlocks_le options.targetDataBlockBytes emptyBlockSize [] entries

theorem mem_of_mem_block {block : DataBlock} (hb : block ∈ blocksOf entries options)
    {record : Bytes × Entry} (h : record ∈ block.records) : record ∈ entries := by
  rw [← flatMap_blocksOf entries options]
  exact List.mem_flatMap.mpr ⟨block, hb, h⟩

end Blocks

/-! ## Laying out -/

/-- The blocks lie end to end between two offsets. -/
def Chained : Nat → List PlacedBlock → Nat → Prop
  | offset, [], last => offset = last
  | offset, placed :: rest, last =>
    placed.offset = offset ∧ placed.size = encodedBlockSize placed.block ∧
      Chained (offset + placed.size) rest last

theorem encodedBlockSize_pos (block : DataBlock) : 0 < encodedBlockSize block := by
  unfold encodedBlockSize kPrefixSize
  omega

section

variable (h : Chained offset placed last)
include h

theorem Chained.le : offset ≤ last := by
  induction placed generalizing offset with
  | nil => exact le_of_eq h
  | cons p rest ih =>
    have := ih h.2.2
    omega

theorem Chained.bounds {p : PlacedBlock} (hp : p ∈ placed) :
    offset ≤ p.offset ∧ p.offset < last := by
  induction placed generalizing offset with
  | nil => cases hp
  | cons first rest ih =>
    obtain ⟨hoffset, hsize, hrest⟩ := h
    have hpos := encodedBlockSize_pos first.block
    rcases List.mem_cons.mp hp with rfl | hp
    · have := hrest.le
      omega
    · have := ih hrest hp
      omega

theorem Chained.size_ne_zero {p : PlacedBlock} (hp : p ∈ placed) : p.size ≠ 0 := by
  induction placed generalizing offset with
  | nil => cases hp
  | cons first rest ih =>
    obtain ⟨-, hsize, hrest⟩ := h
    rcases List.mem_cons.mp hp with rfl | hp
    · rw [hsize]
      exact (encodedBlockSize_pos _).ne'
    · exact ih hrest hp

theorem Chained.nodup : (placed.map PlacedBlock.offset).Nodup := by
  induction placed generalizing offset with
  | nil => exact List.nodup_nil
  | cons first rest ih =>
    obtain ⟨hoffset, hsize, hrest⟩ := h
    refine List.nodup_cons.mpr ⟨fun hmem => ?_, ih hrest⟩
    obtain ⟨p, hp, heq⟩ := List.mem_map.mp hmem
    have := (hrest.bounds hp).1
    have := encodedBlockSize_pos first.block
    omega

/-- The reader's loop over the index accepts the layout. -/
theorem Chained.checkPlaces (hheader : kHeaderSize ≤ offset) :
    SSTableReader.checkPlaces last offset (placed.map indexOf) = .ok last := by
  induction placed generalizing offset with
  | nil =>
    rw [show offset = last from h]
    rfl
  | cons first rest ih =>
    obtain ⟨hoffset, hsize, hrest⟩ := h
    have hle := hrest.le
    have hnext := ih hrest (by omega)
    simp only [List.map_cons, SSTableReader.checkPlaces, indexOf]
    rw [if_neg (by omega), hoffset]
    exact hnext

end

theorem placeBlocks_chained {blocks : List DataBlock} {placed : List PlacedBlock × Nat}
    (h : placeBlocks offset blocks = .ok placed) :
    placed.1.map PlacedBlock.block = blocks ∧ Chained offset placed.1 placed.2 := by
  induction blocks generalizing offset placed with
  | nil =>
    obtain rfl := Except.ok.inj h
    exact ⟨rfl, rfl⟩
  | cons block rest ih =>
    obtain ⟨_, -, h⟩ := bind_eq_ok.mp h
    obtain ⟨placed', hrest, h⟩ := bind_eq_ok.mp h
    obtain rfl := Except.ok.inj h
    obtain ⟨hblocks, hchained⟩ := ih hrest
    exact ⟨by simp [hblocks], rfl, rfl, hchained⟩

theorem placeBlocks_ok (blocks : List DataBlock) (h : ∀ block ∈ blocks, checkDataBlock block = .ok ())
    (offset : Nat) : ∃ placed, placeBlocks offset blocks = .ok placed := by
  induction blocks generalizing offset with
  | nil => exact ⟨_, rfl⟩
  | cons block rest ih =>
    obtain ⟨placed, hplaced⟩ := ih (fun b hb => h b (by simp [hb])) (offset + encodedBlockSize block)
    unfold placeBlocks
    rw [h block (by simp), hplaced]
    exact ⟨_, rfl⟩

theorem Chained.last_eq (h : Chained offset placed last) :
    last = offset + ((placed.map PlacedBlock.block).map encodedBlockSize).sum := by
  induction placed generalizing offset with
  | nil => exact h.symm
  | cons first rest ih =>
    obtain ⟨-, hsize, hrest⟩ := h
    rw [ih hrest, hsize, List.map_cons, List.map_cons, List.sum_cons, Nat.add_assoc]

/-! ## What was written -/

variable {entries : Snapshot} {options : SSTableWriterOptions}

/-- The parts of a written file. -/
theorem write_eq_ok (h : write entries options = .ok written) :
    ∃ target sequences placed, checkEntries [] (u64 - 1) 0 entries = .ok sequences ∧
      placeBlocks kHeaderSize (blocksOf entries options) = .ok placed ∧
      written = (layout entries options target sequences placed,
        metadataOf entries options sequences) := by
  obtain ⟨-, h⟩ := refuse_bind_eq_ok.mp h
  obtain ⟨-, h⟩ := refuse_bind_eq_ok.mp h
  obtain ⟨target, -, h⟩ := bind_eq_ok.mp h
  obtain ⟨sequences, hsequences, h⟩ := bind_eq_ok.mp h
  obtain ⟨-, h⟩ := refuse_bind_eq_ok.mp h
  obtain ⟨placed, hplaced, h⟩ := bind_eq_ok.mp h
  obtain ⟨_, -, h⟩ := bind_eq_ok.mp h
  obtain ⟨-, h⟩ := refuse_bind_eq_ok.mp h
  exact ⟨target, sequences, placed, hsequences, hplaced, (Except.ok.inj h).symm⟩

/-- The layout has the size of its blocks, with the index and the footer. -/
theorem footerOffset_layout (target : Nat) (sequences : Nat × Nat) {placed : List PlacedBlock × Nat}
    (hplaced : placeBlocks kHeaderSize (blocksOf entries options) = .ok placed) :
    (layout entries options target sequences placed).footerOffset + kFooterSize =
      fileSize (blocksOf entries options) := by
  obtain ⟨hblocks, hchained⟩ := placeBlocks_chained hplaced
  have hlast := hchained.last_eq
  rw [hblocks] at hlast
  have hindex : encodedIndexSize (placed.1.map indexOf) = kPrefixSize +
      ((blocksOf entries options).map fun block =>
        kEntryFixedSize + block.firstKey.length + block.lastKey.length).sum + kChecksumSize := by
    rw [← hblocks, encodedIndexSize, List.map_map, List.map_map]
    rfl
  unfold layout fileSize
  dsimp only
  rw [hindex, hlast]

theorem checkEntries_eq_ok {low high : Nat}
    (h : checkEntries previousKey low high entries = .ok sequences) :
    sequences = (entries.foldl (fun acc record => min acc record.2.sequenceNumber) low,
      entries.foldl (fun acc record => max acc record.2.sequenceNumber) high) := by
  induction entries generalizing previousKey low high with
  | nil => exact (Except.ok.inj h).symm
  | cons record rest ih =>
    obtain ⟨key, entry⟩ := record
    unfold checkEntries at h
    split_ifs at h
    exact ih h

/-- What the header of a written file says. -/
theorem write_header (h : write entries options = .ok written) :
    written.1.header.entryCount = entries.length ∧
      written.1.header.blockCount = (blocksOf entries options).length ∧
      written.1.header.minSequenceNumber =
        entries.foldl (fun acc record => min acc record.2.sequenceNumber) (u64 - 1) ∧
      written.1.header.maxSequenceNumber =
        entries.foldl (fun acc record => max acc record.2.sequenceNumber) 0 := by
  obtain ⟨target, sequences, placed, hsequences, -, rfl⟩ := write_eq_ok h
  obtain rfl := checkEntries_eq_ok hsequences
  exact ⟨rfl, rfl, rfl, rfl⟩

/-- The filter plays no part in opening a file. -/
theorem openFile_filter {file : SSTableFile}
    (h : SSTableReader.openFile path file filter = .ok reader) (other : Option BloomFilter) :
    SSTableReader.openFile path file other = .ok ⟨path, file, other⟩ := by
  obtain ⟨hpath, h⟩ := refuse_bind_eq_ok.mp h
  obtain ⟨hsize, h⟩ := refuse_bind_eq_ok.mp h
  obtain ⟨_, hfooter, h⟩ := bind_eq_ok.mp h
  obtain ⟨hrange, h⟩ := refuse_bind_eq_ok.mp h
  obtain ⟨hagrees, h⟩ := refuse_bind_eq_ok.mp h
  obtain ⟨_, hindex, h⟩ := bind_eq_ok.mp h
  obtain ⟨hcount, h⟩ := refuse_bind_eq_ok.mp h
  obtain ⟨previousEnd, hplaces, h⟩ := bind_eq_ok.mp h
  obtain ⟨hend, -⟩ := refuse_bind_eq_ok.mp h
  exact refuse_ok hpath <| refuse_ok hsize <| bind_ok hfooter <| refuse_ok hrange <|
    refuse_ok hagrees <| bind_ok hindex <| refuse_ok hcount <| bind_ok hplaces <| refuse_ok hend rfl

theorem openFile_eq_ok {file : SSTableFile}
    (h : SSTableReader.openFile path file filter = .ok reader) :
    reader = ⟨path, file, filter⟩ ∧ file.footerOffset ≤ offMax := by
  obtain ⟨-, h⟩ := refuse_bind_eq_ok.mp h
  obtain ⟨-, h⟩ := refuse_bind_eq_ok.mp h
  obtain ⟨_, hoffset, h⟩ := bind_eq_ok.mp h
  obtain ⟨-, h⟩ := refuse_bind_eq_ok.mp h
  obtain ⟨-, h⟩ := refuse_bind_eq_ok.mp h
  obtain ⟨_, -, h⟩ := bind_eq_ok.mp h
  obtain ⟨-, h⟩ := refuse_bind_eq_ok.mp h
  obtain ⟨_, -, h⟩ := bind_eq_ok.mp h
  obtain ⟨-, h⟩ := refuse_bind_eq_ok.mp h
  refine ⟨(Except.ok.inj h).symm, ?_⟩
  unfold SSTableReader.checkOffset at hoffset
  split_ifs at hoffset with hlarge
  exact not_lt.mp hlarge

/-- No filter, or one of the keys. -/
def FilterOf (keys : List Bytes) (filter : Option BloomFilter) : Prop :=
  ∀ f, filter = some f → ∃ sizing, BloomFilter.build sizing keys = .ok f

theorem FilterOf.denies_eq {records : Snapshot}
    (h : FilterOf (records.map Prod.fst) reader.bloomFilter) {record : Bytes × Entry}
    (hrecord : record ∈ records) : reader.denies record.1 = false := by
  unfold SSTableReader.denies
  cases hfilter : reader.bloomFilter with
  | none => rfl
  | some f =>
    obtain ⟨sizing, hbuild⟩ := h f hfilter
    simp [BloomFilter.build_mayContain hbuild (List.mem_map_of_mem hrecord)]

/-- A laid out file is well-formed and holds the entries. -/
theorem layout_wellFormed {placed : List PlacedBlock × Nat} (hne : entries ≠ [])
    (hsorted : KeySorted entries) (hvalid : ∀ record ∈ entries, ValidRecord record)
    (hplaced : placeBlocks kHeaderSize (blocksOf entries options) = .ok placed)
    (hsize : (layout entries options target sequences placed).footerOffset ≤ offMax)
    (hfilter : FilterOf (entries.map Prod.fst) filter) :
    SSTableReader.WellFormed ⟨path, layout entries options target sequences placed, filter⟩ ∧
      SSTableReader.contents ⟨path, layout entries options target sequences placed, filter⟩ =
        entries := by
  obtain ⟨hblocks, hchained⟩ := placeBlocks_chained hplaced
  have hcontents : SSTableReader.contents
      ⟨path, layout entries options target sequences placed, filter⟩ = entries := by
    show placed.1.flatMap (fun p => p.block.records) = entries
    rw [← flatMap_blocksOf entries options, ← hblocks, List.flatMap_map]
  have hmem : ∀ p ∈ placed.1, p.block ∈ blocksOf entries options := fun p hp =>
    hblocks ▸ List.mem_map_of_mem hp
  refine ⟨⟨?_, ?_, ?_, ?_, rfl, hchained.nodup, ?_, ?_, ?_⟩, hcontents⟩
  · rw [hcontents]
    exact hsorted
  · rw [hcontents]
    exact hne
  · rw [hcontents]
    exact hvalid
  · exact fun p hp => cutBlocks_ne_nil (hmem p hp)
  · intro p hp
    have := (hchained.bounds hp).2
    have hfooter : placed.2 ≤ (layout entries options target sequences placed).footerOffset :=
      Nat.le_add_right _ _
    exact this.le.trans (hfooter.trans hsize)
  · rw [hcontents]
    rfl
  · rw [hcontents]
    exact fun record hrec => FilterOf.denies_eq hfilter hrec

/-- **A written table is well-formed and holds what was written.** -/
theorem written_wellFormed {sizing : BloomSizing} {filter : BloomFilter} (hne : entries ≠ [])
    (hsorted : KeySorted entries) (hvalid : ∀ record ∈ entries, ValidRecord record)
    (hwrite : write entries options = .ok written)
    (hfilter : BloomFilter.build sizing (entries.map Prod.fst) = .ok filter)
    (hopen : SSTableReader.openFile path written.1 (some filter) = .ok reader) :
    reader.WellFormed ∧ reader.contents = entries ∧ reader.path = path ∧
      reader.metadata.generation = options.generation := by
  obtain ⟨target, sequences, placed, -, hplaced, rfl⟩ := write_eq_ok hwrite
  obtain ⟨rfl, hsize⟩ := openFile_eq_ok hopen
  obtain ⟨hwell, hcontents⟩ := layout_wellFormed hne hsorted hvalid hplaced hsize
    fun f hf => ⟨sizing, Option.some.inj hf ▸ hfilter⟩
  exact ⟨hwell, hcontents, rfl, rfl⟩

/-! ## Nothing is refused -/

theorem checkEntries_ok (hsorted : KeySorted entries)
    (hvalid : ∀ record ∈ entries, ValidRecord record)
    (hprevious : previousKey = [] ∨ ∀ record ∈ entries, previousKey < record.1)
    (minSequence maxSequence : Nat) :
    ∃ sequences, checkEntries previousKey minSequence maxSequence entries = .ok sequences := by
  induction entries generalizing previousKey minSequence maxSequence with
  | nil => exact ⟨_, rfl⟩
  | cons record rest ih =>
    obtain ⟨key, entry⟩ := record
    unfold checkEntries
    rw [if_neg, if_neg (hvalid (key, entry) (by simp)).sequence_pos]
    · exact ih hsorted.tail (fun r hr => hvalid r (by simp [hr]))
        (Or.inr fun r hr => hsorted.lt_of_mem hr) _ _
    · rintro ⟨hne, hle⟩
      rcases hprevious with hnil | hlt
      · exact hne hnil
      · exact absurd hle (not_le.mpr (hlt (key, entry) (by simp)))

theorem checkRecords_ok {records : Snapshot} (hsorted : KeySorted records)
    (hvalid : ∀ record ∈ records, ValidRecord record)
    (hprevious : previousKey = [] ∨ ∀ record ∈ records, previousKey < record.1) :
    checkRecords previousKey records = .ok () := by
  induction records generalizing previousKey with
  | nil => rfl
  | cons record rest ih =>
    obtain ⟨key, entry⟩ := record
    have hv := hvalid (key, entry) (by simp)
    unfold checkRecords
    rw [if_neg, if_neg]
    · exact ih hsorted.tail (fun r hr => hvalid r (by simp [hr]))
        (Or.inr fun r hr => hsorted.lt_of_mem hr)
    · rintro ⟨hne, hle⟩
      rcases hprevious with hnil | hlt
      · exact hne hnil
      · exact absurd hle (not_le.mpr (hlt (key, entry) (by simp)))
    · rintro (h | h | h | h | ⟨hdead, hvalue⟩)
      · exact hv.key.1 h
      · exact absurd hv.key.2 (not_le.mpr h)
      · exact absurd hv.value (not_le.mpr h)
      · exact hv.sequence_pos h
      · exact hvalue (hv.tombstone hdead)

theorem block_sorted (hsorted : KeySorted entries) (hb : block ∈ blocksOf entries options) :
    KeySorted block.records := by
  obtain ⟨before, after, hsplit⟩ := List.append_of_mem hb
  rw [← flatMap_blocksOf entries options, hsplit, List.flatMap_append,
    List.flatMap_cons] at hsorted
  exact (List.pairwise_append.mp (List.pairwise_append.mp hsorted).2.1).1

/-- A block is within the target, or has one record. -/
theorem cutBlocks_size {size : Nat} {current entries : Snapshot}
    (hsize : size = emptyBlockSize + (current.map encodedRecordSize).sum)
    (hcurrent : size ≤ target ∨ current.length ≤ 1)
    (h : block ∈ cutBlocks target current size entries) :
    encodedBlockSize block ≤ target ∨ block.records.length ≤ 1 := by
  have hone : ∀ size records, size = emptyBlockSize + (List.map encodedRecordSize records).sum →
      encodedBlockSize ⟨records⟩ = size := fun size records h => by
    rw [h]
    unfold encodedBlockSize emptyBlockSize kPrefixSize
    dsimp only
    omega
  induction entries generalizing current size with
  | nil =>
    unfold cutBlocks at h
    split_ifs at h with hc
    · cases h
    · rw [List.mem_singleton.mp h, hone size current hsize]
      exact hcurrent
  | cons record rest ih =>
    unfold cutBlocks at h
    split_ifs at h with hc
    · rcases List.mem_cons.mp h with rfl | h
      · rw [hone size current hsize]
        exact hcurrent
      · exact ih (by simp) (Or.inr le_rfl) h
    · refine ih (by simp [hsize, Nat.add_assoc]) ?_ h
      by_cases hnil : current = []
      · exact Or.inr (by simp [hnil])
      · exact Or.inl (not_lt.mp fun hlt => hc ⟨hnil, hlt⟩)

theorem length_records_le (htarget : options.targetDataBlockBytes ≤ uint32Max)
    (hb : block ∈ blocksOf entries options) : block.records.length ≤ uint32Max := by
  have hempty : ([] : Snapshot).length ≤ 1 := Nat.zero_le 1
  rcases cutBlocks_size rfl (Or.inr hempty) hb with hsize | hone
  · have hlength := List.length_le_sum_of_one_le (block.records.map encodedRecordSize) (by
      intro size hmem
      obtain ⟨record, -, rfl⟩ := List.mem_map.mp hmem
      unfold encodedRecordSize kRecordFixedSize
      omega)
    rw [List.length_map] at hlength
    unfold encodedBlockSize at hsize
    omega
  · exact hone.trans (by decide)

theorem checkDataBlock_ok (hsorted : KeySorted entries)
    (hvalid : ∀ record ∈ entries, ValidRecord record)
    (htarget : options.targetDataBlockBytes ≤ uint32Max) (hb : block ∈ blocksOf entries options) :
    checkDataBlock block = .ok () := by
  unfold checkDataBlock
  rw [if_neg (cutBlocks_ne_nil hb), if_neg (not_lt.mpr (length_records_le htarget hb))]
  exact checkRecords_ok (block_sorted hsorted hb)
    (fun r hr => hvalid r (mem_of_mem_block hb hr)) (Or.inl rfl)

theorem validKey_of_mem_block (hvalid : ∀ record ∈ entries, ValidRecord record)
    (hb : block ∈ blocksOf entries options) : ValidKey block.firstKey ∧ ValidKey block.lastKey := by
  obtain ⟨first, hfirst, hfirstKey⟩ := DataBlock.exists_firstKey (cutBlocks_ne_nil hb)
  obtain ⟨last, hlast, hlastKey⟩ := DataBlock.exists_lastKey (cutBlocks_ne_nil hb)
  exact ⟨hfirstKey ▸ (hvalid first (mem_of_mem_block hb hfirst)).key,
    hlastKey ▸ (hvalid last (mem_of_mem_block hb hlast)).key⟩

theorem checkIndexEntries_ok {previousLastKey : Bytes}
    (hsorted : KeySorted (placed.flatMap fun p => p.block.records))
    (hne : ∀ p ∈ placed, p.block.records ≠ [])
    (hkeys : ∀ p ∈ placed, p.block.firstKey ≠ [] ∧ p.block.lastKey ≠ [])
    (hsize : ∀ p ∈ placed, p.size ≠ 0)
    (hprevious : previousLastKey = [] ∨ ∀ p ∈ placed, previousLastKey < p.block.firstKey) :
    checkIndexEntries previousLastKey (placed.map indexOf) = .ok () := by
  induction placed generalizing previousLastKey with
  | nil => rfl
  | cons first rest ih =>
    obtain ⟨hown, hrest, hcross⟩ := List.pairwise_append.mp hsorted
    obtain ⟨low, hlow, hlowKey⟩ := DataBlock.exists_firstKey (hne first (by simp))
    obtain ⟨high, hhigh, hhighKey⟩ := DataBlock.exists_lastKey (hne first (by simp))
    have hfirst := hkeys first (by simp)
    rw [List.map_cons]
    unfold checkIndexEntries
    rw [if_neg]
    · refine ih hrest (fun p hp => hne p (by simp [hp])) (fun p hp => hkeys p (by simp [hp]))
        (fun p hp => hsize p (by simp [hp])) (Or.inr fun p hp => ?_)
      -- the next block starts behind the last key of this one
      obtain ⟨next, hnext, hnextKey⟩ := DataBlock.exists_firstKey (hne p (by simp [hp]))
      have hlt := hcross high hhigh next (List.mem_flatMap.mpr ⟨p, hp, hnext⟩)
      rw [hhighKey, hnextKey] at hlt
      exact hlt
    · rintro (h | h | h | h | ⟨hprev, hle⟩)
      · exact hfirst.1 h
      · exact hfirst.2 h
      · have hle := DataBlock.le_lastKey hown hlow
        rw [hlowKey] at hle
        exact absurd h (not_lt.mpr hle)
      · exact hsize first (by simp) h
      · rcases hprevious with hnil | hlt
        · exact hprev hnil
        · exact absurd hle (not_le.mpr (hlt first (by simp)))

/-! ## Sizes -/

/-- The bytes of one record, at most. -/
def maxRecordSize : Nat := kRecordFixedSize + kMaxKeySize + kMaxValueSize

theorem sum_encodedBlockSize (blocks : List DataBlock) :
    (blocks.map encodedBlockSize).sum = 16 * blocks.length +
      ((blocks.flatMap DataBlock.records).map encodedRecordSize).sum := by
  induction blocks with
  | nil => rfl
  | cons block rest ih =>
    simp only [List.map_cons, List.sum_cons, List.length_cons, List.flatMap_cons, List.map_append,
      List.sum_append, ih, encodedBlockSize, kPrefixSize, kChecksumSize]
    omega

theorem sum_encodedRecordSize_le (hvalid : ∀ record ∈ entries, ValidRecord record) :
    (entries.map encodedRecordSize).sum ≤ entries.length * maxRecordSize := by
  have h := List.sum_le_card_nsmul (entries.map encodedRecordSize) maxRecordSize (by
    intro size hsize
    obtain ⟨record, hrec, rfl⟩ := List.mem_map.mp hsize
    have hkey := (hvalid record hrec).key.2
    have hvalue : record.2.value.length ≤ kMaxValueSize := (hvalid record hrec).value
    unfold encodedRecordSize maxRecordSize
    omega)
  simpa using h

theorem sum_keys_le (options : SSTableWriterOptions)
    (hvalid : ∀ record ∈ entries, ValidRecord record) :
    ((blocksOf entries options).map fun block =>
      kEntryFixedSize + block.firstKey.length + block.lastKey.length).sum ≤
        (blocksOf entries options).length * 2072 := by
  have h := List.sum_le_card_nsmul ((blocksOf entries options).map fun block =>
    kEntryFixedSize + block.firstKey.length + block.lastKey.length) 2072 (by
    intro size hsize
    obtain ⟨block, hb, rfl⟩ := List.mem_map.mp hsize
    obtain ⟨⟨-, hfirst⟩, -, hlast⟩ := validKey_of_mem_block hvalid hb
    unfold kMaxKeySize at hfirst hlast
    unfold kEntryFixedSize
    omega)
  simpa using h

/-- Up to `2^32 - 1` valid entries fit into a file. -/
theorem fileSize_le (options : SSTableWriterOptions)
    (hvalid : ∀ record ∈ entries, ValidRecord record) (hcount : entries.length ≤ uint32Max) :
    fileSize (blocksOf entries options) ≤ offMax := by
  have hsizes := sum_encodedBlockSize (blocksOf entries options)
  rw [flatMap_blocksOf] at hsizes
  have hrecords := sum_encodedRecordSize_le hvalid
  have hrecordSize : maxRecordSize = 1049620 := rfl
  rw [hrecordSize] at hrecords
  have hkeys := sum_keys_le options hvalid
  have hblocks := length_blocksOf_le entries options
  unfold uint32Max at hcount
  unfold fileSize kHeaderSize kPrefixSize kChecksumSize kFooterSize offMax
  omega

/-- **Valid entries in not too many blocks are written**, if the file may have their size. -/
theorem write_parts (options : SSTableWriterOptions) (hne : entries ≠ [])
    (hsorted : KeySorted entries) (hvalid : ∀ record ∈ entries, ValidRecord record)
    (hfew : (blocksOf entries options).length ≤ uint32Max) (hpath : options.outputPath ≠ [])
    (htarget : ¬ (options.targetDataBlockBytes = 0 ∨ options.targetDataBlockBytes > uint32Max)) :
    ∃ sequences placed, checkEntries [] (u64 - 1) 0 entries = .ok sequences ∧
      placeBlocks kHeaderSize (blocksOf entries options) = .ok placed ∧
      checkIndexBlock (placed.1.map indexOf) = .ok () ∧
      (fileSize (blocksOf entries options) ≤ offMax →
        write entries options = .ok (layout entries options options.targetDataBlockBytes sequences
          placed, metadataOf entries options sequences)) := by
  obtain ⟨sequences, hsequences⟩ := checkEntries_ok hsorted hvalid
    (Or.inl (rfl : ([] : Bytes) = [])) (u64 - 1) 0
  have htarget' : options.targetDataBlockBytes ≤ uint32Max :=
    not_lt.mp fun hlt => htarget (Or.inr hlt)
  obtain ⟨placed, hplaced⟩ := placeBlocks_ok (blocksOf entries options)
    (fun block hb => checkDataBlock_ok hsorted hvalid htarget' hb) kHeaderSize
  obtain ⟨hblocks, hchained⟩ := placeBlocks_chained hplaced
  have hlength : placed.1.length = (blocksOf entries options).length := by
    rw [← hblocks, List.length_map]
  have hmem : ∀ p ∈ placed.1, p.block ∈ blocksOf entries options := fun p hp =>
    hblocks ▸ List.mem_map_of_mem hp
  have hflat : (placed.1.flatMap fun p => p.block.records) = entries := by
    rw [← flatMap_blocksOf entries options, ← hblocks, List.flatMap_map]
  have hnonempty : placed.1 ≠ [] := by
    intro hnil
    rw [hnil] at hflat
    exact hne hflat.symm
  have hindex : checkIndexBlock (placed.1.map indexOf) = .ok () := by
    unfold checkIndexBlock
    rw [if_neg (by simpa using hnonempty), if_neg (by rw [List.length_map, hlength]; omega)]
    refine checkIndexEntries_ok (hflat ▸ hsorted) (fun p hp => cutBlocks_ne_nil (hmem p hp))
      (fun p hp => ?_) (fun p hp => ?_) (Or.inl rfl)
    · have hkeys := validKey_of_mem_block hvalid (hmem p hp)
      exact ⟨hkeys.1.1, hkeys.2.1⟩
    · exact hchained.size_ne_zero hp
  exact ⟨sequences, placed, hsequences, hplaced, hindex, fun hrange => refuse_bind_eq_ok.mpr
    ⟨hpath, refuse_ok hne <| bind_ok (if_neg htarget) <| bind_ok hsequences <|
      refuse_ok (not_lt.mpr hfew) <| bind_ok hplaced <| bind_ok hindex <|
      refuse_ok (not_lt.mpr hrange) rfl⟩⟩

theorem checkOffset_ok (h : offset ≤ offMax) :
    SSTableReader.checkOffset offset = .ok () := if_neg (not_lt.mpr h)

/-- The reader takes a laid out file that ends within the platform's file range. -/
theorem openFile_layout (hpath : path ≠ []) {placed : List PlacedBlock × Nat}
    (hplaced : placeBlocks kHeaderSize (blocksOf entries options) = .ok placed)
    (hend : (layout entries options target sequences placed).footerOffset ≤ offMax)
    (filter : Option BloomFilter) :
    SSTableReader.openFile path (layout entries options target sequences placed) filter =
      .ok ⟨path, layout entries options target sequences placed, filter⟩ := by
  obtain ⟨hblocks, hchained⟩ := placeBlocks_chained hplaced
  have hlength : placed.1.length = (blocksOf entries options).length := by
    rw [← hblocks, List.length_map]
  have hlast := hchained.le
  -- the checks of the constructor, in their order
  refine refuse_ok hpath <| refuse_ok ?_ <| bind_ok (checkOffset_ok hend) <| refuse_ok ?_ <|
    refuse_ok ?_ <| bind_ok (checkOffset_ok ?_) <| refuse_ok ?_ <|
    bind_ok (hchained.checkPlaces le_rfl) <| refuse_ok ?_ rfl
  · simp only [layout]
    omega
  · rintro (h | h | h)
    · exact absurd hlast (not_le.mpr h)
    · simp only [layout] at h
      omega
    · simp only [layout] at h
      omega
  · rintro (h | h | h | h) <;> exact h rfl
  · simp only [layout] at hend ⊢
    omega
  · simp [layout, hlength]
  · simp [layout]

/-- **What the writer has room for is written and read back without a refusal.** -/
theorem write_ok (options : SSTableWriterOptions) (hne : entries ≠ []) (hsorted : KeySorted entries)
    (hvalid : ∀ record ∈ entries, ValidRecord record)
    (hfew : (blocksOf entries options).length ≤ uint32Max)
    (hrange : fileSize (blocksOf entries options) ≤ offMax) (hpath : options.outputPath ≠ [])
    (htarget : ¬ (options.targetDataBlockBytes = 0 ∨ options.targetDataBlockBytes > uint32Max)) :
    ∃ written, write entries options = .ok written ∧ written.2.path = options.outputPath ∧
      ∀ filter, ∃ reader,
        SSTableReader.openFile options.outputPath written.1 filter = .ok reader := by
  obtain ⟨sequences, placed, -, hplaced, -, hwrite⟩ := write_parts options hne hsorted hvalid hfew
    hpath htarget
  have hend := footerOffset_layout options.targetDataBlockBytes sequences hplaced
  exact ⟨_, hwrite hrange, rfl, fun filter => ⟨_, openFile_layout hpath hplaced (by omega) filter⟩⟩

end SSTableWriter

end NebulaKV.Lsm
