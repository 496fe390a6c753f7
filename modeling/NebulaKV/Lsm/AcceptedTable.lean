/-
# What an accepted SSTable is

The reader takes a file from anyone, not only from the writer. `openBytes` checks the header, the footer,
the order of the index and the places of the blocks; a block is checked when it is read. This module says
what these checks add up to. The order inside a block (`parseRecords_ok`), the order of the index
(`parseIndexEntries_ok`) and the agreement of a block with its index entry make ONE sorted list of the
file, and the places of the blocks (`checkPlaces_ok`) keep two blocks from sharing a cache key.

So an accepted file that can be read as a whole has parts that fit together (`parts_wellFormed`), and
then a lookup is a lookup in the list that `readAll` returns.
-/
import NebulaKV.Lsm.TableBytes

namespace NebulaKV.Lsm

open Containers Effects Program Codec SSTableFormat

/-! ## What the parsers accept -/

namespace SSTableFormat

theorem readUint_lt (bytes : Bytes) (offset size : Nat) : readUint bytes offset size < 256 ^ size := by
  have hlength : (subspan bytes offset size).length ≤ size := by
    rw [subspan, List.length_take]
    exact min_le_left _ _
  exact (leValue_lt _).trans_le (Nat.pow_le_pow_right (by decide) hlength)

variable {fileOffset : Nat} {rest bytes : Bytes}
variable {index : List IndexEntry}

theorem readString_eq_ok {length : Nat} {component : String} {read : Bytes × Bytes}
    (h : readString rest length fileOffset component = .ok read) : read.1.length = length := by
  obtain ⟨hlength, h⟩ := refuse_bind_eq_ok.mp h
  obtain rfl := Except.ok.inj h
  exact List.length_take_of_le (not_lt.mp hlength)

/-- The records of a block are as many as announced, valid and in order, behind the previous key. -/
theorem parseRecords_ok {count cursor : Nat} {previousKey : Bytes} {records : Snapshot}
    (h : parseRecords fileOffset count cursor previousKey rest = .ok records) :
    records.length = count ∧ KeySorted records ∧ (∀ record ∈ records, RecordFits record) ∧
      (previousKey ≠ [] → ∀ record ∈ records, previousKey < record.1) := by
  induction count generalizing cursor previousKey rest records with
  | zero =>
    obtain ⟨-, h⟩ := refuse_bind_eq_ok.mp h
    obtain rfl := Except.ok.inj h
    exact ⟨rfl, List.Pairwise.nil, by simp, by simp⟩
  | succ count ih =>
    obtain ⟨-, h⟩ := refuse_bind_eq_ok.mp h
    obtain ⟨hfields, h⟩ := refuse_bind_eq_ok.mp h
    obtain ⟨htombstone, h⟩ := refuse_bind_eq_ok.mp h
    obtain ⟨⟨key, rest'⟩, hkey, h⟩ := bind_eq_ok.mp h
    obtain ⟨⟨value, rest''⟩, hvalue, h⟩ := bind_eq_ok.mp h
    obtain ⟨horder, h⟩ := refuse_bind_eq_ok.mp h
    obtain ⟨later, hlater, h⟩ := bind_eq_ok.mp h
    obtain rfl := Except.ok.inj h
    have hkeyLength : key.length = (recordFields rest).keySize := readString_eq_ok hkey
    have hvalueLength : value.length = (recordFields rest).valueSize := readString_eq_ok hvalue
    have hne : key ≠ [] := by
      rintro rfl
      exact hfields (Or.inl hkeyLength.symm)
    obtain ⟨hlength, hsorted, hvalid, hbehind⟩ := ih hlater
    push Not at hfields
    refine ⟨by rw [List.length_cons, hlength], List.pairwise_cons.mpr ⟨hbehind hne, hsorted⟩, ?_, ?_⟩
    · rintro record hrecord
      rcases List.mem_cons.mp hrecord with rfl | hrecord
      · refine ⟨⟨⟨hne, ?_⟩, ?_, hfields.2.2.2.1, fun hdeleted => ?_⟩, readUint_lt rest 8 8⟩
        · rw [hkeyLength]
          exact hfields.2.1
        · show value.length ≤ kMaxValueSize
          rw [hvalueLength]
          exact hfields.2.2.1
        · -- a tombstone with a value is refused
          have hflags : (recordFields rest).flags = 1 := by simpa using hdeleted
          by_contra hvalueNe
          refine htombstone ⟨hflags, fun hzero => hvalueNe ?_⟩
          exact List.length_eq_zero_iff.mp (hvalueLength.trans hzero)
      · exact hvalid record hrecord
    · intro hprevious record hrecord
      have hlt : previousKey < key := not_le.mp fun hle => horder ⟨hprevious, hle⟩
      rcases List.mem_cons.mp hrecord with rfl | hrecord
      · exact hlt
      · exact hlt.trans (hbehind hne record hrecord)

theorem parseDataBlock_ok {block : DataBlock} (h : parseDataBlock bytes fileOffset = .ok block) :
    block.records ≠ [] ∧ KeySorted block.records ∧ ∀ record ∈ block.records, RecordFits record := by
  obtain ⟨-, h⟩ := refuse_bind_eq_ok.mp h
  obtain ⟨_, -, h⟩ := bind_eq_ok.mp h
  obtain ⟨-, h⟩ := refuse_bind_eq_ok.mp h
  obtain ⟨hcount, h⟩ := refuse_bind_eq_ok.mp h
  obtain ⟨records, hrecords, h⟩ := bind_eq_ok.mp h
  obtain rfl := Except.ok.inj h
  obtain ⟨hlength, hsorted, hvalid, -⟩ := parseRecords_ok hrecords
  refine ⟨fun hnil => hcount ?_, hsorted, hvalid⟩
  rw [← hlength, show records = [] from hnil]
  rfl

/-- An index entry that the parser lets through. -/
structure EntryAccepted (entry : IndexEntry) : Prop where
  firstKey : ValidKey entry.firstKey
  lastKey : ValidKey entry.lastKey
  ordered : entry.firstKey ≤ entry.lastKey
  size : entry.blockSize ≠ 0

theorem parseIndexEntries_ok {count cursor : Nat} {previousLastKey : Bytes}
    (h : parseIndexEntries fileOffset count cursor previousLastKey rest = .ok index) :
    index.length = count ∧ (∀ entry ∈ index, EntryAccepted entry) ∧
      index.Pairwise (fun a b => a.lastKey < b.firstKey) ∧
      (previousLastKey ≠ [] → ∀ entry ∈ index, previousLastKey < entry.firstKey) := by
  induction count generalizing cursor previousLastKey rest index with
  | zero =>
    obtain ⟨-, h⟩ := refuse_bind_eq_ok.mp h
    obtain rfl := Except.ok.inj h
    exact ⟨rfl, by simp, List.Pairwise.nil, by simp⟩
  | succ count ih =>
    obtain ⟨-, h⟩ := refuse_bind_eq_ok.mp h
    obtain ⟨hfields, h⟩ := refuse_bind_eq_ok.mp h
    obtain ⟨⟨firstKey, rest'⟩, hfirst, h⟩ := bind_eq_ok.mp h
    obtain ⟨⟨lastKey, rest''⟩, hlast, h⟩ := bind_eq_ok.mp h
    obtain ⟨horder, h⟩ := refuse_bind_eq_ok.mp h
    obtain ⟨later, hlater, h⟩ := bind_eq_ok.mp h
    obtain rfl := Except.ok.inj h
    have hfirstLength : firstKey.length = readUint rest 16 4 := readString_eq_ok hfirst
    have hlastLength : lastKey.length = readUint rest 20 4 := readString_eq_ok hlast
    push Not at hfields horder
    obtain ⟨hfirstPos, hfirstMax, hlastPos, hlastMax, hsize⟩ := hfields
    have hfirstNe : firstKey ≠ [] := by
      rintro rfl
      exact hfirstPos hfirstLength.symm
    have hlastNe : lastKey ≠ [] := by
      rintro rfl
      exact hlastPos hlastLength.symm
    obtain ⟨hlength, haccepted, hsorted, hbehind⟩ := ih hlater
    refine ⟨by rw [List.length_cons, hlength], ?_,
      List.pairwise_cons.mpr ⟨hbehind hlastNe, hsorted⟩, ?_⟩
    · intro entry hentry
      rcases List.mem_cons.mp hentry with rfl | hentry
      · exact ⟨⟨hfirstNe, hfirstLength.trans_le hfirstMax⟩, ⟨hlastNe, hlastLength.trans_le hlastMax⟩,
          horder.1, hsize⟩
      · exact haccepted entry hentry
    · intro hprevious entry hentry
      rcases List.mem_cons.mp hentry with rfl | hentry
      · exact horder.2 hprevious
      · exact ((horder.2 hprevious).trans_le horder.1).trans (hbehind hlastNe entry hentry)

theorem parseIndexBlock_ok (h : parseIndexBlock bytes fileOffset = .ok index) :
    (∀ entry ∈ index, EntryAccepted entry) ∧ index.Pairwise fun a b => a.lastKey < b.firstKey := by
  obtain ⟨-, h⟩ := refuse_bind_eq_ok.mp h
  obtain ⟨_, -, h⟩ := bind_eq_ok.mp h
  obtain ⟨-, h⟩ := refuse_bind_eq_ok.mp h
  obtain ⟨-, h⟩ := refuse_bind_eq_ok.mp h
  obtain ⟨-, haccepted, hsorted, -⟩ := parseIndexEntries_ok h
  exact ⟨haccepted, hsorted⟩

theorem parseHeader_ok {header : Header} (h : parseHeader bytes fileOffset = .ok header) :
    HeaderFits header := by
  obtain ⟨_, -, h⟩ := bind_eq_ok.mp h
  obtain ⟨_, -, h⟩ := bind_eq_ok.mp h
  obtain ⟨-, h⟩ := refuse_bind_eq_ok.mp h
  obtain ⟨-, h⟩ := refuse_bind_eq_ok.mp h
  obtain ⟨-, h⟩ := refuse_bind_eq_ok.mp h
  obtain ⟨hsensible, h⟩ := refuse_bind_eq_ok.mp h
  obtain rfl := Except.ok.inj h
  exact ⟨readUint_lt bytes 12 8, readUint_lt bytes 20 8, Nat.le_of_lt_succ (readUint_lt bytes 28 4),
    Nat.le_of_lt_succ (readUint_lt bytes 32 4), readUint_lt bytes 36 8, readUint_lt bytes 44 8,
    hsensible⟩

end SSTableFormat

/-! ## Where the blocks lie -/

/-- The blocks of an index lie in the file in order, none over another, between two offsets. -/
structure BlocksBetween (start finish : Nat) (index : List IndexEntry) : Prop where
  inside : ∀ entry ∈ index, start ≤ entry.blockOffset ∧ entry.blockOffset + entry.blockSize ≤ finish
  apart : index.Pairwise fun a b => a.blockOffset + a.blockSize ≤ b.blockOffset

variable {index : List IndexEntry}

theorem checkPlaces_ok {indexOffset previousEnd finish : Nat}
    (h : SSTableReader.checkPlaces indexOffset previousEnd index = .ok finish) :
    BlocksBetween previousEnd indexOffset index := by
  induction index generalizing previousEnd with
  | nil => exact ⟨by simp, List.Pairwise.nil⟩
  | cons first rest ih =>
    unfold SSTableReader.checkPlaces at h
    split_ifs at h with hbad
    push Not at hbad
    obtain ⟨-, hprevious, hinside, hsize⟩ := hbad
    obtain ⟨hrest, hapart⟩ := ih h
    refine ⟨fun entry hentry => ?_,
      List.pairwise_cons.mpr ⟨fun entry hentry => (hrest entry hentry).1, hapart⟩⟩
    rcases List.mem_cons.mp hentry with rfl | hentry
    · exact ⟨hprevious, by omega⟩
    · have hlater := hrest entry hentry
      exact ⟨by omega, hlater.2⟩

/-- Two blocks at one offset are one block. -/
theorem BlocksBetween.eq_of_offset {start finish : Nat} (h : BlocksBetween start finish index)
    (hsize : ∀ entry ∈ index, entry.blockSize ≠ 0) : (index.map IndexEntry.blockOffset).Nodup := by
  refine List.pairwise_map.mpr (h.apart.imp_of_mem fun {a b} ha _ hab heq => ?_)
  have hpos := hsize a ha
  omega

/-! ## Accepted files -/

namespace SSTableByteReader

/-- What the checks of the constructor leave. -/
structure Accepted (reader : SSTableByteReader) : Prop where
  path : reader.path ≠ []
  header : HeaderFits reader.header
  blockCount : reader.index.length = reader.header.blockCount
  entries : ∀ entry ∈ reader.index, EntryAccepted entry
  sorted : reader.index.Pairwise fun a b => a.lastKey < b.firstKey
  places : BlocksBetween kHeaderSize reader.footer.indexOffset reader.index
  indexPlace : reader.footer.indexOffset + reader.footer.indexSize + kFooterSize ≤ reader.bytes.length

theorem openBytes_accepted {path bytes : Bytes} {filter : Option BloomFilter}
    {reader : SSTableByteReader} (h : openBytes path bytes filter = .ok reader) :
    reader.Accepted ∧ reader.path = path ∧ reader.bytes = bytes ∧ reader.bloomFilter = filter ∧
      ∀ name ≠ [], ∀ other,
        openBytes name bytes other = .ok { reader with path := name, bloomFilter := other } := by
  obtain ⟨hpath, h⟩ := refuse_bind_eq_ok.mp h
  obtain ⟨hlength, h⟩ := refuse_bind_eq_ok.mp h
  obtain ⟨headerBytes, hheaderBytes, h⟩ := bind_eq_ok.mp h
  obtain ⟨header, hheader, h⟩ := bind_eq_ok.mp h
  obtain ⟨footerBytes, hfooterBytes, h⟩ := bind_eq_ok.mp h
  obtain ⟨footer, hfooter, h⟩ := bind_eq_ok.mp h
  obtain ⟨hrange, h⟩ := refuse_bind_eq_ok.mp h
  obtain ⟨hagree, h⟩ := refuse_bind_eq_ok.mp h
  obtain ⟨indexBytes, hindexBytes, h⟩ := bind_eq_ok.mp h
  obtain ⟨index, hindex, h⟩ := bind_eq_ok.mp h
  obtain ⟨hcount, h⟩ := refuse_bind_eq_ok.mp h
  obtain ⟨finish, hplaces, h⟩ := bind_eq_ok.mp h
  obtain ⟨hend, h⟩ := refuse_bind_eq_ok.mp h
  obtain rfl := Except.ok.inj h
  obtain ⟨hentries, hsorted⟩ := parseIndexBlock_ok hindex
  have hblocks : header.blockCount = footer.blockCount := by
    by_contra hne
    exact hagree (Or.inr (Or.inl hne))
  refine ⟨⟨hpath, parseHeader_ok hheader, ?_, hentries, hsorted, checkPlaces_ok hplaces, ?_⟩, rfl,
    rfl, rfl, fun name hname other => ?_⟩
  · exact (not_not.mp hcount).trans hblocks.symm
  · show footer.indexOffset + footer.indexSize + kFooterSize ≤ bytes.length
    omega
  · -- the path and the filter are only stored
    exact refuse_ok hname <| refuse_ok hlength <| bind_ok hheaderBytes <| bind_ok hheader <|
      bind_ok hfooterBytes <| bind_ok hfooter <| refuse_ok hrange <| refuse_ok hagree <|
      bind_ok hindexBytes <| bind_ok hindex <| refuse_ok hcount <| bind_ok hplaces <|
      refuse_ok hend rfl

section Accepted

variable {reader : SSTableByteReader}

theorem Accepted.offsets (h : reader.Accepted) : (reader.index.map IndexEntry.blockOffset).Nodup :=
  h.places.eq_of_offset fun entry hentry => (h.entries entry hentry).size

theorem parseBlock_ok {indexEntry : IndexEntry} {block : DataBlock}
    (h : reader.parseBlock indexEntry = .ok block) :
    block.records ≠ [] ∧ KeySorted block.records ∧ (∀ record ∈ block.records, RecordFits record) ∧
      block.firstKey = indexEntry.firstKey ∧ block.lastKey = indexEntry.lastKey ∧
      indexEntry.blockOffset ≤ offMax := by
  obtain ⟨bytes, hbytes, h⟩ := bind_eq_ok.mp h
  obtain ⟨parsed, hparsed, h⟩ := bind_eq_ok.mp h
  obtain ⟨hagree, h⟩ := refuse_bind_eq_ok.mp h
  obtain rfl := Except.ok.inj h
  obtain ⟨_, hoffset, -⟩ := bind_eq_ok.mp hbytes
  obtain ⟨hne, hsorted, hvalid⟩ := parseDataBlock_ok hparsed
  push Not at hagree
  refine ⟨hne, hsorted, hvalid, hagree.1, hagree.2, ?_⟩
  by_contra hlarge
  unfold SSTableReader.checkOffset at hoffset
  rw [if_pos (not_le.mp hlarge)] at hoffset
  cases hoffset

/-- The key range of the metadata. -/
theorem Accepted.keyRange (h : reader.Accepted) : ValidKey reader.metadata.smallestKey ∧
    ValidKey reader.metadata.largestKey ∧
    reader.metadata.smallestKey ≤ reader.metadata.largestKey := by
  unfold metadata
  cases hindex : reader.index with
  | nil =>
    have hcount := h.blockCount
    rw [hindex] at hcount
    exact absurd (Or.inr (Or.inl hcount.symm)) h.header.sensible
  | cons first rest =>
    have hne : first :: rest ≠ [] := List.cons_ne_nil _ _
    have hsorted := h.sorted
    have hentries := h.entries
    rw [hindex] at hsorted hentries
    have hlast := List.getLast_mem hne
    rw [List.getLast?_eq_some_getLast hne]
    refine ⟨(hentries first List.mem_cons_self).firstKey, (hentries _ hlast).lastKey, ?_⟩
    show first.firstKey ≤ ((first :: rest).getLast hne).lastKey
    have hfirst := (hentries first List.mem_cons_self).ordered
    rcases List.mem_cons.mp hlast with heq | hrest
    · rw [heq]
      exact hfirst
    · exact (hfirst.trans ((List.pairwise_cons.mp hsorted).1 _ hrest).le).trans
        (hentries _ hlast).ordered

/-- Every block of the file can be read. -/
def BlocksReadable (reader : SSTableByteReader) : Prop :=
  ∀ entry ∈ reader.index, ∃ block, reader.parseBlock entry = .ok block

/-- The block of an index entry. -/
def blockOf (reader : SSTableByteReader) (entry : IndexEntry) : DataBlock :=
  match reader.parseBlock entry with
  | .ok block => block
  | .error _ => ⟨[]⟩

theorem BlocksReadable.blockOf_eq (h : reader.BlocksReadable) {entry : IndexEntry}
    (hentry : entry ∈ reader.index) : reader.parseBlock entry = .ok (reader.blockOf entry) := by
  obtain ⟨block, hblock⟩ := h entry hentry
  rw [blockOf, hblock]

/-- The file as its parts. -/
def parts (reader : SSTableByteReader) : SSTableReader :=
  { path := reader.path
    file :=
      { header := reader.header
        blocks := reader.index.map fun entry =>
          ⟨entry.blockOffset, entry.blockSize, reader.blockOf entry⟩
        index := reader.index
        footerOffset := reader.bytes.length - kFooterSize
        footer := reader.footer }
    bloomFilter := reader.bloomFilter }

theorem contents_parts (reader : SSTableByteReader) :
    reader.parts.contents = reader.index.flatMap fun entry => (reader.blockOf entry).records := by
  simp [SSTableReader.contents, parts, List.flatMap_map]

theorem BlocksReadable.index_eq (h : reader.BlocksReadable) :
    reader.index = reader.parts.file.blocks.map SSTableWriter.indexOf := by
  simp only [parts, List.map_map]
  refine (List.map_id _).symm.trans (List.map_congr_left fun entry hentry => ?_)
  obtain ⟨-, -, -, hfirst, hlast, -⟩ := parseBlock_ok (h.blockOf_eq hentry)
  simp [SSTableWriter.indexOf, hfirst, hlast]

/-- The order of the index and the order in the blocks make one sorted list. -/
theorem Accepted.contents_sorted (h : reader.Accepted) (hread : reader.BlocksReadable) :
    KeySorted reader.parts.contents := by
  rw [contents_parts]
  refine List.pairwise_flatMap.mpr ⟨fun entry hentry =>
    (parseBlock_ok (hread.blockOf_eq hentry)).2.1, h.sorted.imp_of_mem ?_⟩
  intro a b ha hb hab x hx y hy
  obtain ⟨-, hsortedA, -, -, hlast, -⟩ := parseBlock_ok (hread.blockOf_eq ha)
  obtain ⟨-, hsortedB, -, hfirst, -, -⟩ := parseBlock_ok (hread.blockOf_eq hb)
  calc x.1 ≤ a.lastKey := hlast ▸ DataBlock.le_lastKey hsortedA hx
    _ < b.firstKey := hab
    _ ≤ y.1 := hfirst ▸ DataBlock.firstKey_le hsortedB hy

theorem BlocksReadable.fits (h : reader.BlocksReadable) :
    ∀ record ∈ reader.parts.contents, RecordFits record := by
  intro record hrecord
  rw [contents_parts] at hrecord
  obtain ⟨entry, hentry, hmem⟩ := List.mem_flatMap.mp hrecord
  exact (parseBlock_ok (h.blockOf_eq hentry)).2.2.1 record hmem

/-- **The parts of an accepted file fit together**, when its blocks can be read and there are as many
records as the header says. -/
theorem Accepted.parts_wellFormed (h : reader.Accepted) (hread : reader.BlocksReadable)
    (hcount : reader.parts.contents.length = reader.header.entryCount)
    (hfilter : SSTableWriter.FilterOf (reader.parts.contents.map Prod.fst) reader.bloomFilter) :
    reader.parts.WellFormed where
  sorted := h.contents_sorted hread
  nonempty := by
    intro hnil
    rw [hnil] at hcount
    exact h.header.sensible (Or.inl hcount.symm)
  valid record hrecord := (hread.fits record hrecord).toValidRecord
  blocks := by
    intro placed hplaced
    obtain ⟨entry, hentry, rfl⟩ := List.mem_map.mp hplaced
    exact (parseBlock_ok (hread.blockOf_eq hentry)).1
  index := hread.index_eq
  offsets := by
    have hoffsets := h.offsets
    simpa [parts, Function.comp_def] using hoffsets
  readable := by
    intro placed hplaced
    obtain ⟨entry, hentry, rfl⟩ := List.mem_map.mp hplaced
    exact (parseBlock_ok (hread.blockOf_eq hentry)).2.2.2.2.2
  count := hcount.symm
  bloom record hrecord := SSTableWriter.FilterOf.denies_eq hfilter hrecord

theorem BlocksReadable.mirrors (h : reader.BlocksReadable) (hw : reader.parts.WellFormed) :
    Mirrors reader reader.parts where
  path := rfl
  header := rfl
  index := rfl
  bloomFilter := rfl
  blocks entry hentry := by
    rw [h.blockOf_eq hentry]
    obtain ⟨-, -, -, hfirst, hlast, -⟩ := parseBlock_ok (h.blockOf_eq hentry)
    have hparsed := parseBlock_eq hw
      (show ⟨entry.blockOffset, entry.blockSize, reader.blockOf entry⟩ ∈ reader.parts.file.blocks
        from List.mem_map_of_mem hentry)
    rw [← hparsed]
    simp [SSTableWriter.indexOf, hfirst, hlast]

theorem BlocksReadable.owns (h : reader.BlocksReadable) (ha : reader.Accepted) :
    Owns reader.OwnBlock reader.parts where
  own := by
    intro placed hplaced _
    obtain ⟨entry, hentry, rfl⟩ := List.mem_map.mp hplaced
    exact ⟨entry, hentry, rfl, h.blockOf_eq hentry⟩
  unique := by
    intro placed hplaced block hblock
    obtain ⟨entry, hentry, rfl⟩ := List.mem_map.mp hplaced
    obtain ⟨other, hother, hoffset, hparse⟩ := hblock rfl
    obtain rfl := List.inj_on_of_nodup_map ha.offsets hother hentry hoffset
    exact Except.ok.inj (hparse.symm.trans (h.blockOf_eq hother))

/-! ## Reading the whole file -/

/-- A hit is the block that would be parsed, and so is what is put. -/
theorem readCached_holds {P : CacheKey → DataBlock → Prop} {key : CacheKey}
    {parse : Except Error DataBlock} (hparse : ∀ block, P key block ↔ parse = .ok block) :
    Holds (fun cache => cache.Sound P) (SSTableReader.readCached key parse)
      (fun block cache => cache.Sound P ∧ parse = .ok block) (fun _ => True) := by
  intro cache hcache
  obtain ⟨hcache', hhit⟩ := BlockCache.Sound.get hcache key
  unfold SSTableReader.readCached
  rw [bind_apply]
  simp only [SSTableReader.cached]
  cases hget : (cache.get key).1 with
  | some block => exact ⟨hcache', (hparse block).mp (hhit block hget)⟩
  | none =>
    refine Outcome.bind (M := fun block after => after = (cache.get key).2 ∧ parse = .ok block)
      (Outcome.check (fun block hblock => ⟨rfl, hblock⟩) fun _ _ => trivial) ?_
    rintro block _ ⟨rfl, hblock⟩
    exact ⟨BlockCache.Sound.put hcache' ((hparse block).mpr hblock), hblock⟩

theorem Accepted.readDataBlock_holds (h : reader.Accepted) {entry : IndexEntry}
    (hentry : entry ∈ reader.index) :
    Holds (fun cache => cache.Sound reader.OwnBlock) (reader.readDataBlock entry)
      (fun block cache => cache.Sound reader.OwnBlock ∧ reader.parseBlock entry = .ok block)
      (fun _ => True) := by
  refine readCached_holds fun block => ⟨fun hown => ?_, fun hblock _ => ⟨entry, hentry, rfl, hblock⟩⟩
  obtain ⟨other, hother, hoffset, hparse⟩ := hown rfl
  obtain rfl := List.inj_on_of_nodup_map h.offsets hother hentry hoffset
  exact hparse

/-- When the whole file is read, every block of it was. The loop is the same for a reader of bytes and for
one of parts; `parse` is what a block is when the cache has none. -/
theorem foldOver_blocks {P : BlockCache → Prop}
    {readBlock : IndexEntry → Program BlockCache Error DataBlock}
    {parse : IndexEntry → Except Error DataBlock} {blockOf : IndexEntry → DataBlock}
    {index : List IndexEntry}
    (hread : ∀ entry ∈ index, Holds P (readBlock entry)
      (fun block cache => P cache ∧ parse entry = .ok block) (fun _ => True))
    (hblocks : ∀ entry ∈ index, ∀ block, parse entry = .ok block → blockOf entry = block)
    (records : Snapshot) :
    Holds P
      (Program.foldOver (fun records indexEntry => do
        let block ← readBlock indexEntry
        return records ++ block.records) records index)
      (fun all cache => P cache ∧ (∀ entry ∈ index, ∃ block, parse entry = .ok block) ∧
        all = records ++ index.flatMap fun entry => (blockOf entry).records)
      (fun _ => True) := by
  induction index generalizing records with
  | nil => exact Holds.ret fun cache hcache => ⟨hcache, by simp, by simp⟩
  | cons entry rest ih =>
    refine Holds.bind (M := fun all cache => P cache ∧
      ∃ block, parse entry = .ok block ∧ all = records ++ block.records) ?_ ?_
    · exact (hread entry List.mem_cons_self).bind fun block =>
        Holds.ret fun cache hblock => ⟨hblock.1, block, hblock.2, rfl⟩
    · intro all cache hall
      obtain ⟨hcache, block, hblock, rfl⟩ := hall
      refine (ih (List.forall_mem_cons.mp hread).2
        (List.forall_mem_cons.mp hblocks).2 _ cache hcache).mono ?_ fun _ h => h
      rintro all cache' ⟨hcache', hrest, rfl⟩
      refine ⟨hcache', ?_, ?_⟩
      · exact List.forall_mem_cons.mpr ⟨⟨block, hblock⟩, hrest⟩
      · rw [List.flatMap_cons, hblocks entry List.mem_cons_self block hblock, List.append_assoc]

theorem Accepted.of_readAll (h : reader.Accepted) {cache cache' : BlockCache} {records : Snapshot}
    (hcache : cache.Sound reader.OwnBlock) (hread : reader.readAll cache = (.ok records, cache')) :
    reader.BlocksReadable ∧ records = reader.parts.contents ∧
      records.length = reader.header.entryCount := by
  have hall : Outcome (fun all _ => reader.BlocksReadable ∧ all = reader.parts.contents ∧
      all.length = reader.header.entryCount) (fun _ => True) (reader.readAll cache) := by
    have hblockOf : ∀ entry ∈ reader.index, ∀ block, reader.parseBlock entry = .ok block →
        reader.blockOf entry = block := by
      intro entry _ block hblock
      unfold blockOf
      rw [hblock]
    unfold readAll
    refine (foldOver_blocks (fun entry hentry => h.readDataBlock_holds hentry) hblockOf [] cache
      hcache).bind ?_
    rintro all after ⟨-, hblocks, hrecords⟩
    rw [List.nil_append, ← contents_parts] at hrecords
    by_cases hcount : all.length ≠ reader.metadata.entryCount
    · rw [if_pos hcount]
      trivial
    · rw [if_neg hcount]
      exact ⟨hblocks, hrecords, not_not.mp hcount⟩
  rw [hread] at hall
  exact hall

end Accepted

/-- **Point lookup agrees with the full scan on every accepted file.** Let the reader accept the bytes and
`readAll` return a list. The list is strictly sorted; the blocks lie between header and index, the index in
front of the footer, and none over another. And the file opens with no Bloom filter or any filter of the
list's keys, and then, through any cache whose blocks of this file are the file's, `get` returns the list's
entry for every valid key. -/
theorem get_eq_scan {path bytes : Bytes} {opening : Option BloomFilter} {reader : SSTableByteReader}
    (hopen : openBytes path bytes opening = .ok reader) {cache cache' : BlockCache}
    {records : Snapshot} (hcache : cache.Sound reader.OwnBlock)
    (hread : reader.readAll cache = (.ok records, cache')) :
    KeySorted records ∧
      BlocksBetween kHeaderSize reader.footer.indexOffset reader.index ∧
      reader.footer.indexOffset + reader.footer.indexSize + kFooterSize ≤ bytes.length ∧
      ∀ filter, SSTableWriter.FilterOf (records.map Prod.fst) filter →
        ∃ filtered, openBytes path bytes filter = .ok filtered ∧
          ∀ key, ValidKey key →
            Yields (fun cache => cache.Sound filtered.OwnBlock) (filtered.get key)
              (lookup key records) := by
  obtain ⟨haccepted, rfl, hbytes, -, hopens⟩ := openBytes_accepted hopen
  have hreopen := hopens reader.path haccepted.path
  obtain ⟨hblocks, hrecords, hcount⟩ := haccepted.of_readAll hcache hread
  refine ⟨?_, haccepted.places, hbytes ▸ haccepted.indexPlace, fun filter hfilter => ?_⟩
  · rw [hrecords]
    exact haccepted.contents_sorted hblocks
  refine ⟨_, hreopen filter, fun key hkey => ?_⟩
  obtain ⟨haccepted', -⟩ := openBytes_accepted (hreopen filter)
  -- the other reader has the same blocks
  have hblocks' : BlocksReadable { reader with bloomFilter := filter } := hblocks
  have hcontents : SSTableReader.contents (parts { reader with bloomFilter := filter }) = records :=
    hrecords.symm
  have hwell := haccepted'.parts_wellFormed hblocks' (by rw [hcontents]; exact hcount)
    (by rw [hcontents]; exact hfilter)
  have hget := (hblocks'.owns haccepted').get_yields hwell hkey
  rw [(hblocks'.mirrors hwell).get_eq]
  unfold SSTableReader.entryFor at hget
  rwa [hcontents] at hget

/-- A file with two blocks. -/
def pairFile : Bytes :=
  match SSTableWriter.writeBytes pairEntries pairOptions with
  | .ok (bytes, _) => bytes
  | .error _ => []

theorem get_eq_scan_pair : ∃ reader cache filtered,
    openBytes [116] pairFile none = .ok reader ∧
      reader.readAll { capacityBytes := 1000 } = (.ok pairEntries, cache) ∧
      openBytes [116] pairFile none = .ok filtered ∧
      Yields (fun cache => cache.Sound filtered.OwnBlock) (filtered.get [2])
        (some { sequenceNumber := 1, value := [], deleted := true }) := by
  have hscan : (openBytes [116] pairFile none).map
      (fun reader => (reader.readAll { capacityBytes := 1000 }).1) = .ok (.ok pairEntries) := by
    decide +kernel
  cases hopen : openBytes [116] pairFile none with
  | error e =>
    rw [hopen] at hscan
    cases hscan
  | ok reader =>
    rw [hopen] at hscan
    have hread : reader.readAll { capacityBytes := 1000 } =
        (.ok pairEntries, (reader.readAll { capacityBytes := 1000 }).2) :=
      Prod.ext (Except.ok.inj hscan) rfl
    obtain ⟨-, -, -, hget⟩ := get_eq_scan hopen
      (BlockCache.sound_clear { capacityBytes := 1000 } _) hread
    obtain ⟨filtered, hfiltered, hlookup⟩ := hget none fun f hf => by cases hf
    exact ⟨reader, _, filtered, rfl, hread, hopen ▸ hfiltered, hlookup [2] (by decide)⟩

end SSTableByteReader

end NebulaKV.Lsm
