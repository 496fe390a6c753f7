/-
# The number of live keys

A manager counts the keys that have a value, and it counts them in three ways. `compute_live_key_count`
merges all tables; `live_count_after_flush` looks up, for every key of a memtable, whether it was live
and whether it is; a compaction keeps the number it finds. All three are the size of ONE thing, the live
part of the merge (`liveCount`), as long as every write has a sequence number of its own and memtables
come newest last. The arithmetic is that of `std::size_t`; there are no more keys than sequence numbers,
so nothing wraps around.
-/
import NebulaKV.Lsm.Level1Ranges
import Mathlib.Data.Set.Card

namespace NebulaKV.Lsm

open Containers Effects Program Versioned

/-! ## The live part of a map -/

/-- The entry has a value. -/
def isLive (entry : Option Entry) : Bool := entry.any fun e => !e.deleted

def liveSize (entries : OrderedMap Bytes Entry) : Nat :=
  entries.entries.countP fun record => !record.2.deleted

/-- **The live keys of some tables**, by their merge. -/
def liveCount (tables : List ManagedTable) : Nat := liveSize (mergeOf tables)

theorem liveSize_insert (entries : OrderedMap Bytes Entry) (key : Bytes) (entry : Entry) :
    liveSize (entries.insert key entry) + (if isLive (entries.find? key) then 1 else 0) =
      liveSize entries + (if isLive (some entry) then 1 else 0) :=
  countP_insertEntry (fun record : Bytes × Entry => !record.2.deleted) key entry entries.sorted

/-- Two maps with the same live keys. -/
theorem liveSize_congr {m m' : OrderedMap Bytes Entry}
    (h : ∀ key, isLive (m.find? key) = isLive (m'.find? key)) : liveSize m = liveSize m' := by
  have hmem : ∀ (m : OrderedMap Bytes Entry) key,
      key ∈ (m.entries.filter fun record => !record.2.deleted).map Prod.fst ↔
        isLive (m.find? key) = true := by
    intro m key
    unfold isLive
    rw [Option.any_eq_true, List.mem_map]
    constructor
    · rintro ⟨⟨k, entry⟩, hrecord, rfl⟩
      obtain ⟨hrecord, hlive⟩ := List.mem_filter.mp hrecord
      exact ⟨entry, OrderedMap.find?_eq_some_iff.mpr hrecord, hlive⟩
    · rintro ⟨entry, hfind, hlive⟩
      exact ⟨(key, entry), List.mem_filter.mpr ⟨OrderedMap.find?_eq_some_iff.mp hfind, hlive⟩, rfl⟩
  have hsorted : ∀ m : OrderedMap Bytes Entry,
      ((m.entries.filter fun record => !record.2.deleted).map Prod.fst).Pairwise (· < ·) :=
    fun m => List.pairwise_map.mpr (m.sorted.filter _)
  -- two strictly increasing lists of the same keys
  have hsame := (hsorted m).eq_of_mem_iff (hsorted m') fun key => by rw [hmem, hmem, h]
  have hlength := congrArg List.length hsame
  rwa [List.length_map, List.length_map, ← List.countP_eq_length_filter,
    ← List.countP_eq_length_filter] at hlength

theorem isLive_newestEntry (tables : List ManagedTable) (key : Bytes) :
    isLive (newestEntry tables key) = (shown tables key).isSome := by
  rw [shown_eq]
  cases newestEntry tables key with
  | none => rfl
  | some entry =>
    unfold isLive Entry.live
    cases hd : entry.deleted <;> simp [hd]

variable {tables tables' : List ManagedTable} {entries : OrderedMap Bytes Entry}

/-- **Tables that show the same have the same live keys.** -/
theorem liveCount_congr (hw : ∀ table ∈ tables, table.reader.WellFormed)
    (hw' : ∀ table ∈ tables', table.reader.WellFormed)
    (h : ∀ key, shown tables key = shown tables' key) : liveCount tables = liveCount tables' := by
  refine liveSize_congr fun key => ?_
  rw [find?_mergeOf hw, find?_mergeOf hw', isLive_newestEntry, isLive_newestEntry, h]

theorem computeLiveKeyCount_yields (hr : Readable tables) :
    Yields (CacheOK tables) (computeLiveKeyCount tables) (liveCount tables) := by
  unfold computeLiveKeyCount liveCount liveSize
  rw [List.countP_eq_length_filter]
  exact (mergeTables_yields hr fun _ ht => ht).bind (Yields.ret _)

theorem version_of_stored (hw : ∀ table ∈ tables, table.reader.WellFormed) {key : Bytes}
    {entry : Entry} (h : Stored tables (key, entry)) : entry ∈ versions (lookups tables) key := by
  obtain ⟨table, ht, hmem⟩ := h
  exact mem_versions.mpr ⟨table, ht, (hw table ht).entryFor_eq_some_iff.mpr hmem⟩

/-- The keys whose entry with the highest sequence number is no tombstone. -/
def liveKeys (tables : List ManagedTable) : Set Bytes :=
  {key | ∃ entry, Stored tables (key, entry) ∧ entry.deleted = false ∧
    ∀ other, Stored tables (key, other) → other.sequenceNumber ≤ entry.sequenceNumber}

/-! ## Sequence numbers -/

/-- Every record has a sequence number of its own. -/
structure Sequenced (tables : List ManagedTable) : Prop where
  bounded : ∀ record, Stored tables record → record.2.sequenceNumber < u64
  unique : ∀ record record', Stored tables record → Stored tables record' →
    record.2.sequenceNumber = record'.2.sequenceNumber → record = record'

/-- Fewer records. -/
theorem Sequenced.of_sub (h : Sequenced tables)
    (hsub : ∀ record, Stored tables' record → Stored tables record) : Sequenced tables' :=
  ⟨fun record hrecord => h.bounded record (hsub record hrecord), fun record record' hrecord hrecord' =>
    h.unique record record' (hsub record hrecord) (hsub record' hrecord')⟩

section Sequenced

variable {tables tables' : List ManagedTable} (hw : ∀ table ∈ tables, table.reader.WellFormed)
include hw

theorem Sequenced.distinct (h : Sequenced tables) : Distinct tables := by
  intro key entry he entry' he' heq
  have hsame := h.unique _ _ (stored_of_version hw he) (stored_of_version hw he') heq
  exact (Prod.mk.inj hsame).2

/-- There are fewer keys than sequence numbers. -/
theorem Sequenced.liveCount_lt (h : Sequenced tables) : liveCount tables < u64 := by
  have hstored : ∀ record ∈ (mergeOf tables).entries, Stored tables record :=
    fun record hrecord => mem_mergeOf hw hrecord
  have hnodup : ((mergeOf tables).entries.map fun record => record.2.sequenceNumber).Nodup := by
    refine List.Nodup.map_on (fun record hrecord record' hrecord' heq =>
      h.unique record record' (hstored record hrecord) (hstored record' hrecord') heq) ?_
    exact (mergeOf tables).sorted.imp fun hlt heq => hlt.ne (congrArg Prod.fst heq)
  have hrange : ((mergeOf tables).entries.map fun record => record.2.sequenceNumber) ⊆
      List.range' 1 (u64 - 1) := by
    intro sequence hsequence
    obtain ⟨record, hrecord, rfl⟩ := List.mem_map.mp hsequence
    obtain ⟨table, ht, hmem⟩ := hstored record hrecord
    have hpos := ((hw table ht).valid record hmem).sequence_pos
    have hlt := h.bounded record ⟨table, ht, hmem⟩
    rw [List.mem_range'_1]
    omega
  have hle := (hnodup.subperm hrange).length_le
  rw [List.length_map, List.length_range'] at hle
  have hcount : liveCount tables ≤ (mergeOf tables).entries.length := List.countP_le_length
  have hpos : 0 < u64 := by decide
  omega

theorem liveCount_eq_ncard (h : Sequenced tables) : liveCount tables = (liveKeys tables).ncard := by
  have hnodup : (((mergeOf tables).entries.filter fun record => !record.2.deleted).map
      Prod.fst).Nodup :=
    List.pairwise_map.mpr (((mergeOf tables).sorted.filter _).imp fun hlt => hlt.ne)
  have hkeys : liveKeys tables = ((((mergeOf tables).entries.filter fun record =>
      !record.2.deleted).map Prod.fst).toFinset : Set Bytes) := by
    ext key
    rw [Finset.mem_coe, List.mem_toFinset, List.mem_map]
    have hnewest : IsNewest Entry.sequenceNumber (versions (lookups tables) key)
      (newestEntry tables key) := newest_isNewest
    constructor
    · -- the newest entry is as new as this one, so it is this one
      rintro ⟨entry, hentry, hlive, hmost⟩
      obtain ⟨best, hbest, hle⟩ := hnewest.2 entry (version_of_stored hw hentry)
      have hstored := stored_of_version hw (hnewest.1 best hbest)
      have hsame := h.unique _ _ hentry hstored (le_antisymm hle (hmost best hstored))
      obtain rfl := (Prod.mk.inj hsame).2
      refine ⟨(key, entry), List.mem_filter.mpr ⟨?_, by simp [hlive]⟩, rfl⟩
      exact OrderedMap.find?_eq_some_iff.mp ((find?_mergeOf hw key).trans hbest)
    · rintro ⟨⟨k, entry⟩, hrecord, rfl⟩
      obtain ⟨hrecord, hlive⟩ := List.mem_filter.mp hrecord
      have hbest : newestEntry tables k = some entry :=
        (find?_mergeOf hw k).symm.trans (OrderedMap.find?_eq_some_iff.mpr hrecord)
      refine ⟨entry, mem_mergeOf hw hrecord, by simpa using hlive, fun other hother => ?_⟩
      obtain ⟨best, hbest', hle⟩ := hnewest.2 other (version_of_stored hw hother)
      obtain rfl := Option.some.inj (hbest.symm.trans hbest')
      exact hle
  rw [hkeys, Set.ncard_coe_finset, List.toFinset_card_of_nodup hnodup, List.length_map,
    ← List.countP_eq_length_filter]
  rfl

end Sequenced

/-! ## A flush -/

/-- One entry that is newer than what the tables have for its key. -/
theorem countRecord_eq {record : Bytes × Entry}
    (hfind : entries.find? record.1 = newestEntry tables record.1)
    (hnewer : ∀ entry, newestEntry tables record.1 = some entry →
      entry.sequenceNumber < record.2.sequenceNumber) :
    countRecord tables (liveSize entries % u64) record =
      liveSize (entries.insert record.1 record.2) % u64 := by
  have hinsert := liveSize_insert entries record.1 record.2
  rw [hfind] at hinsert
  have hold : ((newestEntry tables record.1).any fun entry =>
      decide (entry.sequenceNumber ≥ record.2.sequenceNumber)) = false := by
    cases hnewest : newestEntry tables record.1 with
    | none => rfl
    | some entry =>
      have := hnewer entry hnewest
      simpa using this
  have hpos : 0 < u64 := by decide
  unfold countRecord
  rw [hold, if_neg (by decide)]
  change (if (!isLive (newestEntry tables record.1) && !record.2.deleted) = true then _
    else if (isLive (newestEntry tables record.1) && record.2.deleted) = true then _ else _) = _
  have hnew : isLive (some record.2) = !record.2.deleted := rfl
  rw [hnew] at hinsert
  unfold u64Sub u64 at *
  -- whether the key was live, and whether it is
  cases hwas : isLive (newestEntry tables record.1) <;> cases his : record.2.deleted <;>
    simp only [hwas, his, Bool.not_true, Bool.not_false, Bool.and_true, Bool.and_false,
      Bool.false_eq_true, if_true, if_false] at hinsert ⊢ <;>
    omega

/-- **The count after a flush.** The keys of a memtable are distinct: what was counted for one does not
change what the tables have for the next. -/
theorem foldl_countRecord_eq {incoming : Snapshot} (hs : KeySorted incoming)
    (hfind : ∀ record ∈ incoming, entries.find? record.1 = newestEntry tables record.1)
    (hnewer : ∀ record ∈ incoming, ∀ entry, newestEntry tables record.1 = some entry →
      entry.sequenceNumber < record.2.sequenceNumber) :
    incoming.foldl (countRecord tables) (liveSize entries % u64) =
      liveSize (mergeRecords entries incoming) % u64 := by
  induction incoming generalizing entries with
  | nil => rfl
  | cons record rest ih =>
    have hmerge : mergeRecords entries (record :: rest) =
        mergeRecords (entries.insert record.1 record.2) rest := by
      rw [mergeRecords_cons, hfind record List.mem_cons_self, if_pos]
      cases hnewest : newestEntry tables record.1 with
      | none => rfl
      | some entry => simpa using hnewer record List.mem_cons_self entry hnewest
    rw [List.foldl_cons, hmerge, countRecord_eq (hfind record List.mem_cons_self)
      (hnewer record List.mem_cons_self)]
    refine ih hs.tail (fun other hother => ?_) (List.forall_mem_cons.mp hnewer).2
    rw [OrderedMap.find?_insert, if_neg (hs.lt_of_mem hother).ne',
      hfind other (List.mem_cons_of_mem _ hother)]

variable {readers readers' : List ManagedTable}

/-- The merge after a flush. -/
theorem mergeOf_flushed {flushed : ManagedTable} (hw : ∀ t ∈ readers, t.reader.WellFormed)
    (hflushed : flushed.reader.WellFormed)
    (hnewer : ∀ record, Stored readers record → ∀ record' ∈ flushed.reader.contents,
      record.2.sequenceNumber < record'.2.sequenceNumber) (hdistinct : Distinct readers')
    (hperm : readers'.Perm (flushed :: readers)) :
    mergeOf readers' = mergeRecords (mergeOf readers) flushed.reader.contents := by
  have hw' : ∀ t ∈ readers', t.reader.WellFormed := by
    intro t ht
    rcases List.mem_cons.mp (hperm.mem_iff.mp ht) with rfl | ht
    · exact hflushed
    · exact hw t ht
  refine OrderedMap.ext_find? fun key => ?_
  rw [find?_mergeOf hw', SSTableManager.newestEntry_flushed hw hflushed hnewer hdistinct hperm,
    find?_mergeRecords hflushed.sorted, find?_mergeOf hw]
  cases hown : lookup key flushed.reader.contents with
  | none => cases newestEntry readers key <;> rfl
  | some entry =>
    cases hold : newestEntry readers key with
    | none => rfl
    | some older =>
      have hlt : older.sequenceNumber < entry.sequenceNumber :=
        hnewer _ (stored_of_version hw (mem_of_newest hold)) _
          (hflushed.entryFor_eq_some_iff.mp hown)
      simp [newer, hlt]

/-- A memtable as the write path fills it: valid entries, each with a sequence number of its own. -/
structure Numbered (table : MemTable) : Prop where
  valid : ∀ record ∈ table.snapshot, ValidRecord record
  bounded : ∀ record ∈ table.snapshot, record.2.sequenceNumber < u64
  unique : (table.snapshot.map fun record => record.2.sequenceNumber).Nodup

/-- What is flushed has new sequence numbers. -/
theorem Sequenced.flushed {flushed : ManagedTable} {table : MemTable} (h : Sequenced readers)
    (hnumbered : Numbered table) (hcontents : flushed.reader.contents = table.snapshot)
    (hnewer : ∀ record, Stored readers record → ∀ record' ∈ table.snapshot,
      record.2.sequenceNumber < record'.2.sequenceNumber)
    (hperm : readers'.Perm (flushed :: readers)) : Sequenced readers' := by
  have hstored : ∀ record, Stored readers' record → record ∈ table.snapshot ∨ Stored readers record := by
    rintro record ⟨t, ht, hmem⟩
    rcases List.mem_cons.mp (hperm.mem_iff.mp ht) with rfl | ht
    · exact Or.inl (hcontents ▸ hmem)
    · exact Or.inr ⟨t, ht, hmem⟩
  refine ⟨fun record hrecord => ?_, fun record record' hrecord hrecord' heq => ?_⟩
  · rcases hstored record hrecord with hnew | hold
    · exact hnumbered.bounded record hnew
    · exact h.bounded record hold
  · rcases hstored record hrecord with hnew | hold <;>
      rcases hstored record' hrecord' with hnew' | hold'
    · exact List.inj_on_of_nodup_map hnumbered.unique hnew hnew' heq
    · exact absurd heq (hnewer record' hold' record hnew).ne'
    · exact absurd heq (hnewer record hold record' hnew').ne
    · exact h.unique record record' hold hold' heq

/-- **The count after a flush** is the number of live keys. -/
theorem liveCount_flushed {flushed : ManagedTable} {table : MemTable}
    (hw : ∀ t ∈ readers, t.reader.WellFormed) (hsequenced : Sequenced readers)
    (hholding : SSTableManager.Holding .Level0 table.snapshot flushed) (hnumbered : Numbered table)
    (hnewer : ∀ record, Stored readers record → ∀ record' ∈ table.snapshot,
      record.2.sequenceNumber < record'.2.sequenceNumber)
    (hperm : readers'.Perm (flushed :: readers)) :
    table.snapshot.foldl (countRecord readers) (liveCount readers) = liveCount readers' := by
  have hsequenced' := hsequenced.flushed hnumbered hholding.contents hnewer hperm
  have hw' : ∀ t ∈ readers', t.reader.WellFormed := by
    intro t ht
    rcases List.mem_cons.mp (hperm.mem_iff.mp ht) with rfl | ht
    · exact hholding.wellFormed
    · exact hw t ht
  have hfold : table.snapshot.foldl (countRecord readers) (liveCount readers % u64) =
      liveSize (mergeRecords (mergeOf readers) table.snapshot) % u64 := by
    refine foldl_countRecord_eq table.entries.sorted (fun record _ => find?_mergeOf hw _)
      fun record hrecord entry hentry => ?_
    exact hnewer (record.1, entry) (stored_of_version hw (mem_of_newest hentry)) record hrecord
  have hmerge := mergeOf_flushed hw hholding.wellFormed (by rw [hholding.contents]; exact hnewer)
    (hsequenced'.distinct hw') hperm
  rw [hholding.contents] at hmerge
  rw [Nat.mod_eq_of_lt (hsequenced.liveCount_lt hw), ← hmerge] at hfold
  exact hfold.trans (Nat.mod_eq_of_lt (hsequenced'.liveCount_lt hw'))

end NebulaKV.Lsm
