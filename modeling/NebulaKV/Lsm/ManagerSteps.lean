/-
# Flushes and compactions

What the two operations of the manager do to its tables. A flush adds one Level-0 table with newer
entries. A compaction replaces the tables it selected by their merge, without the tombstones that cover
nothing; the manager shows the same values before and after.

The compaction reads its selection, merges, drops tombstones and writes its output without the
manager's lock. So its last step, the publication, is stated for a manager that has got NEWER tables in
the meantime (`publishOutput_outcome`); nothing of them was known when the tombstones were dropped, but
their entries are newer than every tombstone.
-/
import NebulaKV.Lsm.Publish

namespace NebulaKV.Lsm

open Containers Effects Program Versioned

/-! ## Records of tables -/

/-- One of the tables holds the record. -/
def Stored (tables : List ManagedTable) (record : Bytes × Entry) : Prop :=
  ∃ table ∈ tables, record ∈ table.reader.contents

theorem SSTableManager.Fresh.not_stored {options : SSTableManagerOptions} {manager : SSTableManager}
    (h : SSTableManager.Fresh options manager) (record : Bytes × Entry) :
    ¬ Stored manager.readers record := by
  rintro ⟨table, ht, -⟩
  rw [h.readers] at ht
  cases ht

/-- All entries of all tables, counted. -/
def entriesOf (tables : List ManagedTable) : Nat :=
  (tables.map fun table => table.reader.contents.length).sum

/-- What the tables show for a key. -/
def shown (tables : List ManagedTable) (key : Bytes) : Option Bytes :=
  visible Entry.sequenceNumber Entry.live (lookups tables) key

theorem shown_eq (tables : List ManagedTable) (key : Bytes) :
    shown tables key = (newestEntry tables key).bind Entry.live := rfl

/-- Every record of the second list is newer than every record of the first. -/
def Newer (older newer : List ManagedTable) : Prop :=
  ∀ record, Stored older record → ∀ record', Stored newer record' →
    record.2.sequenceNumber < record'.2.sequenceNumber

variable {tables : List ManagedTable}

theorem stored_of_version (hw : ∀ table ∈ tables, table.reader.WellFormed) {key : Bytes}
    {entry : Entry} (h : entry ∈ versions (lookups tables) key) : Stored tables (key, entry) := by
  obtain ⟨table, ht, hentry⟩ := mem_versions.mp h
  exact ⟨table, ht, (hw table ht).entryFor_eq_some_iff.mp hentry⟩

theorem entriesOf_perm {tables' : List ManagedTable} (h : tables.Perm tables') :
    entriesOf tables = entriesOf tables' :=
  (h.map _).sum_eq

@[simp] theorem entriesOf_append (tables tables' : List ManagedTable) :
    entriesOf (tables ++ tables') = entriesOf tables + entriesOf tables' := by
  simp [entriesOf]

@[simp] theorem entriesOf_cons (table : ManagedTable) (tables : List ManagedTable) :
    entriesOf (table :: tables) = table.reader.contents.length + entriesOf tables := by
  simp [entriesOf]

theorem size_mergeRecords_le (merged : OrderedMap Bytes Entry) (records : Snapshot) :
    (mergeRecords merged records).size ≤ merged.size + records.length := by
  induction records generalizing merged with
  | nil => exact le_rfl
  | cons record rest ih =>
    have hstep : ∀ next : OrderedMap Bytes Entry, next.size ≤ merged.size + 1 →
        (mergeRecords next rest).size ≤ merged.size + (record :: rest).length := by
      intro next hnext
      have := ih next
      rw [List.length_cons]
      omega
    have hinsert : (merged.insert record.1 record.2).size ≤ merged.size + 1 := by
      rw [OrderedMap.size_insert]
      split_ifs <;> omega
    rw [mergeRecords_cons]
    apply hstep
    split_ifs
    · exact hinsert
    · exact Nat.le_succ _

theorem length_mergeOf_le (tables : List ManagedTable) :
    (mergeOf tables).entries.length ≤ entriesOf tables := by
  suffices h : ∀ merged : OrderedMap Bytes Entry,
      (tables.foldl (fun merged table => mergeRecords merged table.reader.contents) merged).size ≤
        merged.size + entriesOf tables by
    exact (h OrderedMap.empty).trans (Nat.le_of_eq (Nat.zero_add _))
  induction tables with
  | nil => exact fun merged => le_rfl
  | cons table rest ih =>
    intro merged
    have hrest := ih (mergeRecords merged table.reader.contents)
    have hone := size_mergeRecords_le merged table.reader.contents
    rw [entriesOf_cons, List.foldl_cons]
    omega

namespace SSTableManager

variable {manager : SSTableManager}
variable {s : SSTableManager} {table : MemTable} {records : Snapshot}
variable {outputs tables : List ManagedTable} {selection : CompactionSelection}

/-- The manifest cannot take another publication, or another table. -/
def Crowded (manager : SSTableManager) : Prop :=
  manager.manifest.currentGeneration = u64 - 1 ∨
    kMaximumManifestTables < manager.readers.length + 1

/-- A counter of the manager is used up, or no table holds the records. -/
def Exhausted (manager : SSTableManager) (records : Snapshot) : Prop :=
  manager.nextFileId = u64 - 1 ∨ manager.Oversized records ∨ manager.Crowded

/-! ## Flush -/

/-- The manager after a flush of the records. -/
structure Flushed (manager : SSTableManager) (snapshot : Snapshot) (s : SSTableManager) : Prop where
  good : s.Good
  options : s.options = manager.options
  readers : ∃ table, s.readers.Perm (table :: manager.readers) ∧ table.level = .Level0 ∧
    table.reader.WellFormed ∧ table.reader.contents = snapshot
  nextFileId : s.nextFileId = manager.nextFileId + 1
  generation : s.manifest.currentGeneration = manager.manifest.currentGeneration + 1
  few : s.readers.length ≤ kMaximumManifestTables

/-- The end of `flush` where nothing comes in between: count the live keys, publish. -/
def publishFlush (table : MemTable) (written : Written) :
    Program SSTableManager Error SSTableMetadata := do
  let manager ← Program.read
  let liveCount ← withCache
    (liveCountAfterFlush manager.readers table.snapshot manager.liveKeyCount)
  publishTables (manager.readers ++ [written.table]) liveCount
  return written.metadata

/-- The version is the one that was copied: counting leaves it alone. -/
theorem flushRound_publishes (table : MemTable) (written : Written) :
    (do
      let _ ← flushRound table written
      return written.metadata) = publishFlush table written := by
  funext manager
  obtain ⟨result, cache, hcount⟩ : ∃ result cache,
      withCache (liveCountAfterFlush manager.readers table.snapshot manager.liveKeyCount) manager =
        (result, { manager with blockCache := cache }) := ⟨_, _, rfl⟩
  unfold flushRound publishFlush
  rw [bind_apply, read_bind_apply, read_bind_apply, bind_apply, bind_apply, hcount]
  cases result with
  | error e => rfl
  | ok liveCount =>
    dsimp only
    rw [read_bind_apply, if_neg (not_not.mpr rfl), bind_apply, bind_apply]
    rcases publishTables (manager.readers ++ [written.table]) liveCount
      { manager with blockCache := cache } with ⟨result, s⟩
    cases result <;> rfl

theorem flush_eq (hfrozen : table.immutable = true) (hne : table.snapshot ≠ []) :
    flush table = (do
      let written ← writeTable .Level0 table.generation table.snapshot
      publishFlush table written) := by
  unfold flush
  rw [hfrozen, Bool.not_true, if_neg (by decide), if_neg hne]
  exact congrArg (writeTable .Level0 table.generation table.snapshot >>= ·)
    (funext (flushRound_publishes table))

/-- A table that a flush has written and not published. -/
structure FlushReady (readers : List ManagedTable) (snapshot : Snapshot) (table : ManagedTable) :
    Prop where
  level : table.level = .Level0
  wellFormed : table.reader.WellFormed
  contents : table.reader.contents = snapshot
  generation : table.reader.metadata.generation < u64 - 1
  valid : ∀ record ∈ snapshot, ValidRecord record
  newer : ∀ record, Stored readers record → ∀ record' ∈ snapshot,
    record.2.sequenceNumber < record'.2.sequenceNumber

theorem Published.good (hgood : manager.Good) (hproper : Proper manager.nextFileId tables)
    (h : Published manager tables s) : s.Good where
  proper := by
    rw [h.nextFileId]
    exact hproper.perm h.readers.symm
  cache := by
    rw [h.cache]
    exact BlockCache.sound_clear _ _
  idPos := by rw [h.nextFileId]; exact hgood.idPos
  idLt := by rw [h.nextFileId]; exact hgood.idLt
  target := by rw [h.options]; exact hgood.target
  trigger := by rw [h.options]; exact hgood.trigger
  most := by rw [h.options]; exact hgood.most

/-- The cache may have changed. -/
theorem Kept.cached (h : Kept manager s) {cache : BlockCache} (hcache : CacheOK s.readers cache) :
    Kept manager { s with blockCache := cache } :=
  ⟨h.options, h.readers, h.manifest, hcache, h.idLe, h.idNext, h.idLt⟩

/-- Reading through the cache leaves the manager as good as it was. -/
theorem Good.withCache_bind (h : manager.Good) {α β : Type} {m : Program BlockCache Error α} {a : α}
    (hm : Yields (CacheOK manager.readers) m a) (f : α → Program SSTableManager Error β) :
    ∃ cache, CacheOK manager.readers cache ∧
      (withCache m >>= f) manager = f a { manager with blockCache := cache } :=
  hm.zoom_bind f h.cache

theorem Good.withCache (h : manager.Good) {α : Type} {m : Program BlockCache Error α} {a : α}
    (hm : Yields (CacheOK manager.readers) m a) :
    ∃ cache, CacheOK manager.readers cache ∧
      SSTableManager.withCache m manager = (.ok a, { manager with blockCache := cache }) :=
  hm.zoom h.cache

theorem Good.get (h : manager.Good) {key : Bytes} (hkey : ValidKey key) :
    ∃ cache, CacheOK manager.readers cache ∧
      SSTableManager.get key manager =
        (.ok (newestEntry manager.readers key), { manager with blockCache := cache }) := by
  unfold SSTableManager.get
  rw [validateKey_eq_ok.mpr hkey, check_ok_bind, read_bind_apply]
  exact h.withCache (newestEntryFromTables_yields h.proper.readable (fun _ ht => ht) hkey)

/-- A newer table lies over the others. -/
theorem newestEntry_flushed {readers readers' : List ManagedTable} {flushed : ManagedTable}
    (hw : ∀ t ∈ readers, t.reader.WellFormed) (hflushed : flushed.reader.WellFormed)
    (hnewer : ∀ record, Stored readers record → ∀ record' ∈ flushed.reader.contents,
      record.2.sequenceNumber < record'.2.sequenceNumber)
    (hdistinct : Distinct readers') (hperm : readers'.Perm (flushed :: readers)) (key : Bytes) :
    newestEntry readers' key =
      (lookup key flushed.reader.contents).or (newestEntry readers key) := by
  have hcons : newestEntry (flushed :: readers) key =
      (flushed.reader.entryFor key).or (newestEntry readers key) := by
    refine newest_cons_of_newer fun entry hentry entry' hentry' => ?_
    exact hnewer _ (stored_of_version hw hentry') _ (hflushed.entryFor_eq_some_iff.mp hentry)
  have hmoved : newestEntry (flushed :: readers) key = newestEntry readers' key :=
    newest_perm (hdistinct key) (hperm.symm.map _)
  exact hmoved.symm.trans hcons

theorem FlushReady.proper (h : manager.Good) {snapshot : Snapshot} {table : ManagedTable}
    (hready : FlushReady manager.readers snapshot table) (hnamed : Named manager.nextFileId table)
    (hfresh : table.path ∉ manager.readers.map ManagedTable.path) :
    Proper manager.nextFileId (table :: manager.readers) := by
  refine h.proper.cons hready.wellFormed hnamed hfresh hready.generation ?_ ?_
  · refine h.proper.distinct.cons fun key entry hentry entry' hentry' => ?_
    have hmem := hready.contents ▸ hready.wellFormed.entryFor_eq_some_iff.mp hentry
    exact hready.newer _ (stored_of_version h.proper.readable.wellFormed hentry') _ hmem
  · intro hlevel
    rw [hready.level] at hlevel
    cases hlevel

/-- **The publication of a flush.** -/
theorem publishFlush_outcome (h : manager.Good) {written : Written}
    (hready : FlushReady manager.readers table.snapshot written.table)
    (hnamed : Named manager.nextFileId written.table)
    (hfresh : written.table.path ∉ manager.readers.map ManagedTable.path) :
    Outcome (fun _ s => s.Good ∧ s.options = manager.options ∧
        s.readers.Perm (written.table :: manager.readers) ∧ s.nextFileId = manager.nextFileId ∧
        s.manifest.currentGeneration = manager.manifest.currentGeneration + 1 ∧
        s.readers.length ≤ kMaximumManifestTables)
      (fun s => (∃ cache, CacheOK manager.readers cache ∧
        s = { manager with blockCache := cache }) ∧ manager.Crowded)
      (publishFlush table written manager) := by
  have hproper := hready.proper h hnamed hfresh
  have hperm : (written.table :: manager.readers).Perm (manager.readers ++ [written.table]) :=
    (List.perm_append_singleton _ _).symm
  have hcount := liveCountAfterFlush_yields h.proper.readable (fun _ ht => ht)
    (fun record hrec => (hready.valid record hrec).key) manager.liveKeyCount
  unfold publishFlush
  rw [read_bind_apply]
  obtain ⟨cache, hcache, hstep⟩ := h.withCache_bind hcount _
  rw [hstep]
  have hcached : SSTableManager.Good { manager with blockCache := cache } :=
    (h.kept.cached hcache).good h
  refine Outcome.bind ((publishTables_outcome { manager with blockCache := cache }
    (hproper.perm hperm) h.idPos _).mono (fun _ _ hp => hp) ?_) ?_
  · rintro s ⟨rfl, hfull⟩
    refine ⟨⟨cache, hcache, rfl⟩, ?_⟩
    rcases hfull with hgen | hmany
    · exact Or.inl hgen
    · rw [List.length_append, List.length_singleton] at hmany
      exact Or.inr hmany
  · intro _ s hp
    exact ⟨hp.good hcached (hproper.perm hperm), hp.options, hp.readers.trans hperm.symm,
      hp.nextFileId, hp.generation, hp.few⟩

/-- **A flush** of a frozen memtable whose entries are newer than all tables. -/
theorem flush_outcome (h : manager.Good) (hfrozen : table.immutable = true)
    (hne : table.snapshot ≠ []) (hvalid : ∀ record ∈ table.snapshot, ValidRecord record)
    (hgeneration : table.generation < u64 - 1)
    (hnewer : ∀ record, Stored manager.readers record → ∀ record' ∈ table.snapshot,
      record.2.sequenceNumber < record'.2.sequenceNumber) :
    Outcome (fun _ s => Flushed manager table.snapshot s)
      (fun s => Kept manager s ∧ manager.Exhausted table.snapshot) (flush table manager) := by
  rw [flush_eq hfrozen hne]
  refine Outcome.bind ((writeTable_outcome h .Level0 table.generation hne table.entries.sorted
    hvalid).mono (fun _ _ hw => hw) ?_) ?_
  · rintro s ⟨hkept, hid | hmany⟩
    · exact ⟨hkept, Or.inl hid⟩
    · exact ⟨hkept, Or.inr (Or.inl hmany)⟩
  rintro written s ⟨hw, hkept, hnext⟩
  have hgood := hkept.good h
  have hnamed : Named s.nextFileId written.table := by
    rw [hnext]
    exact ⟨_, _, _, _, Nat.lt_succ_self _, hw.path⟩
  have hfresh : written.table.path ∉ s.readers.map ManagedTable.path := by
    rw [hw.path, hkept.readers]
    exact fresh_of_named h.proper.named h.idLt _ _ _
  have hready : FlushReady s.readers table.snapshot written.table :=
    ⟨hw.level_eq, hw.wellFormed, hw.contents, hw.generation_eq ▸ hgeneration, hvalid, by
      rw [hkept.readers]
      exact hnewer⟩
  refine (publishFlush_outcome hgood hready hnamed hfresh).mono ?_ ?_
  · rintro _ s' ⟨hgood', hoptions, hreaders, hid, hgen, hfew⟩
    refine ⟨hgood', hoptions.trans hkept.options, ⟨written.table, ?_, hw.level_eq, hw.wellFormed,
      hw.contents⟩, hid.trans hnext, ?_, hfew⟩
    · rw [← hkept.readers]
      exact hreaders
    · rw [← hkept.manifest]
      exact hgen
  · rintro s' ⟨⟨cache, hcache, rfl⟩, hcrowded⟩
    refine ⟨hkept.cached hcache, Or.inr (Or.inr ?_)⟩
    unfold Crowded at hcrowded ⊢
    rwa [hkept.manifest, hkept.readers] at hcrowded

/-! ## The records a compaction leaves -/

/-- The records of the output. -/
def compacted (selection : CompactionSelection) : Snapshot :=
  kept selection.unselected (mergeOf selection.selected).entries

/-- A table of these records. -/
structure Holding (level : SSTableLevel) (records : Snapshot) (table : ManagedTable) : Prop where
  level_eq : table.level = level
  wellFormed : table.reader.WellFormed
  contents : table.reader.contents = records

/-- The output, if anything is left. -/
def Leaves (records : Snapshot) (outputs : List ManagedTable) : Prop :=
  (records = [] ∧ outputs = []) ∨ ∃ table, outputs = [table] ∧ Holding .Level1 records table

/-- The output table of a compaction can be published. -/
def HoldsOutput (records : Snapshot) (outputs : List ManagedTable) : Prop :=
  (records = [] ∧ outputs = []) ∨ records ≠ [] ∧ ∃ table, outputs = [table] ∧
    table.level = .Level1 ∧ table.reader.WellFormed ∧ table.reader.contents = records ∧
    table.reader.metadata.generation < u64 - 1

theorem sorted_compacted (selection : CompactionSelection) : KeySorted (compacted selection) :=
  (mergeOf selection.selected).sorted.filter _

theorem stored_of_compacted (hw : ∀ table ∈ selection.selected, table.reader.WellFormed)
    {record : Bytes × Entry} (h : record ∈ compacted selection) :
    Stored selection.selected record :=
  mem_mergeOf hw (List.mem_of_mem_filter h)

theorem HoldsOutput.leaves (h : HoldsOutput records outputs) : Leaves records outputs := by
  rcases h with hnone | ⟨-, table, hone, hlevel, hwell, hcontents, -⟩
  · exact Or.inl hnone
  · exact Or.inr ⟨table, hone, hlevel, hwell, hcontents⟩

theorem Leaves.newest_eq {rest : List ManagedTable} (h : Leaves records outputs) (key : Bytes) :
    newest Entry.sequenceNumber (lookups (outputs ++ rest)) key =
      newest Entry.sequenceNumber ((fun k => lookup k records) :: lookups rest) key := by
  rcases h with ⟨rfl, rfl⟩ | ⟨table, rfl, -, -, rfl⟩
  · exact (newest_cons_of_none rfl).symm
  · rfl

theorem HoldsOutput.entries_eq (h : HoldsOutput records outputs) :
    entriesOf outputs = records.length := by
  rcases h with ⟨rfl, rfl⟩ | ⟨-, table, rfl, -, -, rfl, -⟩
  · rfl
  · simp [entriesOf]

section Output

variable {selection : CompactionSelection} {rest newer outputs : List ManagedTable}

/-- A dropped tombstone covers nothing, neither in the tables that were not selected nor in those that
came later. -/
theorem compacted_covers (hnewer : Newer selection.selected newer)
    (hw : ∀ table ∈ selection.selected, table.reader.WellFormed)
    (hw' : ∀ table ∈ newer, table.reader.WellFormed) (key : Bytes) :
    Covers Entry.sequenceNumber Entry.live
      (fun k => lookup k (mergeOf selection.selected).entries)
      (fun k => lookup k (compacted selection)) (lookups (selection.unselected ++ newer)) key := by
  rcases kept_covers selection.unselected (mergeOf selection.selected).sorted key with
    hsame | ⟨hnone, entry, hmerged, hdead, hcovered⟩
  · exact Or.inl hsame
  · refine Or.inr ⟨hnone, entry, hmerged, hdead, fun entry' hentry' hlive => ?_⟩
    rw [lookups_append] at hentry'
    rcases mem_versions_append.mp hentry' with hold | hlate
    · exact hcovered entry' hold hlive
    · have hrecord : (key, entry) ∈ (mergeOf selection.selected).entries :=
        OrderedMap.find?_eq_some_iff.mp hmerged
      exact hnewer _ (mem_mergeOf hw hrecord) _ (stored_of_version hw' hlate)

/-- **A compaction is invisible.** -/
theorem shown_output (hdistinct : Distinct (selection.selected ++ (selection.unselected ++ newer)))
    (hnewer : Newer selection.selected newer)
    (hw : ∀ table ∈ selection.selected, table.reader.WellFormed)
    (hw' : ∀ table ∈ newer, table.reader.WellFormed)
    (houtput : Leaves (compacted selection) outputs) (key : Bytes) :
    shown (outputs ++ (selection.unselected ++ newer)) key =
      shown (selection.selected ++ (selection.unselected ++ newer)) key := by
  have hs := hdistinct key
  rw [lookups_append] at hs
  have hmerged : (fun k => lookup k (mergeOf selection.selected).entries) key =
      newest Entry.sequenceNumber (lookups selection.selected) key := find?_mergeOf hw key
  have hdrop := visible_drop (hs.mono (versions_merge_subset hmerged))
    (compacted_covers hnewer hw hw' key)
  unfold shown visible at hdrop ⊢
  rw [houtput.newest_eq, hdrop, newest_merge hs hmerged, lookups_append selection.selected]

/-- Every version that is left was there before. -/
theorem versions_output (rest : List ManagedTable)
    (hw : ∀ table ∈ selection.selected, table.reader.WellFormed)
    (houtput : Leaves (compacted selection) outputs) (key : Bytes) :
    versions (lookups (outputs ++ rest)) key ⊆ versions (lookups (selection.selected ++ rest)) key := by
  intro entry hentry
  rw [lookups_append] at hentry ⊢
  rcases mem_versions_append.mp hentry with hout | hrest
  · refine mem_versions_append.mpr (Or.inl ?_)
    rcases houtput with ⟨-, rfl⟩ | ⟨table, rfl, hholding⟩
    · simp [versions, lookups] at hout
    · obtain ⟨t, ht, hfound⟩ := mem_versions.mp hout
      obtain rfl := List.mem_singleton.mp ht
      have hmem := hholding.contents ▸ hholding.wellFormed.entryFor_eq_some_iff.mp hfound
      obtain ⟨table', ht', hrecord⟩ := stored_of_compacted hw hmem
      exact mem_versions.mpr ⟨table', ht', (hw table' ht').entryFor_eq_some_iff.mpr hrecord⟩
  · exact mem_versions_append.mpr (Or.inr hrest)

theorem stored_output (rest : List ManagedTable)
    (hw : ∀ table ∈ selection.selected, table.reader.WellFormed)
    (houtput : Leaves (compacted selection) outputs) {record : Bytes × Entry}
    (h : Stored (outputs ++ rest) record) : Stored (selection.selected ++ rest) record := by
  obtain ⟨table, ht, hrecord⟩ := h
  rcases List.mem_append.mp ht with hout | hrest
  · rcases houtput with ⟨-, rfl⟩ | ⟨table', rfl, hholding⟩
    · cases hout
    · obtain rfl := List.mem_singleton.mp hout
      obtain ⟨t, ht', hmem⟩ := stored_of_compacted hw (hholding.contents ▸ hrecord)
      exact ⟨t, List.mem_append_left _ ht', hmem⟩
  · exact ⟨table, List.mem_append_right _ hrest, hrecord⟩

theorem length_compacted_le (selection : CompactionSelection) :
    (compacted selection).length ≤ entriesOf selection.selected :=
  (List.length_filter_le _ _).trans (length_mergeOf_le _)

theorem entriesOf_output (houtput : HoldsOutput (compacted selection) outputs) :
    entriesOf outputs ≤ entriesOf selection.selected := by
  rw [houtput.entries_eq]
  exact length_compacted_le selection

/-- The output stays inside the range of the selection. -/
theorem apart_output {readers : List ManagedTable} (hselects : Selects readers selection)
    (hw : ∀ table ∈ selection.selected, table.reader.WellFormed) {table : ManagedTable}
    (hwell : table.reader.WellFormed) (hcontents : table.reader.contents = compacted selection)
    {other : ManagedTable} (hother : other ∈ selection.unselected) (hlevel : other.level = .Level1) :
    Apart table other := by
  rintro ⟨hsmall, hlarge⟩
  refine hselects.apart other hother hlevel ⟨?_, ?_⟩
  · obtain ⟨first, hfirst, hkey⟩ := hwell.exists_smallestKey
    obtain ⟨t, ht, hmem⟩ := stored_of_compacted hw (hcontents ▸ hfirst)
    rw [← hkey] at hsmall
    exact (hselects.low t ht).trans (((hw t ht).smallestKey_le hmem).trans hsmall)
  · obtain ⟨last, hlast, hkey⟩ := hwell.exists_largestKey
    obtain ⟨t, ht, hmem⟩ := stored_of_compacted hw (hcontents ▸ hlast)
    rw [← hkey] at hlarge
    exact hlarge.trans (((hw t ht).le_largestKey hmem).trans (hselects.high t ht))

end Output

theorem shown_perm {tables' : List ManagedTable} (hdistinct : Distinct tables)
    (h : tables'.Perm tables) (key : Bytes) : shown tables' key = shown tables key := by
  have hnewest : newestEntry tables' key = newestEntry tables key :=
    newest_perm (hdistinct key) (h.map _)
  rw [shown_eq, hnewest, shown_eq]

/-! ## The stages of a compaction -/

section Stages

variable {selection : CompactionSelection} {newer outputs : List ManagedTable}
variable {readers : List ManagedTable}

/-- The output's path is not taken. -/
def Reserved (nextFileId : Nat) (readers outputs : List ManagedTable) : Prop :=
  ∀ table ∈ outputs, Named nextFileId table ∧ table.path ∉ readers.map ManagedTable.path

theorem writeOutput_outcome (h : manager.Good)
    (hselected : ∀ table ∈ selection.selected, table ∈ manager.readers)
    (taken : List ManagedTable) (htaken : ∀ table ∈ taken, Named manager.nextFileId table) :
    Outcome
      (fun output s => HoldsOutput (compacted selection) (output.map Written.table).toList ∧
        Reserved s.nextFileId taken (output.map Written.table).toList ∧ Kept manager s)
      (fun s => Kept manager s ∧ manager.Exhausted (compacted selection))
      (writeOutput (maxGeneration selection.selected) (compacted selection) manager) := by
  have hw : ∀ table ∈ selection.selected, table.reader.WellFormed :=
    fun t ht => h.proper.readable.wellFormed t (hselected t ht)
  unfold writeOutput
  split_ifs with hnil
  · exact ⟨Or.inl ⟨hnil, rfl⟩, fun t ht => (by cases ht), h.kept⟩
  have hvalid : ∀ record ∈ compacted selection, ValidRecord record := fun record hrec => by
    obtain ⟨table, ht, hmem⟩ := stored_of_compacted hw hrec
    exact (hw table ht).valid record hmem
  refine Outcome.bind ((writeTable_outcome h .Level1 (maxGeneration selection.selected) hnil
    (sorted_compacted selection) hvalid).mono (fun _ _ hq => hq) ?_) ?_
  · rintro s ⟨hkept, hid | hmany⟩
    · exact ⟨hkept, Or.inl hid⟩
    · exact ⟨hkept, Or.inr (Or.inl hmany)⟩
  rintro written s ⟨hwritten, hkept, hnext⟩
  have hgeneration : maxGeneration selection.selected < u64 - 1 :=
    maxGeneration_lt fun t ht => h.proper.generations t (hselected t ht)
  refine ⟨Or.inr ⟨hnil, written.table, rfl, hwritten.level_eq, hwritten.wellFormed,
    hwritten.contents, hwritten.generation_eq ▸ hgeneration⟩, ?_, hkept⟩
  intro table ht
  obtain rfl : table = written.table := by simpa using ht
  refine ⟨⟨_, _, _, _, by rw [hnext]; exact Nat.lt_succ_self _, hwritten.path⟩, ?_⟩
  rw [hwritten.path]
  exact fresh_of_named htaken h.idLt _ _ _

/-- The output is in the place of the selected tables. -/
structure Replaced (manager : SSTableManager) (selection : CompactionSelection)
    (newer outputs : List ManagedTable) (s : SSTableManager) : Prop where
  good : s.Good
  options : s.options = manager.options
  readers : s.readers.Perm (outputs ++ (selection.unselected ++ newer))
  nextFileId : s.nextFileId = manager.nextFileId
  generation : s.manifest.currentGeneration = manager.manifest.currentGeneration + 1

/-- The tables that a compaction leaves are proper again. -/
theorem proper_output (h : manager.Good) (hselects : Selects readers selection)
    (hperm : manager.readers.Perm (selection.selected ++ (selection.unselected ++ newer)))
    (hlevels : ∀ table ∈ newer, table.level = .Level0)
    (houtput : HoldsOutput (compacted selection) outputs)
    (hreserved : Reserved manager.nextFileId manager.readers outputs) :
    Proper manager.nextFileId (outputs ++ (selection.unselected ++ newer)) := by
  have hall := h.proper.perm hperm
  have hw : ∀ table ∈ selection.selected, table.reader.WellFormed :=
    fun t ht => hall.readable.wellFormed t (List.mem_append_left _ ht)
  have hrest : Proper manager.nextFileId (selection.unselected ++ newer) :=
    hall.sublist (List.sublist_append_right _ _)
  have hversions := versions_output (selection.unselected ++ newer) hw houtput.leaves
  rcases houtput with ⟨-, rfl⟩ | ⟨-, table, rfl, hlevel, hwell, hcontents, hgeneration⟩
  · exact hrest
  · obtain ⟨hnamed, hfresh⟩ := hreserved table (by simp)
    refine hrest.cons hwell hnamed (fun hmem => hfresh ?_) hgeneration
      (fun key => (hall.distinct key).mono (hversions key)) fun _ other hother hother1 => ?_
    · rw [(hperm.map _).mem_iff, List.map_append]
      exact List.mem_append_right _ hmem
    · rcases List.mem_append.mp hother with hun | hnew
      · exact apart_output hselects hw hwell hcontents hun hother1
      · rw [hlevels other hnew] at hother1
        cases hother1

/-- What is not selected stays. -/
theorem filter_unselected (hpaths : (readers.map ManagedTable.path).Nodup)
    (hperm : readers.Perm (selection.selected ++ (selection.unselected ++ newer))) :
    (readers.filter (·.path ∉ selection.selected.map ManagedTable.path)).Perm
      (selection.unselected ++ newer) := by
  refine (hperm.filter _).trans (List.Perm.of_eq ?_)
  have hpaths := (hperm.map ManagedTable.path).nodup_iff.mp hpaths
  rw [List.map_append] at hpaths
  rw [List.filter_append, List.filter_eq_nil_iff.mpr, List.nil_append, List.filter_eq_self.mpr]
  · intro t ht
    have hdisjoint := (List.nodup_append.mp hpaths).2.2
    simp only [decide_eq_true_eq]
    intro hmem
    exact hdisjoint _ hmem _ (List.mem_map_of_mem ht) rfl
  · intro t ht
    simp only [decide_eq_true_eq, not_not]
    exact List.mem_map_of_mem ht

/-- **The publication of a compaction**, with the tables that were flushed since its selection. -/
theorem publishOutput_outcome {output : Option Written} (h : manager.Good)
    (hselects : Selects readers selection)
    (hperm : manager.readers.Perm (selection.selected ++ (selection.unselected ++ newer)))
    (hlevels : ∀ table ∈ newer, table.level = .Level0)
    (houtput : HoldsOutput (compacted selection) (output.map Written.table).toList)
    (hreserved : Reserved manager.nextFileId manager.readers (output.map Written.table).toList) :
    Outcome (fun _ s => Replaced manager selection newer (output.map Written.table).toList s)
      (fun s => s = manager ∧ manager.Crowded)
      (publishOutput (selection.selected.map ManagedTable.path) output manager) := by
  have hproper := proper_output h hselects hperm hlevels houtput hreserved
  have hfilter := filter_unselected h.proper.readable.paths hperm
  unfold publishOutput
  rw [read_bind_apply, if_neg]
  · have htables : (manager.readers.filter (·.path ∉ selection.selected.map ManagedTable.path) ++
        (output.map Written.table).toList).Perm
          ((output.map Written.table).toList ++ (selection.unselected ++ newer)) :=
      (List.perm_append_comm).trans (hfilter.append_left _)
    refine (publishTables_outcome manager (hproper.perm htables.symm) h.idPos manager.liveKeyCount).mono
      (fun _ s hp => ?_) ?_
    · exact ⟨hp.good h (hproper.perm htables.symm), hp.options, hp.readers.trans htables,
        hp.nextFileId, hp.generation⟩
    · rintro s ⟨rfl, hgen | hmany⟩
      · exact ⟨rfl, Or.inl hgen⟩
      · refine ⟨rfl, Or.inr (lt_of_lt_of_le hmany ?_)⟩
        have hout : ((output.map Written.table).toList).length ≤ 1 := by
          cases output <;> simp
        rw [List.length_append]
        exact Nat.add_le_add (List.length_filter_le _ _) hout
  · rw [Bool.not_eq_true, List.any_eq_false]
    intro path hpath
    obtain ⟨t, ht, rfl⟩ := List.mem_map.mp hpath
    simp only [Bool.not_eq_true', Bool.not_eq_false, List.any_eq_true, decide_eq_true_eq]
    exact ⟨t, hperm.mem_iff.mpr (List.mem_append_left _ ht), rfl⟩

end Stages

/-! ## A compaction in one go -/

/-- The manager after a compaction: it shows what it showed, with fewer tables. -/
structure Shrunk (manager s : SSTableManager) : Prop where
  good : s.Good
  options : s.options = manager.options
  shown_eq : ∀ key, shown s.readers key = shown manager.readers key
  stored : ∀ record, Stored s.readers record → Stored manager.readers record
  entries : entriesOf s.readers ≤ entriesOf manager.readers
  length_le : s.readers.length ≤ manager.readers.length
  level0 : s.levelTableCount .Level0 < manager.levelTableCount .Level0
  idLe : s.nextFileId ≤ manager.nextFileId + 1
  idGe : manager.nextFileId ≤ s.nextFileId
  generation : s.manifest.currentGeneration = manager.manifest.currentGeneration + 1

theorem Replaced.shrunk (hgood : manager.Good) (hselects : Selects manager.readers selection)
    (hlevel0 : 0 < selection.selected.countP (·.level = .Level0))
    (houtput : HoldsOutput (compacted selection) outputs) {n : Nat}
    (h : Replaced { manager with nextFileId := n } selection [] outputs s)
    (hn : n ≤ manager.nextFileId + 1) (hle : manager.nextFileId ≤ n) : Shrunk manager s := by
  have hreaders := h.readers
  rw [List.append_nil] at hreaders
  have hw : ∀ table ∈ selection.selected, table.reader.WellFormed := fun t ht =>
    hgood.proper.readable.wellFormed t (hselects.selected_mem t ht)
  have hdistinct : Distinct (selection.selected ++ selection.unselected) :=
    hgood.proper.distinct.of_sub fun t ht => hselects.perm.mem_iff.mpr ht
  have hout : outputs.length ≤ 1 ∧ outputs.countP (·.level = .Level0) = 0 := by
    rcases houtput with ⟨-, rfl⟩ | ⟨-, table, rfl, hlevel, -⟩
    · exact ⟨Nat.zero_le _, rfl⟩
    · exact ⟨le_rfl, by simp [hlevel]⟩
  have hselected : 0 < selection.selected.length :=
    lt_of_lt_of_le hlevel0 List.countP_le_length
  have hlength := hselects.perm.length_eq
  have hlength' := hreaders.length_eq
  rw [List.length_append] at hlength hlength'
  refine ⟨h.good, h.options, fun key => ?_, fun record hrec => ?_, ?_, by omega, ?_,
    by rw [h.nextFileId]; exact hn, by rw [h.nextFileId]; exact hle, h.generation⟩
  · have hnone : Newer selection.selected [] := fun _ _ _ hrec => by
      obtain ⟨t, ht, -⟩ := hrec
      cases ht
    have hinvisible := shown_output (by rwa [List.append_nil]) hnone hw (fun t ht => by cases ht)
      houtput.leaves key
    rw [List.append_nil] at hinvisible
    rw [shown_perm (h.good.proper.distinct.of_sub fun t ht => hreaders.mem_iff.mpr ht) hreaders,
      hinvisible, shown_perm hdistinct hselects.perm]
  · obtain ⟨table, ht, hmem⟩ := hrec
    obtain ⟨t, ht', hmem'⟩ := stored_output selection.unselected hw houtput.leaves
      ⟨table, hreaders.mem_iff.mp ht, hmem⟩
    exact ⟨t, hselects.perm.mem_iff.mpr ht', hmem'⟩
  · have hle := entriesOf_output houtput
    rw [entriesOf_perm hreaders, entriesOf_perm hselects.perm, entriesOf_append, entriesOf_append]
    omega
  · unfold levelTableCount
    rw [hreaders.countP_eq, hselects.perm.countP_eq, List.countP_append, List.countP_append, hout.2]
    omega

theorem compactSelected_outcome (h : manager.Good) (hselects : Selects manager.readers selection)
    (hlevel0 : 0 < selection.selected.countP (·.level = .Level0)) :
    Outcome (fun result s => result.performed = true ∧ Shrunk manager s)
      (fun s => Kept manager s ∧ manager.Exhausted (compacted selection))
      (compactSelected selection manager) := by
  have hsub := hselects.selected_mem
  have hsub' := hselects.unselected_mem
  have hw : ∀ table ∈ selection.selected, table.reader.WellFormed :=
    fun t ht => h.proper.readable.wellFormed t (hsub t ht)
  unfold compactSelected
  obtain ⟨cache₁, hcache₁, hmerge⟩ := h.withCache_bind
    (mergeTables_yields h.proper.readable hsub) _
  rw [hmerge]
  have h₁ : SSTableManager.Good { manager with blockCache := cache₁ } :=
    (h.kept.cached hcache₁).good h
  obtain ⟨cache₂, hcache₂, hdrop⟩ := h₁.withCache_bind
    (dropTombstones_yields h₁.proper.readable hsub'
      (mergeOf selection.selected).entries fun record hrec => by
        obtain ⟨table, ht, hmem⟩ := mem_mergeOf hw hrec
        exact ((hw table ht).valid record hmem).key) _
  rw [hdrop]
  have hkept₂ : Kept manager { manager with blockCache := cache₂ } := h.kept.cached hcache₂
  have h₂ := hkept₂.good h
  refine Outcome.bind ((writeOutput_outcome h₂ hsub _ h₂.proper.named).mono
    (fun _ _ hq => hq) ?_) ?_
  · rintro s ⟨hkept, hexhausted⟩
    refine ⟨⟨hkept.options, hkept.readers, hkept.manifest, hkept.cache, hkept.idLe, hkept.idNext,
      hkept.idLt⟩, hexhausted⟩
  rintro output s ⟨houtput, hreserved, hkept⟩
  rw [← hkept.readers] at hreserved
  have hs := hkept.good h₂
  have hperm : s.readers.Perm (selection.selected ++ (selection.unselected ++ [])) := by
    rw [List.append_nil, hkept.readers]
    exact hselects.perm
  refine Outcome.bind ((publishOutput_outcome hs hselects hperm (fun t ht => by cases ht) houtput
    hreserved).mono (fun _ _ hq => hq) ?_) ?_
  · rintro s' ⟨rfl, hcrowded⟩
    refine ⟨⟨hkept.options, hkept.readers, hkept.manifest, hkept.cache, hkept.idLe, hkept.idNext,
      hkept.idLt⟩, Or.inr (Or.inr ?_)⟩
    unfold Crowded at hcrowded ⊢
    rwa [hkept.manifest, hkept.readers] at hcrowded
  · intro _ s' hreplaced
    rw [update_bind_apply]
    refine ⟨rfl, ?_⟩
    have hnew : Replaced { manager with nextFileId := s.nextFileId } selection []
        (output.map Written.table).toList
        (removeFiles (selection.selected.map ManagedTable.path) s') :=
      ⟨⟨hreplaced.good.proper, hreplaced.good.cache, hreplaced.good.idPos, hreplaced.good.idLt,
        hreplaced.good.target, hreplaced.good.trigger, hreplaced.good.most⟩,
        hreplaced.options.trans hkept.options, hreplaced.readers, hreplaced.nextFileId,
        hreplaced.generation.trans (by rw [hkept.manifest])⟩
    exact hnew.shrunk h hselects hlevel0 houtput hkept.idNext hkept.idLe

/-- The selection looks at the tables and the options only. -/
theorem Kept.selectLevel0Compaction_eq (h : Kept manager s) (forceAll : Bool) :
    s.selectLevel0Compaction forceAll = manager.selectLevel0Compaction forceAll := by
  unfold selectLevel0Compaction chosenLevel0 level0Tables
  rw [h.readers, h.options]

/-- A selection takes at least one table off Level 0. -/
theorem Good.selects (h : manager.Good) {forceAll : Bool}
    (hsome : (manager.selectLevel0Compaction forceAll).selected ≠ []) :
    Selects manager.readers (manager.selectLevel0Compaction forceAll) ∧
      0 < (manager.selectLevel0Compaction forceAll).selected.countP (·.level = .Level0) := by
  obtain ⟨hselects, hcount, hlevel0, -⟩ :=
    selectLevel0Compaction_selects h.proper.readable.paths hsome
  refine ⟨hselects, ?_⟩
  have hpos : 0 < manager.level0Tables.length := List.length_pos_iff.mpr hlevel0
  have := h.most
  rw [hcount, length_chosenLevel0]
  split_ifs
  · exact hpos
  · omega

/-- **A compaction.** -/
theorem compactLevel0_outcome (h : manager.Good) (forceAll : Bool) :
    Outcome (fun result s => (result.performed = false ∧ s = manager) ∨
        (result.performed = true ∧ Shrunk manager s))
      (fun s => Kept manager s ∧
        ∃ forceAll, manager.Exhausted (compacted (manager.selectLevel0Compaction forceAll)))
      (compactLevel0 forceAll manager) := by
  unfold compactLevel0
  rw [read_bind_apply]
  split_ifs with hnone
  · exact Or.inl ⟨rfl, rfl⟩
  obtain ⟨hselects, hpos⟩ := h.selects hnone
  exact (compactSelected_outcome h hselects hpos).mono (fun _ _ hq => Or.inr hq)
    fun _ hr => ⟨hr.1, forceAll, hr.2⟩

theorem compactIfNeeded_outcome (h : manager.Good) :
    Outcome (fun result s => (result.performed = false ∧ s = manager) ∨
        (result.performed = true ∧ Shrunk manager s))
      (fun s => Kept manager s ∧
        ∃ forceAll, manager.Exhausted (compacted (manager.selectLevel0Compaction forceAll)))
      (compactIfNeeded manager) := by
  unfold compactIfNeeded
  rw [read_bind_apply]
  split_ifs
  · exact compactLevel0_outcome h false
  · exact Or.inl ⟨rfl, rfl⟩

end SSTableManager

end NebulaKV.Lsm
