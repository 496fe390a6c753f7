/-
# Reading and merging several tables

The loops over tables compute what `Versioned` talks about: a lookup returns the `newest` version of a
key, the merge of some tables holds the newest version of every key, and a tombstone is dropped only
where it `Covers` nothing.
-/
import NebulaKV.Lsm.TableContents

namespace NebulaKV.Lsm

open Containers Effects Program Versioned

/-- The tables as what they hold for each key. -/
def lookups (tables : List ManagedTable) : List (Bytes → Option Entry) :=
  tables.map fun table => table.reader.entryFor

@[simp] theorem lookups_cons (table : ManagedTable) (tables : List ManagedTable) :
    lookups (table :: tables) = table.reader.entryFor :: lookups tables := rfl

@[simp] theorem lookups_append (tables tables' : List ManagedTable) :
    lookups (tables ++ tables') = lookups tables ++ lookups tables' :=
  List.map_append

theorem mem_versions {tables : List ManagedTable} {key : Bytes} {entry : Entry} :
    entry ∈ versions (lookups tables) key ↔
      ∃ table ∈ tables, table.reader.entryFor key = some entry := by
  simp [versions, lookups]

/-- The entry of a key with the highest sequence number. -/
def newestEntry (tables : List ManagedTable) (key : Bytes) : Option Entry :=
  newest Entry.sequenceNumber (lookups tables) key

/-- No two versions of a key carry one sequence number. -/
def Distinct (tables : List ManagedTable) : Prop :=
  ∀ key, Set.InjOn Entry.sequenceNumber (versions (lookups tables) key)

theorem Distinct.of_sub {tables tables' : List ManagedTable} (h : Distinct tables)
    (hsub : ∀ table ∈ tables', table ∈ tables) : Distinct tables' := by
  intro key entry he entry' he'
  obtain ⟨table, ht, hentry⟩ := mem_versions.mp he
  obtain ⟨table', ht', hentry'⟩ := mem_versions.mp he'
  exact h key (mem_versions.mpr ⟨table, hsub table ht, hentry⟩)
    (mem_versions.mpr ⟨table', hsub table' ht', hentry'⟩)

theorem takeNewer_eq (best candidate : Option Entry) :
    takeNewer best candidate = newer Entry.sequenceNumber best candidate := by
  cases best with
  | none => cases candidate <;> rfl
  | some b =>
    cases candidate with
    | none => rfl
    | some c => simp [takeNewer, newer]

section Reading

variable {all tables : List ManagedTable} {key : Bytes}

/-- **A lookup in the tables finds the newest entry.** -/
theorem newestEntryFromTables_yields (hr : Readable all) (hsub : ∀ table ∈ tables, table ∈ all)
    (hkey : ValidKey key) :
    Yields (CacheOK all) (newestEntryFromTables tables key) (newestEntry tables key) := by
  have hfold : newestEntry tables key = tables.foldl
      (fun best table => newer Entry.sequenceNumber best (table.reader.entryFor key)) none := by
    rw [newestEntry, newest, lookups, List.foldl_map]
  rw [hfold]
  refine Yields.foldOver (fun best table ht => ?_) none
  have hw := hr.wellFormed table (hsub table ht)
  by_cases hout : outside key table.reader.metadata
  · rw [if_pos hout, hw.entryFor_of_outside hout]
    cases best <;> exact Yields.ret _
  · rw [if_neg hout, ← takeNewer_eq]
    exact (get_yields hr (hsub table ht) hkey).bind (Yields.ret _)

/-- What one entry of a memtable changes in the number of live keys. -/
def countRecord (tables : List ManagedTable) (liveCount : Nat) (record : Bytes × Entry) : Nat :=
  if (newestEntry tables record.1).any fun entry =>
      entry.sequenceNumber ≥ record.2.sequenceNumber then liveCount
  else if !((newestEntry tables record.1).any fun entry => !entry.deleted) &&
      !record.2.deleted then (liveCount + 1) % u64
  else if ((newestEntry tables record.1).any fun entry => !entry.deleted) &&
      record.2.deleted then u64Sub liveCount 1
  else liveCount

theorem liveCountAfterFlush_yields (hr : Readable all) (hsub : ∀ table ∈ tables, table ∈ all)
    {incoming : Snapshot} (hvalid : ∀ record ∈ incoming, ValidKey record.1) (liveCount : Nat) :
    Yields (CacheOK all) (liveCountAfterFlush tables incoming liveCount)
      (incoming.foldl (countRecord tables) liveCount) := by
  refine Yields.foldOver (fun liveCount record hrec => ?_) _
  refine (newestEntryFromTables_yields hr hsub (hvalid record hrec)).bind ?_
  unfold countRecord
  split_ifs <;> exact Yields.ret _

/-! ## The merge -/

/-- The record goes in unless there is a newer entry. -/
theorem mergeRecords_cons (merged : OrderedMap Bytes Entry) (record : Bytes × Entry)
    (rest : Snapshot) :
    mergeRecords merged (record :: rest) = mergeRecords
      (if (merged.find? record.1).all (·.sequenceNumber < record.2.sequenceNumber) then
        merged.insert record.1 record.2 else merged) rest := by
  unfold mergeRecords
  rw [List.foldl_cons]
  congr 1
  cases merged.find? record.1 with
  | none => rfl
  | some existing => simp

theorem find?_mergeRecords {merged : OrderedMap Bytes Entry} {records : Snapshot}
    (hs : KeySorted records) (key : Bytes) :
    (mergeRecords merged records).find? key =
      newer Entry.sequenceNumber (merged.find? key) (lookup key records) := by
  induction records generalizing merged with
  | nil =>
    cases h : merged.find? key <;> simp [mergeRecords, lookup, newer, h]
  | cons record rest ih =>
    obtain ⟨k, entry⟩ := record
    rw [mergeRecords_cons, ih hs.tail]
    dsimp only
    by_cases hk : key = k
    · -- sorted: the key does not come again
      subst hk
      have hnone : lookup key rest = none :=
        lookup_eq_none_iff.mpr fun a ha => (hs.lt_of_mem ha).ne'
      rw [hnone, lookup, if_pos rfl]
      cases h : merged.find? key with
      | none => simp [newer, OrderedMap.find?_insert]
      | some existing =>
        simp only [newer, Option.all_some, decide_eq_true_eq]
        split_ifs with hlt
        · simp [OrderedMap.find?_insert]
        · simp [h]
    · rw [lookup, if_neg hk]
      split_ifs
      · rw [OrderedMap.find?_insert, if_neg hk]
      · rfl

/-- The merge of some tables, as a map. -/
def mergeOf (tables : List ManagedTable) : OrderedMap Bytes Entry :=
  tables.foldl (fun merged table => mergeRecords merged table.reader.contents) OrderedMap.empty

theorem find?_mergeOf (hw : ∀ table ∈ tables, table.reader.WellFormed) (key : Bytes) :
    (mergeOf tables).find? key = newestEntry tables key := by
  suffices h : ∀ merged : OrderedMap Bytes Entry,
      (tables.foldl (fun merged table => mergeRecords merged table.reader.contents) merged).find? key
        = tables.foldl (fun best table => newer Entry.sequenceNumber best (table.reader.entryFor key))
          (merged.find? key) by
    rw [mergeOf, h, newestEntry, newest, lookups, List.foldl_map]
    rfl
  induction tables with
  | nil => exact fun merged => rfl
  | cons table rest ih =>
    intro merged
    rw [List.foldl_cons, List.foldl_cons, ih fun t ht => hw t (by simp [ht]),
      find?_mergeRecords (hw table (by simp)).sorted]
    rfl

theorem mergeTables_yields (hr : Readable all) (hsub : ∀ table ∈ tables, table ∈ all) :
    Yields (CacheOK all) (mergeTables tables) (mergeOf tables) := by
  unfold mergeTables mergeOf
  refine Yields.foldOver (fun merged table ht => ?_) _
  exact (readAll_yields hr (hsub table ht)).bind (Yields.ret _)

/-- Every entry of the merge is an entry of one of the tables. -/
theorem mem_mergeOf (hw : ∀ table ∈ tables, table.reader.WellFormed) {record : Bytes × Entry}
    (h : record ∈ (mergeOf tables).entries) : ∃ table ∈ tables, record ∈ table.reader.contents := by
  have hfind : newestEntry tables record.1 = some record.2 :=
    find?_mergeOf hw record.1 ▸ OrderedMap.find?_eq_some_iff.mpr h
  obtain ⟨table, ht, hentry⟩ := mem_versions.mp (mem_of_newest hfind)
  exact ⟨table, ht, (hw table ht).entryFor_eq_some_iff.mp hentry⟩

/-! ## Tombstones -/

/-- What `can_drop_tombstone` answers. -/
def droppable (unselected : List ManagedTable) (key : Bytes) (tombstone : Entry) : Bool :=
  unselected.all fun table => !((table.reader.entryFor key).any fun entry =>
    !entry.deleted && entry.sequenceNumber ≤ tombstone.sequenceNumber)

theorem canDropTombstone_yields (hr : Readable all) (hsub : ∀ table ∈ tables, table ∈ all)
    (hkey : ValidKey key) (tombstone : Entry) :
    Yields (CacheOK all) (SSTableManager.canDropTombstone key tombstone tables)
      (droppable tables key tombstone) := by
  induction tables with
  | nil => exact Yields.ret true
  | cons table rest ih =>
    have hrest := ih fun t ht => hsub t (by simp [ht])
    have hw := hr.wellFormed table (hsub table (by simp))
    have hsplit : droppable (table :: rest) key tombstone =
        (!((table.reader.entryFor key).any fun entry => !entry.deleted &&
          entry.sequenceNumber ≤ tombstone.sequenceNumber) && droppable rest key tombstone) := rfl
    unfold SSTableManager.canDropTombstone
    rw [hsplit]
    by_cases hout : outside key table.reader.metadata
    · rw [if_pos hout, hw.entryFor_of_outside hout]
      exact hrest
    · rw [if_neg hout]
      refine (get_yields hr (hsub table (by simp)) hkey).bind ?_
      split_ifs with hlive
      · rw [hlive]
        exact Yields.ret false
      · rw [Bool.eq_false_iff.mpr hlive]
        exact hrest

/-- The records that `compact_level0` keeps. -/
def kept (unselected : List ManagedTable) (records : Snapshot) : Snapshot :=
  records.filter fun record => !(record.2.deleted && droppable unselected record.1 record.2)

theorem dropTombstones_yields (hr : Readable all) (hsub : ∀ table ∈ tables, table ∈ all)
    (records : Snapshot) (hvalid : ∀ record ∈ records, ValidKey record.1) :
    Yields (CacheOK all) (SSTableManager.dropTombstones tables records) (kept tables records) := by
  induction records with
  | nil => exact Yields.ret []
  | cons record rest ih =>
    obtain ⟨k, entry⟩ := record
    have hrest := ih fun record hrec => hvalid record (by simp [hrec])
    unfold SSTableManager.dropTombstones
    by_cases hdead : entry.deleted = true
    · rw [if_pos hdead]
      refine (canDropTombstone_yields hr hsub (hvalid (k, entry) (by simp)) entry).bind
        (hrest.bind ?_)
      have hkept : kept tables ((k, entry) :: rest) =
          if droppable tables k entry then kept tables rest
          else (k, entry) :: kept tables rest := by
        unfold kept
        rw [List.filter_cons, hdead]
        cases droppable tables k entry <;> rfl
      rw [hkept]
      exact Yields.ret _
    · rw [if_neg hdead]
      refine hrest.bind ?_
      have hkept : kept tables ((k, entry) :: rest) = (k, entry) :: kept tables rest := by
        unfold kept
        rw [List.filter_cons_of_pos (by simp [hdead])]
      rw [hkept]
      exact Yields.ret _

/-- **A dropped tombstone covered nothing.** -/
theorem kept_covers (unselected : List ManagedTable) {records : Snapshot} (hs : KeySorted records)
    (key : Bytes) :
    Covers Entry.sequenceNumber Entry.live (fun k => lookup k records)
      (fun k => lookup k (kept unselected records)) (lookups unselected) key := by
  unfold Covers kept
  dsimp only
  rw [lookup_filter hs]
  cases h : lookup key records with
  | none => exact Or.inl rfl
  | some entry =>
    by_cases hdrop : entry.deleted = true ∧ droppable unselected key entry = true
    · refine Or.inr ⟨?_, entry, rfl, ?_, ?_⟩
      · rw [Option.filter_some_neg (by simp [hdrop.1, hdrop.2])]
      · simp [Entry.live, hdrop.1]
      · intro entry' hentry' hlive
        obtain ⟨table, ht, hfound⟩ := mem_versions.mp hentry'
        have hall := List.all_eq_true.mp hdrop.2 table ht
        rw [hfound] at hall
        have hdeleted : entry'.deleted = false := by
          cases hd : entry'.deleted with
          | false => rfl
          | true => simp [Entry.live, hd] at hlive
        simpa [hdeleted] using hall
    · refine Or.inl ?_
      rw [Option.filter_some_pos]
      simpa [not_and, imp_iff_not_or] using hdrop

end Reading

end NebulaKV.Lsm
