/-
# The order of the memtables

A lookup stops at the first memtable that has the key, and a write is refused unless its sequence
number is newer than the one it replaces. Both are right because of ONE order (`Ordered`): every entry
of a newer table carries a larger sequence number than every entry of an older one, and none exceeds
the last number given out.

A write stores one entry in the active table and may then ROTATE it; rotation and the discarding of
old tables keep the order, and a rotation does not change what a lookup finds.
-/
import NebulaKV.Lsm.TableContents

namespace NebulaKV.Lsm

open Containers

namespace MemTable

/-- Every entry of the first table is newer than every entry of the second. -/
def Above (newer older : MemTable) : Prop :=
  ∀ record ∈ newer.snapshot, ∀ record' ∈ older.snapshot,
    record'.2.sequenceNumber < record.2.sequenceNumber

variable {table : MemTable}

theorem mem_store {key : Bytes} {entry : Entry} {usage : Nat} {record : Bytes × Entry}
    (h : record ∈ (table.store key entry usage).snapshot) :
    record = (key, entry) ∨ record ∈ table.snapshot :=
  OrderedMap.mem_insert h

theorem store_ne_nil (table : MemTable) (key : Bytes) (entry : Entry) (usage : Nat) :
    (table.store key entry usage).snapshot ≠ [] := by
  have hfind : (table.entries.insert key entry).find? key = some entry := by
    rw [OrderedMap.find?_insert, if_pos rfl]
  exact List.ne_nil_of_mem (OrderedMap.find?_eq_some_iff.mp hfind)

/-- Neither error of `insert_or_assign` is thrown for a newer entry. -/
theorem insertOrAssign_ok {key : Bytes} {entry : Entry} (hmutable : table.immutable = false)
    (hnewer : ∀ record ∈ table.snapshot, record.2.sequenceNumber < entry.sequenceNumber) :
    ∃ usage, table.insertOrAssign key entry = .ok (table.store key entry usage) := by
  have hcheck : table.ensureMutable = .ok () := by simp [ensureMutable, hmutable]
  unfold insertOrAssign
  rw [hcheck]
  cases hfind : table.entries.find? key with
  | none => exact ⟨_, rfl⟩
  | some existing =>
    have hlt := hnewer (key, existing) (OrderedMap.find?_eq_some_iff.mp hfind)
    exact ⟨_, if_neg (not_le.mpr hlt)⟩

theorem empty_iff : table.empty = true ↔ table.snapshot = [] :=
  List.isEmpty_iff

end MemTable

namespace MemTableSet

/-- An entry of one of the tables. -/
def Contains (set : MemTableSet) (record : Bytes × Entry) : Prop :=
  ∃ table ∈ set.tables, record ∈ table.snapshot

/-- What the first table with the key holds for it. -/
def entryFor (set : MemTableSet) (key : Bytes) : Option Entry :=
  set.tables.findSome? fun table => table.entries.find? key

/-- All entries of all tables, counted. -/
def entryTotal (set : MemTableSet) : Nat := (set.tables.map MemTable.entryCount).sum

/-- **The order of the memtables.** -/
structure Ordered (set : MemTableSet) : Prop where
  mutable : set.active.immutable = false
  frozen : ∀ table ∈ set.immutableTables, table.immutable = true
  nonempty : ∀ table ∈ set.immutableTables, table.snapshot ≠ []
  recency : set.tables.Pairwise MemTable.Above
  generations : set.tables.Pairwise fun newer older => older.generation < newer.generation
  bound : ∀ record, set.Contains record → record.2.sequenceNumber ≤ set.lastSequenceNumber
  valid : ∀ record, set.Contains record → ValidRecord record
  next : set.nextGeneration = (set.active.generation + 1) % u64

variable {set set' : MemTableSet} {key : Bytes} {entry : Entry}
variable {record : Bytes × Entry}

theorem contains_of_active (h : record ∈ set.active.snapshot) : set.Contains record :=
  ⟨set.active, by simp [tables], h⟩

theorem contains_of_immutable {table : MemTable} (ht : table ∈ set.immutableTables)
    (h : record ∈ table.snapshot) : set.Contains record :=
  ⟨table, by simp [tables, ht], h⟩

theorem create_contains {options : MemTableOptions} (h : create options = .ok set) :
    ¬ set.Contains record := by
  unfold create at h
  split_ifs at h
  obtain rfl := Except.ok.inj h
  rintro ⟨table, ht, hrecord⟩
  obtain rfl := List.mem_singleton.mp ht
  cases hrecord

theorem create_ordered {options : MemTableOptions} (h : create options = .ok set) :
    set.Ordered := by
  have hnone : ∀ record, ¬ set.Contains record := fun _ => create_contains h
  unfold create at h
  split_ifs at h
  obtain rfl := Except.ok.inj h
  exact ⟨rfl, fun _ ht => (by cases ht), fun _ ht => (by cases ht), List.pairwise_singleton _ _,
    List.pairwise_singleton _ _, fun record hrecord => absurd hrecord (hnone record),
    fun record hrecord => absurd hrecord (hnone record), rfl⟩

/-! ## Lookups -/

theorem contains_of_entryFor (h : set.entryFor key = some entry) : set.Contains (key, entry) := by
  obtain ⟨table, ht, hfind⟩ := List.exists_of_findSome?_eq_some h
  exact ⟨table, ht, OrderedMap.find?_eq_some_iff.mp hfind⟩

theorem firstHit_eq {α : Type} {look : MemTable → Except Error (Option α)}
    {found : MemTable → Option α} {tables : List MemTable}
    (h : ∀ table, look table = .ok (found table)) :
    firstHit look tables = .ok (tables.findSome? found) := by
  induction tables with
  | nil => rfl
  | cons table rest ih =>
    unfold firstHit
    rw [h table, List.findSome?_cons]
    cases found table with
    | some a => rfl
    | none => exact ih

theorem latestEntry_eq (set : MemTableSet) (hkey : ValidKey key) :
    set.latestEntry key = .ok (set.entryFor key) := by
  unfold latestEntry latestEntryWithoutValidation
  rw [validateKey_eq_ok.mpr hkey]
  refine firstHit_eq fun table => ?_
  unfold MemTable.getEntry
  rw [validateKey_eq_ok.mpr hkey]
  rfl

theorem latestState_eq (set : MemTableSet) (hkey : ValidKey key) :
    set.latestStateWithoutValidation key = .ok (set.tables.findSome? fun table =>
      (table.entries.find? key).map fun entry =>
        if entry.deleted then LookupState.Tombstone else LookupState.Value) := by
  refine firstHit_eq fun table => ?_
  unfold MemTable.lookupState
  rw [validateKey_eq_ok.mpr hkey]
  rfl

/-! ## Rotation -/

/-- The set is as it was, or its active table, which was not empty, has been rotated. -/
def Rotated (set set' : MemTableSet) : Prop :=
  set' = set ∨ set.active.snapshot ≠ [] ∧ set' = set.rotate

theorem rotateIfRequired_rotated (set : MemTableSet) : Rotated set set.rotateIfRequired := by
  unfold rotateIfRequired
  split_ifs with h₁ h₂
  · exact Or.inl rfl
  · exact Or.inl rfl
  · exact Or.inr ⟨fun h => h₂ (MemTable.empty_iff.mpr h), rfl⟩

theorem rotateActive_rotated (set : MemTableSet) : Rotated set set.rotateActive.2 := by
  unfold rotateActive
  split_ifs with h
  · exact Or.inl rfl
  · exact Or.inr ⟨fun hnil => h (MemTable.empty_iff.mpr hnil), rfl⟩

theorem contains_rotate : set.rotate.Contains record ↔ set.Contains record := by
  simp [Contains, tables, rotate, MemTable.snapshot, MemTable.freeze, OrderedMap.empty]

theorem entryFor_rotate (set : MemTableSet) (key : Bytes) : set.rotate.entryFor key = set.entryFor key := by
  simp [entryFor, tables, rotate, MemTable.freeze, List.findSome?_cons]

theorem entryTotal_rotate (set : MemTableSet) : set.rotate.entryTotal = set.entryTotal := by
  simp [entryTotal, tables, rotate, MemTable.freeze, MemTable.entryCount, OrderedMap.size,
    OrderedMap.empty]

theorem Rotated.entryFor_eq (h : Rotated set set') (key : Bytes) :
    set'.entryFor key = set.entryFor key := by
  rcases h with rfl | ⟨-, rfl⟩
  · rfl
  · exact entryFor_rotate set key

theorem Rotated.contains_iff (h : Rotated set set') :
    set'.Contains record ↔ set.Contains record := by
  rcases h with rfl | ⟨-, rfl⟩
  · rfl
  · exact contains_rotate

theorem Rotated.entryTotal_eq (h : Rotated set set') : set'.entryTotal = set.entryTotal := by
  rcases h with rfl | ⟨-, rfl⟩
  · rfl
  · exact entryTotal_rotate set

theorem Rotated.last_eq (h : Rotated set set') :
    set'.lastSequenceNumber = set.lastSequenceNumber := by
  rcases h with rfl | ⟨-, rfl⟩ <;> rfl

theorem Rotated.length_le (h : Rotated set set') :
    set'.immutableTables.length ≤ set.immutableTables.length + 1 := by
  rcases h with rfl | ⟨-, rfl⟩
  · exact Nat.le_succ _
  · exact le_rfl

/-- A generation counter that does not wrap around keeps the order. -/
theorem Ordered.rotate (h : set.Ordered) (hne : set.active.snapshot ≠ [])
    (hroom : set.active.generation + 1 < u64) : set.rotate.Ordered := by
  have hnext : set.nextGeneration = set.active.generation + 1 := by
    rw [h.next, Nat.mod_eq_of_lt hroom]
  have hrecency := List.pairwise_cons.mp h.recency
  have hgenerations := List.pairwise_cons.mp h.generations
  refine ⟨rfl, ?_, ?_, ?_, ?_, ?_, ?_, rfl⟩
  · exact List.forall_mem_cons.mpr ⟨rfl, h.frozen⟩
  · exact List.forall_mem_cons.mpr ⟨hne, h.nonempty⟩
  · -- the new table is empty, the frozen one holds what the active one held
    refine List.pairwise_cons.mpr ⟨fun table _ record hrec => ?_, ?_⟩
    · cases hrec
    · exact List.pairwise_cons.mpr ⟨hrecency.1, hrecency.2⟩
  · refine List.pairwise_cons.mpr ⟨fun table ht => ?_, ?_⟩
    · show table.generation < set.nextGeneration
      rcases List.mem_cons.mp ht with rfl | ht
      · show set.active.generation < set.nextGeneration
        omega
      · have := hgenerations.1 table ht
        omega
    · exact List.pairwise_cons.mpr ⟨hgenerations.1, hgenerations.2⟩
  · exact fun record hrec => h.bound record (contains_rotate.mp hrec)
  · exact fun record hrec => h.valid record (contains_rotate.mp hrec)

/-! ## Writing -/

/-- The set with an entry stored in its active table, before any rotation. -/
def stored (set : MemTableSet) (key : Bytes) (entry : Entry) (usage liveKeyCount : Nat) :
    MemTableSet :=
  { set with
    active := set.active.store key entry usage
    liveKeyCount := liveKeyCount
    lastSequenceNumber := set.lastSequenceNumber + 1 }

section Stored

variable {usage liveKeyCount : Nat}

theorem contains_stored {record : Bytes × Entry}
    (h : (set.stored key entry usage liveKeyCount).Contains record) :
    record = (key, entry) ∨ set.Contains record := by
  obtain ⟨table, ht, hrec⟩ := h
  rcases List.mem_cons.mp ht with rfl | ht
  · exact (MemTable.mem_store hrec).imp_right contains_of_active
  · exact Or.inr (contains_of_immutable ht hrec)

theorem entryFor_stored (k : Bytes) :
    (set.stored key entry usage liveKeyCount).entryFor k =
      if k = key then some entry else set.entryFor k := by
  simp only [entryFor, tables, stored, MemTable.store, List.findSome?_cons, OrderedMap.find?_insert]
  split_ifs <;> rfl

theorem entryTotal_stored_le :
    (set.stored key entry usage liveKeyCount).entryTotal ≤ set.entryTotal + 1 := by
  have hsize := OrderedMap.size_insert set.active.entries key entry
  simp only [entryTotal, tables, stored, MemTable.store, MemTable.entryCount, List.map_cons,
    List.sum_cons, hsize]
  split_ifs <;> omega

theorem Ordered.stored (h : set.Ordered) (hvalid : ValidRecord (key, entry))
    (hseq : entry.sequenceNumber = set.lastSequenceNumber + 1) :
    (set.stored key entry usage liveKeyCount).Ordered := by
  have hrecency := List.pairwise_cons.mp h.recency
  refine ⟨h.mutable, h.frozen, h.nonempty, ?_, ?_, ?_, ?_, h.next⟩
  · refine List.pairwise_cons.mpr ⟨fun table ht record hrec record' hrec' => ?_, hrecency.2⟩
    rcases MemTable.mem_store hrec with rfl | hrec
    · -- the new number exceeds all that were given out
      have := h.bound record' (contains_of_immutable ht hrec')
      show record'.2.sequenceNumber < entry.sequenceNumber
      omega
    · exact hrecency.1 table ht record hrec record' hrec'
  · exact List.pairwise_cons.mpr (List.pairwise_cons.mp h.generations)
  · intro record hrec
    show record.2.sequenceNumber ≤ set.lastSequenceNumber + 1
    rcases contains_stored hrec with rfl | hrec
    · exact hseq.le
    · exact (h.bound record hrec).trans (Nat.le_succ _)
  · intro record hrec
    rcases contains_stored hrec with rfl | hrec
    · exact hvalid
    · exact h.valid record hrec

end Stored

theorem nextSequenceNumber_ok (hroom : set.lastSequenceNumber ≠ u64 - 1) :
    set.nextSequenceNumber = .ok (set.lastSequenceNumber + 1) :=
  if_neg hroom

/-- The active table takes an entry with the next number. -/
theorem Ordered.insertOrAssign_ok (h : set.Ordered) (key : Bytes) (entry : Entry)
    (hseq : entry.sequenceNumber = set.lastSequenceNumber + 1) :
    ∃ usage, set.active.insertOrAssign key entry = .ok (set.active.store key entry usage) := by
  refine MemTable.insertOrAssign_ok h.mutable fun record hrec => ?_
  have := h.bound record (contains_of_active hrec)
  omega

/-- **A write** is a store, and then perhaps a rotation. -/
theorem Ordered.put_eq (h : set.Ordered) {value : Bytes} (hkey : ValidKey key)
    (hvalue : ValidValue value) (hroom : set.lastSequenceNumber ≠ u64 - 1) :
    ∃ usage liveKeyCount, set.put key value = .ok
      (set.stored key ⟨value, set.lastSequenceNumber + 1, false⟩ usage
        liveKeyCount).rotateIfRequired := by
  obtain ⟨usage, hinsert⟩ := h.insertOrAssign_ok key
    ⟨value, set.lastSequenceNumber + 1, false⟩ rfl
  have htable : set.active.put key value (set.lastSequenceNumber + 1) =
      .ok (set.active.store key ⟨value, set.lastSequenceNumber + 1, false⟩ usage) := by
    unfold MemTable.put
    rw [validateKey_eq_ok.mpr hkey, validateValue_eq_ok.mpr hvalue]
    exact hinsert
  exact ⟨usage, _, bind_ok (validateKey_eq_ok.mpr hkey) <|
    bind_ok (validateValue_eq_ok.mpr hvalue) <| bind_ok (set.latestState_eq hkey) <|
    bind_ok (nextSequenceNumber_ok hroom) <| bind_ok htable rfl⟩

theorem Ordered.tombstone_ok (h : set.Ordered) (hkey : ValidKey key) :
    ∃ usage, set.active.addTombstone key (set.lastSequenceNumber + 1) =
      .ok (set.active.store key ⟨[], set.lastSequenceNumber + 1, true⟩ usage) := by
  unfold MemTable.addTombstone
  rw [validateKey_eq_ok.mpr hkey]
  exact h.insertOrAssign_ok key ⟨[], set.lastSequenceNumber + 1, true⟩ rfl

theorem Ordered.addTombstone_eq (h : set.Ordered) (hkey : ValidKey key)
    (hroom : set.lastSequenceNumber ≠ u64 - 1) :
    ∃ usage liveKeyCount, set.addTombstone key = .ok
      (set.stored key ⟨[], set.lastSequenceNumber + 1, true⟩ usage
        liveKeyCount).rotateIfRequired := by
  obtain ⟨usage, htable⟩ := h.tombstone_ok hkey
  exact ⟨usage, _, bind_ok (validateKey_eq_ok.mpr hkey) <| bind_ok (set.latestState_eq hkey) <|
    bind_ok (nextSequenceNumber_ok hroom) <| bind_ok htable rfl⟩

/-! ## Discarding -/

theorem Ordered.of_sublist (h : set.Ordered) {kept : List MemTable}
    (hsub : kept.Sublist set.immutableTables) : Ordered { set with immutableTables := kept } := by
  have htables : (set.active :: kept).Sublist set.tables := hsub.cons_cons _
  have hcontains : ∀ record, Contains { set with immutableTables := kept } record →
      set.Contains record := fun record ⟨table, ht, hrec⟩ => ⟨table, htables.subset ht, hrec⟩
  exact ⟨h.mutable, fun table ht => h.frozen table (hsub.subset ht),
    fun table ht => h.nonempty table (hsub.subset ht), h.recency.sublist htables,
    h.generations.sublist htables, fun record hrec => h.bound record (hcontains record hrec),
    fun record hrec => h.valid record (hcontains record hrec), h.next⟩

/-- Discarding by generation takes out the very table that was flushed. -/
theorem Ordered.discardImmutable_oldest (h : set.Ordered) {newer : List MemTable}
    {oldest : MemTable} (hsplit : set.immutableTables = newer ++ [oldest]) :
    set.discardImmutable oldest.generation = (true, { set with immutableTables := newer }) := by
  have hgenerations := (List.pairwise_cons.mp h.generations).2
  rw [hsplit] at hgenerations
  have hother : ∀ table ∈ newer, table.generation ≠ oldest.generation := fun table ht =>
    ((List.pairwise_append.mp hgenerations).2.2 table ht oldest (by simp)).ne'
  unfold discardImmutable
  rw [if_pos (by simp [hsplit]), hsplit, List.eraseP_append_right _ (by simpa using hother)]
  simp

end MemTableSet

end NebulaKV.Lsm
