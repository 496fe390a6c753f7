/-
# File ids run out

Every table that is written takes a file id, also one that a compaction removes again, and
`reserve_file_id` refuses to hand out the last one. With a memory limit of one byte each write freezes
its memtable and flushes it, so that file ids are gone before the sequence numbers are.
-/
import NebulaKV.Lsm.StoreMap

namespace NebulaKV.Lsm

open Containers Effects Program

namespace PersistentKeyValueStore

variable {store : PersistentKeyValueStore}

/-- Nothing has been written to the active memtable. -/
def Fresh (set : MemTableSet) : Prop := ∃ generation, set.active = { generation := generation }

theorem put_rotates {set set' : MemTableSet} {key value : Bytes} (hfresh : Fresh set)
    (hlimit : set.maxMemoryBytes = 1) (hsmall : key.length + value.length < 1024)
    (hput : set.put key value = .ok set') :
    set'.immutableTables.length = set.immutableTables.length + 1 ∧ Fresh set' ∧
      set'.maxMemoryBytes = 1 := by
  obtain ⟨generation, hactive⟩ := hfresh
  unfold MemTableSet.put at hput
  obtain ⟨_, -, hput⟩ := bind_eq_ok.mp hput
  obtain ⟨_, -, hput⟩ := bind_eq_ok.mp hput
  obtain ⟨previousState, -, hput⟩ := bind_eq_ok.mp hput
  obtain ⟨sequenceNumber, -, hput⟩ := bind_eq_ok.mp hput
  obtain ⟨table, htable, hput⟩ := bind_eq_ok.mp hput
  -- one entry is more than a byte
  have husage : 1 ≤ table.approximateMemoryUsage ∧ table.empty = false := by
    rw [hactive] at htable
    obtain ⟨_, -, htable⟩ := bind_eq_ok.mp htable
    obtain ⟨_, -, htable⟩ := bind_eq_ok.mp htable
    obtain ⟨_, -, htable⟩ := bind_eq_ok.mp htable
    obtain rfl := Except.ok.inj htable
    refine ⟨?_, rfl⟩
    show 1 ≤ (0 + MemTable.estimatedEntrySize key _) % u64
    unfold MemTable.estimatedEntrySize MemTable.sizeofValueType MemTable.kTreeNodeOverhead u64
    dsimp only
    omega
  obtain rfl := Except.ok.inj hput
  unfold MemTableSet.wrote MemTableSet.rotateIfRequired
  dsimp only
  rw [hlimit, if_neg (not_lt.mpr husage.1), husage.2, if_neg (by decide)]
  exact ⟨rfl, ⟨_, rfl⟩, rfl⟩

/-- The store of a node with a memory limit of one byte, after some writes. -/
structure Spent (writes : Nat) (store : PersistentKeyValueStore) : Prop where
  refines : ∃ reference, Refines store reference ∧ reference.writes = writes
  fresh : Fresh store.memtables
  limit : store.memtables.maxMemoryBytes = 1
  ids : writes < store.sstables.nextFileId

theorem Spent.of_create {options : PersistentStoreOptions} (hlimit : options.memtableMaxBytes = 1)
    (h : create options OrderedMap.empty {} [] = .ok store) : Spent 0 store := by
  have hrefines := (create_refines h).1
  have hids := hrefines.sound.sstables.idPos
  obtain ⟨manager, -, h⟩ := bind_eq_ok.mp h
  obtain ⟨memtables, hmemtables, h⟩ := bind_eq_ok.mp h
  obtain rfl := Except.ok.inj h
  unfold MemTableSet.create at hmemtables
  split_ifs at hmemtables
  obtain rfl := Except.ok.inj hmemtables
  exact ⟨⟨_, hrefines, rfl⟩, ⟨_, rfl⟩, hlimit, hids⟩

/-- Each write that returns has cost an id. -/
theorem Spent.put {writes : Nat} (h : Spent writes store) {key value : Bytes} (hkey : ValidKey key)
    (hvalue : ValidValue value) (hsmall : key.length + value.length < 1024)
    (hroom : writes < u64 - 1) :
    Outcome (fun _ s => Spent (writes + 1) s) (fun _ => True) (put key value store) := by
  obtain ⟨reference, hrefines, rfl⟩ := h.refines
  obtain ⟨s₁, s, hlooked, hset, hsstables, hput, hs, -⟩ := hrefines.put_wrote hkey hvalue hroom
  have hfresh : Fresh s₁.memtables := h.fresh.imp fun _ hactive => hlooked.active.trans hactive
  obtain ⟨hfrozen, ⟨generation, hactive⟩, hlimit⟩ :=
    put_rotates hfresh (hlooked.memory.trans h.limit) hsmall hset
  rw [hput]
  refine hs.sound.settle_outcome.mono (fun _ s' hsettled => ?_) fun _ _ => trivial
  have hwrites : (reference.put key value).writes = reference.writes + 1 := by
    unfold Reference.put
    rw [if_pos ⟨hkey, hvalue, hroom⟩]
  refine ⟨⟨_, hs.settles hsettled.settles, hwrites⟩,
    ⟨generation, hsettled.settles.active.trans hactive⟩, hsettled.settles.memory.trans hlimit, ?_⟩
  -- the table that was frozen has had its id by now
  have hbefore := h.ids
  have hlook := hlooked.due
  have hpaid := hsettled.settles.due
  unfold idsDue at hlook hpaid
  rw [hsettled.flushed, hfrozen, hsstables, List.length_nil] at hpaid
  omega

end PersistentKeyValueStore

end NebulaKV.Lsm
