/-
# What the store does between its answers

After a write the store flushes what has been frozen and compacts; none of that changes what a reader
finds. `Settles` says it once, together with what the work costs: file ids and manifest generations are
spent, but each flush pays with a memtable and each compaction with a Level-0 table, so a potential
(`idCost`, `commitCost`) never grows by more than the one id that a failed write may waste. Nor is an id
ever given back (`idsDue`).

What fails does so at a limit of the store (`AtLimit`), and leaves a sound store behind.
-/
import NebulaKV.Lsm.ManagerSteps
import NebulaKV.Lsm.MemTableOrder

namespace NebulaKV.Lsm

open Containers Effects Program Versioned

namespace MemTableSet

/-- Memtable generations do not run away from the sequence numbers: a table has an entry before it is
rotated. In a store that began empty they are not ahead at all; reopening a directory may put them
ahead by a `lag`, as it takes its sequence numbers from the entries that compactions have left. -/
structure Paced (set : MemTableSet) (lag : Nat := 0) : Prop where
  last_lt : set.lastSequenceNumber + lag < u64
  active_le : set.active.generation ≤ set.lastSequenceNumber + lag
  active_lt : set.active.snapshot ≠ [] → set.active.generation < set.lastSequenceNumber + lag
  frozen_lt : ∀ table ∈ set.immutableTables, table.generation < set.lastSequenceNumber + lag

variable {set set' : MemTableSet} {lag : Nat}
variable {newer : List MemTable} {oldest : MemTable}

theorem Rotated.ordered (h : Rotated set set') (hordered : set.Ordered) (hpaced : set.Paced lag) :
    set'.Ordered ∧ set'.Paced lag := by
  rcases h with rfl | ⟨hne, rfl⟩
  · exact ⟨hordered, hpaced⟩
  · have hlt := hpaced.active_lt hne
    have hlast := hpaced.last_lt
    have hnext : set.nextGeneration = set.active.generation + 1 := by
      rw [hordered.next, Nat.mod_eq_of_lt (by omega)]
    refine ⟨hordered.rotate hne (by omega), hlast, ?_, fun hnil => absurd rfl hnil, ?_⟩
    · show set.nextGeneration ≤ set.lastSequenceNumber + lag
      omega
    · exact List.forall_mem_cons.mpr ⟨hlt, hpaced.frozen_lt⟩

theorem Paced.stored (h : set.Paced lag) (hroom : set.lastSequenceNumber + lag ≠ u64 - 1)
    (key : Bytes) (entry : Entry) (usage liveKeyCount : Nat) :
    (set.stored key entry usage liveKeyCount).Paced lag := by
  have hlast := h.last_lt
  have hactive := h.active_le
  refine ⟨?_, ?_, fun _ => ?_, fun table ht => ?_⟩
  · show set.lastSequenceNumber + 1 + lag < u64
    omega
  · show set.active.generation ≤ set.lastSequenceNumber + 1 + lag
    omega
  · show set.active.generation < set.lastSequenceNumber + 1 + lag
    omega
  · have hfrozen := h.frozen_lt table ht
    show table.generation < set.lastSequenceNumber + 1 + lag
    omega

/-- Without the oldest frozen table. -/
theorem entryFor_oldest (hsplit : set.immutableTables = newer ++ [oldest]) (key : Bytes) :
    set.entryFor key = (entryFor { set with immutableTables := newer } key).or
      (oldest.entries.find? key) := by
  unfold entryFor tables
  rw [hsplit, ← List.cons_append, List.findSome?_append]
  simp

theorem contains_of_newer (hsplit : set.immutableTables = newer ++ [oldest])
    {record : Bytes × Entry} (h : Contains { set with immutableTables := newer } record) :
    set.Contains record := by
  obtain ⟨table, ht, hrec⟩ := h
  rcases List.mem_cons.mp ht with rfl | ht
  · exact contains_of_active hrec
  · exact contains_of_immutable (hsplit ▸ List.mem_append_left _ ht) hrec

/-- The oldest frozen table is below all others. -/
theorem Ordered.above_oldest (h : set.Ordered) (hsplit : set.immutableTables = newer ++ [oldest])
    {record : Bytes × Entry} (hrec : Contains { set with immutableTables := newer } record) :
    ∀ record' ∈ oldest.snapshot, record'.2.sequenceNumber < record.2.sequenceNumber := by
  obtain ⟨table, ht, hrec⟩ := hrec
  have hrecency := h.recency
  unfold tables at hrecency
  rw [hsplit, ← List.cons_append] at hrecency
  exact (List.pairwise_append.mp hrecency).2.2 table ht oldest (by simp) record hrec

end MemTableSet

namespace PersistentKeyValueStore

variable {store s s' : PersistentKeyValueStore} {manager : SSTableManager} {slack slack' lag : Nat}
variable {oldest : MemTable} {key : Bytes}

/-! ## A sound store -/

/-- What a lookup finds: memory first, then the newest on disk. -/
def entryFor (store : PersistentKeyValueStore) (key : Bytes) : Option Entry :=
  (store.memtables.entryFor key).or (newestEntry store.sstables.readers key)

/-- The value a reader sees. -/
def value? (store : PersistentKeyValueStore) (key : Bytes) : Option Bytes :=
  (store.entryFor key).bind Entry.live

/-- **The invariant.** What is in memory is newer than what is on disk. -/
structure Sound (store : PersistentKeyValueStore) (lag : Nat := 0) : Prop where
  memtables : store.memtables.Ordered
  paced : store.memtables.Paced lag
  sstables : store.sstables.Good
  newer : ∀ record, Stored store.sstables.readers record →
    ∀ record', store.memtables.Contains record' →
      record.2.sequenceNumber < record'.2.sequenceNumber
  bound : ∀ record, Stored store.sstables.readers record →
    record.2.sequenceNumber ≤ store.memtables.lastSequenceNumber
  few : store.sstables.readers.length ≤ kMaximumManifestTables

def idCost (store : PersistentKeyValueStore) : Nat :=
  store.sstables.nextFileId + 2 * store.memtables.immutableTables.length +
    store.sstables.levelTableCount .Level0

/-- The ids that are gone, and those that frozen tables will take. -/
def idsDue (store : PersistentKeyValueStore) : Nat :=
  store.sstables.nextFileId + store.memtables.immutableTables.length

def commitCost (store : PersistentKeyValueStore) : Nat :=
  store.sstables.manifest.currentGeneration + 2 * store.memtables.immutableTables.length +
    store.sstables.levelTableCount .Level0

/-- The tables on disk, and those that will be. -/
def tableTotal (store : PersistentKeyValueStore) : Nat :=
  store.sstables.readers.length + store.memtables.immutableTables.length

def entryTotal (store : PersistentKeyValueStore) : Nat :=
  store.memtables.entryTotal + entriesOf store.sstables.readers

/-- A table that the store would write, for a frozen memtable or for a compaction, is too large. -/
def Oversized (store : PersistentKeyValueStore) : Prop :=
  (∃ table ∈ store.memtables.immutableTables, store.sstables.Oversized table.snapshot) ∨
    ∃ forceAll, store.sstables.Oversized
      (SSTableManager.compacted (store.sstables.selectLevel0Compaction forceAll))

/-- **A limit of the store**: sequence numbers, file ids or manifest generations are used up, the
manifest is full, or the next table is too large. -/
def AtLimit (store : PersistentKeyValueStore) : Prop :=
  store.memtables.lastSequenceNumber = u64 - 1 ∨ store.sstables.nextFileId = u64 - 1 ∨
    store.sstables.Crowded ∨ store.Oversized

/-- **Work behind the reader's back**: nothing a reader can see has changed. -/
structure Settles (slack : Nat) (store s : PersistentKeyValueStore) (lag : Nat := 0) : Prop where
  sound : s.Sound lag
  value_eq : ∀ key, s.value? key = store.value? key
  liveKeyCount : s.liveKeyCount = store.liveKeyCount
  active : s.memtables.active = store.memtables.active
  last : s.memtables.lastSequenceNumber = store.memtables.lastSequenceNumber
  automatic : s.automaticCompactionEnabled = store.automaticCompactionEnabled
  memory : s.memtables.maxMemoryBytes = store.memtables.maxMemoryBytes
  due : store.idsDue ≤ s.idsDue
  ids : s.idCost ≤ store.idCost + slack
  commits : s.commitCost ≤ store.commitCost + slack
  tables : s.tableTotal ≤ store.tableTotal
  entries : s.entryTotal ≤ store.entryTotal

theorem Settles.refl (h : store.Sound lag) : Settles 0 store store lag :=
  ⟨h, fun _ => rfl, rfl, rfl, rfl, rfl, rfl, le_rfl, le_rfl, le_rfl, le_rfl, le_rfl⟩

theorem Settles.trans (h : Settles slack store s lag) (h' : Settles slack' s s' lag) :
    Settles (slack + slack') store s' lag where
  sound := h'.sound
  value_eq := fun key => (h'.value_eq key).trans (h.value_eq key)
  liveKeyCount := h'.liveKeyCount.trans h.liveKeyCount
  active := h'.active.trans h.active
  last := h'.last.trans h.last
  automatic := h'.automatic.trans h.automatic
  memory := h'.memory.trans h.memory
  due := h.due.trans h'.due
  ids := by
    have := h.ids
    have := h'.ids
    omega
  commits := by
    have := h.commits
    have := h'.commits
    omega
  tables := h'.tables.trans h.tables
  entries := h'.entries.trans h.entries

/-- Work that succeeded comes before work that may fail. -/
theorem Settles.then (h : Settles 0 store s lag) (h' : Settles slack s s' lag) :
    Settles slack store s' lag := by
  have := h.trans h'
  rwa [Nat.zero_add] at this

theorem Settles.withWal (h : Settles slack store s lag) (wal : List WalRecord) :
    Settles slack store { s with wal := wal } lag :=
  ⟨⟨h.sound.memtables, h.sound.paced, h.sound.sstables, h.sound.newer, h.sound.bound, h.sound.few⟩,
    h.value_eq, h.liveKeyCount, h.active, h.last, h.automatic, h.memory, h.due, h.ids, h.commits,
    h.tables, h.entries⟩

/-- The tables are the same. -/
theorem Sound.kept (h : store.Sound lag) (hkept : SSTableManager.Kept store.sstables manager)
    (hid : manager.nextFileId ≤ store.sstables.nextFileId + slack) :
    Settles slack store { store with sstables := manager } lag := by
  have hreaders := hkept.readers
  refine ⟨⟨h.memtables, h.paced, hkept.good h.sstables, ?_, ?_, ?_⟩, fun key => ?_, rfl, rfl, rfl, rfl,
    rfl, Nat.add_le_add_right hkept.idLe _, ?_, ?_, ?_, ?_⟩
  · dsimp only
    rw [hreaders]
    exact h.newer
  · dsimp only
    rw [hreaders]
    exact h.bound
  · dsimp only
    rw [hreaders]
    exact h.few
  · unfold value? entryFor
    rw [hreaders]
  · unfold idCost SSTableManager.levelTableCount
    rw [hreaders]
    dsimp only
    omega
  · unfold commitCost SSTableManager.levelTableCount
    rw [hreaders, hkept.manifest]
    exact Nat.le_add_right _ _
  · unfold tableTotal
    rw [hreaders]
  · unfold entryTotal
    rw [hreaders]

theorem atLimit_of_exhausted {records : Snapshot} (hkept : SSTableManager.Kept store.sstables manager)
    (hexhausted : store.sstables.Exhausted records)
    (hrecords : manager.Oversized records → Oversized { store with sstables := manager }) :
    AtLimit { store with sstables := manager } := by
  rcases hexhausted with hid | hlarge | hcrowded
  · have := hkept.idLe
    have := hkept.idLt
    refine Or.inr (Or.inl ?_)
    dsimp only
    omega
  · exact Or.inr (Or.inr (Or.inr (hrecords (hlarge.same hkept.options))))
  · refine Or.inr (Or.inr (Or.inl ?_))
    unfold SSTableManager.Crowded at hcrowded ⊢
    rwa [hkept.manifest, hkept.readers]

/-- What is too large for one table has more than `2^32 - 1` entries. -/
theorem Sound.count_of_oversized (h : store.Sound lag) (hlarge : store.Oversized) :
    uint32Max < store.entryTotal := by
  rcases hlarge with ⟨table, ht, hlarge⟩ | ⟨forceAll, hlarge⟩
  · have hcount : uint32Max < table.entryCount := hlarge.count fun record hrec =>
      h.memtables.valid record (MemTableSet.contains_of_immutable ht hrec)
    have hle : table.entryCount ≤ store.memtables.entryTotal :=
      List.le_sum_of_mem (List.mem_map_of_mem (List.mem_cons_of_mem _ ht))
    unfold entryTotal
    omega
  · by_cases hnone : (store.sstables.selectLevel0Compaction forceAll).selected = []
    · have hempty : SSTableManager.compacted (store.sstables.selectLevel0Compaction forceAll) = [] := by
        unfold SSTableManager.compacted
        rw [hnone]
        rfl
      rw [hempty] at hlarge
      exact absurd (hlarge.count fun record hrec => by cases hrec) (by decide)
    · obtain ⟨hselects, -⟩ := h.sstables.selects hnone
      have hw : ∀ t ∈ (store.sstables.selectLevel0Compaction forceAll).selected,
          t.reader.WellFormed := fun t ht => h.sstables.proper.readable.wellFormed t
        (hselects.selected_mem _ ht)
      have hcount := hlarge.count fun record hrec => by
        obtain ⟨t, ht, hmem⟩ := SSTableManager.stored_of_compacted hw hrec
        exact (hw t ht).valid record hmem
      have hle := SSTableManager.length_compacted_le
        (store.sstables.selectLevel0Compaction forceAll)
      have hentries := entriesOf_perm hselects.perm
      rw [entriesOf_append] at hentries
      unfold entryTotal
      omega

/-! ## Reading -/

theorem Sound.latestEntry (h : store.Sound lag) (hkey : ValidKey key) :
    ∃ s, latestEntryWithoutValidation key store = (.ok (store.entryFor key), s) ∧
      Settles 0 store s lag ∧ s.tableTotal = store.tableTotal := by
  unfold latestEntryWithoutValidation
  rw [read_bind_apply, store.memtables.latestEntry_eq hkey, check_ok_bind]
  unfold entryFor
  cases store.memtables.entryFor key with
  | some entry => exact ⟨store, rfl, Settles.refl h, rfl⟩
  | none =>
    obtain ⟨cache, hcache, hget⟩ := h.sstables.get hkey
    refine ⟨{ store with sstables := { store.sstables with blockCache := cache } }, ?_,
      h.kept (h.sstables.kept.cached hcache) (Nat.le_refl _), rfl⟩
    rw [if_neg (by simp)]
    unfold withSSTables Program.zoom
    rw [hget]
    rfl

theorem Sound.get (h : store.Sound lag) (hkey : ValidKey key) :
    ∃ s, get key store = (.ok (store.value? key), s) ∧ Settles 0 store s lag := by
  obtain ⟨s, hentry, hsettles, -⟩ := h.latestEntry hkey
  refine ⟨s, ?_, hsettles⟩
  unfold PersistentKeyValueStore.get
  rw [validateKey_eq_ok.mpr hkey, check_ok_bind, bind_apply, hentry]
  rfl

theorem isSome_value? (store : PersistentKeyValueStore) (key : Bytes) :
    ((store.entryFor key).any fun entry => !entry.deleted) = (store.value? key).isSome := by
  unfold value?
  cases store.entryFor key with
  | none => rfl
  | some entry =>
    cases hdeleted : entry.deleted <;> simp [Entry.live, hdeleted]

theorem Sound.existsKey (h : store.Sound lag) (hkey : ValidKey key) :
    ∃ s, existsWithoutValidation key store = (.ok (store.value? key).isSome, s) ∧
      Settles 0 store s lag ∧ s.tableTotal = store.tableTotal := by
  obtain ⟨s, hentry, hs⟩ := h.latestEntry hkey
  refine ⟨s, ?_, hs⟩
  unfold existsWithoutValidation
  rw [bind_apply, hentry, ← isSome_value?]
  rfl

/-! ## Flushing -/

/-- The flushed table stands where the memtable stood. -/
theorem Sound.newestEntry_flushed (h : store.Sound lag)
    (hmem : oldest ∈ store.memtables.immutableTables)
    (hflushed : SSTableManager.Flushed store.sstables oldest.snapshot manager) (key : Bytes) :
    newestEntry manager.readers key =
      (oldest.entries.find? key).or (newestEntry store.sstables.readers key) := by
  obtain ⟨table, hperm, -, hwell, hcontents⟩ := hflushed.readers
  have hnewer : ∀ record, Stored store.sstables.readers record →
      ∀ record' ∈ table.reader.contents,
        record.2.sequenceNumber < record'.2.sequenceNumber := fun record hdisk record' hrec' =>
    h.newer record hdisk record' (MemTableSet.contains_of_immutable hmem (hcontents ▸ hrec'))
  rw [SSTableManager.newestEntry_flushed h.sstables.proper.readable.wellFormed hwell hnewer
    hflushed.good.proper.distinct hperm key, hcontents]
  rfl

/-- The store after a flush of its oldest frozen table. -/
theorem Sound.flushed (h : store.Sound lag) {newer : List MemTable}
    (hsplit : store.memtables.immutableTables = newer ++ [oldest])
    (hflushed : SSTableManager.Flushed store.sstables oldest.snapshot manager) :
    Settles 0 store { store with
      sstables := manager, memtables := { store.memtables with immutableTables := newer } } lag := by
  obtain ⟨table, hperm, hlevel, hwell, hcontents⟩ := hflushed.readers
  have hstored : ∀ record, Stored manager.readers record →
      record ∈ oldest.snapshot ∨ Stored store.sstables.readers record := by
    rintro record ⟨t, ht, hrec⟩
    rcases List.mem_cons.mp (hperm.mem_iff.mp ht) with rfl | ht
    · exact Or.inl (hcontents ▸ hrec)
    · exact Or.inr ⟨t, ht, hrec⟩
  have holdest : ∀ record ∈ oldest.snapshot, store.memtables.Contains record := fun record hrec =>
    MemTableSet.contains_of_immutable (hsplit ▸ by simp) hrec
  have hlevel0 : manager.levelTableCount .Level0 = store.sstables.levelTableCount .Level0 + 1 := by
    unfold SSTableManager.levelTableCount
    rw [hperm.countP_eq, List.countP_cons, if_pos (by simpa using hlevel)]
  have hlength : manager.readers.length = store.sstables.readers.length + 1 := hperm.length_eq
  have hsub : newer.Sublist store.memtables.immutableTables := by
    rw [hsplit]
    exact List.sublist_append_left _ _
  have himm : store.memtables.immutableTables.length = newer.length + 1 := by
    rw [hsplit, List.length_append, List.length_singleton]
  refine ⟨⟨h.memtables.of_sublist hsub, ⟨h.paced.last_lt, h.paced.active_le, h.paced.active_lt,
    fun t ht => h.paced.frozen_lt t (hsub.subset ht)⟩, hflushed.good, ?_, ?_, hflushed.few⟩,
    fun key => ?_, rfl, rfl, rfl, rfl, rfl, ?_, ?_, ?_, ?_, ?_⟩
  · intro record hrec record' hrec'
    rcases hstored record hrec with hold | hdisk
    · exact h.memtables.above_oldest hsplit hrec' record hold
    · exact h.newer record hdisk record' (MemTableSet.contains_of_newer hsplit hrec')
  · intro record hrec
    rcases hstored record hrec with hold | hdisk
    · exact h.memtables.bound record (holdest record hold)
    · exact h.bound record hdisk
  · have hnewest := h.newestEntry_flushed (hsplit ▸ by simp) hflushed key
    unfold value? entryFor
    rw [MemTableSet.entryFor_oldest hsplit, Option.or_assoc, ← hnewest]
  · unfold idsDue
    dsimp only
    rw [hflushed.nextFileId, himm]
    omega
  · unfold idCost
    dsimp only
    rw [hlevel0, hflushed.nextFileId, himm]
    omega
  · unfold commitCost
    dsimp only
    rw [hlevel0, hflushed.generation, himm]
    omega
  · unfold tableTotal
    dsimp only
    rw [hlength, himm]
    omega
  · unfold entryTotal MemTableSet.entryTotal MemTableSet.tables
    dsimp only
    rw [entriesOf_perm hperm, entriesOf_cons, hcontents, hsplit]
    simp only [List.map_cons, List.map_append, List.sum_cons, List.sum_append, List.map_nil,
      List.sum_nil, MemTable.entryCount, MemTable.snapshot, OrderedMap.size]
    omega

/-- What a flush of frozen tables does, and how it fails. -/
structure FlushFailed (store s : PersistentKeyValueStore) (lag : Nat := 0) : Prop where
  settles : Settles 1 store s lag
  atLimit : s.AtLimit
  total : s.tableTotal = store.tableTotal

theorem FlushFailed.after (h : Settles 0 store s lag) (htotal : s.tableTotal = store.tableTotal)
    (h' : FlushFailed s s' lag) : FlushFailed store s' lag :=
  ⟨h.then h'.settles, h'.atLimit, h'.total.trans htotal⟩

/-- A frozen table meets what `flush` asks. -/
theorem Sound.flush_oldest (h : store.Sound lag) (hmem : oldest ∈ store.memtables.immutableTables) :
    Outcome (fun _ s => SSTableManager.Flushed store.sstables oldest.snapshot s)
      (fun s => SSTableManager.Kept store.sstables s ∧
        store.sstables.Exhausted oldest.snapshot)
      (SSTableManager.flush oldest store.sstables) := by
  have hcontains : ∀ record ∈ oldest.snapshot, store.memtables.Contains record := fun record hrec =>
    MemTableSet.contains_of_immutable hmem hrec
  have hgeneration : oldest.generation < u64 - 1 := by
    have := h.paced.frozen_lt oldest hmem
    have := h.paced.last_lt
    omega
  exact SSTableManager.flush_outcome h.sstables (h.memtables.frozen oldest hmem)
    (h.memtables.nonempty oldest hmem)
    (fun record hrec => h.memtables.valid record (hcontains record hrec)) hgeneration
    (fun record hrec record' hrec' => h.newer record hrec record' (hcontains record' hrec'))

theorem Sound.flushOne_outcome (h : store.Sound lag) {newer : List MemTable}
    (hsplit : store.memtables.immutableTables = newer ++ [oldest]) :
    Outcome (fun _ s => Settles 0 store s lag ∧ s.memtables.immutableTables = newer ∧
        s.tableTotal = store.tableTotal)
      (fun s => FlushFailed store s lag) (flushOne oldest store) := by
  have hmem : oldest ∈ store.memtables.immutableTables := hsplit ▸ by simp
  unfold flushOne
  refine Outcome.bind ((Outcome.zoom (h.flush_oldest hmem)).mono (fun _ _ hq => hq) ?_) ?_
  · rintro s ⟨manager, ⟨hkept, hexhausted⟩, rfl⟩
    refine ⟨h.kept hkept hkept.idNext, atLimit_of_exhausted hkept hexhausted fun hlarge =>
      Or.inl ⟨oldest, hmem, hlarge⟩, ?_⟩
    unfold tableTotal
    rw [hkept.readers]
  · rintro metadata s ⟨manager, hflushed, rfl⟩
    rw [read_bind_apply, h.memtables.discardImmutable_oldest hsplit, if_pos rfl]
    rw [update_apply]
    dsimp only
    rw [h.memtables.discardImmutable_oldest hsplit]
    refine ⟨h.flushed hsplit hflushed, rfl, ?_⟩
    obtain ⟨table, hperm, -⟩ := hflushed.readers
    unfold tableTotal
    dsimp only
    rw [hsplit, hperm.length_eq, List.length_cons, List.length_append, List.length_singleton]
    omega

/-- All frozen tables, from the oldest on. -/
theorem Sound.flushAll_outcome {tables : List MemTable} (h : store.Sound lag)
    (hsplit : store.memtables.immutableTables = tables.reverse) :
    Outcome (fun _ s => Settles 0 store s lag ∧ s.memtables.immutableTables = [] ∧
        s.tableTotal = store.tableTotal)
      (fun s => FlushFailed store s lag) (Program.forEach flushOne tables store) := by
  induction tables generalizing store with
  | nil => exact ⟨Settles.refl h, hsplit, rfl⟩
  | cons oldest rest ih =>
    rw [List.reverse_cons] at hsplit
    unfold Program.forEach
    refine Outcome.bind (h.flushOne_outcome hsplit) ?_
    rintro _ s ⟨hsettles, himm, htotal⟩
    refine (ih hsettles.sound himm).mono ?_ fun s' hfailed => hfailed.after hsettles htotal
    rintro _ s' ⟨hsettles', himm', htotal'⟩
    exact ⟨hsettles.then hsettles', himm', htotal'.trans htotal⟩

theorem Sound.flushImmutable_outcome (h : store.Sound lag) :
    Outcome (fun _ s => Settles 0 store s lag ∧ s.memtables.immutableTables = [] ∧
        s.tableTotal = store.tableTotal)
      (fun s => FlushFailed store s lag) (flushImmutableMemtables store) := by
  unfold flushImmutableMemtables
  rw [read_bind_apply]
  exact h.flushAll_outcome (List.reverse_reverse _).symm

/-! ## Compacting -/

theorem Sound.shrunk (h : store.Sound lag) (hshrunk : SSTableManager.Shrunk store.sstables manager) :
    Settles 0 store { store with sstables := manager } lag := by
  have hlevel0 := hshrunk.level0
  refine ⟨⟨h.memtables, h.paced, hshrunk.good, fun record hrec => h.newer record
    (hshrunk.stored record hrec), fun record hrec => h.bound record (hshrunk.stored record hrec),
    hshrunk.length_le.trans h.few⟩, fun key => ?_, rfl, rfl, rfl, rfl, rfl,
    Nat.add_le_add_right hshrunk.idGe _, ?_, ?_, ?_, ?_⟩
  · have hshown := hshrunk.shown_eq key
    rw [shown_eq, shown_eq] at hshown
    unfold value? entryFor
    cases store.memtables.entryFor key with
    | some entry => rfl
    | none => exact hshown
  · have := hshrunk.idLe
    unfold idCost
    dsimp only
    omega
  · have := hshrunk.generation
    unfold commitCost
    dsimp only
    omega
  · exact Nat.add_le_add_right hshrunk.length_le _
  · exact Nat.add_le_add_left hshrunk.entries _

/-- How a compaction of the store ends. -/
def CompactFailed (store s : PersistentKeyValueStore) (lag : Nat := 0) : Prop :=
  Settles 1 store s lag ∧ s.AtLimit

theorem Sound.compact_failed (h : store.Sound lag)
    (hfailed : SSTableManager.Kept store.sstables manager ∧ ∃ forceAll, store.sstables.Exhausted
      (SSTableManager.compacted (store.sstables.selectLevel0Compaction forceAll))) :
    CompactFailed store { store with sstables := manager } lag := by
  obtain ⟨hkept, forceAll, hexhausted⟩ := hfailed
  refine ⟨h.kept hkept hkept.idNext, atLimit_of_exhausted hkept hexhausted fun hlarge =>
    Or.inr ⟨forceAll, ?_⟩⟩
  dsimp only
  rwa [hkept.selectLevel0Compaction_eq]

theorem Sound.compactWhileNeeded_outcome (h : store.Sound lag) (rounds : Nat) :
    Outcome (fun _ s => Settles 0 store s lag ∧ s.memtables = store.memtables)
      (fun s => CompactFailed store s lag)
      (compactWhileNeeded rounds store) := by
  induction rounds generalizing store with
  | zero => exact ⟨Settles.refl h, rfl⟩
  | succ rounds ih =>
    unfold compactWhileNeeded
    rw [read_bind_apply]
    split_ifs
    · refine Outcome.bind ((Outcome.zoom (SSTableManager.compactIfNeeded_outcome
        h.sstables)).mono (fun _ _ hq => hq) ?_) ?_
      · rintro s ⟨manager, hfailed, rfl⟩
        exact h.compact_failed hfailed
      · rintro result s ⟨manager, ⟨hnot, rfl⟩ | ⟨hdone, hshrunk⟩, rfl⟩
        · rw [hnot, if_neg (by decide)]
          exact ⟨Settles.refl h, rfl⟩
        · rw [hdone, if_pos rfl]
          have hsettles := h.shrunk hshrunk
          refine (ih hsettles.sound).mono ?_ ?_
          · rintro _ s' ⟨hsettles', hmemtables⟩
            exact ⟨hsettles.then hsettles', hmemtables⟩
          · rintro s' ⟨hsettles', hlimit⟩
            exact ⟨hsettles.then hsettles', hlimit⟩
    · exact ⟨Settles.refl h, rfl⟩

theorem Sound.compactIfRequired_outcome (h : store.Sound lag) :
    Outcome (fun _ s => Settles 0 store s lag ∧ s.memtables = store.memtables ∧
        (store.automaticCompactionEnabled = false → s = store))
      (fun s => CompactFailed store s lag ∧ store.automaticCompactionEnabled = true)
      (compactIfRequired store) := by
  unfold compactIfRequired
  rw [read_bind_apply]
  cases hautomatic : store.automaticCompactionEnabled with
  | false => exact ⟨Settles.refl h, rfl, fun _ => rfl⟩
  | true =>
    refine (h.compactWhileNeeded_outcome _).mono ?_ fun s hfailed => ⟨hfailed, rfl⟩
    rintro _ s ⟨hsettles, hmemtables⟩
    exact ⟨hsettles, hmemtables, fun hfalse => by cases hfalse⟩

/-! ## After a write -/

/-- The store was settled, or a limit stopped it; without compactions no table is lost. -/
structure SettleFailed (store s : PersistentKeyValueStore) (lag : Nat := 0) : Prop where
  settles : Settles 1 store s lag
  atLimit : s.AtLimit
  total : store.automaticCompactionEnabled = false → s.tableTotal = store.tableTotal

theorem FlushFailed.settleFailed (h : FlushFailed store s lag) : SettleFailed store s lag :=
  ⟨h.settles, h.atLimit, fun _ => h.total⟩

structure Settled (store s : PersistentKeyValueStore) (lag : Nat := 0) : Prop where
  settles : Settles 0 store s lag
  flushed : s.memtables.immutableTables = []
  total : store.automaticCompactionEnabled = false → s.tableTotal = store.tableTotal

theorem Settled.withWal (h : Settled store s lag) (wal : List WalRecord) :
    Settled store { s with wal := wal } lag :=
  ⟨h.settles.withWal wal, h.flushed, h.total⟩

/-- Flush, then compact. -/
theorem Sound.flush_compact_outcome (h : store.Sound lag) {β : Type}
    {f : Unit → Program PersistentKeyValueStore Error β} {Q : β → PersistentKeyValueStore → Prop}
    (hf : ∀ s, Settled store s lag → Outcome Q (fun s => SettleFailed store s lag) (f () s)) :
    Outcome Q (fun s => SettleFailed store s lag) ((do
      flushImmutableMemtables
      let u ← compactIfRequired
      f u) store) := by
  refine Outcome.bind (h.flushImmutable_outcome.mono (fun _ _ hq => hq)
    fun _ hfailed => hfailed.settleFailed) ?_
  rintro _ s ⟨hsettles, himm, htotal⟩
  refine Outcome.bind (hsettles.sound.compactIfRequired_outcome.mono (fun _ _ hq => hq) ?_) ?_
  · rintro s' ⟨⟨hsettles', hlimit⟩, hautomatic⟩
    refine ⟨hsettles.then hsettles', hlimit, fun hfalse => ?_⟩
    rw [hsettles.automatic, hfalse] at hautomatic
    cases hautomatic
  · rintro _ s' ⟨hsettles', hmemtables, hsame⟩
    refine hf s' ⟨hsettles.then hsettles', by rw [hmemtables]; exact himm, fun hfalse => ?_⟩
    rw [hsame (hsettles.automatic.trans hfalse)]
    exact htotal

theorem Sound.settle_outcome (h : store.Sound lag) :
    Outcome (fun _ s => Settled store s lag) (fun s => SettleFailed store s lag) (settle store) := by
  unfold settle
  refine h.flush_compact_outcome fun s hsettled => ?_
  unfold resetWalIfFullyPersisted
  rw [read_bind_apply]
  unfold Program.when
  split_ifs
  · exact hsettled.withWal []
  · exact hsettled

end PersistentKeyValueStore

end NebulaKV.Lsm
