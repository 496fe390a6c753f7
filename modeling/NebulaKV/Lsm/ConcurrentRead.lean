/-
# A read next to the writer

`get` takes no write lock. It copies the list of memtables, looks in one after the other, copies the
list of SSTables and looks in those; between any two of these steps the writer may insert, rotate,
publish a flushed memtable, discard it, or publish a compaction. A memtable is shared: the reader sees
what has been inserted since it copied the list, and a discarded table lives on for it.

What the read finds is a value the key had while it ran. Two orders carry that: memory is read before
disk, and a memtable is published before it is discarded. So whatever the reader misses in memory, the
disk shows a value that was current at some moment of the read (`DiskOK`).
-/
import NebulaKV.Lsm.StoreMap
import NebulaKV.Lsm.TrafficSteps

namespace NebulaKV.Lsm

open Containers Effects Program Versioned

namespace PersistentKeyValueStore

/-! ## The two threads -/

/-- Where a `get` is. A memtable is known by its generation. -/
inductive ReadStage where
  | begins
  | memory (generations : List Nat)
  | disk (rest : List ManagedTable) (best : Option Entry)
  | finished (entry : Option Entry)
  | failed

structure Concurrent where
  store : PersistentKeyValueStore
  /-- The oldest frozen memtable is on disk and not yet discarded. -/
  published : Bool := false
  /-- Discarded memtables, which a reader may still point to. -/
  retired : List MemTable := []
  /-- The map that the writes make. -/
  logical : Bytes → Option Bytes
  reader : ReadStage := .begins

namespace Concurrent

inductive Label where
  | put (key value : Bytes)
  | erase (key : Bytes)
  | rotate
  | publish
  | discard
  | compact (forceAll : Bool)
  /-- The reader's next step, with the blocks that the shared cache then holds, of whatever tables. -/
  | read (tables : List ManagedTable) (cache : BlockCache)

/-- The memtable a pointer points to. -/
def table? (state : Concurrent) (generation : Nat) : Option MemTable :=
  (state.store.memtables.tables ++ state.retired).find? (·.generation = generation)

/-- The insertion into the active memtable, for `put` and `add_tombstone`. -/
def insert (state : Concurrent) (key : Bytes) (value : Option Bytes)
    (write : MemTable → Nat → Except Error MemTable) : Concurrent :=
  match state.store.memtables.nextSequenceNumber with
  | .error _ => state
  | .ok sequenceNumber =>
    match write state.store.memtables.active sequenceNumber with
    | .error _ => state
    | .ok table =>
      { state with
        store := { state.store with
          memtables := { state.store.memtables with
            active := table, lastSequenceNumber := sequenceNumber } }
        logical := fun k => if k = key then value else state.logical k }

def rotate (state : Concurrent) : Concurrent :=
  { state with
    store := { state.store with memtables := state.store.memtables.rotateActive.2 } }

/-- The publication of `flush`, for the oldest frozen memtable. -/
def publish (state : Concurrent) : Concurrent :=
  if state.published then state
  else
    match state.store.memtables.immutableTables.getLast? with
    | none => state
    | some oldest =>
      match SSTableManager.flush oldest state.store.sstables with
      | (.ok _, sstables) =>
        { state with store := { state.store with sstables := sstables }, published := true }
      | (.error _, sstables) =>
        { state with store := { state.store with sstables := sstables } }

def discard (state : Concurrent) : Concurrent :=
  if state.published then
    match state.store.memtables.immutableTables.getLast? with
    | none => state
    | some oldest =>
      { state with
        store := { state.store with
          memtables := (state.store.memtables.discardImmutable oldest.generation).2 }
        published := false
        retired := oldest :: state.retired }
  else state

/-- The publication of a compaction. -/
def compact (state : Concurrent) (forceAll : Bool) : Concurrent :=
  { state with
    store := { state.store with
      sstables := (SSTableManager.compactLevel0 forceAll state.store.sstables).2 } }

/-- One look into a memtable. -/
def lookInMemory (key : Bytes) (rest : List Nat) : Option MemTable → ReadStage
  | none => .failed
  | some table =>
    match table.getEntry key with
    | .ok (some entry) => .finished (some entry)
    | .ok none => .memory rest
    | .error _ => .failed

/-- One look into an SSTable. -/
def lookOnDisk (key : Bytes) (cache : BlockCache) (table : ManagedTable) (rest : List ManagedTable)
    (best : Option Entry) : ReadStage :=
  if outside key table.reader.metadata then .disk rest best
  else
    match (table.reader.get key cache).1 with
    | .ok candidate => .disk rest (takeNewer best candidate)
    | .error _ => .failed

/-- The reader's next stage. -/
def read (state : Concurrent) (key : Bytes) (cache : BlockCache) : ReadStage :=
  match state.reader with
  | .begins => .memory (state.store.memtables.tables.map MemTable.generation)
  | .memory [] => .disk state.store.sstables.readers none
  | .memory (generation :: rest) => lookInMemory key rest (state.table? generation)
  | .disk [] best => .finished best
  | .disk (table :: rest) best => lookOnDisk key cache table rest best
  | .finished entry => .finished entry
  | .failed => .failed

def step (key : Bytes) (state : Concurrent) : Label → Concurrent
  | .put k value => state.insert k (some value) fun table => table.put k value
  | .erase k => state.insert k none fun table => table.addTombstone k
  | .rotate => state.rotate
  | .publish => state.publish
  | .discard => state.discard
  | .compact forceAll => state.compact forceAll
  | .read _ cache => { state with reader := state.read key cache }

def run (key : Bytes) (state : Concurrent) : List Label → Concurrent
  | [] => state
  | label :: labels => (state.step key label).run key labels

/-- The cache holds only blocks of tables with paths of their own. The manager's cache does, at every
moment of its traffic (`admits_traffic`). -/
def Admits (state : Concurrent) : Label → Prop
  | .read tables cache => ∀ table rest best, state.reader = .disk (table :: rest) best →
      Readable tables ∧ table ∈ tables ∧ CacheOK tables cache
  | _ => True

def AdmitsAll (key : Bytes) (state : Concurrent) : List Label → Prop
  | [] => True
  | label :: labels => state.Admits label ∧ (state.step key label).AdmitsAll key labels

/-- The values the key has while the read runs. -/
def values (key : Bytes) (state : Concurrent) : List Label → List (Option Bytes)
  | [] => [state.logical key]
  | label :: labels =>
    match state.reader with
    | .finished _ => [state.logical key]
    | _ => state.logical key :: (state.step key label).values key labels

/-! ## The writer -/

/-- The store once a published memtable has been discarded. -/
def settled (state : Concurrent) : PersistentKeyValueStore :=
  if state.published then
    { state.store with
      memtables := { state.store.memtables with
        immutableTables := state.store.memtables.immutableTables.dropLast } }
  else state.store

/-- **The invariant.** With a published memtable or without it, the store is the logical map. -/
structure Invariant (state : Concurrent) : Prop where
  ordered : state.store.memtables.Ordered
  paced : state.store.memtables.Paced
  sound : state.settled.Sound
  value_eq : ∀ key, state.store.value? key = state.logical key
  settled_eq : ∀ key, state.settled.value? key = state.logical key
  nonempty : state.published = true → state.store.memtables.immutableTables ≠ []
  retired : ∀ table ∈ state.retired, ∀ table' ∈ state.store.memtables.tables,
    table.generation < table'.generation

variable {state : Concurrent} {key : Bytes}
variable {k : Bytes} {table : MemTable} {tables : List ManagedTable} {entry : Option Entry}

theorem settled_sstables (state : Concurrent) : state.settled.sstables = state.store.sstables := by
  unfold settled
  split_ifs <;> rfl

theorem settled_of_not_published (h : state.published = false) : state.settled = state.store := by
  unfold settled
  rw [h]
  rfl

theorem settled_of_published (h : state.published = true) {newer : List MemTable}
    {oldest : MemTable} (hsplit : state.store.memtables.immutableTables = newer ++ [oldest]) :
    state.settled = { state.store with
      memtables := { state.store.memtables with immutableTables := newer } } := by
  unfold settled
  rw [h, hsplit, List.dropLast_concat]
  rfl

/-- The oldest frozen memtable, where there is one. -/
theorem exists_oldest {tables : List MemTable} (h : tables ≠ []) :
    ∃ newer oldest, tables = newer ++ [oldest] :=
  ⟨_, _, (List.dropLast_append_getLast h).symm⟩

/-- The state with an entry in its active memtable. -/
def inserted (state : Concurrent) (key : Bytes) (entry : Entry) (usage : Nat) : Concurrent :=
  { state with
    store := { state.store with
      memtables := state.store.memtables.stored key entry usage
        state.store.memtables.liveKeyCount }
    logical := fun k => if k = key then entry.live else state.logical k }

/-- An insertion threw, or stored an entry with the next sequence number. -/
def Inserts (state state' : Concurrent) : Prop :=
  state' = state ∨ ∃ key entry usage, ValidRecord (key, entry) ∧
    entry.sequenceNumber = state.store.memtables.lastSequenceNumber + 1 ∧
    state.store.memtables.lastSequenceNumber ≠ u64 - 1 ∧ state' = state.inserted key entry usage

theorem Invariant.inserts (h : state.Invariant) (value : Option Bytes) (entry : Nat → Entry)
    {write : MemTable → Nat → Except Error MemTable} (hseq : ∀ n, (entry n).sequenceNumber = n)
    (hlive : ∀ n, (entry n).live = value)
    (hwrite : ∀ table n table', write table n = .ok table' →
      ValidRecord (key, entry n) ∧ table.insertOrAssign key (entry n) = .ok table') :
    state.Inserts (state.insert key value write) := by
  unfold insert
  cases hnext : state.store.memtables.nextSequenceNumber with
  | error e => exact Or.inl rfl
  | ok n =>
    have hroom : state.store.memtables.lastSequenceNumber ≠ u64 - 1 := fun hlast => by
      unfold MemTableSet.nextSequenceNumber at hnext
      rw [if_pos hlast] at hnext
      cases hnext
    rw [MemTableSet.nextSequenceNumber_ok hroom] at hnext
    obtain rfl := Except.ok.inj hnext
    dsimp only
    cases htable : write state.store.memtables.active
        (state.store.memtables.lastSequenceNumber + 1) with
    | error e => exact Or.inl rfl
    | ok table =>
      obtain ⟨hvalid, hinsert⟩ := hwrite _ _ _ htable
      obtain ⟨usage, hstore⟩ := h.ordered.insertOrAssign_ok key _ (hseq _)
      rw [hstore] at hinsert
      obtain rfl := Except.ok.inj hinsert
      refine Or.inr ⟨key, _, usage, hvalid, hseq _, hroom, ?_⟩
      unfold inserted
      rw [hlive]
      rfl

theorem put_writes {value : Bytes} {table' : MemTable} {n : Nat}
    (h : table.put k value n = .ok table') :
    ValidRecord (k, ⟨value, n, false⟩) ∧
      table.insertOrAssign k ⟨value, n, false⟩ = .ok table' := by
  obtain ⟨_, hkey, h⟩ := bind_eq_ok.mp h
  obtain ⟨_, hvalue, h⟩ := bind_eq_ok.mp h
  obtain ⟨_, hn, h⟩ := bind_eq_ok.mp h
  have hn0 : n ≠ 0 := fun h0 => by
    rw [h0] at hn
    cases hn
  exact ⟨⟨validateKey_eq_ok.mp hkey, validateValue_eq_ok.mp hvalue, hn0, fun hd => (by cases hd)⟩, h⟩

theorem addTombstone_writes {table' : MemTable} {n : Nat} (h : table.addTombstone k n = .ok table') :
    ValidRecord (k, ⟨[], n, true⟩) ∧ table.insertOrAssign k ⟨[], n, true⟩ = .ok table' := by
  obtain ⟨_, hkey, h⟩ := bind_eq_ok.mp h
  obtain ⟨_, hn, h⟩ := bind_eq_ok.mp h
  have hn0 : n ≠ 0 := fun h0 => by
    rw [h0] at hn
    cases hn
  exact ⟨⟨validateKey_eq_ok.mp hkey, Nat.zero_le _, hn0, fun _ => rfl⟩, h⟩

section

variable (h : state.Invariant)
include h

theorem Invariant.put (k value : Bytes) : state.Inserts (state.step key (.put k value)) :=
  h.inserts (some value) (fun n => ⟨value, n, false⟩) (fun _ => rfl) (fun _ => rfl)
    fun _ _ _ => put_writes

theorem Invariant.erase (k : Bytes) : state.Inserts (state.step key (.erase k)) :=
  h.inserts none (fun n => ⟨[], n, true⟩) (fun _ => rfl) (fun _ => rfl)
    fun _ _ _ => addTombstone_writes

theorem Invariant.inserted {entry : Entry} {usage : Nat} (hvalid : ValidRecord (k, entry))
    (hseq : entry.sequenceNumber = state.store.memtables.lastSequenceNumber + 1)
    (hroom : state.store.memtables.lastSequenceNumber ≠ u64 - 1) :
    (state.inserted k entry usage).Invariant := by
  have hsettled : (state.inserted k entry usage).settled = { state.settled with
      memtables := state.settled.memtables.stored k entry usage
        state.settled.memtables.liveKeyCount } := by
    unfold settled Concurrent.inserted
    split_ifs <;> rfl
  have hlast : state.settled.memtables.lastSequenceNumber =
      state.store.memtables.lastSequenceNumber := by
    unfold settled
    split_ifs <;> rfl
  have hstored := h.sound.stored hvalid (by rw [hlast]; exact hseq) (by rw [hlast]; exact hroom)
    usage state.settled.memtables.liveKeyCount
  refine ⟨h.ordered.stored hvalid hseq, h.paced.stored hroom k entry usage _, ?_, fun key => ?_,
    fun key => ?_, h.nonempty, ?_⟩
  · rw [hsettled]
    exact hstored.1
  · have hvalue := h.value_eq key
    unfold value? PersistentKeyValueStore.entryFor at hvalue ⊢
    show (((state.store.memtables.stored k entry usage _).entryFor key).or _).bind _ = _
    rw [MemTableSet.entryFor_stored]
    show _ = if key = k then entry.live else state.logical key
    split_ifs with hk
    · rfl
    · exact hvalue
  · rw [hsettled, hstored.2.1 key, h.settled_eq key]
    rfl
  · intro table ht table' ht'
    rcases List.mem_cons.mp ht' with rfl | ht'
    · exact h.retired table ht state.store.memtables.active (by simp [MemTableSet.tables])
    · exact h.retired table ht table' (List.mem_cons_of_mem _ ht')

theorem Invariant.rotate : state.rotate.Invariant := by
  have hrotated := state.store.memtables.rotateActive_rotated
  obtain ⟨hordered, hpaced⟩ := hrotated.ordered h.ordered h.paced
  have hvalue : ∀ key, value? { state.store with
      memtables := state.store.memtables.rotateActive.2 } key = state.logical key := fun key => by
    rw [← h.value_eq key]
    unfold value? PersistentKeyValueStore.entryFor
    dsimp only
    rw [hrotated.entryFor_eq]
  unfold Concurrent.rotate
  rcases hrotated with hsame | ⟨hne, hrotate⟩
  · rw [hsame]
    exact h
  -- the published memtable stays the last one
  have hsettled : settled { state with
      store := { state.store with memtables := state.store.memtables.rotate } } =
      { state.settled with memtables := state.settled.memtables.rotate } := by
    unfold settled
    split_ifs with hpublished
    · unfold MemTableSet.rotate
      dsimp only
      rw [List.dropLast_cons_of_ne_nil (h.nonempty hpublished)]
    · rfl
  have hactive : state.settled.memtables.active = state.store.memtables.active := by
    unfold settled
    split_ifs <;> rfl
  obtain ⟨hsound, hshown, -⟩ := h.sound.rotated (Or.inr ⟨hactive ▸ hne, rfl⟩)
  rw [hrotate] at hordered hpaced hvalue ⊢
  refine ⟨hordered, hpaced, ?_, hvalue, fun key => ?_, fun _ => List.cons_ne_nil _ _, ?_⟩
  · rw [hsettled]
    exact hsound
  · rw [hsettled, hshown key]
    exact h.settled_eq key
  · intro table ht table' ht'
    have hlt := h.retired table ht state.store.memtables.active (by simp [MemTableSet.tables])
    rcases List.mem_cons.mp ht' with rfl | ht'
    · have := (List.pairwise_cons.mp hordered.generations).1 state.store.memtables.active.freeze
        (by simp [MemTableSet.rotate])
      exact hlt.trans this
    · rcases List.mem_cons.mp ht' with rfl | ht'
      · exact hlt
      · exact h.retired table ht table' (List.mem_cons_of_mem _ ht')

/-- Any change on disk that keeps what is shown. -/
theorem Invariant.withSSTables {manager : SSTableManager} {slack : Nat}
    (hsettles : Settles slack state.settled { state.settled with sstables := manager })
    (hshown : ∀ key, shown manager.readers key = shown state.store.sstables.readers key) :
    Invariant { state with store := { state.store with sstables := manager } } := by
  have hsettled : settled { state with store := { state.store with sstables := manager } } =
      { state.settled with sstables := manager } := by
    unfold settled
    split_ifs <;> rfl
  refine ⟨h.ordered, h.paced, ?_, fun key => ?_, fun key => ?_, h.nonempty, h.retired⟩
  · rw [hsettled]
    exact hsettles.sound
  · have hkey := hshown key
    rw [shown_eq, shown_eq] at hkey
    rw [← h.value_eq key]
    unfold value? PersistentKeyValueStore.entryFor
    cases state.store.memtables.entryFor key with
    | some entry => rfl
    | none => exact hkey
  · rw [hsettled, hsettles.value_eq key]
    exact h.settled_eq key

/-- What a compaction does to the tables on disk. -/
theorem Invariant.compact (forceAll : Bool) :
    (state.compact forceAll).Invariant ∧ ∀ key,
      shown (state.compact forceAll).store.sstables.readers key =
        shown state.store.sstables.readers key := by
  have hgood := h.sound.sstables
  have houtcome := SSTableManager.compactLevel0_outcome (state.settled_sstables ▸ hgood) forceAll
  have hsound := h.sound
  unfold Concurrent.compact
  rcases hrun : SSTableManager.compactLevel0 forceAll state.store.sstables with ⟨result, manager⟩
  rw [hrun] at houtcome
  cases result with
  | ok result =>
    rcases houtcome with ⟨-, rfl⟩ | ⟨-, hshrunk⟩
    · exact ⟨h, fun _ => rfl⟩
    · exact ⟨h.withSSTables (hsound.shrunk (state.settled_sstables.symm ▸ hshrunk))
        hshrunk.shown_eq, hshrunk.shown_eq⟩
  | error e =>
    obtain ⟨hkept, -⟩ := houtcome
    have hshown : ∀ key, shown manager.readers key = shown state.store.sstables.readers key :=
      fun key => by rw [hkept.readers]
    have hkept' : SSTableManager.Kept state.settled.sstables manager :=
      state.settled_sstables.symm ▸ hkept
    exact ⟨h.withSSTables (hsound.kept hkept' hkept'.idNext) hshown, hshown⟩

/-- **Publishing.** The disk then shows what the published memtable holds, before what it showed. -/
theorem Invariant.publish :
    state.publish.Invariant ∧
      (∀ key, shown state.publish.store.sstables.readers key =
          shown state.store.sstables.readers key ∨
        ∃ entry, state.store.memtables.Contains (key, entry) ∧
          shown state.publish.store.sstables.readers key = entry.live) ∧
      state.publish.store.memtables = state.store.memtables ∧
      state.publish.retired = state.retired ∧ state.publish.logical = state.logical ∧
      state.publish.reader = state.reader := by
  unfold Concurrent.publish
  rcases Bool.eq_false_or_eq_true state.published with hpublished | hpublished
  · rw [if_pos hpublished]
    exact ⟨h, fun _ => Or.inl rfl, rfl, rfl, rfl, rfl⟩
  rw [if_neg (by rw [hpublished]; decide)]
  rcases List.eq_nil_or_concat state.store.memtables.immutableTables with hnil | ⟨newer, oldest, hsplit⟩
  · rw [hnil]
    exact ⟨h, fun _ => Or.inl rfl, rfl, rfl, rfl, rfl⟩
  rw [List.concat_eq_append] at hsplit
  rw [hsplit, List.getLast?_append_of_ne_nil _ (by simp)]
  have hsound : state.store.Sound := settled_of_not_published hpublished ▸ h.sound
  have hmem : oldest ∈ state.store.memtables.immutableTables := hsplit ▸ by simp
  have houtcome := hsound.flush_oldest hmem
  dsimp only [List.getLast?_singleton]
  rcases hrun : SSTableManager.flush oldest state.store.sstables with ⟨result, manager⟩
  rw [hrun] at houtcome
  cases result with
  | error e =>
    obtain ⟨hkept, -⟩ := houtcome
    have hshown : ∀ key, shown manager.readers key = shown state.store.sstables.readers key :=
      fun key => by rw [hkept.readers]
    have hsettles := hsound.kept hkept hkept.idNext
    rw [← settled_of_not_published hpublished] at hsettles
    exact ⟨h.withSSTables hsettles hshown, fun key => Or.inl (hshown key), rfl, rfl, rfl, rfl⟩
  | ok metadata =>
    have hflushed : SSTableManager.Flushed state.store.sstables oldest.snapshot manager := houtcome
    have hsettles := hsound.flushed hsplit hflushed
    have hnewest := hsound.newestEntry_flushed hmem hflushed
    have hsettled : settled { state with
        store := { state.store with sstables := manager }, published := true } = _ :=
      settled_of_published rfl hsplit
    refine ⟨⟨h.ordered, h.paced, ?_, fun key => ?_, fun key => ?_, fun _ => ?_, h.retired⟩,
      fun key => ?_, rfl, rfl, rfl, rfl⟩
    · rw [hsettled]
      exact hsettles.sound
    · rw [← h.value_eq key]
      unfold value? PersistentKeyValueStore.entryFor
      dsimp only
      rw [hnewest key, MemTableSet.entryFor_oldest hsplit]
      cases MemTableSet.entryFor _ key with
      | some entry => rfl
      | none => cases oldest.entries.find? key <;> rfl
    · rw [hsettled, hsettles.value_eq key]
      exact h.value_eq key
    · rw [hsplit]
      simp
    · rw [shown_eq, shown_eq]
      dsimp only
      rw [hnewest key]
      cases hfind : oldest.entries.find? key with
      | none => exact Or.inl rfl
      | some entry => exact Or.inr ⟨entry, MemTableSet.contains_of_immutable hmem
          (OrderedMap.find?_eq_some_iff.mp hfind), rfl⟩

theorem Invariant.discard :
    state.discard = state ∨ ∃ newer oldest,
      state.store.memtables.immutableTables = newer ++ [oldest] ∧
      state.discard = { state with
        store := { state.store with
          memtables := { state.store.memtables with immutableTables := newer } }
        published := false
        retired := oldest :: state.retired } ∧ state.discard.Invariant := by
  unfold Concurrent.discard
  cases hpublished : state.published with
  | false => exact Or.inl rfl
  | true =>
  obtain ⟨newer, oldest, hsplit⟩ := exists_oldest (h.nonempty hpublished)
  have hsettled := settled_of_published hpublished hsplit
  rw [if_pos rfl, hsplit, List.getLast?_append_of_ne_nil _ (by simp)]
  dsimp only [List.getLast?_singleton]
  rw [h.ordered.discardImmutable_oldest hsplit]
  refine Or.inr ⟨newer, oldest, rfl, rfl, ?_⟩
  have hsound := h.sound
  have hvalue := h.settled_eq
  rw [hsettled] at hsound hvalue
  refine ⟨hsound.memtables, hsound.paced, hsound, hvalue, hvalue, fun hfalse => (by cases hfalse), ?_⟩
  have hgenerations := h.ordered.generations
  unfold MemTableSet.tables at hgenerations
  rw [hsplit, ← List.cons_append] at hgenerations
  intro table ht table' ht'
  rcases List.mem_cons.mp ht with rfl | ht
  · exact (List.pairwise_append.mp hgenerations).2.2 table' ht' table (by simp)
  · refine h.retired table ht table' ?_
    unfold MemTableSet.tables at ht' ⊢
    rw [hsplit, ← List.cons_append]
    exact List.mem_append_left _ ht'

/-- **A step of either thread** keeps the writer's invariant. -/
theorem Invariant.step (label : Label) : (state.step key label).Invariant := by
  have hinserts : ∀ state', state.Inserts state' → state'.Invariant := by
    rintro state' (rfl | ⟨k, entry, usage, hvalid, hseq, hroom, rfl⟩)
    · exact h
    · exact h.inserted hvalid hseq hroom
  cases label with
  | put k value => exact hinserts _ (h.put k value)
  | erase k => exact hinserts _ (h.erase k)
  | rotate => exact h.rotate
  | publish => exact h.publish.1
  | discard =>
    show state.discard.Invariant
    rcases h.discard with hsame | ⟨_, _, -, -, hdiscard⟩
    · rw [hsame]
      exact h
    · exact hdiscard
  | compact forceAll => exact (h.compact forceAll).1
  | read tables cache =>
    exact ⟨h.ordered, h.paced, h.sound, h.value_eq, h.settled_eq, h.nonempty, h.retired⟩

end

/-! ## The reader -/

theorem find?_generation (first : MemTable) (rest : List MemTable) (generation : Nat) :
    (first :: rest).find? (·.generation = generation) =
      if first.generation = generation then some first
      else rest.find? (·.generation = generation) := by
  split_ifs with h
  · exact List.find?_cons_of_pos (decide_eq_true h)
  · exact List.find?_cons_of_neg (by simpa using h)

/-- What a look at a pointer finds. -/
def find? (state : Concurrent) (key : Bytes) (generation : Nat) : Option Entry :=
  (state.table? generation).bind fun table => table.entries.find? key

/-- Whatever the disk shows now or after the next flushes, the key had that value during the read. -/
structure DiskOK (seen : List (Option Bytes)) (key : Bytes) (store : PersistentKeyValueStore) :
    Prop where
  shown_mem : shown store.sstables.readers key ∈ seen
  live_mem : ∀ entry, store.memtables.Contains (key, entry) → entry.live ∈ seen

/-- The best entry of the tables that are still to be looked at. -/
def bestOf (key : Bytes) (rest : List ManagedTable) (best : Option Entry) : Option Entry :=
  rest.foldl (fun best table => newer Entry.sequenceNumber best (table.reader.entryFor key)) best

/-- An entry that memory has left for the reader was current during the read; if there is none, the disk
shows such a value. -/
def HitOK (seen : List (Option Bytes)) (key : Bytes) (store : PersistentKeyValueStore) :
    Option Entry → Prop
  | some entry => entry.live ∈ seen
  | none => DiskOK seen key store

/-- **The invariant of the reader.** -/
def ReadOK (seen : List (Option Bytes)) (key : Bytes) (state : Concurrent) : Prop :=
  match state.reader with
  | .begins => True
  | .memory generations =>
    (∀ generation ∈ generations, (state.table? generation).isSome) ∧
      HitOK seen key state.store (generations.findSome? (state.find? key))
  | .disk rest best =>
    (∀ table ∈ rest, table.reader.WellFormed) ∧ (bestOf key rest best).bind Entry.live ∈ seen
  | .finished entry => entry.bind Entry.live ∈ seen
  | .failed => False

variable {state' : Concurrent} {seen : List (Option Bytes)}

/-- A step of the writer, as far as the reader can tell. -/
structure Carries (seen : List (Option Bytes)) (key : Bytes) (state state' : Concurrent) : Prop where
  reader : state'.reader = state.reader
  objects : ∀ generation, (state.table? generation).isSome → (state'.table? generation).isSome
  found : ∀ generation, state'.find? key generation = state.find? key generation ∨
    ∃ entry, state'.find? key generation = some entry ∧ entry.live ∈ seen
  disk : DiskOK seen key state.store → DiskOK seen key state'.store

theorem Carries.refl (state : Concurrent) : Carries seen key state state :=
  ⟨rfl, fun _ h => h, fun _ => Or.inl rfl, fun h => h⟩

/-- The entry that memory has for the reader stays, or a newer one takes its place. -/
theorem Carries.findSome? (h : Carries seen key state state') (generations : List Nat) :
    generations.findSome? (state'.find? key) = generations.findSome? (state.find? key) ∨
      ∃ entry, generations.findSome? (state'.find? key) = some entry ∧ entry.live ∈ seen := by
  induction generations with
  | nil => exact Or.inl rfl
  | cons generation rest ih =>
    rw [List.findSome?_cons, List.findSome?_cons]
    rcases h.found generation with hsame | ⟨entry, hentry, hseen⟩
    · rw [hsame]
      cases state.find? key generation with
      | some entry => exact Or.inl rfl
      | none => exact ih
    · rw [hentry]
      exact Or.inr ⟨entry, rfl, hseen⟩

theorem Carries.readOK (h : Carries seen key state state') (hread : state.ReadOK seen key) :
    state'.ReadOK seen key := by
  unfold ReadOK at hread ⊢
  rw [h.reader]
  cases hreader : state.reader with
  | memory generations =>
    rw [hreader] at hread
    obtain ⟨hobjects, hread⟩ := hread
    refine ⟨fun generation hg => h.objects generation (hobjects generation hg), ?_⟩
    rcases h.findSome? generations with hsame | ⟨entry, hentry, hseen⟩
    · rw [hsame]
      cases hhit : generations.findSome? (state.find? key) with
      | some entry => rwa [hhit] at hread
      | none =>
        rw [hhit] at hread
        exact h.disk hread
    · rw [hentry]
      exact hseen
  | begins => trivial
  | disk rest best => rwa [hreader] at hread
  | finished entry => rwa [hreader] at hread
  | failed => rwa [hreader] at hread

theorem Carries.of_table? (hreader : state'.reader = state.reader)
    (htable : ∀ generation, state'.table? generation = state.table? generation)
    (hdisk : DiskOK seen key state.store → DiskOK seen key state'.store) :
    Carries seen key state state' where
  reader := hreader
  objects := fun generation h => by rwa [htable]
  found := fun generation => Or.inl (by unfold find?; rw [htable])
  disk := hdisk

/-! ## The steps of the writer -/

theorem carries_inserted {entry : Entry} {usage : Nat}
    (hseen : (state.inserted k entry usage).logical key ∈ seen) :
    Carries seen key state (state.inserted k entry usage) := by
  have htable : ∀ generation, (state.inserted k entry usage).table? generation =
      if state.store.memtables.active.generation = generation then
        some (state.store.memtables.active.store k entry usage)
      else state.table? generation := fun generation => by
    unfold table?
    show List.find? _ (state.store.memtables.active.store k entry usage ::
      (state.store.memtables.immutableTables ++ state.retired)) = _
    rw [find?_generation, MemTableSet.tables, List.cons_append, find?_generation]
    show (if state.store.memtables.active.generation = generation then _ else _) = _
    split_ifs <;> rfl
  have hlive : key = k → entry.live ∈ seen := by
    rintro rfl
    rwa [show (state.inserted key entry usage).logical key = entry.live from if_pos rfl] at hseen
  refine ⟨rfl, fun generation h => ?_, fun generation => ?_, fun hdisk => ⟨hdisk.shown_mem, ?_⟩⟩
  · rw [htable]
    split_ifs
    · rfl
    · exact h
  · unfold find?
    rw [htable]
    split_ifs with hactive
    · show (state.store.memtables.active.entries.insert k entry).find? key = _ ∨
        ∃ e, (state.store.memtables.active.entries.insert k entry).find? key = _ ∧ _
      rw [OrderedMap.find?_insert]
      split_ifs with hk
      · exact Or.inr ⟨entry, rfl, hlive hk⟩
      · refine Or.inl ?_
        have hold : state.table? generation = some state.store.memtables.active :=
          List.find?_cons_of_pos (by simpa using hactive)
        rw [hold]
        rfl
    · exact Or.inl rfl
  · intro e hcontains
    rcases MemTableSet.contains_stored hcontains with heq | hold
    · obtain ⟨hk, rfl⟩ := Prod.mk.inj heq
      exact hlive hk
    · exact hdisk.live_mem e hold

theorem Inserts.carries (h : state.Inserts state') (hseen : state'.logical key ∈ seen) :
    Carries seen key state state' := by
  rcases h with rfl | ⟨k, entry, usage, -, -, -, rfl⟩
  · exact Carries.refl _
  · exact carries_inserted hseen

section

variable (h : state.Invariant)
include h

theorem Invariant.carries_rotate : Carries seen key state state.rotate := by
  unfold Concurrent.rotate
  have hordered := (state.store.memtables.rotateActive_rotated.ordered h.ordered h.paced).1
  rcases state.store.memtables.rotateActive_rotated with hsame | ⟨hne, hrotate⟩
  · rw [hsame]
    exact Carries.refl state
  rw [hrotate] at hordered ⊢
  have hold : ∀ table ∈ state.store.memtables.tables ++ state.retired,
      table.generation < state.store.memtables.nextGeneration := by
    obtain ⟨hfresh, -⟩ := List.pairwise_cons.mp hordered.generations
    have hactive := hfresh state.store.memtables.active.freeze (by simp [MemTableSet.rotate])
    intro table ht
    rcases List.mem_append.mp ht with ht | ht
    · rcases List.mem_cons.mp ht with rfl | ht
      · exact hactive
      · exact hfresh table (List.mem_cons_of_mem _ ht)
    · exact (h.retired table ht state.store.memtables.active (by simp [MemTableSet.tables])).trans
        hactive
  -- the fresh memtable is empty, and nobody points to it
  have hfind : ∀ generation, Concurrent.table? { state with
      store := { state.store with memtables := state.store.memtables.rotate } } generation =
      if state.store.memtables.nextGeneration = generation then
        some { generation := state.store.memtables.nextGeneration }
      else if state.store.memtables.active.generation = generation then
        some state.store.memtables.active.freeze
      else state.table? generation := fun generation => by
    unfold table?
    show List.find? _ ({ generation := state.store.memtables.nextGeneration } ::
      state.store.memtables.active.freeze ::
      (state.store.memtables.immutableTables ++ state.retired)) = _
    rw [find?_generation, find?_generation, MemTableSet.tables, List.cons_append, find?_generation]
    show (if state.store.memtables.nextGeneration = generation then _
      else if state.store.memtables.active.generation = generation then _ else _) = _
    split_ifs <;> rfl
  refine ⟨rfl, fun generation h => ?_, fun generation => Or.inl ?_, fun hdisk => ⟨hdisk.shown_mem,
    fun entry hcontains => hdisk.live_mem entry (MemTableSet.contains_rotate.mp hcontains)⟩⟩
  · rw [hfind]
    split_ifs
    · rfl
    · rfl
    · exact h
  · unfold find?
    rw [hfind]
    split_ifs with hfresh hactive
    · have hnone : state.table? generation = none :=
        List.find?_eq_none.mpr fun table ht => by
          simpa [← hfresh] using (hold table ht).ne
      rw [hnone]
      rfl
    · have hsome : state.table? generation = some state.store.memtables.active :=
        List.find?_cons_of_pos (by simpa using hactive)
      rw [hsome]
      rfl
    · rfl

theorem Invariant.carries_publish : Carries seen key state state.publish := by
  obtain ⟨-, hshown, hmemtables, hretired, -, hreader⟩ := h.publish
  refine Carries.of_table? hreader (fun generation => ?_) fun hdisk => ⟨?_, ?_⟩
  · unfold table?
    rw [hmemtables, hretired]
  · rcases hshown key with hsame | ⟨entry, hcontains, hentry⟩
    · rw [hsame]
      exact hdisk.shown_mem
    · rw [hentry]
      exact hdisk.live_mem entry hcontains
  · rw [hmemtables]
    exact hdisk.live_mem

theorem Invariant.carries_discard : Carries seen key state state.discard := by
  rcases h.discard with hsame | ⟨newer, oldest, hsplit, hdiscard, -⟩
  · rw [hsame]
    exact Carries.refl state
  · rw [hdiscard]
    refine Carries.of_table? rfl (fun generation => ?_) fun hdisk => ⟨hdisk.shown_mem, ?_⟩
    · unfold table? MemTableSet.tables
      rw [hsplit]
      simp
    · intro entry hcontains
      exact hdisk.live_mem entry (MemTableSet.contains_of_newer hsplit hcontains)

theorem Invariant.carries_compact (forceAll : Bool) :
    Carries seen key state (state.compact forceAll) := by
  obtain ⟨-, hshown⟩ := h.compact forceAll
  refine Carries.of_table? rfl (fun _ => rfl) fun hdisk => ⟨?_, hdisk.live_mem⟩
  rw [hshown key]
  exact hdisk.shown_mem

/-- **A step of the writer** keeps what the reader needs. -/
theorem Invariant.carries (label : Label) (hlabel : ∀ tables cache, label ≠ .read tables cache)
    (hseen : (state.step key label).logical key ∈ seen) :
    Carries seen key state (state.step key label) := by
  cases label with
  | put k value => exact (h.put k value).carries hseen
  | erase k => exact (h.erase k).carries hseen
  | rotate => exact h.carries_rotate
  | publish => exact h.carries_publish
  | discard => exact h.carries_discard
  | compact forceAll => exact h.carries_compact forceAll
  | read tables cache => exact absurd rfl (hlabel tables cache)

/-! ## The steps of the reader -/

/-- Every generation of the set has one table. -/
theorem table?_of_mem (ht : table ∈ state.store.memtables.tables) :
    state.table? table.generation = some table := by
  have hfind : state.store.memtables.tables.find? (·.generation = table.generation) =
      some table := by
    have hgenerations := h.ordered.generations
    generalize state.store.memtables.tables = tables at ht hgenerations
    induction tables with
    | nil => cases ht
    | cons first rest ih =>
      obtain ⟨hfirst, hrest⟩ := List.pairwise_cons.mp hgenerations
      rcases List.mem_cons.mp ht with rfl | ht
      · rw [List.find?_cons_of_pos (by simp)]
      · have hlt := hfirst table ht
        rw [List.find?_cons_of_neg (by simpa using hlt.ne'), ih ht hrest]
  unfold table?
  rw [List.find?_append, hfind]
  rfl

/-- What the copied list of memtables has for the key is what the whole set has. -/
theorem findSome?_tables (key : Bytes) :
    (state.store.memtables.tables.map MemTable.generation).findSome? (state.find? key) =
      state.store.memtables.entryFor key := by
  suffices hall : ∀ tables : List MemTable, (∀ table ∈ tables, table ∈ state.store.memtables.tables) →
      (tables.map MemTable.generation).findSome? (state.find? key) =
        tables.findSome? fun table => table.entries.find? key from hall _ fun _ ht => ht
  intro tables hsub
  induction tables with
  | nil => rfl
  | cons table rest ih =>
    have htable := table?_of_mem h (hsub table (by simp))
    rw [List.map_cons, List.findSome?_cons, List.findSome?_cons, find?, htable, Option.bind_some,
      ih (List.forall_mem_cons.mp hsub).2]

/-- The copy of the list of memtables: the moment from which the read counts. -/
theorem Invariant.read_begins (hseen : state.logical key ∈ seen) :
    ReadOK seen key { state with
      reader := .memory (state.store.memtables.tables.map MemTable.generation) } := by
  refine ⟨fun generation hg => ?_, ?_⟩
  · obtain ⟨table, ht, rfl⟩ := List.mem_map.mp hg
    show (state.table? table.generation).isSome
    rw [table?_of_mem h ht]
    rfl
  · have hfound := findSome?_tables h key
    have hvalue := h.value_eq key
    unfold value? PersistentKeyValueStore.entryFor at hvalue
    show HitOK seen key state.store
      ((state.store.memtables.tables.map MemTable.generation).findSome? (state.find? key))
    rw [hfound]
    rw [← hvalue] at hseen
    cases hentry : state.store.memtables.entryFor key with
    | some entry =>
      rw [hentry] at hseen
      exact hseen
    | none =>
      rw [hentry, Option.none_or] at hseen
      refine ⟨?_, ?_⟩
      · rw [shown_eq]
        exact hseen
      · -- no memtable has the key
        rintro entry ⟨table, ht, hrec⟩
        have hnone := List.findSome?_eq_none_iff.mp hentry table ht
        rw [OrderedMap.find?_eq_some_iff.mpr hrec] at hnone
        cases hnone

end

theorem bestOf_none (key : Bytes) (tables : List ManagedTable) :
    bestOf key tables none = newestEntry tables key := by
  rw [newestEntry, newest, lookups, List.foldl_map]
  rfl

/-- The copy of the list of SSTables, after the last memtable. -/
theorem Invariant.read_copies (h : state.Invariant) (hdisk : DiskOK seen key state.store) :
    ReadOK seen key { state with reader := .disk state.store.sstables.readers none } := by
  have hgood := h.sound.sstables
  rw [state.settled_sstables] at hgood
  refine ⟨hgood.proper.readable.wellFormed, ?_⟩
  rw [bestOf_none, ← shown_eq]
  exact hdisk.shown_mem

/-- A look into a memtable. -/
theorem read_memory (hkey : ValidKey key) {generation : Nat} {rest : List Nat}
    (hread : ReadOK seen key { state with reader := .memory (generation :: rest) }) :
    ReadOK seen key { state with
      reader := lookInMemory key rest (state.table? generation) } := by
  obtain ⟨hobjects, hhit⟩ := hread
  obtain ⟨table, htable⟩ := Option.isSome_iff_exists.mp (hobjects generation (by simp))
  have htable' : state.table? generation = some table := htable
  have hfind : state.find? key generation = table.entries.find? key := by
    rw [find?, htable', Option.bind_some]
  have hentry : table.getEntry key = .ok (table.entries.find? key) := by
    unfold MemTable.getEntry
    rw [validateKey_eq_ok.mpr hkey]
    rfl
  change HitOK seen key state.store ((generation :: rest).findSome? (state.find? key)) at hhit
  rw [List.findSome?_cons, hfind] at hhit
  rw [htable', lookInMemory, hentry]
  cases hfound : table.entries.find? key with
  | some entry =>
    rw [hfound] at hhit
    exact hhit
  | none =>
    rw [hfound] at hhit
    exact ⟨(List.forall_mem_cons.mp hobjects).2, hhit⟩

/-- A look into an SSTable, whatever the cache holds. -/
theorem read_disk (hkey : ValidKey key) {table : ManagedTable} {rest : List ManagedTable}
    {best : Option Entry} {cache : BlockCache} (hreadable : Readable tables)
    (htable : table ∈ tables) (hcache : CacheOK tables cache)
    (hread : ReadOK seen key { state with reader := .disk (table :: rest) best }) :
    ReadOK seen key { state with reader := lookOnDisk key cache table rest best } := by
  obtain ⟨hwell, hbest⟩ := hread
  have hrest : ∀ other ∈ rest, other.reader.WellFormed := (List.forall_mem_cons.mp hwell).2
  unfold lookOnDisk
  split_ifs with hout
  · refine ⟨hrest, ?_⟩
    unfold bestOf at hbest ⊢
    rw [List.foldl_cons, (hwell table (by simp)).entryFor_of_outside hout] at hbest
    cases best <;> exact hbest
  · obtain ⟨cache', hget, -⟩ := get_yields hreadable htable hkey cache hcache
    rw [hget]
    refine ⟨hrest, ?_⟩
    rw [takeNewer_eq]
    exact hbest

/-- **A step of the reader.** -/
theorem Invariant.read (h : state.Invariant) (hkey : ValidKey key) {cache : BlockCache}
    (hadmits : state.Admits (.read tables cache)) (hread : state.ReadOK seen key)
    (hseen : state.logical key ∈ seen) : (state.step key (.read tables cache)).ReadOK seen key := by
  show ReadOK seen key { state with reader := state.read key cache }
  obtain ⟨store, published, retired, logical, reader⟩ := state
  cases reader with
  | begins => exact h.read_begins hseen
  | memory generations =>
    cases generations with
    | nil => exact h.read_copies hread.2
    | cons generation rest => exact read_memory hkey hread
  | disk rest best =>
    cases rest with
    | nil => exact hread.2
    | cons table rest =>
      obtain ⟨hreadable, htable, hcache⟩ := hadmits table rest best rfl
      exact read_disk hkey hreadable htable hcache hread
  | finished entry => exact hread
  | failed => exact hread

/-! ## Runs -/

theorem reader_of_finished (h : state.reader = .finished entry) (hinvariant : state.Invariant)
    (label : Label) : (state.step key label).reader = .finished entry := by
  by_cases hlabel : ∃ tables cache, label = .read tables cache
  · obtain ⟨tables, cache, rfl⟩ := hlabel
    show state.read key cache = _
    rw [Concurrent.read, h]
  · have hcarries := hinvariant.carries label (fun tables cache heq => hlabel ⟨tables, cache, heq⟩)
      (List.mem_singleton_self ((state.step key label).logical key))
    rw [hcarries.reader, h]

theorem Invariant.run (h : state.Invariant) (labels : List Label) :
    (state.run key labels).Invariant := by
  induction labels generalizing state with
  | nil => exact h
  | cons label labels ih => exact ih (h.step label)

theorem run_finished (h : state.reader = .finished entry) (hinvariant : state.Invariant)
    (labels : List Label) : (state.run key labels).reader = .finished entry := by
  induction labels generalizing state with
  | nil => exact h
  | cons label labels ih =>
    exact ih (reader_of_finished h hinvariant label) (hinvariant.step label)

theorem logical_mem_values (state : Concurrent) (key : Bytes) (labels : List Label) :
    state.logical key ∈ state.values key labels := by
  cases labels with
  | nil => simp [values]
  | cons label labels =>
    unfold values
    split <;> simp

/-- **The run lemma.** The reader's invariant holds to the end, for the values of the run. -/
theorem Invariant.run_readOK (h : state.Invariant) (hkey : ValidKey key) {labels : List Label}
    (hadmits : state.AdmitsAll key labels) (hread : state.ReadOK seen key)
    (hvalues : ∀ value ∈ state.values key labels, value ∈ seen) :
    (state.run key labels).ReadOK seen key := by
  induction labels generalizing state with
  | nil => exact hread
  | cons label labels ih =>
    by_cases hfinished : ∃ entry, state.reader = .finished entry
    · obtain ⟨entry, hentry⟩ := hfinished
      have hrun : (state.run key (label :: labels)).reader = .finished entry :=
        run_finished hentry h (label :: labels)
      unfold ReadOK at hread ⊢
      rw [hentry] at hread
      rw [hrun]
      exact hread
    · -- the read still runs: all values from here on count
      have hvalues' : state.values key (label :: labels) =
          state.logical key :: (state.step key label).values key labels := by
        rw [values]
        split
        · next entry hentry => exact absurd ⟨entry, hentry⟩ hfinished
        · rfl
      rw [hvalues'] at hvalues
      have hnow := hvalues _ List.mem_cons_self
      have hnext := hvalues _ (List.mem_cons_of_mem _ (logical_mem_values _ key labels))
      refine ih (h.step label) hadmits.2 ?_
        (List.forall_mem_cons.mp hvalues).2
      by_cases hlabel : ∃ tables cache, label = .read tables cache
      · obtain ⟨tables, cache, rfl⟩ := hlabel
        exact h.read hkey hadmits.1 hread hnow
      · exact (h.carries label (fun tables cache heq => hlabel ⟨tables, cache, heq⟩)
          hnext).readOK hread

/-! ## Progress -/

/-- The steps a reader still has to take if the writer takes none. -/
def remaining (store : PersistentKeyValueStore) : ReadStage → Nat
  | .begins => store.memtables.tables.length + store.sstables.readers.length + 3
  | .memory generations => generations.length + store.sstables.readers.length + 2
  | .disk rest _ => rest.length + 1
  | .finished _ => 0
  | .failed => 0

def Label.IsRead : Label → Prop
  | .read _ _ => True
  | _ => False

theorem remaining_lookInMemory (store : PersistentKeyValueStore) (key : Bytes) (rest : List Nat)
    (table : Option MemTable) :
    remaining store (lookInMemory key rest table) ≤ remaining store (.memory rest) := by
  unfold lookInMemory
  split
  · exact Nat.zero_le _
  · split
    · exact Nat.zero_le _
    · exact le_rfl
    · exact Nat.zero_le _

theorem remaining_lookOnDisk (store : PersistentKeyValueStore) (key : Bytes) (cache : BlockCache)
    (table : ManagedTable) (rest : List ManagedTable) (best : Option Entry) :
    remaining store (lookOnDisk key cache table rest best) ≤ rest.length + 1 := by
  unfold lookOnDisk
  split_ifs
  · exact le_rfl
  · split
    · exact le_rfl
    · exact Nat.zero_le _

theorem remaining_read (state : Concurrent) (key : Bytes) (cache : BlockCache) :
    remaining state.store (state.read key cache) ≤ remaining state.store state.reader - 1 := by
  unfold Concurrent.read
  split <;> rename_i heq <;> rw [heq]
  · show (state.store.memtables.tables.map MemTable.generation).length + _ + 2 ≤ _
    rw [List.length_map]
    exact le_rfl
  · show state.store.sstables.readers.length + 1 ≤ 0 + state.store.sstables.readers.length + 2 - 1
    omega
  · refine (remaining_lookInMemory _ _ _ _).trans ?_
    show _ + _ + 2 ≤ _ + 1 + _ + 2 - 1
    omega
  · exact Nat.zero_le _
  · exact remaining_lookOnDisk _ _ _ _ _ _
  · exact Nat.zero_le _
  · exact Nat.zero_le _

/-- **The reader needs nobody**: its own steps bring it to the end. -/
theorem Invariant.reads_finish (h : state.Invariant) (hkey : ValidKey key) {reads : List Label}
    (hreads : ∀ label ∈ reads, label.IsRead) (hadmits : state.AdmitsAll key reads)
    (hread : state.ReadOK seen key) (hseen : state.logical key ∈ seen)
    (henough : remaining state.store state.reader ≤ reads.length) :
    ∃ entry, (state.run key reads).reader = .finished entry := by
  induction reads generalizing state with
  | nil =>
    show ∃ entry, state.reader = .finished entry
    unfold ReadOK at hread
    rcases hreader : state.reader with _ | _ | _ | entry | _ <;>
      rw [hreader] at henough hread
    · exact absurd henough (by simp [remaining])
    · exact absurd henough (by simp [remaining])
    · exact absurd henough (by simp [remaining])
    · exact ⟨entry, rfl⟩
    · exact hread.elim
  | cons label reads ih =>
    cases label with
    | read tables cache =>
      have hstep := remaining_read state key cache
      refine ih (h.step (.read tables cache))
        (List.forall_mem_cons.mp hreads).2 hadmits.2
        (h.read hkey hadmits.1 hread hseen) hseen ?_
      rw [List.length_cons] at henough
      show remaining state.store (state.read key cache) ≤ reads.length
      omega
    | _ => exact (hreads _ List.mem_cons_self).elim

/-! ## The store's own cache -/

/-- A lookup that stands between the stretches of any flushes and compactions reads tables of the shelf, and
the manager's cache holds blocks of no others. -/
theorem admits_traffic {traffic : SSTableManager.Traffic} {shelf : List ManagedTable}
    (h : traffic.Invariant shelf) {look : Bytes × List ManagedTable} (hlook : look ∈ traffic.looking)
    (hrest : ∀ table rest best, state.reader = .disk (table :: rest) best → table ∈ look.2) :
    state.Admits (.read shelf traffic.manager.blockCache) := fun table rest best hreader =>
  ⟨h.orderly.readable, (h.looking look hlook).2 table (hrest table rest best hreader), h.orderly.cache⟩

/-- The tables the reader has still to look into are in use. -/
def Holding (state : Concurrent) : Prop :=
  ∀ rest best, state.reader = .disk rest best → ∀ table ∈ rest, table ∈ state.store.sstables.readers

def ownRead (state : Concurrent) : Label :=
  .read state.store.sstables.readers state.store.sstables.blockCache

theorem Invariant.admits_own (h : state.Invariant) (hholding : state.Holding) :
    state.Admits state.ownRead := by
  intro table rest best hreader
  have hgood := h.sound.sstables
  rw [state.settled_sstables] at hgood
  exact ⟨hgood.proper.readable, hholding _ _ hreader table List.mem_cons_self, hgood.cache⟩

theorem Holding.read (h : state.Holding) (key : Bytes) (tables : List ManagedTable) (cache : BlockCache) :
    (state.step key (.read tables cache)).Holding := by
  intro rest best hreader table ht
  have hread : state.read key cache = .disk rest best := hreader
  unfold Concurrent.read at hread
  split at hread
  · cases hread
  · obtain ⟨rfl, -⟩ := ReadStage.disk.inj hread
    exact ht
  · unfold lookInMemory at hread
    split at hread
    · cases hread
    · split at hread <;> cases hread
  · cases hread
  · next held heq =>
      -- one table less
      unfold lookOnDisk at hread
      split_ifs at hread
      · obtain ⟨rfl, -⟩ := ReadStage.disk.inj hread
        exact h _ _ heq table (List.mem_cons_of_mem _ ht)
      · split at hread
        · obtain ⟨rfl, -⟩ := ReadStage.disk.inj hread
          exact h _ _ heq table (List.mem_cons_of_mem _ ht)
        · cases hread
  · cases hread
  · cases hread

/-- **Through the store's own cache** the reader comes to the end. -/
theorem Invariant.own_reads_finish (h : state.Invariant) (hkey : ValidKey key)
    (hholding : state.Holding) (hread : state.ReadOK seen key) (hseen : state.logical key ∈ seen) :
    ∃ entry, (state.run key (List.replicate (remaining state.store state.reader) state.ownRead)).reader =
      .finished entry := by
  have hadmits : ∀ n (state : Concurrent), state.Invariant → state.Holding →
      state.AdmitsAll key (List.replicate n state.ownRead) := by
    intro n
    induction n with
    | zero => exact fun _ _ _ => trivial
    | succ n ih =>
      intro state h hholding
      exact ⟨h.admits_own hholding, ih _ (h.step state.ownRead) (hholding.read key _ _)⟩
  refine h.reads_finish hkey (fun label hlabel => ?_) (hadmits _ state h hholding) hread hseen
    (List.length_replicate ..).ge
  rw [List.eq_of_mem_replicate hlabel]
  trivial

theorem readOK_begins (h : state.reader = .begins) : state.ReadOK seen key := by
  unfold ReadOK
  rw [h]
  trivial

/-- A store with one reader that has not begun. -/
def start (store : PersistentKeyValueStore) : Concurrent :=
  { store := store, logical := store.value? }

theorem start_invariant {store : PersistentKeyValueStore} (h : store.Sound) :
    (start store).Invariant where
  ordered := h.memtables
  paced := h.paced
  sound := h
  value_eq := fun _ => rfl
  settled_eq := fun _ => rfl
  nonempty := fun hfalse => by cases hfalse
  retired := fun _ hmem => by cases hmem

/-- The reader copies the list of memtables; before it looks into them, the frozen one is published
and discarded. -/
def flushedMeanwhile : List Label :=
  [.read [] ⟨0, [], [], 0, 0⟩, .publish, .discard, .read [] ⟨0, [], [], 0, 0⟩,
    .read [] ⟨0, [], [], 0, 0⟩]

end Concurrent

end PersistentKeyValueStore

end NebulaKV.Lsm
