/-
# A write on a disk that may fail

`put` has two parts. The first ends with the entry in the memtables (`insertEntry`): the lookup and the
write-ahead log may fail there, and then nothing has changed that a reader could see. The second settles
the store: it flushes, compacts and drops the log, and whatever fails there, THE ENTRY STAYS. So a `put`
that throws has written exactly if its first part returned (`put_landed`, `put_unseen`).
-/
import NebulaKV.Lsm.FaultyManager
import NebulaKV.Lsm.StoreMap

namespace NebulaKV.Lsm

open Containers Effects Program UnderFaults

namespace PersistentKeyValueStore

/-! ## The steps -/

namespace Faulty

def withSSTables {α : Type} (m : Program (UnderFaults SSTableManager Error) Error α) :
    Program (UnderFaults PersistentKeyValueStore Error) Error α :=
  within PersistentKeyValueStore.sstables (fun sstables store => { store with sstables := sstables }) m

def latestEntryWithoutValidation (key : Bytes) :
    Program (UnderFaults PersistentKeyValueStore Error) Error (Option Entry) := do
  let store ← safely Program.read
  let memoryEntry ← safely (Program.check (store.memtables.latestEntry key))
  if memoryEntry.isSome then return memoryEntry
  else guarded (PersistentKeyValueStore.withSSTables (SSTableManager.get key))

def existsWithoutValidation (key : Bytes) :
    Program (UnderFaults PersistentKeyValueStore Error) Error Bool := do
  let entry ← latestEntryWithoutValidation key
  return entry.any fun entry => !entry.deleted

def flushOne (table : MemTable) :
    Program (UnderFaults PersistentKeyValueStore Error) Error Unit := do
  let _ ← withSSTables (SSTableManager.Faulty.flush table)
  let store ← safely Program.read
  if (store.memtables.discardImmutable table.generation).1 then
    safely (Program.update fun store =>
      { store with memtables := (store.memtables.discardImmutable table.generation).2 })
  else safely (Program.raise (.logicError "flushed MemTable was not registered as immutable"))

def flushImmutableMemtables : Program (UnderFaults PersistentKeyValueStore Error) Error Unit := do
  let store ← safely Program.read
  Program.forEach flushOne store.memtables.immutableTables.reverse

def compactWhileNeeded : Nat → Program (UnderFaults PersistentKeyValueStore Error) Error Unit
  | 0 => pure ()
  | rounds + 1 => do
    let store ← safely Program.read
    if store.sstables.needsCompaction then do
      let result ← withSSTables SSTableManager.Faulty.compactIfNeeded
      if result.performed then compactWhileNeeded rounds else pure ()
    else pure ()

def compactIfRequired : Program (UnderFaults PersistentKeyValueStore Error) Error Unit := do
  let store ← safely Program.read
  if !store.automaticCompactionEnabled then pure ()
  else compactWhileNeeded (store.sstables.levelTableCount .Level0)

def resetWalIfFullyPersisted : Program (UnderFaults PersistentKeyValueStore Error) Error Unit := do
  let store ← safely Program.read
  Program.when
    (store.memtables.active.entryCount = 0 ∧ store.memtables.immutableTables.length = 0)
    (guarded (Program.update resetWal))

def settle : Program (UnderFaults PersistentKeyValueStore Error) Error Unit := do
  flushImmutableMemtables
  compactIfRequired
  resetWalIfFullyPersisted

def insertEntry (key value : Bytes) :
    Program (UnderFaults PersistentKeyValueStore Error) Error Unit := do
  safely (Program.check (validateKey key))
  safely (Program.check (validateValue value))
  let wasLive ← existsWithoutValidation key
  guarded (appendWal ⟨.Put, key, value⟩)
  safely (changeMemtables (·.put key value))
  Program.when (¬ wasLive) (safely (Program.update countKey))

def put (key value : Bytes) : Program (UnderFaults PersistentKeyValueStore Error) Error Unit := do
  insertEntry key value
  settle

end Faulty

variable {store s s' : PersistentKeyValueStore} {manager : SSTableManager} {key value : Bytes}
  {lag : Nat}

/-! ## What a reader sees -/

/-- Nothing that a reader could see has changed. -/
structure Unseen (store s : PersistentKeyValueStore) (lag : Nat := 0) : Prop where
  sound : s.Sound lag
  value_eq : ∀ key, s.value? key = store.value? key
  last : s.memtables.lastSequenceNumber = store.memtables.lastSequenceNumber

theorem Settles.unseen {slack : Nat} (h : Settles slack store s lag) : Unseen store s lag :=
  ⟨h.sound, h.value_eq, h.last⟩

theorem Sound.unseen (h : store.Sound lag) : Unseen store store lag := (Settles.refl h).unseen

theorem Unseen.trans (h : Unseen store s lag) (h' : Unseen s s' lag) : Unseen store s' lag :=
  ⟨h'.sound, fun key => (h'.value_eq key).trans (h.value_eq key), h'.last.trans h.last⟩

section

variable (h : store.Sound lag)
include h

/-- The files of the manifest are not read again. -/
theorem Sound.unpublished (hstopped : SSTableManager.Unpublished store.sstables manager) :
    Unseen store { store with sstables := manager } lag := by
  have hsettles := h.kept hstopped hstopped.idNext
  have hgood := hsettles.sound.sstables
  exact ⟨⟨h.memtables, h.paced, ⟨hgood.proper, hgood.cache, hgood.idPos, hgood.idLt, hgood.target,
    hgood.trigger, hgood.most⟩, hsettles.sound.newer, hsettles.sound.bound, hsettles.sound.few⟩,
    hsettles.value_eq, rfl⟩

theorem Sound.compactionStopped
    (hstopped : SSTableManager.CompactionStopped store.sstables manager) :
    Unseen store { store with sstables := manager } lag := by
  rcases hstopped with hbefore | hbehind
  · exact h.unpublished hbefore
  · exact (h.shrunk hbehind).unseen

/-! ## Settling -/

theorem Sound.flushOne_mirrors {newer : List MemTable} {oldest : MemTable}
    (hsplit : store.memtables.immutableTables = newer ++ [oldest]) :
    Mirrors (fun s => Unseen store s lag) (Faulty.flushOne oldest) (flushOne oldest) store := by
  have hmem : oldest ∈ store.memtables.immutableTables := hsplit ▸ by simp
  have hflush := SSTableManager.flush_mirrors h.sstables (h.memtables.frozen oldest hmem)
    (h.memtables.nonempty oldest hmem) fun record hrec =>
      h.memtables.valid record (MemTableSet.contains_of_immutable hmem hrec)
  refine Mirrors.bind ((Mirrors.within hflush).mono ?_) fun metadata s hs => ?_
  · rintro s ⟨manager, hstopped, rfl⟩
    exact h.unpublished hstopped
  · obtain rfl := (Prod.mk.inj hs).2
    refine Mirrors.read_bind ?_
    dsimp only
    rw [h.memtables.discardImmutable_oldest hsplit, if_pos rfl, if_pos rfl]
    refine Mirrors.safely fun e t ht => ?_
    cases (Prod.mk.inj ht).1

/-- From the oldest on; what was flushed before a failure stays flushed. -/
theorem Sound.flushAll_mirrors {tables : List MemTable}
    (hsplit : store.memtables.immutableTables = tables.reverse) :
    Mirrors (fun s => Unseen store s lag) (Program.forEach Faulty.flushOne tables)
      (Program.forEach flushOne tables) store := by
  induction tables generalizing store with
  | nil => exact Mirrors.ret ()
  | cons oldest rest ih =>
    rw [List.reverse_cons] at hsplit
    refine Mirrors.bind (h.flushOne_mirrors hsplit) fun _ s hs => ?_
    -- the next table starts from the store that this flush has left
    have houtcome := h.flushOne_outcome hsplit
    rw [hs] at houtcome
    obtain ⟨hsettles, himm, -⟩ := houtcome
    exact (ih hsettles.sound himm).mono fun s' hunseen => hsettles.unseen.trans hunseen

theorem Sound.compactWhileNeeded_mirrors (rounds : Nat) :
    Mirrors (fun s => Unseen store s lag) (Faulty.compactWhileNeeded rounds)
      (compactWhileNeeded rounds) store := by
  induction rounds generalizing store with
  | zero => exact Mirrors.ret ()
  | succ rounds ih =>
    refine Mirrors.read_bind ?_
    split_ifs
    · have hcompact := SSTableManager.compactIfNeeded_mirrors h.sstables
      have houtcome : Outcome _ _ (withSSTables SSTableManager.compactIfNeeded store) :=
        Outcome.zoom (SSTableManager.compactIfNeeded_outcome h.sstables)
      refine Mirrors.bind ((Mirrors.within hcompact).mono ?_) fun result s hs => ?_
      · rintro s ⟨manager, hstopped, rfl⟩
        exact h.compactionStopped hstopped
      · have hrun : withSSTables SSTableManager.compactIfNeeded store = (.ok result, s) := hs
        rw [hrun] at houtcome
        obtain ⟨manager, ⟨hnot, rfl⟩ | ⟨hdone, hshrunk⟩, rfl⟩ := houtcome
        · rw [hnot, if_neg (by decide), if_neg (by decide)]
          exact Mirrors.ret ()
        · rw [hdone, if_pos rfl, if_pos rfl]
          have hsettles := h.shrunk hshrunk
          exact (ih hsettles.sound).mono fun s' hunseen => hsettles.unseen.trans hunseen
    · exact Mirrors.ret ()

theorem Sound.resetWal_mirrors :
    Mirrors (fun s => Unseen store s lag) Faulty.resetWalIfFullyPersisted resetWalIfFullyPersisted
      store := by
  refine Mirrors.read_bind ?_
  unfold Program.when
  split_ifs
  · refine Mirrors.guarded h.unseen (fun _ t ht => ?_) fun e t ht => ?_
    · obtain rfl := (Prod.mk.inj ht).2
      exact ((Settles.refl h).withWal []).unseen
    · cases (Prod.mk.inj ht).1
  · exact Mirrors.ret ()

/-- **Settling shows nothing**, however far it comes. -/
theorem Sound.settle_mirrors :
    Mirrors (fun s => Unseen store s lag) Faulty.settle settle store := by
  refine Mirrors.bind (Mirrors.read_bind (h.flushAll_mirrors (List.reverse_reverse _).symm))
    fun _ s hs => ?_
  have hflushed := h.flushImmutable_outcome
  rw [hs] at hflushed
  have hunseen : Unseen store s lag := hflushed.1.unseen
  refine Mirrors.bind (m := compactIfRequired) ?_ fun _ s' hs' => ?_
  · refine Mirrors.read_bind ?_
    split_ifs
    · exact Mirrors.ret ()
    · exact (hunseen.sound.compactWhileNeeded_mirrors _).mono fun s' h' => hunseen.trans h'
  · have hcompacted := hunseen.sound.compactIfRequired_outcome
    rw [hs'] at hcompacted
    have hunseen' := hunseen.trans hcompacted.1.unseen
    exact hunseen'.sound.resetWal_mirrors.mono fun t ht => hunseen'.trans ht

theorem Sound.settle_unseen (faults : List (Option Error)) :
    Unseen store (Faulty.settle ⟨store, faults⟩).2.state lag := by
  have hruns := h.settle_mirrors.runs faults
  rcases hrun : Faulty.settle ⟨store, faults⟩ with ⟨result, t⟩
  rw [hrun] at hruns
  cases result with
  | ok u =>
    have hsettled := h.settle_outcome
    have hreturns : settle store = (.ok u, t.state) := hruns
    rw [hreturns] at hsettled
    exact hsettled.settles.unseen
  | error e => exact hruns

/-! ## The entry -/

theorem Sound.existsKey_mirrors (hkey : ValidKey key) :
    Mirrors (fun s => Unseen store s lag) (Faulty.existsWithoutValidation key)
      (existsWithoutValidation key) store := by
  refine Mirrors.bind (m := latestEntryWithoutValidation key) ?_ fun _ _ _ => Mirrors.ret _
  refine Mirrors.read_bind (Mirrors.check_bind h.unseen fun memoryEntry _ => ?_)
  split_ifs
  · exact Mirrors.ret _
  · obtain ⟨cache, hcache, hget⟩ := h.sstables.get hkey
    have hread : withSSTables (SSTableManager.get key) store =
        (.ok (newestEntry store.sstables.readers key),
          { store with sstables := { store.sstables with blockCache := cache } }) := by
      unfold withSSTables Program.zoom
      rw [hget]
    refine Mirrors.guarded h.unseen (fun entry t ht => ?_) fun e t ht => ?_
    · obtain rfl := (Prod.mk.inj (hread.symm.trans ht)).2
      have hsettles : Settles 0 store _ lag :=
        h.kept (h.sstables.kept.cached hcache) (Nat.le_refl _)
      exact hsettles.unseen
    · cases (Prod.mk.inj (hread.symm.trans ht)).1

/-- **A failure before the memtables** shows nothing. -/
theorem Sound.insertEntry_mirrors (hkey : ValidKey key) (value : Bytes) :
    Mirrors (fun s => Unseen store s lag) (Faulty.insertEntry key value) (insertEntry key value)
      store := by
  refine Mirrors.check_bind h.unseen fun _ _ => Mirrors.check_bind h.unseen fun _ _ => ?_
  refine Mirrors.bind (h.existsKey_mirrors hkey) fun wasLive s hs => ?_
  obtain ⟨s₁, hexists, hsettles, -⟩ := h.existsKey hkey
  obtain rfl := (Prod.mk.inj (hexists.symm.trans hs)).2
  -- what a failed append leaves in the log is not read by `get`
  have hlogged : ∀ wal, Unseen store { s₁ with wal := wal } lag := fun wal =>
    (hsettles.withWal wal).unseen
  have hwal : ∀ result t, appendWal ⟨.Put, key, value⟩ s₁ = (result, t) →
      ∃ wal, t = { s₁ with wal := wal } := by
    intro result t ht
    unfold appendWal at ht
    cases hvalid : (⟨.Put, key, value⟩ : WalRecord).validate with
    | error e =>
      rw [hvalid] at ht
      exact ⟨s₁.wal, (Prod.mk.inj ht).2.symm⟩
    | ok u =>
      rw [hvalid] at ht
      exact ⟨_, (Prod.mk.inj ht).2.symm⟩
  refine Mirrors.bind (Mirrors.guarded (hlogged s₁.wal) (fun _ t ht => ?_) fun e t ht => ?_)
    fun _ t ht => ?_
  · obtain ⟨wal, rfl⟩ := hwal _ t ht
    exact hlogged wal
  · obtain ⟨wal, rfl⟩ := hwal _ t ht
    exact hlogged wal
  obtain ⟨wal, rfl⟩ := hwal _ t ht
  refine Mirrors.bind (Mirrors.safely fun e t ht => ?_) fun _ t _ => ?_
  · unfold changeMemtables at ht
    rw [read_bind_apply, bind_apply] at ht
    dsimp only at ht
    cases hput : s₁.memtables.put key value with
    | error e' =>
      rw [hput] at ht
      obtain rfl := (Prod.mk.inj ht).2
      exact hlogged wal
    | ok memtables =>
      rw [hput] at ht
      cases (Prod.mk.inj ht).1
  · cases wasLive with
    | true => exact Mirrors.ret ()
    | false =>
      refine Mirrors.safely fun e t ht => ?_
      cases (Prod.mk.inj ht).1

end

/-- Memtable generations do not run out in so many writes. In a store that began empty the sequence
numbers would run out first. -/
def Room (store : PersistentKeyValueStore) (lag writes : Nat) : Prop :=
  lag = 0 ∨ store.memtables.lastSequenceNumber + lag + writes < u64

/-- The entry is what a reader sees, and nothing else has changed. -/
structure Landed (store : PersistentKeyValueStore) (key value : Bytes) (s : PersistentKeyValueStore)
    (lag : Nat := 0) : Prop where
  sound : s.Sound lag
  value_eq : ∀ k, s.value? k = if k = key then some value else store.value? k
  last : s.memtables.lastSequenceNumber = store.memtables.lastSequenceNumber + 1

theorem Landed.unseen (h : Landed store key value s lag) (h' : Unseen s s' lag) :
    Landed store key value s' lag :=
  ⟨h'.sound, fun k => (h'.value_eq k).trans (h.value_eq k), h'.last.trans h.last⟩

theorem Sound.insertEntry_landed (h : store.Sound lag) (hkey : ValidKey key)
    (hvalue : ValidValue value) (hroom : store.Room lag 1)
    (hrun : insertEntry key value store = (.ok (), s)) : Landed store key value s lag := by
  have hlast : store.memtables.lastSequenceNumber ≠ u64 - 1 := by
    intro hlast
    obtain ⟨e, t, herror, -⟩ := h.insertEntry_last hkey hvalue hlast
    cases (Prod.mk.inj (herror.symm.trans hrun)).1
  obtain ⟨s₁, usage, memoryCount, -, hsettles, -, -, hinsert⟩ := h.insertEntry_eq hkey hvalue hlast
  obtain rfl := (Prod.mk.inj (hinsert.symm.trans hrun)).2
  have hnext : s₁.memtables.lastSequenceNumber + lag ≠ u64 - 1 := by
    rw [hsettles.last]
    rcases hroom with rfl | hroom
    · exact hlast
    · omega
  obtain ⟨hsound, hshown, -, hcount⟩ := hsettles.sound.wrote
    ⟨value, s₁.memtables.lastSequenceNumber + 1, false⟩
    ⟨hkey, hvalue, Nat.succ_ne_zero _, fun hdel => by cases hdel⟩ rfl hnext usage memoryCount
    (s₁.countAfter (store.value? key).isSome) (s₁.wal ++ [⟨.Put, key, value⟩])
  refine ⟨hsound, fun k => ?_, by rw [hcount, hsettles.last]⟩
  rw [hshown k, hsettles.value_eq k]
  rfl

/-! ## The write -/

/-- The entry gets as far as the memtables. -/
def lands (key value : Bytes) (s : UnderFaults PersistentKeyValueStore Error) : Bool :=
  (Faulty.insertEntry key value s).1.isOk

section Write

variable {t : UnderFaults PersistentKeyValueStore Error}

/-- **A write that lands is seen**, whether `put` returns or throws. -/
theorem put_landed (h : t.state.Sound lag) (hkey : ValidKey key) (hvalue : ValidValue value)
    (hroom : t.state.Room lag 1) (hlands : lands key value t = true) :
    Landed t.state key value (Faulty.put key value t).2.state lag := by
  have hruns := (h.insertEntry_mirrors hkey value).runs t.faults
  unfold lands at hlands
  unfold Faulty.put
  rw [bind_apply]
  rcases hrun : Faulty.insertEntry key value t with ⟨result, t'⟩
  rw [hrun] at hlands hruns
  cases result with
  | error e => cases hlands
  | ok u =>
    have hlanded := h.insertEntry_landed hkey hvalue hroom hruns
    exact hlanded.unseen (hlanded.sound.settle_unseen t'.faults)

/-- A write that does not land throws, and nothing has changed. -/
theorem put_unseen (h : t.state.Sound lag) (hkey : ValidKey key)
    (hlands : lands key value t = false) :
    (∃ e, (Faulty.put key value t).1 = .error e) ∧
      Unseen t.state (Faulty.put key value t).2.state lag := by
  have hruns := (h.insertEntry_mirrors hkey value).runs t.faults
  unfold lands at hlands
  unfold Faulty.put
  rw [bind_apply]
  rcases hrun : Faulty.insertEntry key value t with ⟨result, t'⟩
  rw [hrun] at hlands hruns
  cases result with
  | error e => exact ⟨⟨e, rfl⟩, hruns⟩
  | ok u => cases hlands

end Write

end PersistentKeyValueStore

end NebulaKV.Lsm
