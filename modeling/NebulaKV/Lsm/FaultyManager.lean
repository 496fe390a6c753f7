/-
# The tables of the store on a disk that may fail

The steps of `SSTableManager` once more, with the points where a file operation may throw: a table may
fail to be written, or stay behind written but unsynced; its blocks may fail to be read; a manifest may
fail before its file, between the file and `CURRENT`, or behind both, when memory still has the old one;
a compaction may fail behind its publication, at the sync of the directory.

None of it shows. Up to the publication the readers are what they were (`Unpublished`), and from the
publication of a compaction on they show what they showed (`Shrunk`).
-/
import NebulaKV.Effects.Faults
import NebulaKV.Lsm.ManagerSteps

namespace NebulaKV.Lsm

open Containers Effects Program UnderFaults

namespace SSTableManager

/-! ## The steps -/

namespace Faulty

def writeTable (level : SSTableLevel) (generation : Nat) (snapshot : Snapshot) :
    Program (UnderFaults SSTableManager Error) Error Written := do
  let fileId ← safely reserveFileId
  -- behind the rename only the sync of the directory is left to fail: the file stays
  let written ← guarded (writeFile
    (tablePath level fileId generation (snapshotMaxSequence snapshot)) generation snapshot)
  let manager ← safely Program.read
  let filter ← safely (Program.check
    (BloomFilter.build manager.options.bloomSizing (snapshot.map Prod.fst)))
  let reader ← guarded (Program.check
    (SSTableReader.openFile written.2.path written.1 (some filter)))
  return ⟨fileId, { written.2 with level := level }, ⟨reader, level⟩⟩

/-- `commit` writes two files, and only then is the generation in memory the new one. -/
def publishSorted (tables : List ManagedTable) (liveKeyCount : Nat) :
    Program (UnderFaults SSTableManager Error) Error Unit := do
  safely (Program.check (validateLevel1Ranges tables))
  let nextGeneration ← safely (Program.check (generationAfter tables))
  let manager ← safely Program.read
  let manifest ← safely (Program.check
    (manager.manifest.commit (tables.map ManagedTable.metadata) manager.nextFileId))
  -- the manifest's own file
  attempt
  safely (Program.update fun manager =>
    { manager with manifest := { manager.manifest with manifests := manifest.manifests } })
  -- `CURRENT`
  attempt
  safely (Program.update fun manager =>
    { manager with manifest := { manager.manifest with current := manifest.current } })
  -- the sync behind its rename
  attempt
  safely (Program.update fun manager =>
    manager.published tables liveKeyCount nextGeneration manifest)

def publishTables (tables : List ManagedTable) (liveKeyCount : Nat) :
    Program (UnderFaults SSTableManager Error) Error Unit :=
  publishSorted (sortTables tables) liveKeyCount

/-- The last round of `flush`. Alone at the manager it is the first: `state_version_` has not moved. -/
def publishFlush (table : MemTable) (written : Written) :
    Program (UnderFaults SSTableManager Error) Error SSTableMetadata := do
  let manager ← safely Program.read
  let liveCount ← guarded (withCache
    (liveCountAfterFlush manager.readers table.snapshot manager.liveKeyCount))
  publishTables (manager.readers ++ [written.table]) liveCount
  return written.metadata

def flush (table : MemTable) : Program (UnderFaults SSTableManager Error) Error SSTableMetadata :=
  if !table.immutable then
    safely (Program.raise
      (.invalidArgument "only immutable MemTables can be flushed to SSTables"))
  else if table.snapshot = [] then
    safely (Program.raise (.invalidArgument "cannot flush an empty MemTable"))
  else do
    let written ← writeTable .Level0 table.generation table.snapshot
    publishFlush table written

def writeOutput (generation : Nat) (compacted : Snapshot) :
    Program (UnderFaults SSTableManager Error) Error (Option Written) :=
  if compacted = [] then return none
  else do
    let written ← writeTable .Level1 generation compacted
    return some written

def publishOutput (selectedPaths : List Bytes) (output : Option Written) :
    Program (UnderFaults SSTableManager Error) Error Unit := do
  let manager ← safely Program.read
  if selectedPaths.any fun path => !(manager.readers.any (·.path = path)) then
    safely (Program.raise (.runtimeError "compaction input changed before manifest publication"))
  else
    publishTables
      (manager.readers.filter (·.path ∉ selectedPaths) ++ (output.map Written.table).toList)
      manager.liveKeyCount

/-- A compaction up to the removal of the files it has replaced. -/
def replaceSelected (selection : CompactionSelection) :
    Program (UnderFaults SSTableManager Error) Error CompactionResult := do
  let merged ← guarded (withCache (mergeTables selection.selected))
  let compacted ← guarded (withCache (dropTombstones selection.unselected merged.entries))
  let output ← writeOutput (maxGeneration selection.selected) compacted
  publishOutput (selection.selected.map ManagedTable.path) output
  safely (Program.update (removeFiles (selection.selected.map ManagedTable.path)))
  pure
    { performed := true
      inputTables := selection.selected.length
      outputTables := if output.isSome then 1 else 0
      inputEntries := (selection.selected.map (·.reader.metadata.entryCount)).sum
      outputEntries := compacted.length
      tombstonesDropped := merged.entries.length - compacted.length
      outputFileId := (output.map Written.fileId).getD 0 }

/-- The directory is synced when the new tables are in place already. -/
def compactSelected (selection : CompactionSelection) :
    Program (UnderFaults SSTableManager Error) Error CompactionResult := do
  let result ← replaceSelected selection
  attempt
  return result

def compactLevel0 (forceAll : Bool) :
    Program (UnderFaults SSTableManager Error) Error CompactionResult := do
  let manager ← safely Program.read
  if (manager.selectLevel0Compaction forceAll).selected = [] then return {}
  else compactSelected (manager.selectLevel0Compaction forceAll)

def compactIfNeeded : Program (UnderFaults SSTableManager Error) Error CompactionResult := do
  let manager ← safely Program.read
  if manager.needsCompaction then compactLevel0 false else return {}

end Faulty

/-! ## What a failure leaves -/

variable {manager s : SSTableManager} {R : SSTableManager → Prop}

/-- The readers are what they were, whatever the files of the manifest say. -/
def Unpublished (manager s : SSTableManager) : Prop :=
  Kept manager { s with manifest := manager.manifest }

theorem Kept.unpublished (h : Kept manager s) (manifest : ManifestManager) :
    Unpublished manager { s with manifest := manifest } :=
  ⟨h.options, h.readers, rfl, h.cache, h.idLe, h.idNext, h.idLt⟩

/-- A compaction has failed, before its publication or behind it. -/
def CompactionStopped (manager s : SSTableManager) : Prop :=
  Unpublished manager s ∨ Shrunk manager s

theorem reserveFileId_outcome (h : manager.Good) :
    Outcome (fun _ s => s = { manager with nextFileId := manager.nextFileId + 1 } ∧
        manager.nextFileId + 1 < u64) (fun s => s = manager) (reserveFileId manager) := by
  unfold reserveFileId
  rw [read_bind_apply]
  have := h.idLt
  split_ifs with hlast
  · rfl
  · exact ⟨rfl, by omega⟩

theorem writeFile_outcome (manager : SSTableManager) (path : Bytes) (generation : Nat)
    (snapshot : Snapshot) :
    Outcome (fun _ s => ∃ files, s = { manager with files := files }) (fun s => s = manager)
      (writeFile path generation snapshot manager) := by
  unfold writeFile
  rw [read_bind_apply]
  refine Outcome.bind (M := fun _ s => s = manager)
    (Outcome.check (fun _ _ => rfl) fun _ _ => rfl) ?_
  rintro written s rfl
  exact ⟨_, rfl⟩

theorem writeTable_mirrors (h : manager.Good) (level : SSTableLevel) (generation : Nat)
    (snapshot : Snapshot) :
    Mirrors (Kept manager) (Faulty.writeTable level generation snapshot)
      (writeTable level generation snapshot) manager := by
  have hreserve := reserveFileId_outcome h
  refine Mirrors.bind (Mirrors.safely fun e t ht => ?_) fun fileId t ht => ?_
  · obtain rfl : t = manager := hreserve.of_throw ht
    exact h.kept
  rw [ht] at hreserve
  obtain ⟨rfl, hlt⟩ := hreserve
  have hkept : ∀ files, Kept manager
      { manager with nextFileId := manager.nextFileId + 1, files := files } := fun _ =>
    ⟨rfl, rfl, rfl, h.cache, Nat.le_succ _, le_rfl, hlt⟩
  have hwrite := writeFile_outcome { manager with nextFileId := manager.nextFileId + 1 }
    (tablePath level fileId generation (snapshotMaxSequence snapshot)) generation snapshot
  have hwritten : ∀ written t, writeFile
      (tablePath level fileId generation (snapshotMaxSequence snapshot)) generation snapshot
        { manager with nextFileId := manager.nextFileId + 1 } = (.ok written, t) →
      ∃ files, t = { manager with nextFileId := manager.nextFileId + 1, files := files } := by
    intro written t ht
    rw [ht] at hwrite
    exact hwrite
  refine Mirrors.bind (Mirrors.guarded (hkept _) (fun written t ht => ?_) fun e t ht => ?_)
    fun written t ht => ?_
  · obtain ⟨files, rfl⟩ := hwritten written t ht
    exact hkept files
  · obtain rfl := hwrite.of_throw ht
    exact hkept _
  obtain ⟨files, rfl⟩ := hwritten written t ht
  refine Mirrors.read_bind (Mirrors.check_bind (hkept files) fun filter _ => ?_)
  refine Mirrors.bind (Mirrors.guarded (hkept files) (fun reader t ht => ?_) fun e t ht => ?_)
    fun reader t _ => Mirrors.ret _
  · obtain rfl := (Prod.mk.inj ht).2
    exact hkept files
  · obtain rfl := (Prod.mk.inj ht).2
    exact hkept files

/-- A publication that fails has changed no reader. -/
theorem publishTables_mirrors (hR : ∀ manifest, R { manager with manifest := manifest })
    (tables : List ManagedTable) (liveKeyCount : Nat) :
    Mirrors R (Faulty.publishTables tables liveKeyCount) (publishTables tables liveKeyCount)
      manager := by
  have hsame : R manager := hR manager.manifest
  -- up to the last update only the manifest changes, and that update sets it again
  refine Mirrors.check_bind hsame fun _ _ => Mirrors.check_bind hsame fun generation _ => ?_
  refine Mirrors.read_bind (Mirrors.check_bind hsame fun manifest _ => ?_)
  refine Mirrors.attempt_bind hsame (Mirrors.update_bind ?_ rfl)
  refine Mirrors.attempt_bind (hR _) (Mirrors.update_bind ?_ rfl)
  refine Mirrors.attempt_bind (hR _) (Mirrors.safely fun e t ht => ?_)
  cases (Prod.mk.inj ht).1

/-- Blocks that may fail to be read. -/
theorem Kept.read_mirrors {α β : Type} (hkept : Kept manager s) (h : s.Good)
    {m : Program BlockCache Error α} {a : α} (hm : Yields (CacheOK s.readers) m a)
    {f' : α → Program (UnderFaults SSTableManager Error) Error β}
    {f : α → Program SSTableManager Error β} (hR : ∀ t, Kept manager t → R t)
    (hf : ∀ cache, CacheOK s.readers cache → Mirrors R (f' a) (f a) { s with blockCache := cache }) :
    Mirrors R (guarded (withCache m) >>= f') (withCache m >>= f) s := by
  obtain ⟨cache, hcache, hread⟩ := h.withCache hm
  refine Mirrors.bind (Mirrors.guarded (hR s hkept) (fun b t ht => ?_) fun e t ht => ?_) fun b t ht => ?_
  · obtain rfl := (Prod.mk.inj (hread.symm.trans ht)).2
    exact hR _ (hkept.cached hcache)
  · cases (Prod.mk.inj (hread.symm.trans ht)).1
  · obtain ⟨hb, rfl⟩ := Prod.mk.inj (hread.symm.trans ht)
    obtain rfl := Except.ok.inj hb
    exact hf cache hcache

/-- **A flush that fails** has published nothing. -/
theorem flush_mirrors (h : manager.Good) {table : MemTable} (hfrozen : table.immutable = true)
    (hne : table.snapshot ≠ []) (hvalid : ∀ record ∈ table.snapshot, ValidRecord record) :
    Mirrors (Unpublished manager) (Faulty.flush table) (flush table) manager := by
  have hfaulty : Faulty.flush table = (do
      let written ← Faulty.writeTable .Level0 table.generation table.snapshot
      Faulty.publishFlush table written) := by
    unfold Faulty.flush
    rw [hfrozen, Bool.not_true, if_neg (by decide), if_neg hne]
  rw [hfaulty, flush_eq hfrozen hne]
  refine Mirrors.bind ((writeTable_mirrors h _ _ _).mono fun t hkept => hkept.unpublished _)
    fun written s hs => ?_
  have hwritten := writeTable_outcome h .Level0 table.generation hne table.entries.sorted hvalid
  rw [hs] at hwritten
  obtain ⟨-, hkept, -⟩ := hwritten
  have hgood := hkept.good h
  refine Mirrors.read_bind (hkept.read_mirrors hgood (liveCountAfterFlush_yields
    hgood.proper.readable (fun _ ht => ht) (fun record hrec => (hvalid record hrec).key) _)
    (fun t ht => ht.unpublished _) fun cache hcache => ?_)
  exact Mirrors.bind (publishTables_mirrors (fun manifest => (hkept.cached hcache).unpublished manifest)
    _ _) fun _ _ _ => Mirrors.ret _

theorem writeOutput_mirrors (h : manager.Good) (generation : Nat) (compacted : Snapshot) :
    Mirrors (Kept manager) (Faulty.writeOutput generation compacted)
      (writeOutput generation compacted) manager := by
  unfold Faulty.writeOutput writeOutput
  split_ifs
  · exact Mirrors.ret _
  · exact Mirrors.bind (writeTable_mirrors h _ _ _) fun _ _ _ => Mirrors.ret _

theorem publishOutput_mirrors (hR : ∀ manifest, R { manager with manifest := manifest })
    (selectedPaths : List Bytes) (output : Option Written) :
    Mirrors R (Faulty.publishOutput selectedPaths output) (publishOutput selectedPaths output)
      manager := by
  refine Mirrors.read_bind ?_
  split_ifs
  · refine Mirrors.safely fun e t ht => ?_
    obtain rfl := (Prod.mk.inj ht).2
    exact hR manager.manifest
  · exact publishTables_mirrors hR _ _

section Compaction

variable {selection : CompactionSelection}

theorem replaceSelected_mirrors (h : manager.Good) (hselects : Selects manager.readers selection) :
    Mirrors (Unpublished manager) (Faulty.replaceSelected selection) (compactSelected selection)
      manager := by
  have hsub := hselects.selected_mem
  have hsub' := hselects.unselected_mem
  have hw : ∀ table ∈ selection.selected, table.reader.WellFormed :=
    fun t ht => h.proper.readable.wellFormed t (hsub t ht)
  have hstop : ∀ t, Kept manager t → Unpublished manager t := fun t ht => ht.unpublished _
  refine h.kept.read_mirrors h (mergeTables_yields h.proper.readable hsub) hstop
    fun cache₁ hcache₁ => ?_
  have hkept₁ : Kept manager { manager with blockCache := cache₁ } := h.kept.cached hcache₁
  have h₁ := hkept₁.good h
  refine hkept₁.read_mirrors h₁ (dropTombstones_yields h₁.proper.readable hsub'
    (mergeOf selection.selected).entries fun record hrec => ?_) hstop fun cache₂ hcache₂ => ?_
  · obtain ⟨table, ht, hmem⟩ := mem_mergeOf hw hrec
    exact ((hw table ht).valid record hmem).key
  have hkept₂ : Kept manager { manager with blockCache := cache₂ } := h.kept.cached hcache₂
  have h₂ := hkept₂.good h
  -- the caches have changed; an id may go with the table that is written
  have hcompare : ∀ t, Kept { manager with blockCache := cache₂ } t → Kept manager t := fun t ht =>
    ⟨ht.options, ht.readers, ht.manifest, ht.cache, ht.idLe, ht.idNext, ht.idLt⟩
  refine Mirrors.bind ((writeOutput_mirrors h₂ _ _).mono fun t ht => hstop t (hcompare t ht))
    fun output s hs => ?_
  have houtput := writeOutput_outcome h₂ hsub manager.readers h₂.proper.named
  have hkept : Kept manager s := by
    have hrun : writeOutput (maxGeneration selection.selected) (compacted selection)
        { manager with blockCache := cache₂ } = (.ok output, s) := hs
    rw [hrun] at houtput
    exact hcompare s houtput.2.2
  refine Mirrors.bind (publishOutput_mirrors (fun manifest => hkept.unpublished manifest) _ _)
    fun _ t _ => Mirrors.bind (Mirrors.safely fun e t ht => ?_) fun _ _ _ => Mirrors.ret _
  cases (Prod.mk.inj ht).1

/-- **A compaction that fails** has not changed what the tables show. -/
theorem compactSelected_mirrors (h : manager.Good) (hselects : Selects manager.readers selection)
    (hlevel0 : 0 < selection.selected.countP (·.level = .Level0)) :
    Mirrors (CompactionStopped manager) (Faulty.compactSelected selection)
      (compactSelected selection) manager := by
  have houtcome := compactSelected_outcome h hselects hlevel0
  refine ((replaceSelected_mirrors h hselects).mono fun _ ht => Or.inl ht).then_attempt
    fun result t ht => Or.inr ?_
  rw [ht] at houtcome
  exact houtcome.2

theorem compactIfNeeded_mirrors (h : manager.Good) :
    Mirrors (CompactionStopped manager) Faulty.compactIfNeeded compactIfNeeded manager := by
  refine Mirrors.read_bind ?_
  split_ifs
  · refine Mirrors.read_bind ?_
    split_ifs with hnone
    · exact Mirrors.ret _
    · obtain ⟨hselects, hpos⟩ := h.selects hnone
      exact compactSelected_mirrors h hselects hpos
  · exact Mirrors.ret _

end Compaction

end SSTableManager

end NebulaKV.Lsm
