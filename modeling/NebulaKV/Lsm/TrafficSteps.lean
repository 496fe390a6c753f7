/-
# What the threads keep

Every step of `Traffic` from any directory that is accepted. A thread that reads without the lock reads
tables of the SHELF: those in use and those that were. The cache has blocks of the shelf only, and no name
on it is given again, so that a block is what its table holds however late it is read; a round of a flush
that is not lost has counted over the tables that are still in use; and what a compaction has selected is
still there when it publishes.

The version tells a flush that its round is lost. It is raised with every publication, as is the
generation of the manifest, which is never raised beyond the last one; so it does not come back to a value
that it had.
-/
import NebulaKV.Lsm.Traffic

namespace NebulaKV.Lsm

open Containers Effects Program

namespace SSTableManager

variable {manager s : SSTableManager} {shelf : List ManagedTable}
variable {tables : List ManagedTable} {output : Option Written} {n : Nat} {cache : BlockCache}
  {e : Error}
variable {table : ManagedTable} {snapshot : ManifestSnapshot} {filenames : List Bytes}
  {manifest : ManifestManager} {readers' : List ManagedTable} {flush : PendingFlush}
  {stage : CompactionStage} {look : Bytes × List ManagedTable}

/-! ## Names -/

theorem Unclaimed.mono {n' : Nat} {path : Bytes} (h : Unclaimed n path) (hn : n ≤ n') :
    Unclaimed n' path :=
  fun level fileId generation maxSequence hle => h level fileId generation maxSequence (hn.trans hle)

/-- A name with an id that is given out is not given again. -/
theorem unclaimed_tablePath {fileId : Nat} (hid : fileId < n) (hlt : fileId < u64)
    (level : SSTableLevel) (generation maxSequence : Nat) :
    Unclaimed n (tablePath level fileId generation maxSequence) := by
  intro level' fileId' generation' maxSequence' hle hlt' heq
  have hsame := tablePath_fileId hlt hlt' heq
  omega

theorem fresh_of_unclaimed (h : ∀ table ∈ tables, Unclaimed n table.path) (hlt : n < u64)
    (level : SSTableLevel) (generation maxSequence : Nat) :
    tablePath level n generation maxSequence ∉ tables.map ManagedTable.path := by
  intro hmem
  obtain ⟨table, ht, heq⟩ := List.mem_map.mp hmem
  exact h table ht level n generation maxSequence le_rfl hlt heq

theorem WrittenUnder.unclaimed (h : WrittenUnder manager table s) (hlt : manager.nextFileId < u64) :
    Unclaimed s.nextFileId table.path := by
  obtain ⟨level, generation, maxSequence, hpath⟩ := h.path
  rw [hpath, h.next]
  exact unclaimed_tablePath (Nat.lt_succ_self _) hlt level generation maxSequence

theorem WrittenUnder.fresh (h : WrittenUnder manager table s) (hlt : manager.nextFileId < u64)
    (htables : ∀ table ∈ tables, Unclaimed manager.nextFileId table.path) :
    table.path ∉ tables.map ManagedTable.path := by
  obtain ⟨level, generation, maxSequence, hpath⟩ := h.path
  rw [hpath]
  exact fresh_of_unclaimed htables hlt level generation maxSequence

/-! ## Orderly managers -/

theorem Orderly.readers (h : manager.Orderly shelf) : Readable manager.readers :=
  ⟨fun t ht => h.readable.wellFormed t (h.used t ht), h.paths⟩

theorem Orderly.untouched (h : manager.Orderly shelf) (hs : Untouched manager s)
    (hcache : CacheOK shelf s.blockCache) : s.Orderly shelf where
  readable := h.readable
  cache := hcache
  used := by rw [hs.readers]; exact h.used
  paths := by rw [hs.readers]; exact h.paths
  apart := by rw [hs.readers]; exact h.apart
  unclaimed t ht := (h.unclaimed t ht).mono hs.idLe
  idLt := hs.idLt h.idLt
  current_lt := by rw [hs.manifest]; exact h.current_lt
  version_le := by rw [hs.version, hs.manifest]; exact h.version_le
  trigger := by rw [hs.options]; exact h.trigger
  most := by rw [hs.options]; exact h.most

theorem Orderly.cached (h : manager.Orderly shelf) (hcache : CacheOK shelf cache) :
    Orderly { manager with blockCache := cache } shelf :=
  h.untouched (Untouched.cached _ cache) hcache

theorem Orderly.wrote (h : manager.Orderly shelf) (hs : Wrote manager s) : s.Orderly shelf :=
  h.untouched hs.toUntouched (by rw [hs.cache]; exact h.cache)

/-- What is read through the cache is what the tables hold. -/
theorem Orderly.withCache (h : manager.Orderly shelf) {α : Type} {m : Program BlockCache Error α} {a : α}
    (hm : Yields (CacheOK shelf) m a) :
    ∃ cache, CacheOK shelf cache ∧
      SSTableManager.withCache m manager = (.ok a, { manager with blockCache := cache }) :=
  hm.zoom h.cache

/-! ## Publishing tables -/

/-- What `validate_level1_ranges` throws. -/
def overlapError : Error := .logicError "Level-1 SSTable ranges must not overlap"

theorem ManifestManager.checkTables_error {tables : List SSTableMetadata}
    (h : ManifestManager.checkTables filenames tables = .error e) : e ≠ overlapError := by
  induction tables generalizing filenames with
  | nil => cases h
  | cons table rest ih =>
    unfold ManifestManager.checkTables at h
    split_ifs at h
    · cases h; intro heq; cases heq
    · cases h; intro heq; cases heq
    · cases h; intro heq; cases heq
    · exact ih h

theorem ManifestManager.checkTables_nodup {tables : List SSTableMetadata}
    (h : ManifestManager.checkTables filenames tables = .ok ()) :
    (tables.map SSTableMetadata.path).Nodup ∧ ∀ table ∈ tables, table.path ∉ filenames := by
  induction tables generalizing filenames with
  | nil => exact ⟨List.nodup_nil, fun _ ht => by cases ht⟩
  | cons table rest ih =>
    unfold ManifestManager.checkTables at h
    split_ifs at h with hname hnew hrange
    obtain ⟨hnodup, hrest⟩ := ih h
    refine ⟨List.nodup_cons.mpr ⟨fun hmem => ?_, hnodup⟩, fun t ht => ?_⟩
    · obtain ⟨t, ht, hpath⟩ := List.mem_map.mp hmem
      exact hrest t ht (hpath ▸ List.mem_cons_self)
    · rcases List.mem_cons.mp ht with rfl | ht
      · exact hnew
      · exact fun hmem => hrest t ht (List.mem_cons_of_mem _ hmem)

theorem ManifestManager.checkManifest_nodup (h : ManifestManager.checkManifest snapshot = .ok ()) :
    (snapshot.tables.map SSTableMetadata.path).Nodup := by
  unfold ManifestManager.checkManifest at h
  split_ifs at h
  exact (ManifestManager.checkTables_nodup h).1

theorem ManifestManager.checkManifest_few (h : ManifestManager.checkManifest snapshot = .ok ()) :
    snapshot.tables.length ≤ kMaximumManifestTables := by
  unfold ManifestManager.checkManifest at h
  split_ifs at h with _ hmany
  exact not_lt.mp hmany

theorem ManifestManager.checkManifest_error (h : ManifestManager.checkManifest snapshot = .error e) :
    e ≠ overlapError := by
  unfold ManifestManager.checkManifest at h
  split_ifs at h
  · cases h; intro heq; cases heq
  · cases h; intro heq; cases heq
  · exact ManifestManager.checkTables_error h

theorem commit_nodup {committed : ManifestManager} {tables : List SSTableMetadata}
    {nextFileId : Nat} (h : manifest.commit tables nextFileId = .ok committed) :
    (tables.map SSTableMetadata.path).Nodup := by
  obtain ⟨-, h⟩ := refuse_bind_eq_ok.mp h
  obtain ⟨_, hcheck, -⟩ := bind_eq_ok.mp h
  exact ManifestManager.checkManifest_nodup hcheck

theorem commit_error {tables : List SSTableMetadata} {nextFileId : Nat}
    (h : manifest.commit tables nextFileId = .error e) : e ≠ overlapError := by
  unfold ManifestManager.commit refuse at h
  split_ifs at h
  · cases h; intro heq; cases heq
  · cases hcheck : ManifestManager.checkManifest
        ⟨manifest.currentGeneration + 1, nextFileId, tables⟩ with
    | ok u =>
      rw [hcheck] at h
      cases h
    | error e' =>
      rw [hcheck] at h
      cases h
      exact ManifestManager.checkManifest_error hcheck

/-- **A publication** of tables that do not overlap on Level 1 passes their check. -/
theorem publishTables_ends (manager : SSTableManager)
    (hw : ∀ table ∈ tables, table.reader.WellFormed) (hapart : Level1Apart tables)
    (liveKeyCount : Nat) :
    Ends (fun _ s => Commits manager (sortTables tables) liveKeyCount s)
      (fun e s => s = manager ∧ e ≠ overlapError) (publishTables tables liveKeyCount manager) := by
  have hperm : (sortTables tables).Perm tables := List.perm_insertionSort _ _
  unfold publishTables publishSorted
  rw [validateLevel1Ranges_ok (fun t ht => hw t (hperm.mem_iff.mp ht)) (hapart.perm hperm.symm),
    check_ok_bind]
  refine Ends.bind (M := fun generation s => s = manager ∧
    generationAfter (sortTables tables) = .ok generation)
    (Ends.check (fun _ hok => ⟨rfl, hok⟩) fun e he => ?_) ?_
  · refine ⟨rfl, ?_⟩
    rintro rfl
    unfold generationAfter at he
    split_ifs at he
    cases he
  rintro nextGeneration current ⟨rfl, hgeneration⟩
  rw [read_bind_apply]
  refine Ends.bind (M := fun manifest s => s = current ∧
      current.manifest.commit ((sortTables tables).map ManagedTable.metadata) current.nextFileId =
        .ok manifest)
    (Ends.check (fun _ hcommit => ⟨rfl, hcommit⟩) fun e he => ⟨rfl, commit_error he⟩) ?_
  rintro manifest _ ⟨rfl, hcommit⟩
  exact ⟨nextGeneration, manifest, hgeneration, hcommit, rfl⟩

/-- **After a publication** there are more tables on the shelf, and the version is the next one: each
publication takes a generation of the manifest, so that the version does not wrap round. -/
theorem Commits.orderly {added : List ManagedTable} {liveKeyCount : Nat}
    (hcommits : Commits manager tables liveKeyCount s) (h : manager.Orderly shelf)
    (hw : ∀ table ∈ added, table.reader.WellFormed)
    (hnames : ((added ++ shelf).map ManagedTable.path).Nodup)
    (hunclaimed : ∀ table ∈ added, Unclaimed manager.nextFileId table.path)
    (hused : ∀ table ∈ tables, table ∈ added ++ shelf) (hapart : Level1Apart tables) :
    s.Orderly (added ++ shelf) ∧ s.stateVersion = manager.stateVersion + 1 := by
  obtain ⟨generation, manifest, -, hcommit, rfl⟩ := hcommits
  have hpaths := commit_nodup hcommit
  rw [List.map_map] at hpaths
  obtain ⟨hroom, hcommit⟩ := refuse_bind_eq_ok.mp hcommit
  obtain ⟨_, -, hcommit⟩ := bind_eq_ok.mp hcommit
  obtain rfl := Except.ok.inj hcommit
  have hcurrent := h.current_lt
  have hversion := h.version_le
  have hnext : (manager.stateVersion + 1) % u64 = manager.stateVersion + 1 :=
    Nat.mod_eq_of_lt (by omega)
  refine ⟨⟨⟨fun t ht => ?_, hnames⟩, BlockCache.sound_clear _ _, hused, hpaths, hapart,
    fun t ht => ?_, h.idLt, ?_, ?_, h.trigger, h.most⟩, hnext⟩
  · exact (List.mem_append.mp ht).elim (hw t) (h.readable.wellFormed t)
  · exact (List.mem_append.mp ht).elim (hunclaimed t) (h.unclaimed t)
  · show manager.manifest.currentGeneration + 1 < u64
    omega
  · show (manager.stateVersion + 1) % u64 ≤ manager.manifest.currentGeneration + 1
    omega

/-! ## A flush -/

section Flush

variable {snapshot : Snapshot} {table : ManagedTable}

/-- A table of Level 0 overlaps nothing. -/
theorem Orderly.flush_apart (h : manager.Orderly shelf) (hholding : Holding .Level0 snapshot table) :
    (∀ t ∈ manager.readers ++ [table], t.reader.WellFormed) ∧
      Level1Apart (manager.readers ++ [table]) := by
  refine ⟨fun t ht => ?_, ?_⟩
  · rcases List.mem_append.mp ht with ht | ht
    · exact h.readers.wellFormed t ht
    · rw [List.mem_singleton.mp ht]
      exact hholding.wellFormed
  · refine Level1Apart.perm (List.pairwise_cons.mpr ⟨fun t _ hlevel => ?_, h.apart⟩)
      (List.perm_append_singleton _ _).symm
    rw [hholding.level_eq] at hlevel
    cases hlevel

/-- **The publication of a flush.** -/
theorem Orderly.publishFlush (h : manager.Orderly shelf) (hholding : Holding .Level0 snapshot table)
    (liveKeyCount : Nat) :
    Ends (fun _ s => Commits manager (sortTables (manager.readers ++ [table])) liveKeyCount s)
      (fun e s => s = manager ∧ e ≠ overlapError)
      (publishTables (manager.readers ++ [table]) liveKeyCount manager) :=
  publishTables_ends manager (h.flush_apart hholding).1 (h.flush_apart hholding).2 liveKeyCount

end Flush

/-! ## The stretches of a compaction -/

variable {selection : CompactionSelection}

/-- The selection is still there; what came later is on Level 0. -/
def Underway (readers : List ManagedTable) (selection : CompactionSelection) : Prop :=
  ∃ before newer, Selects before selection ∧
    readers.Perm (selection.selected ++ (selection.unselected ++ newer)) ∧
    ∀ table ∈ newer, table.level = .Level0

theorem Underway.selected_sub {readers : List ManagedTable} (h : Underway readers selection) :
    ∀ table ∈ selection.selected, table ∈ readers := by
  obtain ⟨before, newer, -, hperm, -⟩ := h
  exact fun t ht => hperm.mem_iff.mpr (List.mem_append_left _ ht)

theorem Underway.unselected_sub {readers : List ManagedTable} (h : Underway readers selection) :
    ∀ table ∈ selection.unselected, table ∈ readers := by
  obtain ⟨before, newer, -, hperm, -⟩ := h
  exact fun t ht => hperm.mem_iff.mpr (List.mem_append_right _ (List.mem_append_left _ ht))

/-- A table is flushed meanwhile. -/
theorem Underway.cons {readers : List ManagedTable} (h : Underway readers selection)
    (hreaders : readers'.Perm (table :: readers)) (hlevel : table.level = .Level0) :
    Underway readers' selection := by
  obtain ⟨before, newer, hselects, hperm, hlevels⟩ := h
  refine ⟨before, table :: newer, hselects, ?_, ?_⟩
  · refine hreaders.trans ((hperm.cons table).trans ?_)
    rw [← List.append_assoc, ← List.append_assoc]
    exact List.perm_middle.symm
  · exact List.forall_mem_cons.mpr ⟨hlevel, hlevels⟩

section

variable (h : manager.Orderly shelf)
include h

theorem Orderly.underway {forceAll : Bool}
    (hne : (manager.selectLevel0Compaction forceAll).selected ≠ []) :
    Underway manager.readers (manager.selectLevel0Compaction forceAll) := by
  obtain ⟨hselects, -⟩ := selectLevel0Compaction_selects h.paths hne
  refine ⟨manager.readers, [], hselects, ?_, fun t ht => by cases ht⟩
  rw [List.append_nil]
  exact hselects.perm

/-- A compaction that is not forced starts from two tables of Level 0 at least. -/
theorem Orderly.two_selected (hne : (manager.selectLevel0Compaction false).selected ≠ []) :
    2 ≤ (manager.selectLevel0Compaction false).selected.countP (·.level = .Level0) := by
  obtain ⟨-, hcount, -, htrigger⟩ := selectLevel0Compaction_selects h.paths hne
  have hreached := htrigger rfl
  have := h.trigger
  have := h.most
  rw [hcount, length_chosenLevel0, if_neg (by decide)]
  omega

theorem Orderly.merge (hsub : ∀ table ∈ selection.selected, table ∈ manager.readers) :
    ∃ cache, CacheOK shelf cache ∧
      SSTableManager.withCache (mergeTables selection.selected) manager =
        (.ok (mergeOf selection.selected), { manager with blockCache := cache }) :=
  h.withCache (mergeTables_yields h.readable fun t ht => h.used t (hsub t ht))

theorem Orderly.drop (hunderway : Underway manager.readers selection) :
    ∃ cache, CacheOK shelf cache ∧
      SSTableManager.withCache
          (dropTombstones selection.unselected (mergeOf selection.selected).entries) manager =
        (.ok (compacted selection), { manager with blockCache := cache }) := by
  have hw : ∀ table ∈ selection.selected, table.reader.WellFormed :=
    fun t ht => h.readers.wellFormed t (hunderway.selected_sub t ht)
  refine h.withCache (dropTombstones_yields h.readable
    (fun t ht => h.used t (hunderway.unselected_sub t ht)) _ fun record hrec => ?_)
  obtain ⟨table, ht, hmem⟩ := mem_mergeOf hw hrec
  exact ((hw table ht).valid record hmem).key

theorem writeOutput_leaves (hunderway : Underway manager.readers selection) (generation : Nat) :
    Outcome (fun output s => Leaves (compacted selection) (output.map Written.table).toList ∧
        ((output = none ∧ s = manager) ∨
          ∃ written, output = some written ∧ WrittenUnder manager written.table s))
      (fun s => Wrote manager s) (writeOutput generation (compacted selection) manager) := by
  have hw : ∀ table ∈ selection.selected, table.reader.WellFormed :=
    fun t ht => h.readers.wellFormed t (hunderway.selected_sub t ht)
  unfold writeOutput
  split_ifs with hnil
  · exact ⟨Or.inl ⟨hnil, rfl⟩, Or.inl ⟨rfl, rfl⟩⟩
  have hvalid : ∀ record ∈ compacted selection, ValidRecord record := by
    intro record hrec
    obtain ⟨table, ht, hmem⟩ := stored_of_compacted hw hrec
    exact (hw table ht).valid record hmem
  refine Outcome.bind (writeTable_wrote manager .Level1 generation hnil
    (sorted_compacted selection) hvalid) ?_
  rintro written s ⟨hholding, hwritten⟩
  exact ⟨Or.inr ⟨written.table, rfl, hholding⟩, Or.inr ⟨written, rfl, hwritten⟩⟩

/-- The tables with the output of a compaction: on Level 1 they are apart, and of Level 0 only what was
selected is gone. -/
theorem Orderly.output_apart (hunderway : Underway manager.readers selection)
    (hleaves : Leaves (compacted selection) (output.map Written.table).toList) :
    (∀ t ∈ manager.replacing selection output, t.reader.WellFormed) ∧
      Level1Apart (manager.replacing selection output) ∧
      (manager.replacing selection output).countP (·.level = .Level0) +
        selection.selected.countP (·.level = .Level0) = manager.levelTableCount .Level0 := by
  obtain ⟨before, newer, hselects, hperm, hlevels⟩ := hunderway
  have hselected : ∀ table ∈ selection.selected, table.reader.WellFormed := fun t ht =>
    h.readers.wellFormed t (hperm.mem_iff.mpr (List.mem_append_left _ ht))
  have hrest : ∀ table ∈ selection.unselected ++ newer, table.reader.WellFormed := fun t ht =>
    h.readers.wellFormed t (hperm.mem_iff.mpr (List.mem_append_right _ ht))
  have hrestApart : Level1Apart (selection.unselected ++ newer) :=
    List.Pairwise.sublist (List.sublist_append_right _ _) (h.apart.perm hperm)
  let outputs := (output.map Written.table).toList
  have htables : (manager.replacing selection output).Perm
      (outputs ++ (selection.unselected ++ newer)) :=
    List.perm_append_comm.trans ((filter_unselected h.paths hperm).append_left _)
  have hall : (∀ table ∈ outputs ++ (selection.unselected ++ newer), table.reader.WellFormed) ∧
      Level1Apart (outputs ++ (selection.unselected ++ newer)) ∧
      outputs.countP (·.level = .Level0) = 0 := by
    rcases hleaves with ⟨-, hnone⟩ | ⟨table, hone, hholding⟩
    · rw [show outputs = [] from hnone]
      exact ⟨hrest, hrestApart, rfl⟩
    · rw [show outputs = [table] from hone]
      refine ⟨?_, List.pairwise_cons.mpr ⟨?_, hrestApart⟩, by simp [hholding.level_eq]⟩
      · exact List.forall_mem_cons.mpr ⟨hholding.wellFormed, hrest⟩
      · -- what was not selected does not overlap the range, and what came later is not on Level 1
        intro other hother _ hlevel
        have hmem : other ∈ selection.unselected ++ newer := hother
        rcases List.mem_append.mp hmem with hun | hnew
        · exact apart_output hselects hselected hholding.wellFormed hholding.contents hun hlevel
        · rw [hlevels other hnew] at hlevel
          cases hlevel
  obtain ⟨hw, hapart, hcount⟩ := hall
  refine ⟨fun t ht => hw t (htables.mem_iff.mp ht), hapart.perm htables.symm, ?_⟩
  unfold levelTableCount
  rw [htables.countP_eq, hperm.countP_eq]
  simp only [List.countP_append]
  omega

/-- **The publication of a compaction.** -/
theorem Orderly.publishOutput (hunderway : Underway manager.readers selection)
    (hleaves : Leaves (compacted selection) (output.map Written.table).toList) :
    Ends (fun _ s => Commits manager (sortTables (manager.replacing selection output))
        manager.liveKeyCount s)
      (fun e s => s = manager ∧ e ≠ overlapError)
      (SSTableManager.publishOutput (selection.selected.map ManagedTable.path) output manager) := by
  obtain ⟨hw, hapart, -⟩ := h.output_apart hunderway hleaves
  unfold SSTableManager.publishOutput
  rw [read_bind_apply, if_neg]
  · exact publishTables_ends manager hw hapart manager.liveKeyCount
  · rw [Bool.not_eq_true, List.any_eq_false]
    intro path hpath
    obtain ⟨t, ht, rfl⟩ := List.mem_map.mp hpath
    simp only [Bool.not_eq_true', Bool.not_eq_false, List.any_eq_true, decide_eq_true_eq]
    exact ⟨t, hunderway.selected_sub t ht, rfl⟩

end

theorem Commits.levelTableCount {liveKeyCount : Nat}
    (h : Commits manager (sortTables tables) liveKeyCount s) (level : SSTableLevel) :
    s.levelTableCount level = tables.countP (·.level = level) := by
  obtain ⟨generation, manifest, -, -, rfl⟩ := h
  exact (List.perm_insertionSort _ tables).countP_eq _

/-- With its output on the shelf, what a compaction publishes is there. -/
theorem Orderly.replaced (h : manager.Orderly shelf)
    (hunderway : Underway manager.readers selection)
    (hleaves : Leaves (compacted selection) (output.map Written.table).toList)
    (hnames : (((output.map Written.table).toList ++ shelf).map ManagedTable.path).Nodup)
    (hunclaimed : ∀ table ∈ (output.map Written.table).toList,
      Unclaimed manager.nextFileId table.path)
    (hcommits : Commits manager (sortTables (manager.replacing selection output))
      manager.liveKeyCount s) :
    s.Orderly ((output.map Written.table).toList ++ shelf) ∧
      s.stateVersion = manager.stateVersion + 1 := by
  obtain ⟨hw, hapart, -⟩ := h.output_apart hunderway hleaves
  have hperm : (sortTables (manager.replacing selection output)).Perm
      (manager.replacing selection output) := List.perm_insertionSort _ _
  refine hcommits.orderly h (fun t ht => hw t (List.mem_append_right _ ht)) hnames hunclaimed
    (fun t ht => ?_) (hapart.perm hperm.symm)
  rcases List.mem_append.mp (hperm.mem_iff.mp ht) with hkept | houtput
  · exact List.mem_append_right _ (h.used t (List.mem_of_mem_filter hkept))
  · exact List.mem_append_left _ houtput

/-! ## The invariant -/

/-- **A round that is not lost was right**: its copy is what the manager has now. The version only goes
up, so a round that is lost stays lost. -/
def FlushStage.OK (shelf : List ManagedTable) (manager : SSTableManager) (snapshot : Snapshot) :
    FlushStage → Prop
  | .waiting => True
  | .copied readers liveKeyCount version => (∀ table ∈ readers, table ∈ shelf) ∧
      version ≤ manager.stateVersion ∧ (version = manager.stateVersion →
        readers = manager.readers ∧ liveKeyCount = manager.liveKeyCount)
  | .counted readers newLiveCount version =>
    version ≤ manager.stateVersion ∧ (version = manager.stateVersion →
      readers = manager.readers ∧
        newLiveCount = snapshot.foldl (countRecord manager.readers) manager.liveKeyCount)

structure PendingFlush.OK (shelf : List ManagedTable) (manager : SSTableManager) (flush : PendingFlush) :
    Prop where
  holding : Holding .Level0 flush.table.snapshot flush.written.table
  valid : ∀ record ∈ flush.table.snapshot, ValidRecord record
  stage : flush.stage.OK shelf manager flush.table.snapshot

theorem PendingFlush.OK.untouched (h : flush.OK shelf manager) (hs : Untouched manager s) :
    flush.OK shelf s := by
  refine ⟨h.holding, h.valid, ?_⟩
  have hstage := h.stage
  cases hc : flush.stage with
  | waiting => trivial
  | copied readers liveKeyCount version =>
    rw [hc] at hstage
    unfold FlushStage.OK
    rwa [hs.version, hs.readers, hs.count]
  | counted readers newLiveCount version =>
    rw [hc] at hstage
    unfold FlushStage.OK
    rwa [hs.version, hs.readers, hs.count]

/-- A publication loses the rounds of all others. -/
theorem PendingFlush.OK.published (h : flush.OK shelf manager)
    (hversion : s.stateVersion = manager.stateVersion + 1) (added : List ManagedTable) :
    flush.OK (added ++ shelf) s := by
  refine ⟨h.holding, h.valid, ?_⟩
  have hstage := h.stage
  cases hc : flush.stage with
  | waiting => trivial
  | copied readers liveKeyCount version =>
    rw [hc] at hstage
    obtain ⟨hshelf, hle, -⟩ := hstage
    exact ⟨fun t ht => List.mem_append_right _ (hshelf t ht), by omega, fun heq => by omega⟩
  | counted readers newLiveCount version =>
    rw [hc] at hstage
    obtain ⟨hle, -⟩ := hstage
    exact ⟨by omega, fun heq => by omega⟩

/-- What a compaction has found out so far. -/
def CompactionStage.Keeps (readers : List ManagedTable) : CompactionStage → Prop
  | .idle => True
  | .selected selection => Underway readers selection
  | .merged selection records => Underway readers selection ∧ records = mergeOf selection.selected
  | .dropped selection records => Underway readers selection ∧ records = compacted selection
  | .written selection output => Underway readers selection ∧
      Leaves (compacted selection) (output.map Written.table).toList
  | .published _ => True

theorem CompactionStage.Keeps.cons {readers : List ManagedTable} (h : stage.Keeps readers)
    (hreaders : readers'.Perm (table :: readers)) (hlevel : table.level = .Level0) :
    stage.Keeps readers' := by
  cases stage with
  | idle => trivial
  | selected selection => exact Underway.cons h hreaders hlevel
  | merged selection records => exact ⟨h.1.cons hreaders hlevel, h.2⟩
  | dropped selection records => exact ⟨h.1.cons hreaders hlevel, h.2⟩
  | written selection output => exact ⟨h.1.cons hreaders hlevel, h.2⟩
  | published obsolete => trivial

/-- A lookup reads tables of the shelf. -/
def Looks (shelf : List ManagedTable) (look : Bytes × List ManagedTable) : Prop :=
  ValidKey look.1 ∧ ∀ table ∈ look.2, table ∈ shelf

/-- **The invariant.** -/
structure Traffic.Invariant (traffic : Traffic) (shelf : List ManagedTable) : Prop where
  orderly : traffic.manager.Orderly shelf
  flush : ∀ flush ∈ traffic.flushing, flush.OK shelf traffic.manager
  stage : traffic.compaction.Keeps traffic.manager.readers
  looking : ∀ look ∈ traffic.looking, Looks shelf look
  paths : ((traffic.pending ++ shelf).map ManagedTable.path).Nodup
  unclaimed : ∀ table ∈ traffic.pending, Unclaimed traffic.manager.nextFileId table.path

/-- What every step does. -/
structure Traffic.Moves (traffic : Traffic) (label : TrafficLabel) (traffic' : Traffic) : Prop where
  invariant : ∃ shelf, traffic'.Invariant shelf
  effect : traffic.Effect label traffic'

variable {traffic traffic' : Traffic} {label : TrafficLabel}

theorem nodup_of_subperm {tables' : List ManagedTable} (h : tables'.Subperm tables)
    (hnodup : (tables.map ManagedTable.path).Nodup) : (tables'.map ManagedTable.path).Nodup := by
  obtain ⟨between, hperm, hsublist⟩ := h
  exact (hperm.map _).nodup_iff.mp (hnodup.sublist (hsublist.map _))

/-- A step that publishes nothing keeps the shelf. -/
theorem Traffic.Invariant.rests (h : traffic.Invariant shelf) (hrests : traffic.Rests label traffic')
    (hcache : CacheOK shelf traffic'.manager.blockCache)
    (hflush : ∀ flush ∈ traffic'.flushing, flush.OK shelf traffic.manager)
    (hstage : traffic'.compaction.Keeps traffic.manager.readers)
    (hlooking : ∀ look ∈ traffic'.looking, Looks shelf look) : traffic.Moves label traffic' := by
  have hs := hrests.untouched
  have hnames : ((traffic'.pending ++ shelf).map ManagedTable.path).Nodup ∧
      ∀ table ∈ traffic'.pending, Unclaimed traffic'.manager.nextFileId table.path := by
    rcases hrests.pending with hsub | ⟨table, hperm, hwritten⟩
    · exact ⟨nodup_of_subperm ((List.subperm_append_right _).mpr hsub) h.paths,
        fun t ht => (h.unclaimed t (hsub.subset ht)).mono hs.idLe⟩
    · have hall : ∀ t ∈ traffic.pending ++ shelf, Unclaimed traffic.manager.nextFileId t.path :=
        fun t ht => (List.mem_append.mp ht).elim (h.unclaimed t) (h.orderly.unclaimed t)
      refine ⟨((hperm.append_right shelf).map _).nodup_iff.mpr (List.nodup_cons.mpr
        ⟨hwritten.fresh h.orderly.idLt hall, h.paths⟩), fun t ht => ?_⟩
      rcases List.mem_cons.mp (hperm.mem_iff.mp ht) with rfl | hold
      · exact hwritten.unclaimed h.orderly.idLt
      · exact (h.unclaimed t hold).mono hs.idLe
  exact ⟨⟨shelf, h.orderly.untouched hs hcache, fun flush hf => (hflush flush hf).untouched hs,
    by rw [hs.readers]; exact hstage, hlooking, hnames.1, hnames.2⟩, .rests hrests⟩

/-- The manager has only read. -/
theorem Traffic.Rests.cached (hnone : traffic.publishes label = none)
    (hmanager : traffic'.manager = { traffic.manager with blockCache := cache })
    (hpending : traffic'.pending.Subperm traffic.pending)
    (htables : ∀ flush ∈ traffic'.flushing, ∃ flush' ∈ traffic.flushing, flush.table = flush'.table)
    (hobsolete : traffic'.compaction.obsolete = [] ∨
      traffic'.compaction.obsolete = traffic.compaction.obsolete)
    (hselection : ∀ selection, traffic'.compaction.selection = some selection →
      traffic.compaction.selection = some selection ∨ selection.selected ≠ [] ∧
        ∃ forceAll, selection = traffic.manager.selectLevel0Compaction forceAll) :
    traffic.Rests label traffic' where
  unpublished := hnone
  untouched := by rw [hmanager]; exact Untouched.cached _ _
  files _ _ _ := by rw [hmanager]
  obsolete := hobsolete
  pending := Or.inl hpending
  tables flush hf := Or.inr (htables flush hf)
  selection := hselection

theorem Traffic.Rests.refl (hnone : traffic.publishes label = none) : traffic.Rests label traffic :=
  Traffic.Rests.cached hnone rfl (List.Subperm.refl _) (fun flush hf => ⟨flush, hf, rfl⟩) (Or.inr rfl)
    fun _ hselection => Or.inl hselection

theorem Traffic.Invariant.stays (h : traffic.Invariant shelf) (hnone : traffic.publishes label = none) :
    traffic.Moves label traffic :=
  ⟨⟨shelf, h⟩, .rests (Traffic.Rests.refl hnone)⟩

/-! ## The steps of a flush -/

theorem Traffic.Invariant.beginFlush (h : traffic.Invariant shelf) {table : MemTable}
    (hvalid : ∀ record ∈ table.snapshot, ValidRecord record) :
    traffic.Moves (.beginFlush table) (traffic.beginFlush table) := by
  unfold Traffic.beginFlush
  split_ifs with hskip
  · exact h.stays rfl
  have hne : table.snapshot ≠ [] := fun hnil => hskip (Or.inr hnil)
  have houtcome := writeTable_wrote traffic.manager .Level0 table.generation hne
    table.entries.sorted hvalid
  rcases hrun : writeTable .Level0 table.generation table.snapshot traffic.manager with ⟨result, s⟩
  rw [hrun] at houtcome
  cases result with
  | error e =>
    refine h.rests ⟨rfl, houtcome.toUntouched, fun path _ => houtcome.files path, Or.inr rfl,
      Or.inl (List.Subperm.refl _), fun flush hf => Or.inr ⟨flush, hf, rfl⟩,
      fun _ hselection => Or.inl hselection⟩ ?_ h.flush h.stage h.looking
    rw [houtcome.cache]
    exact h.orderly.cache
  | ok written =>
    obtain ⟨hholding, hwritten⟩ := houtcome
    refine h.rests ⟨rfl, hwritten.toUntouched, fun path _ => hwritten.files path, Or.inr rfl,
      Or.inr ⟨written.table, ?_, hwritten⟩, fun flush hf => ?_, fun _ hselection =>
        Or.inl hselection⟩ ?_ (fun flush hf => ?_) h.stage h.looking
    · show ((traffic.flushing ++ [({ table, written } : PendingFlush)]).map _ ++ _).Perm _
      rw [List.map_append, List.append_assoc]
      exact List.perm_middle
    · rcases List.mem_append.mp hf with hold | hnew
      · exact Or.inr ⟨flush, hold, rfl⟩
      · rw [List.mem_singleton.mp hnew]
        exact Or.inl rfl
    · rw [hwritten.cache]
      exact h.orderly.cache
    · rcases List.mem_append.mp hf with hold | hnew
      · exact h.flush flush hold
      · rw [List.mem_singleton.mp hnew]
        exact ⟨hholding, hvalid, trivial⟩

section Round

variable {index : Nat} {flush : PendingFlush}

theorem map_set_eq {α β : Type} {l : List α} {i : Nat} {a b : α} (f : α → β) (h : l[i]? = some a)
    (hb : f b = f a) : (l.set i b).map f = l.map f := by
  obtain ⟨hlt, rfl⟩ := List.getElem?_eq_some_iff.mp h
  rw [List.map_set, hb, ← List.getElem_map f]
  · exact List.set_getElem_self _
  · simpa using hlt

/-- A flush goes on to another stage of its round. -/
theorem Traffic.Invariant.setStage (h : traffic.Invariant shelf)
    (hget : traffic.flushing[index]? = some flush) (stage : FlushStage)
    (hstage : stage.OK shelf traffic.manager flush.table.snapshot) (hcache : CacheOK shelf cache)
    (hnone : traffic.publishes label = none) :
    traffic.Moves label { traffic with
      manager := { traffic.manager with blockCache := cache }
      flushing := traffic.flushing.set index { flush with stage := stage } } := by
  have hmem := List.mem_of_getElem? hget
  have hpending := map_set_eq (fun flush : PendingFlush => flush.written.table) hget
    (show ({ flush with stage := stage } : PendingFlush).written.table = flush.written.table from rfl)
  refine h.rests (Traffic.Rests.cached hnone rfl ?_ (fun other hother => ?_) (Or.inr rfl)
    fun _ hselection => Or.inl hselection) hcache (fun other hother => ?_) h.stage h.looking
  · show List.Subperm (_ ++ _) (_ ++ _)
    rw [hpending]
  · rcases List.mem_or_eq_of_mem_set hother with hold | rfl
    · exact ⟨other, hold, rfl⟩
    · exact ⟨flush, hmem, rfl⟩
  · rcases List.mem_or_eq_of_mem_set hother with hold | rfl
    · exact h.flush other hold
    · exact ⟨(h.flush flush hmem).holding, (h.flush flush hmem).valid, hstage⟩

theorem perm_eraseIdx (hget : traffic.flushing[index]? = some flush) :
    traffic.flushing.Perm (flush :: traffic.flushing.eraseIdx index) := by
  obtain ⟨hlt, hat⟩ := List.getElem?_eq_some_iff.mp hget
  have hback := List.getElem_cons_eraseIdx_perm hlt
  rw [hat] at hback
  exact hback.symm

/-- A flush that throws is over. -/
theorem Traffic.Invariant.endFlush (h : traffic.Invariant shelf) (index : Nat)
    (hnone : traffic.publishes label = none) :
    traffic.Moves label { traffic with flushing := traffic.flushing.eraseIdx index } := by
  have hrest : ∀ other ∈ traffic.flushing.eraseIdx index, other ∈ traffic.flushing :=
    fun other hother => (List.eraseIdx_sublist _ _).subset hother
  exact h.rests (Traffic.Rests.cached hnone rfl
    (((List.eraseIdx_sublist _ _).map _).append (List.Sublist.refl _)).subperm
    (fun other hother => ⟨other, hrest other hother, rfl⟩) (Or.inr rfl)
    fun _ hselection => Or.inl hselection) h.orderly.cache
    (fun other hother => h.flush other (hrest other hother)) h.stage h.looking

/-- **A publication keeps the invariant**, with the new tables on the shelf. -/
theorem Traffic.Invariant.published (h : traffic.Invariant shelf) {added : List ManagedTable}
    {liveKeyCount : Nat} (hcommits : Commits traffic.manager tables liveKeyCount traffic'.manager)
    (hw : ∀ table ∈ added, table.reader.WellFormed)
    (hpending : (traffic'.pending ++ added).Subperm traffic.pending)
    (hused : ∀ table ∈ tables, table ∈ added ++ shelf) (hapart : Level1Apart tables)
    (hflushing : ∀ flush ∈ traffic'.flushing, flush ∈ traffic.flushing)
    (hstage : traffic'.compaction.Keeps traffic'.manager.readers)
    (hlooking : traffic'.looking = traffic.looking) : traffic'.Invariant (added ++ shelf) := by
  have hnames := nodup_of_subperm ((List.subperm_append_right shelf).mpr hpending) h.paths
  rw [List.append_assoc] at hnames
  have hunclaimed : ∀ table ∈ traffic'.pending ++ added,
      Unclaimed traffic.manager.nextFileId table.path := fun t ht => h.unclaimed t (hpending.subset ht)
  obtain ⟨horderly, hversion⟩ := hcommits.orderly h.orderly hw
    (hnames.sublist ((List.sublist_append_right _ _).map _))
    (fun t ht => hunclaimed t (List.mem_append_right _ ht)) hused hapart
  refine ⟨horderly, fun flush hf => (h.flush flush (hflushing flush hf)).published hversion added,
    hstage, fun look hlook => ?_, hnames, fun t ht => ?_⟩
  · rw [hlooking] at hlook
    obtain ⟨hkey, hshelf⟩ := h.looking look hlook
    exact ⟨hkey, fun t ht => List.mem_append_right _ (hshelf t ht)⟩
  · obtain ⟨generation, manifest, -, -, hs⟩ := hcommits
    rw [hs]
    exact hunclaimed t (List.mem_append_left _ ht)

theorem Traffic.Invariant.advanceFlush (h : traffic.Invariant shelf)
    (hget : traffic.flushing[index]? = some flush) :
    traffic.Moves (.advanceFlush index) (traffic.advanceFlush index flush) := by
  have hmem := List.mem_of_getElem? hget
  have hflush := h.flush flush hmem
  have hstage := hflush.stage
  have hrests : flush.publishes traffic.manager = false →
      traffic.publishes (.advanceFlush index) = none := fun hno => by
    rw [Traffic.publishes_advanceFlush hget, hno]
    rfl
  unfold Traffic.advanceFlush
  cases hc : flush.stage with
  | waiting =>
    exact h.setStage hget (.copied _ _ _) ⟨h.orderly.used, le_rfl, fun _ => ⟨rfl, rfl⟩⟩
      h.orderly.cache (hrests (by simp [PendingFlush.publishes, hc]))
  | copied readers liveKeyCount version =>
    rw [hc] at hstage
    obtain ⟨hshelf, hle, hcopy⟩ := hstage
    obtain ⟨cache, hcache, hrun⟩ := h.orderly.withCache (liveCountAfterFlush_yields
      h.orderly.readable hshelf (fun record hrec => (hflush.valid record hrec).key) liveKeyCount)
    dsimp only
    rw [hrun]
    refine h.setStage hget (.counted _ _ _) ⟨hle, fun hsame => ?_⟩ hcache
      (hrests (by simp [PendingFlush.publishes, hc]))
    obtain ⟨rfl, rfl⟩ := hcopy hsame
    exact ⟨rfl, rfl⟩
  | counted readers newLiveCount version =>
    rw [hc] at hstage
    obtain ⟨hle, hcopy⟩ := hstage
    dsimp only
    split_ifs with hlost
    · refine h.setStage hget .waiting trivial h.orderly.cache (hrests ?_)
      simp [PendingFlush.publishes, hc, Ne.symm hlost]
    obtain rfl := not_not.mp hlost
    obtain ⟨rfl, rfl⟩ := hcopy rfl
    have hends := h.orderly.publishFlush hflush.holding
      (flush.table.snapshot.foldl (countRecord traffic.manager.readers) traffic.manager.liveKeyCount)
    rcases hrun : publishTables (traffic.manager.readers ++ [flush.written.table])
      (flush.table.snapshot.foldl (countRecord traffic.manager.readers)
        traffic.manager.liveKeyCount) traffic.manager with ⟨result, s⟩
    rw [hrun] at hends
    cases result with
    | error e =>
      obtain ⟨rfl, -⟩ := hends
      refine h.endFlush index (hrests ?_)
      simp [PendingFlush.publishes, hc, hrun, Except.isOk, Except.toBool]
    | ok u =>
      have hperm := perm_eraseIdx hget
      have hreaders : (sortTables (traffic.manager.readers ++ [flush.written.table])).Perm
          (flush.written.table :: traffic.manager.readers) :=
        (List.perm_insertionSort _ _).trans (List.perm_append_singleton _ _)
      obtain ⟨hw, hapart⟩ := h.orderly.flush_apart hflush.holding
      have hmanager : s.readers = sortTables (traffic.manager.readers ++ [flush.written.table]) := by
        obtain ⟨generation, manifest, -, -, rfl⟩ := hends
        rfl
      refine ⟨⟨[flush.written.table] ++ shelf, h.published hends (fun t ht => ?_) ?_ (fun t ht => ?_)
        (hapart.perm (List.perm_insertionSort _ _).symm)
        (fun other hother => (List.eraseIdx_sublist _ _).subset hother) ?_ rfl⟩, ?_⟩
      · rw [List.mem_singleton.mp ht]
        exact hflush.holding.wellFormed
      · -- the table moves from those that wait to those in use
        have hmap := (hperm.map fun flush => flush.written.table).append_right
          traffic.compaction.outputs
        exact ((List.perm_append_singleton _ _).trans hmap.symm).subperm
      · exact (List.mem_cons.mp (hreaders.mem_iff.mp ht)).elim
          (fun heq => heq ▸ List.mem_cons_self) fun hold =>
            List.mem_cons_of_mem _ (h.orderly.used t hold)
      · show traffic.compaction.Keeps s.readers
        rw [hmanager]
        exact h.stage.cons hreaders hflush.holding.level_eq
      · refine .flushed flush ?_ ⟨hmem, hends, hperm, rfl⟩
        rw [Traffic.publishes_advanceFlush hget, if_pos]
        simp [PendingFlush.publishes, hc, hrun, Except.isOk, Except.toBool]

end Round

/-! ## The steps of a compaction -/

section

variable (h : traffic.Invariant shelf)
include h

theorem Traffic.Invariant.beginCompaction (forceAll : Bool) :
    traffic.Moves (.beginCompaction forceAll) (traffic.beginCompaction forceAll) := by
  unfold Traffic.beginCompaction
  cases hc : traffic.compaction with
  | idle =>
    dsimp only
    split_ifs with hnone
    · exact h.stays rfl
    · refine h.rests (Traffic.Rests.cached rfl rfl ?_ (fun flush hf => ⟨flush, hf, rfl⟩) (Or.inl rfl)
        fun selection hselection => Or.inr ?_) h.orderly.cache h.flush (h.orderly.underway hnone)
        h.looking
      · exact ((List.Sublist.refl _).append (List.nil_sublist _)).subperm
      · obtain rfl := Option.some.inj hselection
        exact ⟨hnone, forceAll, rfl⟩
  | selected _ | merged _ _ | dropped _ _ | written _ _ | published _ => exact h.stays rfl

/-- A compaction goes on, having read or nothing. -/
theorem Traffic.Invariant.setCompaction (hcache : CacheOK shelf cache)
    (houtputs : stage.outputs = []) (hobsolete : stage.obsolete = [])
    (hselection : ∀ selection, stage.selection = some selection →
      traffic.compaction.selection = some selection) (hkeeps : stage.Keeps traffic.manager.readers) :
    traffic.Moves .advance { traffic with
      manager := { traffic.manager with blockCache := cache }
      compaction := stage } := by
  refine h.rests (Traffic.Rests.cached rfl rfl ?_ (fun flush hf => ⟨flush, hf, rfl⟩) (Or.inl hobsolete)
    fun selection hsome => Or.inl (hselection selection hsome)) hcache h.flush hkeeps h.looking
  show List.Subperm (_ ++ stage.outputs) _
  rw [houtputs]
  exact ((List.Sublist.refl _).append (List.nil_sublist _)).subperm

theorem Traffic.Invariant.write (hc : traffic.compaction = .dropped selection (compacted selection))
    (hunderway : Underway traffic.manager.readers selection) :
    traffic.Moves .advance traffic.advance := by
  have houtcome := writeOutput_leaves h.orderly hunderway (maxGeneration selection.selected)
  have houtputs : traffic.pending = traffic.flushing.map fun flush => flush.written.table := by
    unfold Traffic.pending
    rw [hc]
    exact List.append_nil _
  have hobsolete : traffic.compaction.obsolete = [] := by rw [hc]; rfl
  unfold Traffic.advance
  rw [hc]
  dsimp only
  rcases hrun : writeOutput (maxGeneration selection.selected) (compacted selection)
    traffic.manager with ⟨result, s⟩
  rw [hrun] at houtcome
  cases result with
  | error e =>
    refine h.rests ⟨rfl, houtcome.toUntouched, fun path _ => houtcome.files path, Or.inl rfl,
      Or.inl ?_, fun flush hf => Or.inr ⟨flush, hf, rfl⟩, fun _ hnone => by cases hnone⟩ ?_
      h.flush trivial h.looking
    · exact ((List.Sublist.refl _).append (List.nil_sublist _)).subperm
    · exact houtcome.cache ▸ h.orderly.cache
  | ok output =>
    obtain ⟨hleaves, hwritten⟩ := houtcome
    rcases hwritten with ⟨rfl, rfl⟩ | ⟨written, rfl, hunder⟩
    · exact h.setCompaction h.orderly.cache rfl rfl (fun _ hsome => by rw [hc]; exact hsome)
        ⟨hunderway, hleaves⟩
    · refine h.rests ⟨rfl, hunder.toUntouched, fun path _ => hunder.files path, Or.inl rfl,
        Or.inr ⟨written.table, ?_, hunder⟩, fun flush hf => Or.inr ⟨flush, hf, rfl⟩,
        fun _ hsome => Or.inl (by rw [hc]; exact hsome)⟩ ?_ h.flush ⟨hunderway, hleaves⟩ h.looking
      · rw [houtputs]
        exact List.perm_append_singleton _ _
      · exact hunder.cache ▸ h.orderly.cache

theorem Traffic.Invariant.publishOutput (hc : traffic.compaction = .written selection output)
    (hunderway : Underway traffic.manager.readers selection)
    (hleaves : Leaves (compacted selection) (output.map Written.table).toList) :
    traffic.Moves .advance traffic.advance := by
  have hends := h.orderly.publishOutput hunderway hleaves
  unfold Traffic.advance
  rw [hc]
  dsimp only
  rcases hrun : SSTableManager.publishOutput (selection.selected.map ManagedTable.path) output
    traffic.manager with ⟨result, s⟩
  rw [hrun] at hends
  cases result with
  | error e =>
    obtain ⟨rfl, -⟩ := hends
    exact h.setCompaction h.orderly.cache rfl rfl (fun _ hnone => by cases hnone) trivial
  | ok u =>
    obtain ⟨hw, hapart, -⟩ := h.orderly.output_apart hunderway hleaves
    have hperm : (sortTables (traffic.manager.replacing selection output)).Perm
        (traffic.manager.replacing selection output) := List.perm_insertionSort _ _
    refine ⟨⟨(output.map Written.table).toList ++ shelf, h.published hends
      (fun t ht => hw t (List.mem_append_right _ ht)) ?_ (fun t ht => ?_) (hapart.perm hperm.symm)
      (fun _ hf => hf) trivial rfl⟩, .replaced selection output rfl ⟨hc, hends, rfl, rfl⟩⟩
    · unfold Traffic.pending
      rw [hc]
      show List.Subperm ((_ ++ []) ++ _) _
      rw [List.append_nil]
      exact List.Subperm.refl _
    · rcases List.mem_append.mp (hperm.mem_iff.mp ht) with hkept | houtput
      · exact List.mem_append_right _ (h.orderly.used t (List.mem_of_mem_filter hkept))
      · exact List.mem_append_left _ houtput

theorem Traffic.Invariant.advance : traffic.Moves .advance traffic.advance := by
  have hstage := h.stage
  cases hc : traffic.compaction with
  | idle =>
    unfold Traffic.advance
    rw [hc]
    exact h.stays rfl
  | selected selection =>
    rw [hc] at hstage
    obtain ⟨cache, hcache, hrun⟩ := h.orderly.merge (Underway.selected_sub hstage)
    unfold Traffic.advance
    rw [hc]
    dsimp only
    rw [hrun]
    exact h.setCompaction hcache rfl rfl (fun _ hsome => by rw [hc]; exact hsome) ⟨hstage, rfl⟩
  | merged selection records =>
    rw [hc] at hstage
    obtain ⟨hunderway, rfl⟩ := hstage
    obtain ⟨cache, hcache, hrun⟩ := h.orderly.drop hunderway
    unfold Traffic.advance
    rw [hc]
    dsimp only
    rw [hrun]
    exact h.setCompaction hcache rfl rfl (fun _ hsome => by rw [hc]; exact hsome) ⟨hunderway, rfl⟩
  | dropped selection records =>
    rw [hc] at hstage
    obtain ⟨hunderway, rfl⟩ := hstage
    exact h.write hc hunderway
  | written selection output =>
    rw [hc] at hstage
    exact h.publishOutput hc hstage.1 hstage.2
  | published obsolete =>
    unfold Traffic.advance
    rw [hc]
    dsimp only
    refine h.rests ⟨rfl, ⟨rfl, rfl, rfl, rfl, rfl, rfl, le_rfl, fun h => h⟩, fun path hnot _ => ?_,
      Or.inl rfl, Or.inl ?_, fun flush hf => Or.inr ⟨flush, hf, rfl⟩, fun _ hnone => by cases hnone⟩
      h.orderly.cache h.flush trivial h.looking
    · rw [hc] at hnot
      exact find?_foldl_erase hnot
    · exact ((List.Sublist.refl _).append (List.nil_sublist _)).subperm

/-! ## Lookups -/

theorem Traffic.Invariant.beginGet (key : Bytes) :
    traffic.Moves (.beginGet key) (traffic.beginGet key) := by
  unfold Traffic.beginGet
  cases hkey : validateKey key with
  | error e => exact h.stays rfl
  | ok u =>
    refine h.rests (Traffic.Rests.cached rfl rfl (List.Subperm.refl _)
      (fun flush hf => ⟨flush, hf, rfl⟩) (Or.inr rfl) fun _ hsome => Or.inl hsome) h.orderly.cache
      h.flush h.stage fun look hlook => ?_
    rcases List.mem_append.mp hlook with hold | hnew
    · exact h.looking look hold
    · rw [List.mem_singleton.mp hnew]
      exact ⟨validateKey_eq_ok.mp hkey, h.orderly.used⟩

/-- **A lookup finds what its copy holds**, however old it is. -/
theorem Traffic.Invariant.looks (hlook : look ∈ traffic.looking) :
    ∃ cache, CacheOK shelf cache ∧
      withCache (newestEntryFromTables look.2 look.1) traffic.manager =
        (.ok (newestEntry look.2 look.1), { traffic.manager with blockCache := cache }) := by
  obtain ⟨hkey, hshelf⟩ := h.looking look hlook
  exact h.orderly.withCache (newestEntryFromTables_yields h.orderly.readable hshelf hkey)

theorem Traffic.Invariant.finishGet {index : Nat} (hget : traffic.looking[index]? = some look) :
    traffic.Moves (.finishGet index) (traffic.finishGet index look) := by
  obtain ⟨cache, hcache, hrun⟩ := h.looks (List.mem_of_getElem? hget)
  unfold Traffic.finishGet
  rw [hrun]
  exact h.rests (Traffic.Rests.cached rfl rfl (List.Subperm.refl _)
    (fun flush hf => ⟨flush, hf, rfl⟩) (Or.inr rfl) fun _ hsome => Or.inl hsome) hcache
    h.flush h.stage fun look hlook => h.looking look ((List.eraseIdx_sublist _ _).subset hlook)

/-- **One step.** -/
theorem Traffic.Invariant.step (hvalid : label.Valid) :
    traffic.Moves label (traffic.step label) := by
  cases label with
  | beginFlush table => exact h.beginFlush hvalid
  | advanceFlush index =>
    show traffic.Moves _ ((traffic.flushing[index]?).elim traffic (traffic.advanceFlush index))
    cases hget : traffic.flushing[index]? with
    | none =>
      refine h.stays ?_
      show (traffic.flushing[index]?).filter _ = none
      rw [hget]
      rfl
    | some flush => exact h.advanceFlush hget
  | beginCompaction forceAll => exact h.beginCompaction forceAll
  | advance => exact h.advance
  | beginGet key => exact h.beginGet key
  | finishGet index =>
    show traffic.Moves _ ((traffic.looking[index]?).elim traffic (traffic.finishGet index))
    cases hget : traffic.looking[index]? with
    | none => exact h.stays rfl
    | some look => exact h.finishGet hget

/-- **A whole run.** -/
theorem Traffic.Invariant.run {labels : List TrafficLabel} (hvalid : ∀ label ∈ labels, label.Valid)
    : ∃ shelf, (traffic.run labels).Invariant shelf := by
  induction labels generalizing traffic shelf with
  | nil => exact ⟨shelf, h⟩
  | cons label labels ih =>
    obtain ⟨shelf', h'⟩ := (h.step (hvalid label List.mem_cons_self)).invariant
    exact ih h' (List.forall_mem_cons.mp hvalid).2

end

theorem Orderly.start (h : manager.Orderly manager.readers) :
    Traffic.Invariant { manager := manager } manager.readers where
  orderly := h
  flush _ hf := by cases hf
  stage := trivial
  looking _ hlook := by cases hlook
  paths := h.readable.paths
  unclaimed _ ht := by cases ht

end SSTableManager

end NebulaKV.Lsm
