/-
# Counting again after a restart

Whole histories of a directory: flushes and compactions in any order, and processes that stop anywhere
and are started again on what they find. A manager's count of live keys and its highest sequence number
are at every point those of its tables, and the constructor, which counts from scratch, reads the same
tables and counts the same. It is then as good as a new one (`Reopened.good`), and a store over it is sound;
only that its memtable generations may be ahead of the sequence numbers (`reopened_sound`).

It fails in one case. `commit` writes manifests of any size, `load` reads none above 64 MiB; some ten
thousand flushes with long keys and without a compaction leave a directory that cannot be opened.
-/
import NebulaKV.Lsm.Books
import NebulaKV.Lsm.StoreMap

namespace NebulaKV.Lsm

open Containers Effects Program Versioned

namespace SSTableManager

variable {manager s : SSTableManager}
variable {tables tables' : List ManagedTable} {count : Nat}
variable {traffic : Traffic} {snapshot : ManifestSnapshot} {options : SSTableManagerOptions}

/-! ## Opening the directory again -/

/-- The constructor on what is in the directory; only the files are left of the manifest manager. -/
def reopen (manager : SSTableManager) : Except Error SSTableManager :=
  create manager.options manager.files
    { manifests := manager.manifest.manifests, current := manager.manifest.current }

/-- The size of the manifest that lists the tables in use. -/
def manifestSize (manager : SSTableManager) : Nat :=
  encodedManifestSize ⟨manager.manifest.currentGeneration, manager.nextFileId,
    manager.readers.map ManagedTable.metadata⟩

theorem encodedManifestSize_perm (h : tables.Perm tables')
    (generation generation' nextFileId nextFileId' : Nat) :
    encodedManifestSize ⟨generation, nextFileId, tables.map ManagedTable.metadata⟩ =
      encodedManifestSize ⟨generation', nextFileId', tables'.map ManagedTable.metadata⟩ := by
  unfold encodedManifestSize
  dsimp only
  rw [((h.map ManagedTable.metadata).map _).sum_eq]

theorem foldl_max_perm {α : Type} (f : α → Nat) {l l' : List α} (h : l.Perm l') (start : Nat) :
    l.foldl (fun acc a => max acc (f a)) start = l'.foldl (fun acc a => max acc (f a)) start := by
  have hcomm : RightCommutative fun acc a => max acc (f a) := ⟨fun _ _ _ => max_right_comm _ _ _⟩
  exact h.foldl_eq start

theorem maxSequence_perm (h : tables.Perm tables') : maxSequence tables = maxSequence tables' :=
  foldl_max_perm (fun table : ManagedTable => table.reader.metadata.maxSequenceNumber) h 0

theorem generationAfter_perm (h : tables.Perm tables') :
    generationAfter tables = generationAfter tables' := by
  have hmax : maxGeneration tables = maxGeneration tables' :=
    foldl_max_perm (fun table : ManagedTable => table.reader.metadata.generation) h 0
  unfold generationAfter
  rw [hmax]
  by_cases hnil : tables = []
  · rw [if_pos hnil, if_pos (List.nil_perm.mp (hnil ▸ h))]
  · have hnil' : tables' ≠ [] := fun hnone => hnil (List.perm_nil.mp (hnone ▸ h))
    rw [if_neg hnil, if_neg hnil']

/-- Without its filter the reader reads the same. -/
theorem unfiltered_wellFormed {reader : SSTableReader} (h : reader.WellFormed) :
    SSTableReader.WellFormed ⟨reader.path, reader.file, none⟩ :=
  ⟨h.sorted, h.nonempty, h.valid, h.blocks, h.index, h.offsets, h.readable, h.count, fun _ _ => rfl⟩

section Loading

variable {all : List ManagedTable} {table : ManagedTable}

/-- One table is loaded as it was. -/
theorem loadTable_eq (hreadable : Readable all) (hmem : table ∈ all)
    (hreopens : Reopens manager.options.bloomSizing table)
    (hfile : manager.files.find? table.path = some table.reader.file)
    (hcache : CacheOK all manager.blockCache) :
    ∃ cache, CacheOK all cache ∧
      loadTable table.path (metadataMatches table.metadata) manager =
        (.ok table.reader, { manager with blockCache := cache }) := by
  obtain ⟨filter, hbuild, hfilter⟩ := hreopens.filter
  have howns : Owns (BlockOf all) ⟨table.path, table.reader.file, none⟩ :=
    ⟨(hreadable.owns hmem).own, (hreadable.owns hmem).unique⟩
  have hread := howns.readAll_yields (unfiltered_wellFormed (hreadable.wellFormed table hmem))
  have hmatches : metadataMatches table.metadata
      (SSTableReader.metadata ⟨table.path, table.reader.file, none⟩) = true := by
    simp [metadataMatches, ManagedTable.metadata, SSTableReader.metadata]
  unfold loadTable
  rw [read_bind_apply, hfile]
  dsimp only
  rw [hreopens.opens none, check_ok_bind, hmatches, Bool.not_true, if_neg (by decide)]
  have hrun : ∃ cache, CacheOK all cache ∧
      withCache (SSTableReader.readAll ⟨table.path, table.reader.file, none⟩) manager =
        (.ok table.reader.contents, { manager with blockCache := cache }) := hread.zoom hcache
  obtain ⟨cache, hcache', hstep⟩ := hrun
  refine ⟨cache, hcache', ?_⟩
  rw [bind_apply, hstep]
  dsimp only
  rw [hbuild, check_ok_bind, hreopens.opens (some filter), ← hfilter]
  rfl

/-- The loop over the manifest loads them all. -/
theorem loadTables_eq {rest : List ManagedTable} (hreadable : Readable all)
    (hmem : ∀ table ∈ rest, table ∈ all)
    (hreopens : ∀ table ∈ rest, Reopens manager.options.bloomSizing table)
    (hfiles : ∀ table ∈ rest, manager.files.find? table.path = some table.reader.file)
    (hcache : CacheOK all manager.blockCache) :
    ∃ cache, CacheOK all cache ∧
      Program.forEach (fun expected => do
        let reader ← loadTable expected.path (metadataMatches expected)
        Program.update (addReader reader expected.level)) (rest.map ManagedTable.metadata) manager =
          (.ok (), { manager with readers := manager.readers ++ rest, blockCache := cache }) := by
  induction rest generalizing manager with
  | nil => exact ⟨manager.blockCache, hcache, by rw [List.append_nil]; rfl⟩
  | cons table rest ih =>
    obtain ⟨cache, hcache', hload⟩ := loadTable_eq hreadable (hmem table List.mem_cons_self)
      (hreopens table List.mem_cons_self) (hfiles table List.mem_cons_self) hcache
    let loaded : SSTableManager :=
      { manager with readers := manager.readers ++ [table], blockCache := cache }
    have hrest : ∃ cache, CacheOK all cache ∧
        Program.forEach (fun expected => do
          let reader ← loadTable expected.path (metadataMatches expected)
          Program.update (addReader reader expected.level)) (rest.map ManagedTable.metadata) loaded =
            (.ok (), { loaded with readers := loaded.readers ++ rest, blockCache := cache }) :=
      ih (List.forall_mem_cons.mp hmem).2
        (List.forall_mem_cons.mp hreopens).2
        (List.forall_mem_cons.mp hfiles).2 hcache'
    obtain ⟨last, hlast, hrun⟩ := hrest
    refine ⟨last, hlast, ?_⟩
    rw [List.map_cons, Program.forEach, bind_apply, bind_apply]
    have hfirst : loadTable table.metadata.path (metadataMatches table.metadata) manager =
        (.ok table.reader, { manager with blockCache := cache }) := hload
    rw [hfirst]
    refine hrun.trans ?_
    simp only [loaded, List.append_assoc, List.singleton_append]

end Loading

theorem loadManifest_eq {generation : Nat} (hcurrent : manager.manifest.current = some generation)
    (hfound : manager.manifest.manifests.find? generation = some snapshot)
    (hsize : encodedManifestSize snapshot ≤ kMaximumMetadataFileBytes)
    (hvalid : ∀ table ∈ snapshot.tables, invalidMetadata table = false)
    (hgeneration : snapshot.generation = generation)
    (hpresent : ∀ table ∈ snapshot.tables, (manager.files.find? table.path).isSome = true) :
    loadManifest manager =
      (.ok (some snapshot), { manager with manifest := manager.manifest.opened generation }) := by
  have hload : ManifestManager.load (fun path => (manager.files.find? path).isSome) manager.manifest =
      (.ok (some snapshot), manager.manifest.opened generation) := by
    have hinvalid : ¬ (snapshot.tables.any invalidMetadata = true) := by
      rw [List.any_eq_true]
      rintro ⟨table, ht, hbad⟩
      rw [hvalid table ht] at hbad
      cases hbad
    have hmissing : ¬ ((snapshot.tables.any fun table =>
        !(manager.files.find? table.path).isSome) = true) := by
      rw [List.any_eq_true]
      rintro ⟨table, ht, hbad⟩
      rw [hpresent table ht] at hbad
      cases hbad
    unfold ManifestManager.load
    rw [read_bind_apply, hcurrent]
    dsimp only
    rw [hfound]
    dsimp only
    rw [if_neg (not_lt.mpr hsize), if_neg hinvalid, if_neg (not_not.mpr hgeneration), if_neg hmissing]
    rfl
  unfold loadManifest
  rw [read_bind_apply]
  unfold Program.zoom
  rw [hload]

theorem loadManifest_large {generation : Nat}
    (hcurrent : manager.manifest.current = some generation)
    (hfound : manager.manifest.manifests.find? generation = some snapshot)
    (hsize : ¬ encodedManifestSize snapshot ≤ kMaximumMetadataFileBytes) :
    ∃ e s, loadManifest manager = (.error e, s) := by
  have hload : ∃ e, ManifestManager.load (fun path => (manager.files.find? path).isSome)
      manager.manifest = (.error e, manager.manifest) := by
    unfold ManifestManager.load
    rw [read_bind_apply, hcurrent]
    dsimp only
    rw [hfound]
    dsimp only
    rw [if_pos (not_le.mp hsize)]
    exact ⟨_, rfl⟩
  obtain ⟨e, hload⟩ := hload
  unfold loadManifest
  rw [read_bind_apply]
  unfold Program.zoom
  rw [hload]
  exact ⟨_, _, rfl⟩

/-- The files of tables in use are not abandoned. -/
theorem find?_cleanup {path : Bytes} (hused : path ∈ manager.readers.map ManagedTable.path) :
    (cleanupAbandonedFiles manager).files.find? path = manager.files.find? path := by
  unfold cleanupAbandonedFiles
  dsimp only
  generalize manager.files.entries.map Prod.fst = names
  generalize manager.files = files
  induction names generalizing files with
  | nil => rfl
  | cons name rest ih =>
    rw [List.foldl_cons, ih]
    split_ifs with hkeep
    · rfl
    · rw [OrderedMap.find?_erase, if_neg fun heq : path = name => hkeep (heq ▸ hused)]

/-- The manager that the constructor makes of a directory with these tables. -/
structure Restored (manager : SSTableManager) (listed : List ManagedTable) (nextFileId : Nat)
    (s : SSTableManager) : Prop where
  options : s.options = manager.options
  readers : s.readers = sortTables listed
  generation : s.manifest.currentGeneration = manager.manifest.currentGeneration
  manifests : s.manifest.manifests = manager.manifest.manifests
  current : s.manifest.current = manager.manifest.current
  files : ∀ table ∈ listed, s.files.find? table.path = manager.files.find? table.path
  count : s.liveKeyCount = liveCount (sortTables listed)
  highest : s.maxSequenceNumber = maxSequence (sortTables listed)
  nextFileId_eq : s.nextFileId = nextFileId
  next : generationAfter (sortTables listed) = .ok s.nextGeneration
  cache : ∃ cache : BlockCache, s.blockCache = cache.clear
  version : s.stateVersion = 0

/-- What the constructor takes. -/
def Usable (options : SSTableManagerOptions) : Prop :=
  validateOptions options = .ok () ∧
    ∃ cache, BlockCache.create options.blockCacheCapacityBytes = .ok cache

theorem reopen_restored {listed : List ManagedTable} {nextFileId : Nat}
    (husable : Usable manager.options)
    (hcurrent : manager.manifest.current = some manager.manifest.currentGeneration)
    (hfound : manager.manifest.manifests.find? manager.manifest.currentGeneration =
      some ⟨manager.manifest.currentGeneration, nextFileId, listed.map ManagedTable.metadata⟩)
    (hsize : encodedManifestSize ⟨manager.manifest.currentGeneration, nextFileId,
      listed.map ManagedTable.metadata⟩ ≤ kMaximumMetadataFileBytes)
    (hreadable : Readable listed) (hapart : Level1Apart listed)
    (hfiles : ∀ table ∈ listed, manager.files.find? table.path = some table.reader.file)
    (hreopens : ∀ table ∈ listed, Reopens manager.options.bloomSizing table)
    (hgenerations : ∃ generation, generationAfter listed = .ok generation) :
    ∃ s, manager.reopen = .ok s ∧ Restored manager listed nextFileId s := by
  obtain ⟨hoptions, blockCache, hcache⟩ := husable
  let manifest := ManifestManager.opened
    { manifests := manager.manifest.manifests, current := manager.manifest.current } 0
  let start : SSTableManager :=
    { options := manager.options, blockCache, files := manager.files, manifest }
  have hperm : (sortTables listed).Perm listed := List.perm_insertionSort _ _
  -- the manifest is read
  have hload := @loadManifest_eq start _ _ hcurrent hfound hsize (fun metadata hmem => by
    obtain ⟨table, ht, rfl⟩ := List.mem_map.mp hmem
    exact (hreopens table ht).metadata) rfl fun metadata hmem => by
      obtain ⟨table, ht, rfl⟩ := List.mem_map.mp hmem
      exact Option.isSome_iff_exists.mpr ⟨_, hfiles table ht⟩
  let opened : SSTableManager :=
    { start with manifest := manifest.opened manager.manifest.currentGeneration }
  -- its tables are loaded and sorted; they pass the check of Level 1 as they did when published
  obtain ⟨cache, hcache', hloop⟩ := @loadTables_eq opened listed listed hreadable (fun _ ht => ht)
    hreopens hfiles (BlockCache.create_sound hcache _)
  let loaded : SSTableManager :=
    { opened with readers := sortTables listed, blockCache := cache, nextFileId := nextFileId }
  have hsorted : Readable (sortTables listed) :=
    ⟨fun t ht => hreadable.wellFormed t (hperm.mem_iff.mp ht),
      (hperm.map _).nodup_iff.mpr hreadable.paths⟩
  have hsnapshot : loadManifestSnapshot ⟨manager.manifest.currentGeneration, nextFileId,
      listed.map ManagedTable.metadata⟩ opened = (.ok (), loaded) := by
    unfold loadManifestSnapshot
    rw [bind_apply, hloop]
    dsimp only
    rw [update_bind_apply, read_bind_apply]
    have hranges : validateLevel1Ranges (sortReaders
        { opened with readers := opened.readers ++ listed, blockCache := cache }).readers = .ok () :=
      validateLevel1Ranges_ok hsorted.wellFormed (hapart.perm hperm.symm)
    rw [hranges, check_ok_bind]
    rfl
  -- what the manifest does not list is removed, and the keys are counted
  let cleaned := cleanupAbandonedFiles loaded
  have hcached : CacheOK (sortTables listed) cache :=
    BlockCache.Sound.mono hcache' fun key block hblock => hblock.imp fun t ht =>
      ⟨hperm.mem_iff.mpr ht.1, ht.2⟩
  have hcounts : ∃ last, CacheOK (sortTables listed) last ∧
      withCache (computeLiveKeyCount (sortTables listed)) cleaned =
        (.ok (liveCount (sortTables listed)), { cleaned with blockCache := last }) :=
    (computeLiveKeyCount_yields hsorted).zoom hcached
  obtain ⟨last, -, hcount⟩ := hcounts
  obtain ⟨generation, hgeneration⟩ := hgenerations
  rw [← generationAfter_perm hperm] at hgeneration
  let final : SSTableManager :=
    { cleaned with
      liveKeyCount := liveCount (sortTables listed)
      maxSequenceNumber := maxSequence (sortTables listed)
      nextGeneration := generation
      blockCache := last.clear }
  have hexisting : loadExisting start = (.ok (), final) := by
    unfold loadExisting
    rw [bind_apply, hload]
    dsimp only
    rw [bind_apply, hsnapshot]
    dsimp only [finishLoading]
    rw [update_bind_apply, read_bind_apply, bind_apply]
    have hrun : withCache (computeLiveKeyCount (cleanupAbandonedFiles loaded).readers)
        (cleanupAbandonedFiles loaded) =
          (.ok (liveCount (sortTables listed)), { cleaned with blockCache := last }) := hcount
    rw [hrun]
    dsimp only
    have hnext : generationAfter (cleanupAbandonedFiles loaded).readers = .ok generation := hgeneration
    rw [hnext, check_ok_bind]
    rfl
  refine ⟨final, ?_, rfl, rfl, rfl, rfl, rfl, fun table ht => ?_, rfl, rfl, rfl, hgeneration,
    ⟨last, rfl⟩, rfl⟩
  · refine bind_ok (a := blockCache) hcache <| bind_ok hoptions ?_
    rw [show loadExisting _ = (.ok (), final) from hexisting]
    rfl
  · exact find?_cleanup (List.mem_map_of_mem (hperm.mem_iff.mpr ht))

section Reopening

variable {options : SSTableManagerOptions} {traffic : Traffic}

/-- What the constructor makes of the directory. -/
structure Traffic.Reopened (options : SSTableManagerOptions) (traffic : Traffic) (s : SSTableManager) :
    Prop where
  count : s.liveKeyCount = traffic.manager.liveKeyCount
  highest : s.maxSequenceNumber = traffic.manager.maxSequenceNumber
  readers : s.readers.Perm traffic.manager.readers
  next : generationAfter s.readers = .ok s.nextGeneration
  orderly : s.Orderly s.readers
  books : Traffic.Books options { manager := s }

/-- **The constructor counts the same**, whatever was under way when the process stopped. -/
theorem Traffic.Books.reopens (h : traffic.Books options) (husable : Usable options)
    (hsize : traffic.manager.manifestSize ≤ kMaximumMetadataFileBytes) :
    ∃ s, traffic.manager.reopen = .ok s ∧ traffic.Reopened options s := by
  obtain ⟨nextFileId, hcommitted⟩ := h.committed
  obtain ⟨listed, hlisted, hfound⟩ := hcommitted.found
  obtain ⟨shelf, hinvariant⟩ := h.visible.invariant
  have horderly := hinvariant.orderly
  have hreaders := horderly.readers
  have hmem : ∀ table ∈ listed, table ∈ traffic.tables := fun t ht =>
    List.mem_append_right _ (hlisted.mem_iff.mp ht)
  have hreadable : Readable listed :=
    ⟨fun t ht => hreaders.wellFormed t (hlisted.mem_iff.mp ht),
      (hlisted.map _).nodup_iff.mpr hreaders.paths⟩
  have hsmall : encodedManifestSize ⟨traffic.manager.manifest.currentGeneration, nextFileId,
      listed.map ManagedTable.metadata⟩ ≤ kMaximumMetadataFileBytes :=
    (encodedManifestSize_perm hlisted _ _ _ _).trans_le hsize
  obtain ⟨s, hreopen, hrestored⟩ := reopen_restored (h.options_eq ▸ husable) hcommitted.current hfound
    hsmall hreadable (horderly.apart.perm hlisted.symm) (fun t ht => h.cabinet.filed t (hmem t ht))
    (fun t ht => h.options_eq ▸ h.cabinet.reopens t (hmem t ht))
    (generationAfter_perm hlisted ▸ hcommitted.generations)
  have hsorted : (sortTables listed).Perm listed := List.perm_insertionSort _ _
  have hperm : s.readers.Perm traffic.manager.readers := by
    rw [hrestored.readers]
    exact hsorted.trans hlisted
  have hwell : ∀ table ∈ s.readers, table.reader.WellFormed := fun t ht =>
    hreaders.wellFormed t (hperm.mem_iff.mp ht)
  have hcount : liveCount s.readers = liveCount traffic.manager.readers :=
    liveCount_congr hwell hreaders.wellFormed (shown_perm h.visible.distinct hperm)
  have hpaths : (s.readers.map ManagedTable.path).Nodup :=
    (hperm.map _).nodup_iff.mpr hreaders.paths
  obtain ⟨cache, hcache⟩ := hrestored.cache
  have horderly' : s.Orderly s.readers := by
    refine ⟨⟨hwell, hpaths⟩, ?_, fun _ ht => ht, hpaths, horderly.apart.perm hperm.symm, fun t ht => ?_,
      ?_, ?_, ?_, ?_, ?_⟩
    · rw [hcache]
      exact BlockCache.sound_clear _ _
    · -- the names have ids below the one of the manifest
      rw [hrestored.nextFileId_eq]
      obtain ⟨level, fileId, generation, maxSequence, hlt, hpath⟩ :=
        hcommitted.named t (hperm.mem_iff.mp ht)
      rw [hpath]
      exact unclaimed_tablePath hlt (hlt.trans hcommitted.idLt) _ _ _
    · rw [hrestored.nextFileId_eq]
      exact hcommitted.idLt
    · rw [hrestored.generation]
      exact horderly.current_lt
    · rw [hrestored.version]
      exact Nat.zero_le _
    · rw [hrestored.options]
      exact horderly.trigger
    · rw [hrestored.options]
      exact horderly.most
  have hsequenced : Sequenced s.readers := h.sequenced.of_sub fun record ⟨t, ht, hrecord⟩ =>
    ⟨t, hperm.mem_iff.mp ht, hrecord⟩
  have htable : ∀ table ∈ s.readers, table ∈ listed := fun t ht => hlisted.mem_iff.mpr (hperm.mem_iff.mp ht)
  have hcabinet : Cabinet options.bloomSizing s.files s.nextFileId s.readers := by
    refine ⟨fun t ht => ?_, hpaths, fun t ht => ?_, fun t ht =>
      h.cabinet.reopens t (hmem t (htable t ht))⟩
    · rw [hrestored.nextFileId_eq]
      exact hcommitted.named t (hperm.mem_iff.mp ht)
    · rw [hrestored.files t (htable t ht)]
      exact h.cabinet.filed t (hmem t (htable t ht))
  have hcommitted' : Committed s nextFileId := by
    refine ⟨?_, ⟨listed, hlisted.trans hperm.symm, ?_⟩, hcommitted.idPos, hcommitted.idLt,
      fun t ht => hcommitted.named t (hperm.mem_iff.mp ht), ?_, ?_⟩
    · rw [hrestored.current, hrestored.generation]
      exact hcommitted.current
    · rw [hrestored.manifests, hrestored.generation]
      exact hfound
    · rw [generationAfter_perm hperm]
      exact hcommitted.generations
    · rw [hperm.length_eq]
      exact hcommitted.few
  refine ⟨s, hreopen, ?_, ?_, hperm, by rw [hrestored.readers]; exact hrestored.next, horderly', ?_⟩
  · rw [hrestored.count, ← hrestored.readers, hcount, h.count]
  · rw [hrestored.highest, ← hrestored.readers, maxSequence_perm hperm, h.highest]
  exact
    { visible := ⟨⟨_, horderly'.start⟩, hsequenced.distinct hwell, fun _ hstage => by cases hstage⟩
      options_eq := hrestored.options.trans h.options_eq
      sequenced := hsequenced
      count := by
        dsimp only
        rw [hrestored.count, ← hrestored.readers]
      highest := by
        dsimp only
        rw [hrestored.highest, ← hrestored.readers]
      numbered := fun flush hf => by cases hf
      cabinet := hcabinet
      gone := fun path hpath => by cases hpath
      idPos := by
        dsimp only
        rw [hrestored.nextFileId_eq]
        exact hcommitted.idPos
      committed := ⟨nextFileId, hcommitted'⟩ }

/-- A manifest that is too large is not read. -/
theorem Traffic.Books.not_reopens (h : traffic.Books options)
    (hsize : ¬ traffic.manager.manifestSize ≤ kMaximumMetadataFileBytes) (s : SSTableManager) :
    traffic.manager.reopen ≠ .ok s := by
  obtain ⟨nextFileId, hcommitted⟩ := h.committed
  obtain ⟨listed, hlisted, hfound⟩ := hcommitted.found
  intro hreopen
  obtain ⟨blockCache, -, hreopen⟩ := bind_eq_ok.mp hreopen
  obtain ⟨_, -, hreopen⟩ := bind_eq_ok.mp hreopen
  let manifest := ManifestManager.opened
    { manifests := traffic.manager.manifest.manifests, current := traffic.manager.manifest.current } 0
  let start : SSTableManager :=
    { options := traffic.manager.options, blockCache, files := traffic.manager.files, manifest }
  have hlarge : ¬ encodedManifestSize ⟨traffic.manager.manifest.currentGeneration, nextFileId,
      listed.map ManagedTable.metadata⟩ ≤ kMaximumMetadataFileBytes := fun hle =>
    hsize ((encodedManifestSize_perm hlisted.symm _ _ _ _).trans_le hle)
  obtain ⟨e, s', hload⟩ := @loadManifest_large start _ _ hcommitted.current hfound hlarge
  have hexisting : loadExisting start = (.error e, s') := by
    unfold loadExisting
    rw [bind_apply, hload]
  rw [show loadExisting _ = (.error e, s') from hexisting] at hreopen
  cases hreopen

/-- **The histories of a directory.** A manager is made on an empty directory, takes steps, and may be
made anew at any time of what the directory then holds. -/
inductive Reaches (options : SSTableManagerOptions) : Traffic → Prop where
  | start {manager : SSTableManager} (h : create options OrderedMap.empty {} = .ok manager) :
      Reaches options { manager := manager }
  | step {traffic : Traffic} (h : Reaches options traffic) {label : TrafficLabel}
      (horder : traffic.Ordered label) : Reaches options (traffic.step label)
  | restart {traffic : Traffic} (h : Reaches options traffic) {manager : SSTableManager}
      (hreopen : traffic.manager.reopen = .ok manager) : Reaches options { manager := manager }

theorem books_of_create (h : create options OrderedMap.empty {} = .ok manager) :
    Traffic.Books options { manager := manager } ∧ Usable options := by
  obtain ⟨hfresh, hgood⟩ := create_fresh h
  have horderly : manager.Orderly manager.readers :=
    create_orderly (fun _ hfile => (by cases hfile)) (fun _ hmanifest => (by cases hmanifest)) h
      fun t ht => by
        rw [hfresh.readers] at ht
        cases ht
  obtain ⟨cache, hcache, h⟩ := bind_eq_ok.mp h
  obtain ⟨_, hoptions, h⟩ := bind_eq_ok.mp h
  have hcommitted : Committed manager 1 := by
    obtain rfl := Except.ok.inj h
    exact ⟨rfl, ⟨[], List.Perm.refl _, rfl⟩, by decide, by decide, fun t ht => (by cases ht), ⟨0, rfl⟩,
      Nat.zero_le _⟩
  refine ⟨?_, hoptions, cache, hcache⟩
  exact
    { visible := ⟨⟨_, horderly.start⟩, hgood.proper.distinct, fun _ hstage => by cases hstage⟩
      options_eq := hfresh.options
      sequenced := ⟨fun record hrecord => absurd hrecord (hfresh.not_stored record),
        fun record _ hrecord => absurd hrecord (hfresh.not_stored record)⟩
      count := by
        dsimp only
        rw [hfresh.liveKeyCount, hfresh.readers]
        rfl
      highest := by
        dsimp only
        rw [hfresh.maxSequenceNumber, hfresh.readers]
        rfl
      numbered := fun flush hf => by cases hf
      cabinet := by
        have htables : Traffic.tables { manager := manager } = [] := hfresh.readers
        rw [htables]
        exact ⟨fun t ht => (by cases ht), List.nodup_nil, fun t ht => (by cases ht),
          fun t ht => by cases ht⟩
      gone := fun path hpath => by cases hpath
      idPos := hgood.idPos
      committed := ⟨1, hcommitted⟩ }

/-- **Over a whole history.** -/
theorem Reaches.books (h : Reaches options traffic) : traffic.Books options ∧ Usable options := by
  induction h with
  | start hcreate => exact books_of_create hcreate
  | step _ horder ih => exact ⟨ih.1.step horder, ih.2⟩
  | @restart traffic _ manager hreopen ih =>
    obtain ⟨hbooks, husable⟩ := ih
    refine ⟨?_, husable⟩
    -- a manager was made, so the manifest was small enough
    by_cases hsize : traffic.manager.manifestSize ≤ kMaximumMetadataFileBytes
    · obtain ⟨s, hreopen', hreopened⟩ := hbooks.reopens husable hsize
      obtain rfl := Except.ok.inj (hreopen.symm.trans hreopen')
      exact hreopened.books
    · exact absurd hreopen (hbooks.not_reopens hsize manager)

/-- **A restarted manager is good**; generations are 64-bit values. -/
theorem Traffic.Reopened.good (h : traffic.Reopened options s) (husable : Usable options)
    (h64 : ∀ table ∈ s.readers, table.reader.metadata.generation < u64) : s.Good := by
  obtain ⟨htarget, -⟩ := refuse_bind_eq_ok.mp husable.1
  have hgenerations : ∀ table ∈ s.readers, table.reader.metadata.generation < u64 - 1 := by
    intro table ht
    by_contra hge
    have := h64 table ht
    obtain ⟨e, herror⟩ := generationAfter_last ht (by omega) h64
    rw [h.next] at herror
    cases herror
  exact
    { proper := ⟨h.orderly.readable, h.books.visible.distinct, h.orderly.apart,
        fun table ht => h.books.cabinet.named table (List.mem_append_right _ ht), hgenerations⟩
      cache := h.orderly.cache
      idPos := h.books.idPos
      idLt := h.orderly.idLt
      target := by
        rw [show s.options = options from h.books.options_eq]
        exact htarget
      trigger := h.orderly.trigger
      most := h.orderly.most }

/-! ## The highest sequence number -/

/-- The highest sequence number of any record, zero if there is none. -/
def Highest (tables : List ManagedTable) (sequenceNumber : Nat) : Prop :=
  (∀ record, Stored tables record → record.2.sequenceNumber ≤ sequenceNumber) ∧
    ((∃ record, Stored tables record ∧ record.2.sequenceNumber = sequenceNumber) ∨
      (∀ record, ¬ Stored tables record) ∧ sequenceNumber = 0)

theorem foldl_max_attained {α : Type} (f : α → Nat) (l : List α) (start : Nat) :
    l.foldl (fun acc a => max acc (f a)) start = start ∨
      ∃ a ∈ l, f a = l.foldl (fun acc a => max acc (f a)) start := by
  induction l generalizing start with
  | nil => exact Or.inl rfl
  | cons first rest ih =>
    rw [List.foldl_cons]
    rcases ih (max start (f first)) with hstart | ⟨a, ha, hmost⟩
    · rw [hstart]
      rcases max_choice start (f first) with hold | hnew
      · exact Or.inl hold
      · exact Or.inr ⟨first, List.mem_cons_self, hnew.symm⟩
    · exact Or.inr ⟨a, List.mem_cons_of_mem _ ha, hmost⟩

/-- The highest sequence number of a table is that of one of its records. -/
theorem snapshotMaxSequence_attained {records : Snapshot} (hne : records ≠ [])
    (hvalid : ∀ record ∈ records, ValidRecord record) :
    (∀ record ∈ records, record.2.sequenceNumber ≤ snapshotMaxSequence records) ∧
      ∃ record ∈ records, record.2.sequenceNumber = snapshotMaxSequence records := by
  have hle := (le_foldl_max (fun record : Bytes × Entry => record.2.sequenceNumber) records 0).2
  refine ⟨hle, ?_⟩
  rcases foldl_max_attained (fun record : Bytes × Entry => record.2.sequenceNumber) records 0 with
    hzero | hsome
  · -- no sequence number is zero
    obtain ⟨record, hrecord⟩ := List.exists_mem_of_ne_nil _ hne
    have hpos := (hvalid record hrecord).sequence_pos
    have hbelow := hle record hrecord
    rw [hzero] at hbelow
    omega
  · exact hsome

theorem maxSequence_highest (hw : ∀ table ∈ tables, table.reader.WellFormed)
    (hhighest : ∀ table ∈ tables, table.reader.metadata.maxSequenceNumber =
      snapshotMaxSequence table.reader.contents) : Highest tables (maxSequence tables) := by
  have htop := (le_foldl_max
    (fun table : ManagedTable => table.reader.metadata.maxSequenceNumber) tables 0).2
  have hbelow : ∀ record, Stored tables record →
      record.2.sequenceNumber ≤ maxSequence tables := by
    rintro record ⟨table, ht, hmem⟩
    have hown := (snapshotMaxSequence_attained (hw table ht).nonempty (hw table ht).valid).1 record hmem
    exact (hown.trans (hhighest table ht).ge).trans (htop table ht)
  refine ⟨hbelow, ?_⟩
  rcases foldl_max_attained (fun table : ManagedTable => table.reader.metadata.maxSequenceNumber)
    tables 0 with hzero | ⟨table, ht, hmost⟩
  · refine Or.inr ⟨?_, hzero⟩
    rintro record ⟨table, ht, hmem⟩
    have hpos := ((hw table ht).valid record hmem).sequence_pos
    have hle := hbelow record ⟨table, ht, hmem⟩
    unfold maxSequence at hle
    rw [hzero] at hle
    omega
  · obtain ⟨-, record, hrecord, hown⟩ :=
      snapshotMaxSequence_attained (hw table ht).nonempty (hw table ht).valid
    exact Or.inl ⟨record, ⟨table, ht, hrecord⟩, hown.trans ((hhighest table ht).symm.trans hmost)⟩

end Reopening

/-! ## Many tables with long keys -/

/-- The longest key there is. -/
def longKey : Bytes := List.replicate kMaxKeySize 1

/-- A memtable with one entry under the longest key. -/
def longTable (sequenceNumber : Nat) : MemTable :=
  { generation := 0
    entries := OrderedMap.empty.insert longKey ⟨[], sequenceNumber, false⟩
    immutable := true }

theorem longTable_numbered {sequenceNumber : Nat} (hpos : sequenceNumber ≠ 0)
    (hlt : sequenceNumber < u64) : Numbered (longTable sequenceNumber) := by
  have hkey : ValidKey longKey := by decide +kernel
  have hvalue : ValidValue [] := by decide
  refine ⟨?_, ?_, List.nodup_singleton _⟩
  · intro record hrecord
    obtain rfl := List.mem_singleton.mp hrecord
    exact ⟨hkey, hvalue, hpos, fun hdeleted => by cases hdeleted⟩
  · intro record hrecord
    obtain rfl := List.mem_singleton.mp hrecord
    exact hlt

/-- A step that publishes nothing waits for nothing. -/
theorem Reaches.quiet {traffic' : Traffic} (h : Reaches options traffic) (label : TrafficLabel)
    (hstep : traffic.step label = traffic')
    (htables : ∀ table, label = .beginFlush table → Numbered table)
    (hquiet : traffic.publishes label = none) : Reaches options traffic' := by
  rw [← hstep]
  refine h.step ⟨htables, fun flush hpublishes => ?_⟩
  rw [hquiet] at hpublishes
  cases hpublishes

/-- With nothing else under way a flush is four steps, and its first round is its last. -/
theorem Reaches.flush {table : MemTable} {metadata : SSTableMetadata} (h : Reaches options traffic)
    (hidle : traffic.flushing = []) (hfrozen : table.immutable = true) (hne : table.snapshot ≠ [])
    (hnumbered : Numbered table)
    (hnewer : ∀ record, Stored traffic.manager.readers record → ∀ record' ∈ table.snapshot,
      record.2.sequenceNumber < record'.2.sequenceNumber)
    (hflush : SSTableManager.flush table traffic.manager = (.ok metadata, s)) :
    Reaches options { traffic with manager := s } := by
  have hwrote := writeTable_wrote traffic.manager .Level0 table.generation hne table.entries.sorted
    hnumbered.valid
  have hgo : ¬ (!table.immutable ∨ table.snapshot = []) := by
    rintro (hmutable | hnil)
    · rw [hfrozen] at hmutable
      cases hmutable
    · exact hne hnil
  rw [flush_eq hfrozen hne, bind_apply] at hflush
  rcases hwrite : writeTable .Level0 table.generation table.snapshot traffic.manager with ⟨result, s₁⟩
  rw [hwrite] at hflush hwrote
  cases result with
  | error e => cases hflush
  | ok written =>
  dsimp only at hflush
  -- the table is written, the tables are copied
  let pending (stage : FlushStage) (manager : SSTableManager) : Traffic :=
    { traffic with manager := manager, flushing := [{ table, written, stage }] }
  have hbegun : Reaches options (pending .waiting s₁) := by
    refine h.quiet (.beginFlush table) ?_ (fun _ heq => ?_) rfl
    · show traffic.beginFlush table = _
      unfold Traffic.beginFlush
      rw [if_neg hgo, hwrite, hidle]
      rfl
    · obtain rfl := TrafficLabel.beginFlush.inj heq
      exact hnumbered
  have hcopied : Reaches options (pending (.copied s₁.readers s₁.liveKeyCount s₁.stateVersion) s₁) :=
    hbegun.quiet (.advanceFlush 0) rfl (fun _ heq => by cases heq) rfl
  -- the live keys are counted, and nothing has come in between
  obtain ⟨counted, cache, hcount⟩ : ∃ counted cache,
      withCache (liveCountAfterFlush s₁.readers table.snapshot s₁.liveKeyCount) s₁ =
        (counted, { s₁ with blockCache := cache }) := ⟨_, _, rfl⟩
  unfold publishFlush at hflush
  rw [read_bind_apply, bind_apply, hcount] at hflush
  cases counted with
  | error e => cases hflush
  | ok newLiveCount =>
  dsimp only at hflush
  have hcounted : Reaches options (pending (.counted s₁.readers newLiveCount s₁.stateVersion)
      { s₁ with blockCache := cache }) := by
    refine hcopied.quiet (.advanceFlush 0) ?_ (fun _ heq => by cases heq) rfl
    show Traffic.advanceFlush _ 0 { table, written, stage := .copied _ _ _ } = _
    unfold Traffic.advanceFlush
    dsimp only [pending]
    rw [hcount]
    rfl
  rw [bind_apply] at hflush
  rcases hpublish : publishTables (s₁.readers ++ [written.table]) newLiveCount
    { s₁ with blockCache := cache } with ⟨result, s₂⟩
  rw [hpublish] at hflush
  cases result with
  | error e => cases hflush
  | ok =>
  obtain rfl : s₂ = s := congrArg Prod.snd hflush
  have hstep : (pending (.counted s₁.readers newLiveCount s₁.stateVersion)
      { s₁ with blockCache := cache }).step (.advanceFlush 0) = { traffic with manager := s₂ } := by
    show Traffic.advanceFlush _ 0 { table, written, stage := .counted _ _ _ } = _
    unfold Traffic.advanceFlush
    dsimp only [pending]
    rw [if_neg (not_not.mpr rfl), hpublish, ← hidle]
    rfl
  rw [← hstep]
  refine hcounted.step ⟨fun _ heq => (by cases heq), fun flush hpublishes t ht record hrecord => ?_⟩
  have hget : (some { table, written, stage := .counted s₁.readers newLiveCount s₁.stateVersion }).filter
      (PendingFlush.publishes { s₁ with blockCache := cache }) = some flush := hpublishes
  obtain rfl := Option.some.inj (Option.filter_eq_some_iff.mp hget).1
  have hreaders : s₁.readers = traffic.manager.readers := hwrote.2.readers
  exact hnewer record ⟨t, hreaders ▸ ht, hrecord⟩

/-- So many tables, with one record each. -/
structure Filled (count : Nat) (traffic : Traffic) : Prop where
  reaches : Reaches pairOptions traffic
  idle : traffic.flushing = []
  good : traffic.manager.Good
  length : traffic.manager.readers.length = count
  nextFileId : traffic.manager.nextFileId = count + 1
  generation : traffic.manager.manifest.currentGeneration = count + 1
  sequences : ∀ record, Stored traffic.manager.readers record → record.2.sequenceNumber ≤ count
  keys : ∀ record, Stored traffic.manager.readers record → record.1 = longKey

theorem Filled.next (h : Filled count traffic) (hcount : count < kMaximumManifestTables) :
    ∃ traffic', Filled (count + 1) traffic' := by
  have hlimit : kMaximumManifestTables < u64 - 2 := by decide
  have hnumbered : Numbered (longTable (count + 1)) := longTable_numbered (by omega) (by omega)
  have hnewer : ∀ record, Stored traffic.manager.readers record →
      ∀ record' ∈ (longTable (count + 1)).snapshot,
        record.2.sequenceNumber < record'.2.sequenceNumber := by
    intro record hrecord record' hrecord'
    obtain rfl := List.mem_singleton.mp hrecord'
    exact Nat.lt_succ_of_le (h.sequences record hrecord)
  have hne : (longTable (count + 1)).snapshot ≠ [] := List.cons_ne_nil _ _
  have houtcome := flush_outcome h.good rfl hne hnumbered.valid (show 0 < u64 - 1 by decide) hnewer
  rcases hflush : flush (longTable (count + 1)) traffic.manager with ⟨result, s⟩
  rw [hflush] at houtcome
  cases result with
  | error e =>
    -- none of the counters is used up
    obtain ⟨-, hexhausted⟩ := houtcome
    exfalso
    rcases hexhausted with hid | hmany | hgeneration | htables
    · rw [h.nextFileId] at hid
      omega
    · have hone : uint32Max < 1 := hmany.count hnumbered.valid
      exact absurd hone (by decide)
    · rw [h.generation] at hgeneration
      omega
    · rw [h.length] at htables
      omega
  | ok metadata =>
    obtain ⟨table, hreaders, -, -, hcontents⟩ := houtcome.readers
    have hpublished := h.reaches.flush h.idle rfl hne hnumbered hnewer hflush
    have hstored : ∀ record, Stored s.readers record →
        record = (longKey, ⟨[], count + 1, false⟩) ∨ Stored traffic.manager.readers record := by
      rintro record ⟨t, ht, hmem⟩
      rcases List.mem_cons.mp (hreaders.mem_iff.mp ht) with rfl | ht
      · rw [hcontents] at hmem
        exact Or.inl (List.mem_singleton.mp hmem)
      · exact Or.inr ⟨t, ht, hmem⟩
    refine ⟨_, hpublished, h.idle, houtcome.good, ?_, ?_, ?_, fun record hrecord => ?_,
      fun record hrecord => ?_⟩
    · rw [hreaders.length_eq, List.length_cons, h.length]
    · rw [houtcome.nextFileId, h.nextFileId]
    · rw [houtcome.generation, h.generation]
    · rcases hstored record hrecord with rfl | hold
      · exact le_rfl
      · exact (h.sequences record hold).trans (Nat.le_succ _)
    · rcases hstored record hrecord with rfl | hold
      · rfl
      · exact h.keys record hold

theorem exists_filled (hcount : count ≤ kMaximumManifestTables) :
    ∃ traffic, Filled count traffic := by
  induction count with
  | zero =>
    obtain ⟨manager, hcreate⟩ : ∃ manager, create pairOptions OrderedMap.empty {} = .ok manager :=
      ⟨_, rfl⟩
    obtain ⟨hfresh, hgood⟩ := create_fresh hcreate
    exact ⟨{ manager := manager }, Reaches.start hcreate, rfl, hgood, by rw [hfresh.readers]; rfl,
      hfresh.nextFileId, hfresh.generation,
      fun record hrecord => absurd hrecord (hfresh.not_stored record),
      fun record hrecord => absurd hrecord (hfresh.not_stored record)⟩
  | succ count ih =>
    obtain ⟨traffic, hfilled⟩ := ih (by omega)
    exact hfilled.next (by omega)

/-- Each table takes 2180 bytes of the manifest. -/
theorem Filled.manifestSize_eq (h : Filled count traffic) :
    traffic.manager.manifestSize = 40 + 2180 * count := by
  have heach : ∀ size ∈ (traffic.manager.readers.map ManagedTable.metadata).map (fun table =>
      52 + table.path.length + table.smallestKey.length + table.largestKey.length), size = 2180 := by
    intro size hsize
    obtain ⟨metadata, hmetadata, rfl⟩ := List.mem_map.mp hsize
    obtain ⟨table, ht, rfl⟩ := List.mem_map.mp hmetadata
    have hwell := h.good.proper.readable.wellFormed table ht
    obtain ⟨level, fileId, generation, maxSequence, -, hpath⟩ := h.good.proper.named table ht
    obtain ⟨first, hfirst, hsmall⟩ := hwell.exists_smallestKey
    obtain ⟨last, hlast, hlarge⟩ := hwell.exists_largestKey
    rw [h.keys first ⟨table, ht, hfirst⟩] at hsmall
    rw [h.keys last ⟨table, ht, hlast⟩] at hlarge
    show 52 + table.path.length + table.reader.metadata.smallestKey.length +
      table.reader.metadata.largestKey.length = 2180
    rw [hpath, length_tablePath, ← hsmall, ← hlarge]
    unfold longKey
    rw [List.length_replicate]
    rfl
  unfold manifestSize encodedManifestSize
  dsimp only
  rw [List.eq_replicate_of_mem heach, List.sum_replicate_nat, List.length_map, List.length_map,
    h.length]
  omega

/-! ## A store over the tables -/

/-- **A reopened store is sound.** Its memtables are new, and their generations begin behind those of the
tables, which compactions may have taken ahead of the highest sequence number that is left. It shows what
the tables showed. -/
theorem reopened_sound {options : PersistentStoreOptions} (h : Reaches options.sstables traffic)
    {store : PersistentKeyValueStore}
    (hcreate : PersistentKeyValueStore.create options traffic.manager.files
      { manifests := traffic.manager.manifest.manifests, current := traffic.manager.manifest.current } [] =
        .ok store) (h64 : ∀ table ∈ traffic.manager.readers, table.reader.metadata.generation < u64)
    (hlast : traffic.manager.maxSequenceNumber < u64) :
    store.Sound (store.sstables.nextGeneration - store.sstables.maxSequenceNumber) ∧
      ∀ key, store.value? key = shown traffic.manager.readers key := by
  obtain ⟨hbooks, husable⟩ := h.books
  obtain ⟨s, hs, hcreate⟩ := bind_eq_ok.mp hcreate
  obtain ⟨memtables, hmemtables, hcreate⟩ := bind_eq_ok.mp hcreate
  obtain rfl := Except.ok.inj hcreate
  have hreopen : traffic.manager.reopen = .ok s := by
    rw [reopen, hbooks.options_eq]
    exact hs
  have hsize : traffic.manager.manifestSize ≤ kMaximumMetadataFileBytes := by
    by_contra hlarge
    exact hbooks.not_reopens hlarge s hreopen
  obtain ⟨s', hreopen', hreopened⟩ := hbooks.reopens husable hsize
  obtain rfl := Except.ok.inj (hreopen.symm.trans hreopen')
  have hperm := hreopened.readers
  have hgood := hreopened.good husable fun table ht => h64 table (hperm.mem_iff.mp ht)
  have hnext : s.nextGeneration < u64 := by
    have hgeneration := hreopened.next
    unfold generationAfter at hgeneration
    split_ifs at hgeneration
    · rw [← Except.ok.inj hgeneration]
      decide
    · rw [← Except.ok.inj hgeneration]
      have := maxGeneration_lt hgood.proper.generations
      omega
  have hlast' : s.maxSequenceNumber < u64 := hreopened.highest ▸ hlast
  have hordered := MemTableSet.create_ordered hmemtables
  unfold MemTableSet.create at hmemtables
  split_ifs at hmemtables
  obtain rfl := Except.ok.inj hmemtables
  have hshown : ∀ key, shown s.readers key = shown traffic.manager.readers key :=
    shown_perm hbooks.visible.distinct hperm
  obtain ⟨nextFileId, hcommitted⟩ := hreopened.books.committed
  refine ⟨⟨hordered, ⟨?_, ?_, fun hne => absurd rfl hne, fun _ ht => (by cases ht)⟩, hgood, ?_, ?_,
    hcommitted.few⟩, hshown⟩
  · show s.maxSequenceNumber + (s.nextGeneration - s.maxSequenceNumber) < u64
    omega
  · show s.nextGeneration ≤ s.maxSequenceNumber + (s.nextGeneration - s.maxSequenceNumber)
    omega
  · rintro record - record' ⟨table, ht, hrecord⟩
    obtain rfl := List.mem_singleton.mp ht
    cases hrecord
  · show ∀ record, Stored s.readers record → record.2.sequenceNumber ≤ s.maxSequenceNumber
    rw [show s.maxSequenceNumber = _ from hreopened.books.highest]
    exact (maxSequence_highest hgood.proper.readable.wellFormed fun t ht =>
      (hreopened.books.cabinet.reopens t (List.mem_append_right _ ht)).highest).1

/-- **The numbers are kept.** In every history the count is what `compute_live_key_count` computes, the
number of keys whose newest entry is no tombstone, and the highest sequence number is that of the tables.
The constructor finds both again exactly if the manifest has at most 64 MiB. -/
theorem live_count_kept {options : SSTableManagerOptions} {traffic : Traffic}
    (h : Reaches options traffic) :
    Yields (CacheOK traffic.manager.readers) (computeLiveKeyCount traffic.manager.readers)
      traffic.manager.liveKeyCount ∧
    traffic.manager.liveKeyCount = (liveKeys traffic.manager.readers).ncard ∧
    Highest traffic.manager.readers traffic.manager.maxSequenceNumber ∧
    ((∃ s, traffic.manager.reopen = .ok s ∧ s.liveKeyCount = traffic.manager.liveKeyCount ∧
        s.maxSequenceNumber = traffic.manager.maxSequenceNumber) ↔
      traffic.manager.manifestSize ≤ kMaximumMetadataFileBytes) := by
  obtain ⟨hbooks, husable⟩ := h.books
  obtain ⟨shelf, hinvariant⟩ := hbooks.visible.invariant
  have hreadable := hinvariant.orderly.readers
  refine ⟨?_, ?_, ?_, ?_, ?_⟩
  · rw [hbooks.count]
    exact computeLiveKeyCount_yields hreadable
  · rw [hbooks.count]
    exact liveCount_eq_ncard hreadable.wellFormed hbooks.sequenced
  · rw [hbooks.highest]
    exact maxSequence_highest hreadable.wellFormed fun t ht =>
      (hbooks.cabinet.reopens t (List.mem_append_right _ ht)).highest
  · rintro ⟨s, hreopen, -⟩
    by_contra hsize
    exact hbooks.not_reopens hsize s hreopen
  · intro hsize
    obtain ⟨s, hreopen, hreopened⟩ := hbooks.reopens husable hsize
    exact ⟨s, hreopen, hreopened.count, hreopened.highest⟩

theorem live_count_kept_one : ∃ traffic, Reaches pairOptions traffic ∧
    traffic.manager.readers.length = 1 ∧
    traffic.manager.liveKeyCount = (liveKeys traffic.manager.readers).ncard ∧
    ∃ s, traffic.manager.reopen = .ok s ∧ s.liveKeyCount = traffic.manager.liveKeyCount ∧
      s.maxSequenceNumber = traffic.manager.maxSequenceNumber := by
  obtain ⟨traffic, hfilled⟩ := @exists_filled 1 (by decide)
  obtain ⟨-, hcount, -, hreopen⟩ := live_count_kept hfilled.reaches
  refine ⟨traffic, hfilled.reaches, hfilled.length, hcount, hreopen.mpr ?_⟩
  rw [hfilled.manifestSize_eq]
  decide

/-- **The constructor can fail**: after so many flushes the manifest is larger than 64 MiB. -/
theorem many_flushes_not_reopened : ∃ traffic, Reaches pairOptions traffic ∧
    traffic.manager.readers.length = 30784 ∧ ∀ s, traffic.manager.reopen ≠ .ok s := by
  obtain ⟨traffic, hfilled⟩ := @exists_filled 30784 (by decide)
  refine ⟨traffic, hfilled.reaches, hfilled.length, hfilled.reaches.books.1.not_reopens ?_⟩
  rw [hfilled.manifestSize_eq]
  decide

end SSTableManager

end NebulaKV.Lsm
