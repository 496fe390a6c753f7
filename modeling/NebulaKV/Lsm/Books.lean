/-
# The books of a manager

The two numbers that a manager keeps beside its tables, the live keys and the highest sequence number,
step by step: memtables that are flushed side by side and published newest last, and a compaction in
between.

The books also say what lies on disk. Every table that is in use, or that is written and waits, has its
file under a name of its own (`Cabinet`); the manifest that `CURRENT` names lists the tables in use
(`Committed`). What a compaction removes is in neither.
-/
import NebulaKV.Lsm.CompactionRace
import NebulaKV.Lsm.LiveCount

namespace NebulaKV.Lsm

open Containers Effects Program Versioned

namespace SSTableManager

variable {manager s : SSTableManager} {sizing : BloomSizing}

/-! ## The files of the tables -/

/-- **Every table has its file**, under a name that is not given out again. -/
structure Cabinet (sizing : BloomSizing) (files : OrderedMap Bytes SSTableFile) (nextFileId : Nat)
    (tables : List ManagedTable) : Prop where
  named : ∀ table ∈ tables, Named nextFileId table
  paths : (tables.map ManagedTable.path).Nodup
  filed : ∀ table ∈ tables, files.find? table.path = some table.reader.file
  reopens : ∀ table ∈ tables, Reopens sizing table

section Cabinet

variable {files : OrderedMap Bytes SSTableFile} {nextFileId : Nat} {tables tables' : List ManagedTable}

theorem Cabinet.subperm (h : Cabinet sizing files nextFileId tables) (hsub : tables'.Subperm tables) :
    Cabinet sizing files nextFileId tables' := by
  have hmem := hsub.subset
  exact ⟨fun t ht => h.named t (hmem ht), nodup_of_subperm hsub h.paths, fun t ht => h.filed t (hmem ht),
    fun t ht => h.reopens t (hmem ht)⟩

/-- A name with an id below the next one is none of the names that come. -/
theorem Named.ne_next {table : ManagedTable} (h : Named nextFileId table) (hlt : nextFileId < u64)
    (level : SSTableLevel) (generation maxSequence : Nat) :
    table.path ≠ tablePath level nextFileId generation maxSequence := by
  obtain ⟨level', fileId, generation', maxSequence', hid, hpath⟩ := h
  intro heq
  have hsame := tablePath_fileId (hid.trans hlt) hlt (hpath.symm.trans heq)
  omega

/-- Other files have come or gone. -/
theorem Cabinet.moved {files' : OrderedMap Bytes SSTableFile} {nextFileId' : Nat}
    (h : Cabinet sizing files nextFileId tables) (hid : nextFileId ≤ nextFileId')
    (hfiles : ∀ table ∈ tables, files'.find? table.path = files.find? table.path) :
    Cabinet sizing files' nextFileId' tables where
  named t ht := (h.named t ht).mono hid
  paths := h.paths
  filed t ht := (hfiles t ht).trans (h.filed t ht)
  reopens := h.reopens

/-- A new table joins. -/
theorem Cabinet.add {table : ManagedTable}
    (h : Cabinet manager.options.bloomSizing manager.files manager.nextFileId tables)
    (hold : Cabinet manager.options.bloomSizing s.files s.nextFileId tables)
    (hlt : manager.nextFileId < u64) (hwritten : WrittenUnder manager table s) :
    Cabinet manager.options.bloomSizing s.files s.nextFileId (table :: tables) := by
  obtain ⟨level, generation, maxSequence, hpath⟩ := hwritten.path
  refine ⟨fun t ht => ?_, List.nodup_cons.mpr ⟨fun hmem => ?_, h.paths⟩, fun t ht => ?_,
    fun t ht => ?_⟩
  · rcases List.mem_cons.mp ht with rfl | ht
    · exact ⟨level, _, generation, maxSequence, by rw [hwritten.next]; exact Nat.lt_succ_self _, hpath⟩
    · exact hold.named t ht
  · obtain ⟨t, ht, heq⟩ := List.mem_map.mp hmem
    exact Named.ne_next (h.named t ht) hlt level generation maxSequence (heq.trans hpath)
  · rcases List.mem_cons.mp ht with rfl | ht
    · exact hwritten.file
    · exact hold.filed t ht
  · rcases List.mem_cons.mp ht with rfl | ht
    · exact hwritten.reopens
    · exact hold.reopens t ht

end Cabinet

/-! ## What `CURRENT` names -/

/-- **The manifest lists the tables.** -/
structure Committed (manager : SSTableManager) (nextFileId : Nat) : Prop where
  current : manager.manifest.current = some manager.manifest.currentGeneration
  found : ∃ listed : List ManagedTable, listed.Perm manager.readers ∧
    manager.manifest.manifests.find? manager.manifest.currentGeneration =
      some ⟨manager.manifest.currentGeneration, nextFileId, listed.map ManagedTable.metadata⟩
  idPos : 0 < nextFileId
  idLt : nextFileId < u64
  named : ∀ table ∈ manager.readers, Named nextFileId table
  generations : ∃ generation, generationAfter manager.readers = .ok generation
  few : manager.readers.length ≤ kMaximumManifestTables

/-- What is published is committed. -/
theorem Commits.committed {tables : List ManagedTable} {liveKeyCount : Nat}
    (h : Commits manager tables liveKeyCount s) (hpos : 0 < manager.nextFileId)
    (hlt : manager.nextFileId < u64) (hnamed : ∀ table ∈ tables, Named manager.nextFileId table) :
    Committed s manager.nextFileId := by
  obtain ⟨generation, manifest, hgeneration, hcommit, rfl⟩ := h
  obtain ⟨-, hcommit⟩ := refuse_bind_eq_ok.mp hcommit
  obtain ⟨_, hcheck, hcommit⟩ := bind_eq_ok.mp hcommit
  obtain rfl := Except.ok.inj hcommit
  refine ⟨rfl, ⟨tables, List.Perm.refl _, (OrderedMap.find?_insert _ _ _ _).trans (if_pos rfl)⟩, hpos,
    hlt, hnamed, ⟨generation, hgeneration⟩, ?_⟩
  have hfew := ManifestManager.checkManifest_few hcheck
  rwa [List.length_map] at hfew

/-! ## The books -/

/-- Memtables are numbered, and published in the order of their sequence numbers. -/
def Traffic.Ordered (traffic : Traffic) (label : TrafficLabel) : Prop :=
  (∀ table, label = .beginFlush table → Numbered table) ∧ traffic.Newest label

theorem Traffic.Ordered.valid {traffic : Traffic} {label : TrafficLabel} (h : traffic.Ordered label) :
    label.Valid := by
  cases label with
  | beginFlush table => exact (h.1 table rfl).valid
  | advanceFlush _ | beginCompaction _ | advance | beginGet _ | finishGet _ => trivial

/-- All tables: those that wait, and those in use. -/
def Traffic.tables (traffic : Traffic) : List ManagedTable := traffic.pending ++ traffic.manager.readers

/-- A name that was given out and is no table's any more. -/
def Gone (nextFileId : Nat) (tables : List ManagedTable) (path : Bytes) : Prop :=
  (∃ level fileId generation maxSequence, fileId < nextFileId ∧
    path = tablePath level fileId generation maxSequence) ∧ path ∉ tables.map ManagedTable.path

/-- **The books of a manager.** -/
structure Traffic.Books (options : SSTableManagerOptions) (traffic : Traffic) : Prop where
  visible : traffic.Visible
  options_eq : traffic.manager.options = options
  sequenced : Sequenced traffic.manager.readers
  count : traffic.manager.liveKeyCount = liveCount traffic.manager.readers
  highest : traffic.manager.maxSequenceNumber = maxSequence traffic.manager.readers
  numbered : ∀ flush ∈ traffic.flushing, Numbered flush.table
  cabinet : Cabinet options.bloomSizing traffic.manager.files traffic.manager.nextFileId traffic.tables
  gone : ∀ path ∈ traffic.compaction.obsolete, Gone traffic.manager.nextFileId traffic.tables path
  idPos : 0 < traffic.manager.nextFileId
  committed : ∃ nextFileId, Committed traffic.manager nextFileId

section Steps

variable {options : SSTableManagerOptions} {traffic traffic' : Traffic} {label : TrafficLabel}

/-- A name that is gone stays gone: new tables have new names. -/
theorem Gone.mono {n n' : Nat} {tables tables' : List ManagedTable} {path : Bytes}
    (h : Gone n tables path) (hn : n ≤ n')
    (hsub : ∀ table ∈ tables', table ∈ tables ∨
      ∃ level generation maxSequence, table.path = tablePath level n generation maxSequence)
    (hlt : n < u64) : Gone n' tables' path := by
  obtain ⟨⟨level, fileId, generation, maxSequence, hid, hpath⟩, hnot⟩ := h
  refine ⟨⟨level, fileId, generation, maxSequence, hid.trans_le hn, hpath⟩, fun hmem => ?_⟩
  obtain ⟨table, ht, heq⟩ := List.mem_map.mp hmem
  rcases hsub table ht with hold | ⟨level', generation', maxSequence', hnew⟩
  · exact hnot (heq ▸ List.mem_map_of_mem hold)
  · have hsame := tablePath_fileId (hid.trans hlt) hlt (hpath.symm.trans (heq.symm.trans hnew))
    omega

/-- The tables of the books after a step that publishes nothing: perhaps a new one. -/
theorem Traffic.Rests.tables_cases (h : traffic.Rests label traffic') :
    traffic'.tables.Subperm traffic.tables ∨
      ∃ table, traffic'.tables.Perm (table :: traffic.tables) ∧
        WrittenUnder traffic.manager table traffic'.manager := by
  unfold Traffic.tables
  rw [h.untouched.readers]
  rcases h.pending with hsub | ⟨table, hperm, hwritten⟩
  · exact Or.inl ((List.subperm_append_right _).mpr hsub)
  · exact Or.inr ⟨table, hperm.append_right _, hwritten⟩

section

variable (h : traffic.Books options)
include h

/-- **A step that publishes nothing** keeps the books. -/
theorem Traffic.Books.rests (hvisible : traffic'.Visible) (hrests : traffic.Rests label traffic')
    (hordered : traffic.Ordered label) : traffic'.Books options := by
  have hsame := hrests.untouched
  obtain ⟨shelf, hinvariant⟩ := h.visible.invariant
  have hlt := hinvariant.orderly.idLt
  -- the files of tables are not those that are removed, and not those that are written
  have hold : Cabinet options.bloomSizing traffic'.manager.files traffic'.manager.nextFileId
      traffic.tables := by
    refine h.cabinet.moved hsame.idLe fun t ht => hrests.files t.path (fun hmem => ?_)
      fun level generation maxSequence =>
        Named.ne_next (h.cabinet.named t ht) hlt level generation maxSequence
    exact (h.gone t.path hmem).2 (List.mem_map_of_mem ht)
  have hcabinet : Cabinet options.bloomSizing traffic'.manager.files traffic'.manager.nextFileId
      traffic'.tables := by
    rcases hrests.tables_cases with hsub | ⟨table, hperm, hwritten⟩
    · exact hold.subperm hsub
    · have hbefore := h.cabinet
      rw [← h.options_eq] at hbefore hold ⊢
      exact (hbefore.add hold hlt hwritten).subperm hperm.subperm
  have hgone : ∀ path ∈ traffic'.compaction.obsolete,
      Gone traffic'.manager.nextFileId traffic'.tables path := by
    intro path hpath
    rcases hrests.obsolete with hnone | hobsolete
    · rw [hnone] at hpath
      cases hpath
    rw [hobsolete] at hpath
    refine (h.gone path hpath).mono hsame.idLe (fun t ht => ?_) hlt
    rcases hrests.tables_cases with hsub | ⟨table, hperm, hwritten⟩
    · exact Or.inl (hsub.subset ht)
    · rcases List.mem_cons.mp (hperm.mem_iff.mp ht) with rfl | hmem
      · exact Or.inr hwritten.path
      · exact Or.inl hmem
  exact
    { visible := hvisible
      options_eq := hsame.options.trans h.options_eq
      sequenced := by rw [hsame.readers]; exact h.sequenced
      count := by rw [hsame.count, hsame.readers]; exact h.count
      highest := by rw [hsame.highest, hsame.readers]; exact h.highest
      numbered := fun flush hf => by
        rcases hrests.tables flush hf with hlabel | ⟨flush', hf', heq⟩
        · exact hordered.1 flush.table hlabel
        · rw [heq]
          exact h.numbered flush' hf'
      cabinet := hcabinet
      gone := hgone
      idPos := h.idPos.trans_le hsame.idLe
      committed := by
        obtain ⟨nextFileId, hcommitted⟩ := h.committed
        refine ⟨nextFileId, ?_, ?_, hcommitted.idPos, hcommitted.idLt, ?_, ?_, ?_⟩
        · rw [hsame.manifest]; exact hcommitted.current
        · rw [hsame.manifest, hsame.readers]; exact hcommitted.found
        · rw [hsame.readers]; exact hcommitted.named
        · rw [hsame.readers]; exact hcommitted.generations
        · rw [hsame.readers]; exact hcommitted.few }

/-- **A publication** puts other tables in use. -/
theorem Traffic.Books.published (hvisible : traffic'.Visible) {tables : List ManagedTable}
    {liveKeyCount : Nat} (hcommits : Commits traffic.manager tables liveKeyCount traffic'.manager)
    (hsequenced : Sequenced tables) (hcount : liveKeyCount = liveCount tables)
    (hflushing : ∀ flush ∈ traffic'.flushing, flush ∈ traffic.flushing)
    (htables : traffic'.tables.Subperm traffic.tables)
    (hgone : ∀ path ∈ traffic'.compaction.obsolete,
      Gone traffic.manager.nextFileId traffic'.tables path) : traffic'.Books options := by
  obtain ⟨shelf, hinvariant⟩ := h.visible.invariant
  have hcabinet := h.cabinet.subperm htables
  have hreaders := hcommits.readers_eq
  have hnamed : ∀ table ∈ tables, Named traffic.manager.nextFileId table := fun table ht =>
    hcabinet.named table (List.mem_append_right _ (hreaders.symm ▸ ht))
  have hcommitted := hcommits.committed h.idPos hinvariant.orderly.idLt hnamed
  obtain ⟨generation, manifest, -, -, hs⟩ := hcommits
  refine ⟨hvisible, ?_, ?_, ?_, ?_, fun flush hf => h.numbered flush (hflushing flush hf), ?_, ?_, ?_,
    ⟨_, hcommitted⟩⟩
  · rw [hs]; exact h.options_eq
  · rw [hs]; exact hsequenced
  · rw [hs]; exact hcount
  · rw [hs]; rfl
  · rw [hs]; exact hcabinet
  · rw [hs]; exact hgone
  · rw [hs]; exact h.idPos

theorem Traffic.Books.flushed (hvisible : traffic'.Visible) {flush : PendingFlush}
    (hnewest : traffic.Newest label) (hpublishes : traffic.publishes label = some flush)
    (hflush : traffic.PublishesFlush flush traffic') : traffic'.Books options := by
  obtain ⟨shelf, hinvariant⟩ := h.visible.invariant
  have hlt := hinvariant.orderly.idLt
  have hholding := (hinvariant.flush flush hflush.mem).holding
  have hnumbered := h.numbered flush hflush.mem
  have hnewer := hnewest.newer hpublishes
  have hreaders : (sortTables (traffic.manager.readers ++ [flush.written.table])).Perm
      (flush.written.table :: traffic.manager.readers) :=
    (List.perm_insertionSort _ _).trans (List.perm_append_singleton _ _)
  -- the table moves from those that wait to those in use
  have htables : traffic'.tables.Perm traffic.tables := by
    unfold Traffic.tables Traffic.pending
    rw [hflush.commits.readers_eq, hflush.compaction]
    refine (hreaders.append_left _).trans (List.perm_middle.trans ?_)
    have hmap := (hflush.flushing.map fun flush => flush.written.table).append_right
      traffic.compaction.outputs
    exact (hmap.append_right traffic.manager.readers).symm
  refine h.published hvisible hflush.commits
    (h.sequenced.flushed hnumbered hholding.contents hnewer hreaders) ?_
    (fun other hother => hflush.flushing.mem_iff.mpr (List.mem_cons_of_mem _ hother))
    htables.subperm fun path hpath => ?_
  · rw [h.count]
    exact liveCount_flushed hinvariant.orderly.readers.wellFormed h.sequenced hholding hnumbered hnewer
      hreaders
  · rw [hflush.compaction] at hpath
    exact (h.gone path hpath).mono le_rfl (fun t ht => Or.inl (htables.mem_iff.mp ht)) hlt

/-- What a compaction has selected is in no table's place any more. -/
theorem Traffic.Books.gone_selected {selected tables : List ManagedTable}
    (hselected : ∀ table ∈ selected, table ∈ traffic.manager.readers)
    (htables : ∀ table ∈ tables, table ∈ traffic.pending ∨
      table.path ∉ selected.map ManagedTable.path) :
    ∀ path ∈ selected.map ManagedTable.path, Gone traffic.manager.nextFileId tables path := by
  intro path hpath
  obtain ⟨old, hold, rfl⟩ := List.mem_map.mp hpath
  have hreader := hselected old hold
  refine ⟨h.cabinet.named old (List.mem_append_right _ hreader), fun hin => ?_⟩
  obtain ⟨table, ht, heq⟩ := List.mem_map.mp hin
  rcases htables table ht with hpending | hnot
  · -- the paths of tables that wait are not those of tables in use
    have hpaths := h.cabinet.paths
    unfold Traffic.tables at hpaths
    rw [List.map_append] at hpaths
    exact (List.nodup_append.mp hpaths).2.2 _ (List.mem_map_of_mem hpending) _
      (List.mem_map_of_mem hreader) heq
  · exact hnot (heq ▸ hpath)

theorem Traffic.Books.replaced (hvisible : traffic'.Visible) {selection : CompactionSelection}
    {output : Option Written} (houtput : traffic.PublishesOutput selection output traffic')
    : traffic'.Books options := by
  obtain ⟨shelf, hinvariant⟩ := h.visible.invariant
  have hreadable := hinvariant.orderly.readers
  have hprogress := h.visible.stage selection (by rw [houtput.written]; rfl)
  have hsorted : (sortTables (traffic.manager.replacing selection output)).Perm
      (traffic.manager.replacing selection output) := List.perm_insertionSort _ _
  obtain ⟨-, hshown, hstored⟩ := hprogress.output hreadable h.visible.distinct hsorted
    (hinvariant.leaves houtput.written)
  obtain ⟨shelf', hafter⟩ := hvisible.invariant
  have hw' : ∀ table ∈ sortTables (traffic.manager.replacing selection output),
      table.reader.WellFormed := by
    rw [← houtput.commits.readers_eq]
    exact hafter.orderly.readers.wellFormed
  have houtputs : traffic.pending = traffic.flushing.map (fun flush => flush.written.table) ++
      (output.map Written.table).toList := by
    unfold Traffic.pending
    rw [houtput.written]
    rfl
  have htables' : traffic'.tables = traffic.flushing.map (fun flush => flush.written.table) ++
      sortTables (traffic.manager.replacing selection output) := by
    unfold Traffic.tables Traffic.pending
    rw [houtput.commits.readers_eq, houtput.compaction, houtput.flushing]
    exact congrArg (· ++ _) (List.append_nil _)
  -- the output has waited, and the rest was in use
  have htables : traffic'.tables.Subperm traffic.tables := by
    have hmoved : traffic'.tables.Perm (traffic.pending ++ traffic.manager.readers.filter
        (·.path ∉ selection.selected.map ManagedTable.path)) := by
      rw [htables', houtputs, List.append_assoc]
      exact (hsorted.trans List.perm_append_comm).append_left _
    exact hmoved.subperm.trans (List.Sublist.subperm (List.filter_sublist.append_left _))
  refine h.published hvisible houtput.commits (h.sequenced.of_sub fun record hrecord => ?_) ?_ ?_
    htables ?_
  · exact hstored record hrecord
  · -- a compaction shows the same values, so the number that it carries over is right
    rw [h.count]
    exact liveCount_congr hreadable.wellFormed hw' fun key => (hshown key).symm
  · intro flush hf
    rwa [houtput.flushing] at hf
  · rw [houtput.compaction]
    obtain ⟨before, newer, -, hperm, -⟩ := hprogress
    refine h.gone_selected (fun t ht => hperm.mem_iff.mpr (List.mem_append_left _ ht)) fun t ht => ?_
    rw [htables'] at ht
    rw [houtputs]
    rcases List.mem_append.mp ht with hflushing | hreader
    · exact Or.inl (List.mem_append_left _ hflushing)
    · rcases List.mem_append.mp (hsorted.mem_iff.mp hreader) with hkept | hout
      · exact Or.inr (by simpa using (List.mem_filter.mp hkept).2)
      · exact Or.inl (List.mem_append_right _ hout)

/-- **One step keeps the books.** -/
theorem Traffic.Books.step (hordered : traffic.Ordered label) :
    (traffic.step label).Books options := by
  obtain ⟨shelf, hinvariant⟩ := h.visible.invariant
  have hvisible := (h.visible.step hordered.valid hordered.2).1
  cases (hinvariant.step hordered.valid).effect with
  | rests hrests => exact h.rests hvisible hrests hordered
  | flushed flush hpublishes hflush => exact h.flushed hvisible hordered.2 hpublishes hflush
  | replaced selection output _ houtput => exact h.replaced hvisible houtput

end

end Steps

end SSTableManager

end NebulaKV.Lsm
