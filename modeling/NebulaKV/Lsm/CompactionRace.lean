/-
# A compaction next to flushes

The store flushes its memtables oldest first, so what a flush publishes is newer than all that is stored.
Then, in any order of the stretches, what `get` returns is what the flushes have put there (`expected`),
as if there were no compaction; and a table that a flush has published stays, exactly once, until a
compaction that selected it puts its output in its place.

Two things are asked of the directory that a manager starts from. No key may have two different entries
under one sequence number: `get` takes the one of the table that sorts first, a compaction the one of the
table that it merges first. And no table may have a name that the manager is still going to give.
-/
import NebulaKV.Lsm.Level1Ranges

namespace NebulaKV.Lsm

open Containers Effects Program Versioned

namespace SSTableManager

/-! ## What the flushes put there -/

/-- The values with a memtable's entries over them. -/
def overlay (table : MemTable) (view : Bytes → Option Bytes) (key : Bytes) : Option Bytes :=
  match table.entries.find? key with
  | some entry => entry.live
  | none => view key

namespace Traffic

/-- Only the publication of a flush changes the values. -/
def seen (traffic : Traffic) (view : Bytes → Option Bytes) (label : TrafficLabel) :
    Bytes → Option Bytes :=
  (traffic.publishes label).elim view fun flush => overlay flush.table view

def expected (traffic : Traffic) : List TrafficLabel → (Bytes → Option Bytes) → Bytes → Option Bytes
  | [], view => view
  | label :: labels, view => (traffic.step label).expected labels (traffic.seen view label)

/-- What is published is newer than what is stored. -/
def Newest (traffic : Traffic) (label : TrafficLabel) : Prop :=
  ∀ flush ∈ traffic.publishes label, ∀ table ∈ traffic.manager.readers,
    ∀ record ∈ table.reader.contents, ∀ record' ∈ flush.table.snapshot,
      record.2.sequenceNumber < record'.2.sequenceNumber

instance decidableNewest (traffic : Traffic) (label : TrafficLabel) : Decidable (traffic.Newest label) :=
  inferInstanceAs (Decidable (∀ flush ∈ traffic.publishes label, _))

theorem Newest.newer {traffic : Traffic} {label : TrafficLabel} {flush : PendingFlush}
    (h : traffic.Newest label) (hpublishes : traffic.publishes label = some flush) :
    ∀ record, Stored traffic.manager.readers record → ∀ record' ∈ flush.table.snapshot,
      record.2.sequenceNumber < record'.2.sequenceNumber := by
  rintro record ⟨table, ht, hmem⟩
  exact h flush hpublishes table ht record hmem

def InOrder (traffic : Traffic) : List TrafficLabel → Prop
  | [] => True
  | label :: labels => traffic.Newest label ∧ (traffic.step label).InOrder labels

instance decidableInOrder (traffic : Traffic) :
    (labels : List TrafficLabel) → Decidable (traffic.InOrder labels)
  | [] => instDecidableTrue
  | label :: labels =>
    have := decidableInOrder (traffic.step label) labels
    inferInstanceAs (Decidable (traffic.Newest label ∧ (traffic.step label).InOrder labels))

/-- A `get` here finds this value. -/
def Reads (traffic : Traffic) (key : Bytes) (value : Option Bytes) : Prop :=
  (SSTableManager.get key traffic.manager).1.map (fun entry => entry.bind Entry.live) = .ok value

instance decidableReads (traffic : Traffic) (key : Bytes) (value : Option Bytes) :
    Decidable (traffic.Reads key value) :=
  inferInstanceAs (Decidable (Except.map _ _ = _))

/-- **What a step does to the list of tables.** A flush that publishes adds its table, a compaction that
publishes puts its output in the place of its selection, and nothing else changes the list. -/
structure Conserves (traffic : Traffic) (label : TrafficLabel) : Prop where
  flushed : ∀ flush, traffic.publishes label = some flush →
    (traffic.step label).manager.readers.Perm (flush.written.table :: traffic.manager.readers)
  rests : traffic.publishes label = none →
    (traffic.step label).manager.readers = traffic.manager.readers ∨
      label = .advance ∧ ∃ selection output, traffic.compaction = .written selection output ∧
        (traffic.step label).manager.readers.Perm (traffic.manager.replacing selection output)

end Traffic

/-! ## The invariant -/

/-- The selection is still there, with newer tables only. -/
def InProgress (readers : List ManagedTable) (selection : CompactionSelection) : Prop :=
  ∃ before newer, Selects before selection ∧
    readers.Perm (selection.selected ++ (selection.unselected ++ newer)) ∧
    (∀ table ∈ newer, table.level = .Level0) ∧ Newer selection.selected newer

structure Traffic.Visible (traffic : Traffic) : Prop where
  invariant : ∃ shelf, traffic.Invariant shelf
  distinct : Distinct traffic.manager.readers
  stage : ∀ selection, traffic.compaction.selection = some selection →
    InProgress traffic.manager.readers selection

section Steps

variable {traffic : Traffic} {manager : SSTableManager} {shelf : List ManagedTable}
  {selection : CompactionSelection}
variable {readers tables : List ManagedTable} {label : TrafficLabel}

/-- A newer table joins. -/
theorem InProgress.cons {readers' : List ManagedTable} (h : InProgress readers selection)
    {table : ManagedTable} (hreaders : readers'.Perm (table :: readers))
    (hlevel : table.level = .Level0)
    (hnewer : ∀ record, Stored readers record → ∀ record' ∈ table.reader.contents,
      record.2.sequenceNumber < record'.2.sequenceNumber) : InProgress readers' selection := by
  obtain ⟨before, newer, hselects, hperm, hlevels, hnew⟩ := h
  refine ⟨before, table :: newer, hselects, ?_, ?_, ?_⟩
  · refine hreaders.trans ((hperm.cons table).trans ?_)
    rw [← List.append_assoc, ← List.append_assoc]
    exact List.perm_middle.symm
  · exact List.forall_mem_cons.mpr ⟨hlevel, hlevels⟩
  · rintro record ⟨t, ht, hmem⟩ record' ⟨t', ht', hmem'⟩
    rcases List.mem_cons.mp ht' with rfl | ht'
    · exact hnewer record ⟨t, hperm.mem_iff.mpr (List.mem_append_left _ ht), hmem⟩ record' hmem'
    · exact hnew record ⟨t, ht, hmem⟩ record' ⟨t', ht', hmem'⟩

theorem Orderly.inProgress (h : manager.Orderly shelf) {forceAll : Bool}
    (hne : (manager.selectLevel0Compaction forceAll).selected ≠ []) :
    InProgress manager.readers (manager.selectLevel0Compaction forceAll) := by
  obtain ⟨hselects, -⟩ := selectLevel0Compaction_selects h.paths hne
  refine ⟨manager.readers, [], hselects, by rw [List.append_nil]; exact hselects.perm,
    fun t ht => (by cases ht), fun _ _ _ hrec => ?_⟩
  obtain ⟨t, ht, -⟩ := hrec
  cases ht

/-- A step that publishes nothing leaves the selection what it was, or makes one. -/
theorem Traffic.Rests.inProgress {traffic' : Traffic} (h : traffic.Rests label traffic')
    (horderly : traffic.manager.Orderly shelf)
    (hstage : ∀ selection, traffic.compaction.selection = some selection →
      InProgress traffic.manager.readers selection) :
    ∀ selection, traffic'.compaction.selection = some selection →
      InProgress traffic'.manager.readers selection := by
  intro selection hselection
  rw [h.untouched.readers]
  rcases h.selection selection hselection with hold | ⟨hne, forceAll, rfl⟩
  · exact hstage selection hold
  · exact horderly.inProgress hne

section Flush

variable {readers readers' : List ManagedTable} {table : MemTable} {flushed : ManagedTable}

theorem distinct_flushed (h : Distinct readers) (hw : ∀ t ∈ readers, t.reader.WellFormed)
    (hholding : Holding .Level0 table.snapshot flushed)
    (hnewer : ∀ record, Stored readers record → ∀ record' ∈ table.snapshot,
      record.2.sequenceNumber < record'.2.sequenceNumber)
    (hperm : readers'.Perm (flushed :: readers)) : Distinct readers' := by
  refine Distinct.of_sub (h.cons fun key entry hentry entry' hentry' => ?_)
    fun t ht => hperm.mem_iff.mp ht
  have hmem := hholding.contents ▸ hholding.wellFormed.entryFor_eq_some_iff.mp hentry
  exact hnewer _ (stored_of_version hw hentry') _ hmem

theorem shown_flushed (h : Distinct readers) (hw : ∀ t ∈ readers, t.reader.WellFormed)
    (hholding : Holding .Level0 table.snapshot flushed)
    (hnewer : ∀ record, Stored readers record → ∀ record' ∈ table.snapshot,
      record.2.sequenceNumber < record'.2.sequenceNumber)
    (hperm : readers'.Perm (flushed :: readers)) (key : Bytes) :
    shown readers' key = overlay table (shown readers) key := by
  have hdistinct := distinct_flushed h hw hholding hnewer hperm
  rw [shown_eq, newestEntry_flushed hw hholding.wellFormed (by rw [hholding.contents]; exact hnewer)
    hdistinct hperm, hholding.contents]
  unfold overlay OrderedMap.find?
  cases hfind : lookup key table.entries.entries with
  | none => rw [MemTable.snapshot, hfind]; rfl
  | some entry => rw [MemTable.snapshot, hfind]; rfl

end Flush

/-- **A publication of a compaction shows what was shown**, and stores nothing new. -/
theorem InProgress.output (h : InProgress readers selection) (hreadable : Readable readers)
    (hdistinct : Distinct readers) {outputs : List ManagedTable}
    (htables : tables.Perm (readers.filter (·.path ∉ selection.selected.map ManagedTable.path) ++
      outputs)) (hleaves : Leaves (compacted selection) outputs) :
    Distinct tables ∧ (∀ key, shown tables key = shown readers key) ∧
      ∀ record, Stored tables record → Stored readers record := by
  obtain ⟨before, newer, hselects, hperm, hlevels, hnewer⟩ := h
  have hw : ∀ table ∈ selection.selected ++ (selection.unselected ++ newer),
      table.reader.WellFormed := fun t ht => hreadable.wellFormed t (hperm.mem_iff.mpr ht)
  have hselected : ∀ table ∈ selection.selected, table.reader.WellFormed :=
    fun t ht => hw t (List.mem_append_left _ ht)
  have hall := hdistinct.of_sub fun t ht => hperm.mem_iff.mpr ht
  have hmoved : tables.Perm (outputs ++ (selection.unselected ++ newer)) :=
    (htables.trans List.perm_append_comm).trans ((filter_unselected hreadable.paths hperm).append_left _)
  have hleft : Distinct (outputs ++ (selection.unselected ++ newer)) := fun key =>
    (hall key).mono (versions_output _ hselected hleaves key)
  refine ⟨hleft.of_sub fun t ht => hmoved.mem_iff.mp ht, fun key => ?_, ?_⟩
  · rw [shown_perm hleft hmoved, shown_perm hall hperm]
    exact shown_output hall hnewer hselected
      (fun t ht => hw t (List.mem_append_right _ (List.mem_append_right _ ht))) hleaves key
  · rintro record ⟨t, ht, hmem⟩
    obtain ⟨t', ht', hmem'⟩ := stored_output _ hselected hleaves ⟨t, hmoved.mem_iff.mp ht, hmem⟩
    exact ⟨t', hperm.mem_iff.mpr ht', hmem'⟩

theorem Commits.readers_eq {s : SSTableManager} {liveKeyCount : Nat}
    (h : Commits manager tables liveKeyCount s) : s.readers = tables := by
  obtain ⟨generation, manifest, -, -, rfl⟩ := h
  rfl

/-- The compaction that publishes has written its output. -/
theorem Traffic.Invariant.leaves (h : traffic.Invariant shelf) {output : Option Written}
    (hc : traffic.compaction = .written selection output) :
    Leaves (compacted selection) (output.map Written.table).toList := by
  have hstage := h.stage
  rw [hc] at hstage
  exact hstage.2

/-- **Every step** keeps the invariant, and the values that `get` returns. -/
theorem Traffic.Visible.step (h : traffic.Visible) (hvalid : label.Valid)
    (hnewest : traffic.Newest label) :
    (traffic.step label).Visible ∧ traffic.Conserves label ∧
      ∀ key, shown (traffic.step label).manager.readers key =
        traffic.seen (shown traffic.manager.readers) label key := by
  obtain ⟨shelf, hinvariant⟩ := h.invariant
  have horderly := hinvariant.orderly
  obtain ⟨hafter, heffect⟩ := hinvariant.step hvalid
  unfold Traffic.seen
  cases heffect with
  | rests hrests =>
    have hreaders := hrests.untouched.readers
    refine ⟨⟨hafter, hreaders.symm ▸ h.distinct, hrests.inProgress horderly h.stage⟩,
      ⟨fun flush hsome => ?_, fun _ => Or.inl hreaders⟩, fun key => ?_⟩
    · rw [hrests.unpublished] at hsome
      cases hsome
    · rw [hrests.unpublished, hreaders]
      rfl
  | flushed flush hpublishes hflush =>
    have hnewer := hnewest.newer hpublishes
    have hok := hinvariant.flush flush hflush.mem
    have hperm : (traffic.step label).manager.readers.Perm
        (flush.written.table :: traffic.manager.readers) := by
      rw [hflush.commits.readers_eq]
      exact (List.perm_insertionSort _ _).trans (List.perm_append_singleton _ _)
    have hw := horderly.readers.wellFormed
    refine ⟨⟨hafter, distinct_flushed h.distinct hw hok.holding hnewer hperm, ?_⟩,
      ⟨fun other hsome => ?_, fun hnone => ?_⟩, fun key => ?_⟩
    · intro selection hselection
      rw [hflush.compaction] at hselection
      exact (h.stage selection hselection).cons hperm hok.holding.level_eq
        (by rw [hok.holding.contents]; exact hnewer)
    · rw [hpublishes] at hsome
      obtain rfl := Option.some.inj hsome
      exact hperm
    · rw [hpublishes] at hnone
      cases hnone
    · rw [hpublishes]
      exact shown_flushed h.distinct hw hok.holding hnewer hperm key
  | replaced selection output hlabel houtput =>
    subst hlabel
    have hprogress := h.stage selection (by rw [houtput.written]; rfl)
    have hsorted : (traffic.step .advance).manager.readers.Perm
        (traffic.manager.replacing selection output) := by
      rw [houtput.commits.readers_eq]
      exact List.perm_insertionSort _ _
    obtain ⟨hdistinct, hshown, -⟩ := hprogress.output horderly.readers h.distinct hsorted
      (hinvariant.leaves houtput.written)
    refine ⟨⟨hafter, hdistinct, fun selection hselection => ?_⟩,
      ⟨fun flush hsome => (by cases hsome), fun _ => Or.inr ⟨rfl, selection, output,
        houtput.written, hsorted⟩⟩, hshown⟩
    rw [houtput.compaction] at hselection
    cases hselection

/-- What a whole run keeps, by induction on its steps. -/
theorem Traffic.Visible.run {labels : List TrafficLabel} (h : traffic.Visible)
    (hlabels : ∀ label ∈ labels, label.Valid) (horder : traffic.InOrder labels) :
    (traffic.run labels).Visible ∧ ∀ key, shown (traffic.run labels).manager.readers key =
      traffic.expected labels (shown traffic.manager.readers) key := by
  induction labels generalizing traffic with
  | nil => exact ⟨h, fun _ => rfl⟩
  | cons label labels ih =>
    obtain ⟨hnewest, hrest⟩ := horder
    obtain ⟨hvisible, -, hseen⟩ := h.step (hlabels label List.mem_cons_self) hnewest
    obtain ⟨hend, hshown⟩ := ih hvisible (List.forall_mem_cons.mp hlabels).2 hrest
    refine ⟨hend, fun key => (hshown key).trans ?_⟩
    show (traffic.step label).expected labels (shown (traffic.step label).manager.readers) key = _
    rw [funext hseen]
    rfl

theorem Traffic.Visible.reads (h : traffic.Visible) {key : Bytes} (hkey : ValidKey key) :
    traffic.Reads key (shown traffic.manager.readers key) := by
  obtain ⟨shelf, hinvariant⟩ := h.invariant
  obtain ⟨cache, -, hget⟩ := hinvariant.orderly.withCache (newestEntryFromTables_yields
    hinvariant.orderly.readable hinvariant.orderly.used hkey)
  unfold Traffic.Reads SSTableManager.get
  rw [validateKey_eq_ok.mpr hkey, check_ok_bind, read_bind_apply, hget]
  rfl

/-- **A compaction is invisible.** Take any directory that the constructor accepts, with distinct versions
and no name that is still to be given, and any order of the stretches of flushes, lookups and compactions
in which what is published is newer than what is stored. Then `get` finds what the flushes alone have put
there. The next stretch of a compaction, the publication among them, leaves it what it finds. A lookup
that copied the tables earlier finds what they hold, whatever has become of them. No table is there
twice, and each step adds or replaces exactly the tables it should. -/
theorem race_reads_expected {options : SSTableManagerOptions} {files : OrderedMap Bytes SSTableFile}
    {manifest : ManifestManager} (hfiles : ∀ record ∈ files.entries, Parsed record.2)
    (hmanifests : ∀ record ∈ manifest.manifests.entries, ParsedManifest record.2)
    (hcreate : create options files manifest = .ok manager) (hdistinct : Distinct manager.readers)
    (hnames : ∀ table ∈ manager.readers, Unclaimed manager.nextFileId table.path)
    {labels : List TrafficLabel} (hlabels : ∀ label ∈ labels, label.Valid)
    (horder : Traffic.InOrder { manager := manager } labels)
    (hrun : traffic = Traffic.run { manager := manager } labels) :
    (∀ key, ValidKey key → traffic.Reads key
      (Traffic.expected { manager := manager } labels (shown manager.readers) key)) ∧
    (∀ key, ValidKey key → ∃ value, traffic.Reads key value ∧
      (traffic.step .advance).Reads key value) ∧
    (∀ look ∈ traffic.looking, (withCache (newestEntryFromTables look.2 look.1) traffic.manager).1 =
      .ok (newestEntry look.2 look.1)) ∧
    (traffic.manager.readers.map ManagedTable.path).Nodup ∧
    ∀ label, label.Valid → traffic.Newest label → traffic.Conserves label := by
  have hstart : Traffic.Visible { manager := manager } :=
    ⟨⟨_, (create_orderly hfiles hmanifests hcreate hnames).start⟩, hdistinct,
      fun _ hnone => by cases hnone⟩
  obtain ⟨h, hshown⟩ := hstart.run hlabels horder
  rw [← hrun] at h hshown
  obtain ⟨shelf, hinvariant⟩ := h.invariant
  refine ⟨fun key hkey => hshown key ▸ h.reads hkey, fun key hkey => ?_, fun look hlook => ?_,
    hinvariant.orderly.paths, fun label hvalid hnewest => (h.step hvalid hnewest).2.1⟩
  · have hquiet : traffic.Newest .advance := fun _ hsome => by cases hsome
    obtain ⟨hvisible, -, hseen⟩ := h.step (show TrafficLabel.Valid .advance from trivial) hquiet
    have hafter := hvisible.reads hkey
    rw [hseen key] at hafter
    exact ⟨_, h.reads hkey, hafter⟩
  · obtain ⟨cache, -, hlooks⟩ := hinvariant.looks hlook
    rw [hlooks]

end Steps

/-- Two flushes side by side: the second one loses its round to the first, and counts again. Then a
lookup copies the tables, and a forced compaction is about to publish. -/
def raceLabels : List TrafficLabel :=
  [.beginFlush (singleTable [1] 0 1), .beginFlush (singleTable [1] 1 2), .advanceFlush 0,
    .advanceFlush 1, .advanceFlush 0, .advanceFlush 1, .advanceFlush 0, .advanceFlush 0,
    .advanceFlush 0, .advanceFlush 0, .advanceFlush 0, .beginGet [1], .beginCompaction true, .advance,
    .advance, .advance]

/-- The key can be read before the publication, and after it. -/
theorem race_reads_flushed : ∃ manager traffic,
    create pairOptions OrderedMap.empty {} = .ok manager ∧
      traffic = Traffic.run { manager := manager } raceLabels ∧
      traffic.manager.stateVersion = 2 ∧
      Traffic.expected { manager := manager } raceLabels (shown manager.readers) [1] = some [7] ∧
      traffic.Reads [1] (some [7]) ∧
      ∃ value, traffic.Reads [1] value ∧ (traffic.step .advance).Reads [1] value := by
  have hkey : ValidKey [1] := by decide
  have hlabels : ∀ label ∈ raceLabels, label.Valid := by
    unfold raceLabels
    simp only [List.forall_mem_cons]
    exact ⟨singleTable_valid hkey 0 (by decide), singleTable_valid hkey 1 (by decide), trivial, trivial,
      trivial, trivial, trivial, trivial, trivial, trivial, trivial, trivial, trivial, trivial, trivial,
      trivial, fun label hlabel => by cases hlabel⟩
  have hfacts : (create pairOptions OrderedMap.empty {}).map (fun manager =>
      decide (Traffic.InOrder { manager := manager } raceLabels ∧
        (Traffic.run { manager := manager } raceLabels).manager.stateVersion = 2 ∧
        Traffic.expected { manager := manager } raceLabels (shown manager.readers) [1] = some [7])) =
        .ok true := by
    decide +kernel
  obtain ⟨manager, hcreate, hfacts⟩ := map_eq_ok hfacts
  obtain ⟨horder, hversion, hexpected⟩ := of_decide_eq_true hfacts
  obtain ⟨hfresh, hgood⟩ := create_fresh hcreate
  obtain ⟨hreads, hsame, -⟩ := race_reads_expected (fun record hrecord => by cases hrecord)
    (fun record hrecord => by cases hrecord) hcreate hgood.proper.distinct
    (fun t ht => by rw [hfresh.readers] at ht; cases ht) hlabels horder rfl
  exact ⟨manager, _, hcreate, rfl, hversion, hexpected, hexpected ▸ hreads [1] hkey, hsame [1] hkey⟩

/-! ## Directories where it fails -/

/-- Two tables with different values of one key under one sequence number. -/
def tiedManifest : ManifestSnapshot :=
  ⟨1, 1, [⟨[1], 1, 1, 1, 5, 5, [1], [1], .Level0⟩, ⟨[2], 2, 1, 1, 5, 5, [1], [1], .Level0⟩]⟩

def tiedFiles : OrderedMap Bytes SSTableFile :=
  pairDirectory [1] [2] (singleFile [1] [97] 1 5) (singleFile [1] [98] 2 5)

/-- **Two directories that are accepted.** In the first a compaction changes what `get` finds: `get` goes
through the tables from the highest generation down, the merge from the lowest up, and both keep the first
of two entries with one sequence number. In the second a flush publishes a key, and a lost round of
another flush hides it again: the block of an old table is in the cache under the new table's name. -/
theorem compaction_shows_directories :
    (ReadFrom tiedFiles (onlyManifest tiedManifest) ∧
      ∃ manager, create pairOptions tiedFiles (onlyManifest tiedManifest) = .ok manager ∧
        (Traffic.run { manager := manager }
          [.beginCompaction true, .advance, .advance, .advance]).Reads [1] (some [98]) ∧
        (Traffic.run { manager := manager }
          [.beginCompaction true, .advance, .advance, .advance, .advance]).Reads [1] (some [97])) ∧
    ReadFrom staleFiles (onlyManifest staleManifest) ∧
      ∃ manager, create pairOptions staleFiles (onlyManifest staleManifest) = .ok manager ∧
        Traffic.InOrder { manager := manager } staleLabels ∧
        Traffic.expected { manager := manager } staleLabels (shown manager.readers) [8] = some [7] ∧
        (Traffic.run { manager := manager } staleLabels).Reads [8] none := by
  have hone : Parsed (singleFile [1] [97] 1 5) := singleFile_parsed (by decide +kernel)
  have htwo : Parsed (singleFile [1] [98] 2 5) := singleFile_parsed (by decide +kernel)
  refine ⟨⟨readFrom_pair hone htwo (by decide +kernel), ?_⟩, staleDirectory_read, ?_⟩
  · have hfacts : (create pairOptions tiedFiles (onlyManifest tiedManifest)).map (fun manager =>
        decide ((Traffic.run { manager := manager }
            [.beginCompaction true, .advance, .advance, .advance]).Reads [1] (some [98]) ∧
          (Traffic.run { manager := manager }
            [.beginCompaction true, .advance, .advance, .advance, .advance]).Reads [1] (some [97]))) =
          .ok true := by
      decide +kernel
    obtain ⟨manager, hcreate, hfacts⟩ := map_eq_ok hfacts
    exact ⟨manager, hcreate, of_decide_eq_true hfacts⟩
  · have hfacts : (create pairOptions staleFiles (onlyManifest staleManifest)).map (fun manager =>
        decide (Traffic.InOrder { manager := manager } staleLabels ∧
          Traffic.expected { manager := manager } staleLabels (shown manager.readers) [8] = some [7] ∧
          (Traffic.run { manager := manager } staleLabels).Reads [8] none)) = .ok true := by
      decide +kernel
    obtain ⟨manager, hcreate, hfacts⟩ := map_eq_ok hfacts
    exact ⟨manager, hcreate, of_decide_eq_true hfacts⟩

end SSTableManager

end NebulaKV.Lsm
