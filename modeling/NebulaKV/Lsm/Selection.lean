/-
# The tables of a compaction

`select_level0_compaction_locked` starts from some Level-0 tables and takes in Level-1 tables as long
as one overlaps the range, which grows with each of them. The loop reaches a FIXPOINT: every sweep but
the last takes in a table, so there are at most as many as tables (`expand_spec`), and then no Level-1
table that was left out overlaps the range.

That is what keeps Level 1 free of overlaps: the output of the compaction lies within the range. Tables
without overlaps pass `validate_level1_ranges`, whatever their order.
-/
import NebulaKV.Lsm.TableContents

namespace NebulaKV.Lsm

open Containers

/-! ## Tables without overlaps -/

/-- The key ranges of two tables do not touch. -/
def Apart (left right : ManagedTable) : Prop :=
  ¬ rangesOverlap left.reader.metadata.smallestKey left.reader.metadata.largestKey
    right.reader.metadata.smallestKey right.reader.metadata.largestKey

theorem Apart.symm {left right : ManagedTable} (h : Apart left right) : Apart right left :=
  fun hoverlap => h ⟨hoverlap.2, hoverlap.1⟩

/-- The Level-1 tables do not overlap. -/
def Level1Apart (tables : List ManagedTable) : Prop :=
  tables.Pairwise fun left right => left.level = .Level1 → right.level = .Level1 → Apart left right

theorem Level1Apart.perm {tables tables' : List ManagedTable} (h : Level1Apart tables)
    (hperm : tables.Perm tables') : Level1Apart tables' :=
  (hperm.pairwise_iff fun hab hb ha => (hab ha hb).symm).mp h

theorem checkDisjoint_ok {metadata : List SSTableMetadata}
    (h : metadata.Pairwise fun left right => left.largestKey < right.smallestKey) :
    checkDisjoint metadata = .ok () := by
  induction metadata with
  | nil => rfl
  | cons left rest ih =>
    cases rest with
    | nil => rfl
    | cons right rest =>
      unfold checkDisjoint
      rw [if_neg (not_le.mpr (List.rel_of_pairwise_cons h (by simp)))]
      exact ih h.of_cons

/-- **Tables without overlaps pass the check.** -/
theorem validateLevel1Ranges_ok {tables : List ManagedTable}
    (hw : ∀ table ∈ tables, table.reader.WellFormed) (h : Level1Apart tables) :
    validateLevel1Ranges tables = .ok () := by
  let before : SSTableMetadata → SSTableMetadata → Prop := fun left right =>
    ¬ right.smallestKey < left.smallestKey
  have : Std.Total before := ⟨fun a b => by
    rcases le_total a.smallestKey b.smallestKey with hle | hle
    · exact Or.inl (not_lt.mpr hle)
    · exact Or.inr (not_lt.mpr hle)⟩
  have : IsTrans SSTableMetadata before := ⟨fun a b c hab hbc =>
    not_lt.mpr ((not_lt.mp hab).trans (not_lt.mp hbc))⟩
  let level1 := (tables.filter (·.level = .Level1)).map ManagedTable.metadata
  have hranges : level1.Pairwise fun left right =>
      left.smallestKey ≤ left.largestKey ∧ right.smallestKey ≤ right.largestKey ∧
        ¬ rangesOverlap left.smallestKey left.largestKey right.smallestKey right.largestKey := by
    refine List.pairwise_map.mpr (List.Pairwise.imp_of_mem ?_ (h.filter _))
    intro left right hleft hright hapart
    obtain ⟨hl, hl1⟩ := List.mem_filter.mp hleft
    obtain ⟨hr, hr1⟩ := List.mem_filter.mp hright
    exact ⟨(hw left hl).smallestKey_le_largestKey, (hw right hr).smallestKey_le_largestKey,
      hapart (by simpa using hl1) (by simpa using hr1)⟩
  have hsorted := List.pairwise_insertionSort before level1
  have hall := (List.perm_insertionSort before level1).symm.pairwise hranges (by
    rintro left right ⟨hl, hr, hapart⟩
    exact ⟨hr, hl, fun hoverlap => hapart ⟨hoverlap.2, hoverlap.1⟩⟩)
  refine checkDisjoint_ok ((hsorted.and hall).imp ?_)
  -- in the order of the smallest keys, the left range ends first
  rintro left right ⟨horder, -, hright, hapart⟩
  by_contra hle
  exact hapart ⟨(not_lt.mp horder).trans hright, not_lt.mp hle⟩

/-! ## The loop -/

namespace SSTableManager

namespace Selecting

/-- What the loop keeps: the selected tables are some of the readers, and lie within the range. -/
structure Within (readers : List ManagedTable) (state : Selecting) : Prop where
  sub : ∀ table ∈ state.selected, table ∈ readers
  nodup : state.selected.Nodup
  paths : ∀ path, path ∈ state.selectedPaths ↔ ∃ table ∈ state.selected, table.path = path
  low : ∀ table ∈ state.selected, state.smallestKey ≤ table.reader.metadata.smallestKey
  high : ∀ table ∈ state.selected, table.reader.metadata.largestKey ≤ state.largestKey

/-- There is no reason to take in this table. -/
def Passes (state : Selecting) (table : ManagedTable) : Prop :=
  table.level = .Level1 → table.path ∈ state.selectedPaths ∨
    ¬ rangesOverlap state.smallestKey state.largestKey table.reader.metadata.smallestKey
      table.reader.metadata.largestKey

variable {readers tables : List ManagedTable} {state : Selecting} {table : ManagedTable}

/-- One visit: nothing, or a Level-1 table that is new is taken in. -/
theorem visit_cases (state : Selecting) (table : ManagedTable) :
    state.visit table = state ∧ state.Passes table ∨
      state.visit table = state.take table ∧ table.level = .Level1 ∧
        table.path ∉ state.selectedPaths := by
  unfold visit
  split_ifs with hlevel hpath hoverlap
  · exact Or.inl ⟨rfl, fun h => absurd h hlevel⟩
  · exact Or.inl ⟨rfl, fun _ => Or.inl hpath⟩
  · exact Or.inr ⟨rfl, not_not.mp hlevel, hpath⟩
  · exact Or.inl ⟨rfl, fun _ => Or.inr hoverlap⟩

theorem Within.take (h : Within readers state) (ht : table ∈ readers)
    (hpath : table.path ∉ state.selectedPaths) : Within readers (state.take table) := by
  have hnew : table ∉ state.selected := fun hmem => hpath ((h.paths _).mpr ⟨table, hmem, rfl⟩)
  refine ⟨?_, ?_, ?_, ?_, ?_⟩
  · intro t hsel
    rcases List.mem_append.mp hsel with hsel | hsel
    · exact h.sub t hsel
    · rw [List.mem_singleton.mp hsel]
      exact ht
  · exact List.nodup_append.mpr ⟨h.nodup, List.nodup_singleton _, fun a ha b hb hab =>
      hnew (List.mem_singleton.mp hb ▸ hab ▸ ha)⟩
  · intro path
    show path ∈ table.path :: state.selectedPaths ↔ ∃ t ∈ state.selected ++ [table], t.path = path
    rw [List.mem_cons, h.paths]
    constructor
    · rintro (rfl | ⟨t, hsel, rfl⟩)
      · exact ⟨table, by simp, rfl⟩
      · exact ⟨t, by simp [hsel], rfl⟩
    · rintro ⟨t, hsel, rfl⟩
      rcases List.mem_append.mp hsel with hsel | hsel
      · exact Or.inr ⟨t, hsel, rfl⟩
      · exact Or.inl (by rw [List.mem_singleton.mp hsel])
  · intro t hsel
    rcases List.mem_append.mp hsel with hsel | hsel
    · exact (min_le_left _ _).trans (h.low t hsel)
    · rw [List.mem_singleton.mp hsel]
      exact min_le_right _ _
  · intro t hsel
    rcases List.mem_append.mp hsel with hsel | hsel
    · exact (h.high t hsel).trans (le_max_left _ _)
    · rw [List.mem_singleton.mp hsel]
      exact le_max_right _ _

/-- `after` holds what `before` held, and more Level-1 tables. -/
def Grows (before after : Selecting) : Prop :=
  ∃ taken : List ManagedTable, after.selected = before.selected ++ taken ∧
    ∀ table ∈ taken, table.level = .Level1

theorem Grows.refl (state : Selecting) : Grows state state := ⟨[], by simp, by simp⟩

theorem Grows.trans {a b c : Selecting} (hab : Grows a b) (hbc : Grows b c) : Grows a c := by
  obtain ⟨taken, hb, hlevel⟩ := hab
  obtain ⟨taken', hc, hlevel'⟩ := hbc
  refine ⟨taken ++ taken', by rw [hc, hb, List.append_assoc], fun table ht => ?_⟩
  exact (List.mem_append.mp ht).elim (hlevel table) (hlevel' table)

/-- Visiting some readers: the loop's invariant stays, and a table taken in shows in the flag. -/
theorem visits_spec (tables : List ManagedTable) (h : Within readers state)
    (hsub : ∀ table ∈ tables, table ∈ readers) :
    Within readers (tables.foldl visit state) ∧ Grows state (tables.foldl visit state) ∧
      (tables.foldl visit state = state ∧ (∀ table ∈ tables, state.Passes table) ∨
        (tables.foldl visit state).expanded = true ∧
          state.selected.length < (tables.foldl visit state).selected.length) := by
  induction tables generalizing state with
  | nil => exact ⟨h, Grows.refl state, Or.inl ⟨rfl, by simp⟩⟩
  | cons table rest ih =>
    have hrest : ∀ t ∈ rest, t ∈ readers := fun t ht => hsub t (by simp [ht])
    rw [List.foldl_cons]
    rcases visit_cases state table with ⟨hsame, hpass⟩ | ⟨htake, hlevel, hpath⟩
    · rw [hsame]
      obtain ⟨hwithin, hgrows, hend⟩ := ih h hrest
      refine ⟨hwithin, hgrows, hend.imp_left fun ⟨heq, hall⟩ => ⟨heq, fun t ht => ?_⟩⟩
      rcases List.mem_cons.mp ht with rfl | ht
      · exact hpass
      · exact hall t ht
    · rw [htake]
      obtain ⟨hwithin, hgrows, hend⟩ := ih (h.take (hsub table (by simp)) hpath) hrest
      have hstep : Grows state (state.take table) := ⟨[table], rfl, by simp [hlevel]⟩
      have hlen : (state.take table).selected.length = state.selected.length + 1 := by
        simp [Selecting.take]
      refine ⟨hwithin, hstep.trans hgrows, Or.inr ?_⟩
      rcases hend with ⟨heq, -⟩ | ⟨hexpanded, hlt⟩
      · rw [heq]
        exact ⟨rfl, by omega⟩
      · exact ⟨hexpanded, by omega⟩

/-- One sweep: the last one changes nothing, every other takes in a table. -/
theorem sweep_spec (h : Within readers state) :
    Within readers (state.sweep readers) ∧ Grows state (state.sweep readers) ∧
      ((state.sweep readers).expanded = false ∧
          (∀ table ∈ readers, (state.sweep readers).Passes table) ∨
        (state.sweep readers).expanded = true ∧
          state.selected.length < (state.sweep readers).selected.length) := by
  have hstart : Within readers { state with expanded := false } :=
    ⟨h.sub, h.nodup, h.paths, h.low, h.high⟩
  obtain ⟨hwithin, hgrows, hend⟩ := visits_spec readers hstart fun t ht => ht
  refine ⟨hwithin, hgrows, hend.imp_left fun ⟨heq, hall⟩ => ?_⟩
  have hswept : state.sweep readers = { state with expanded := false } := heq
  rw [hswept]
  exact ⟨rfl, hall⟩

/-- **The loop ends at a fixpoint.** -/
theorem expand_spec (h : Within readers state) (sweeps : Nat)
    (hsweeps : readers.length < sweeps + state.selected.length) :
    Within readers (state.expand readers sweeps) ∧ Grows state (state.expand readers sweeps) ∧
      ∀ table ∈ readers, (state.expand readers sweeps).Passes table := by
  induction sweeps generalizing state with
  | zero =>
    have := (List.subperm_of_subset h.nodup h.sub).length_le
    omega
  | succ sweeps ih =>
    obtain ⟨hwithin, hgrows, ⟨hdone, hall⟩ | ⟨hexpanded, hlt⟩⟩ := sweep_spec h
    · have hexpand : state.expand readers (sweeps + 1) = state.sweep readers := by
        simp [expand, hdone]
      rw [hexpand]
      exact ⟨hwithin, hgrows, hall⟩
    · have hexpand : state.expand readers (sweeps + 1) =
          (state.sweep readers).expand readers sweeps := by
        rw [expand, if_pos hexpanded]
      rw [hexpand]
      obtain ⟨hwithin', hgrows', hall⟩ := ih hwithin (by omega)
      exact ⟨hwithin', hgrows.trans hgrows', hall⟩

/-- Selected and unselected tables make up the readers. -/
theorem Within.perm (h : Within readers state) (hpaths : (readers.map ManagedTable.path).Nodup) :
    readers.Perm (state.selected ++ readers.filter (·.path ∉ state.selectedPaths)) := by
  have hnodup : readers.Nodup := hpaths.of_map _
  have hunselected : ∀ table, table ∈ readers.filter (·.path ∉ state.selectedPaths) ↔
      table ∈ readers ∧ table ∉ state.selected := by
    intro table
    simp only [List.mem_filter, decide_eq_true_eq, h.paths]
    refine and_congr_right fun ht => not_congr ⟨?_, fun hsel => ⟨table, hsel, rfl⟩⟩
    rintro ⟨other, hsel, hpath⟩
    rwa [← List.inj_on_of_nodup_map hpaths (h.sub other hsel) ht hpath]
  refine (List.perm_ext_iff_of_nodup hnodup ?_).mpr fun table => ?_
  · refine List.nodup_append.mpr ⟨h.nodup, hnodup.filter _, fun a ha b hb hab => ?_⟩
    exact ((hunselected b).mp hb).2 (hab ▸ ha)
  · rw [List.mem_append, hunselected]
    constructor
    · intro ht
      by_cases hsel : table ∈ state.selected
      · exact Or.inl hsel
      · exact Or.inr ⟨ht, hsel⟩
    · rintro (hsel | ⟨ht, -⟩)
      · exact h.sub table hsel
      · exact ht

end Selecting

/-! ## The choice -/

section Range

variable {α β : Type*} [LinearOrder β] (f : α → β)

theorem foldl_min_le (l : List α) (start : β) :
    l.foldl (fun acc a => min acc (f a)) start ≤ start ∧
      ∀ a ∈ l, l.foldl (fun acc a => min acc (f a)) start ≤ f a := by
  induction l generalizing start with
  | nil => exact ⟨le_rfl, by simp⟩
  | cons a rest ih =>
    obtain ⟨hstart, hrest⟩ := ih (min start (f a))
    refine ⟨hstart.trans (min_le_left _ _), fun b hb => ?_⟩
    rcases List.mem_cons.mp hb with rfl | hb
    · exact hstart.trans (min_le_right _ _)
    · exact hrest b hb

theorem le_foldl_max (l : List α) (start : β) :
    start ≤ l.foldl (fun acc a => max acc (f a)) start ∧
      ∀ a ∈ l, f a ≤ l.foldl (fun acc a => max acc (f a)) start :=
  foldl_min_le (β := βᵒᵈ) f l start

end Range

theorem startSelecting_within {readers chosen : List ManagedTable} (hsub : ∀ t ∈ chosen, t ∈ readers)
    (hnodup : chosen.Nodup) : (startSelecting chosen).Within readers := by
  cases chosen with
  | nil => exact ⟨by simp [startSelecting], by simp [startSelecting], by simp [startSelecting],
      by simp [startSelecting], by simp [startSelecting]⟩
  | cons first rest =>
    have hlow := foldl_min_le (fun t : ManagedTable => t.reader.metadata.smallestKey) rest
      first.reader.metadata.smallestKey
    have hhigh := le_foldl_max (fun t : ManagedTable => t.reader.metadata.largestKey) rest
      first.reader.metadata.largestKey
    refine ⟨hsub, hnodup, fun path => List.mem_map, fun t ht => ?_, fun t ht => ?_⟩
    · rcases List.mem_cons.mp ht with rfl | ht
      · exact hlow.1
      · exact hlow.2 t ht
    · rcases List.mem_cons.mp ht with rfl | ht
      · exact hhigh.1
      · exact hhigh.2 t ht

/-- **What is selected**: a part of the readers, its range, and no Level-1 table outside it that
overlaps the range. -/
structure Selects (readers : List ManagedTable) (selection : CompactionSelection) : Prop where
  perm : readers.Perm (selection.selected ++ selection.unselected)
  rest : selection.unselected =
    readers.filter (·.path ∉ selection.selected.map ManagedTable.path)
  low : ∀ table ∈ selection.selected, selection.smallestKey ≤ table.reader.metadata.smallestKey
  high : ∀ table ∈ selection.selected, table.reader.metadata.largestKey ≤ selection.largestKey
  apart : ∀ table ∈ selection.unselected, table.level = .Level1 →
    ¬ rangesOverlap selection.smallestKey selection.largestKey table.reader.metadata.smallestKey
      table.reader.metadata.largestKey

section

variable {readers : List ManagedTable} {selection : CompactionSelection}

theorem Selects.selected_mem (h : Selects readers selection) :
    ∀ table ∈ selection.selected, table ∈ readers :=
  fun _ ht => h.perm.mem_iff.mpr (List.mem_append_left _ ht)

theorem Selects.unselected_mem (h : Selects readers selection) :
    ∀ table ∈ selection.unselected, table ∈ readers :=
  fun _ ht => h.perm.mem_iff.mpr (List.mem_append_right _ ht)

end

variable {manager : SSTableManager} {forceAll : Bool}

theorem mem_chosenLevel0 {table : ManagedTable} (h : table ∈ manager.chosenLevel0 forceAll) :
    table ∈ manager.readers ∧ table.level = .Level0 := by
  have hmem := (List.mem_insertionSort _).mp (List.mem_of_mem_take h)
  simpa [level0Tables] using hmem

theorem nodup_chosenLevel0 (h : manager.readers.Nodup) : (manager.chosenLevel0 forceAll).Nodup :=
  (((List.perm_insertionSort _ _).nodup_iff).mpr (h.filter _)).sublist (List.take_sublist _ _)

theorem length_chosenLevel0 :
    (manager.chosenLevel0 forceAll).length =
      if forceAll then manager.level0Tables.length
      else min manager.level0Tables.length manager.options.level0CompactionMaxTables := by
  unfold chosenLevel0
  cases forceAll <;> simp [List.length_insertionSort]

/-- **The selection of a compaction.** -/
theorem selectLevel0Compaction_selects (hpaths : (manager.readers.map ManagedTable.path).Nodup)
    (hne : (manager.selectLevel0Compaction forceAll).selected ≠ []) :
    Selects manager.readers (manager.selectLevel0Compaction forceAll) ∧
      (manager.selectLevel0Compaction forceAll).selected.countP (·.level = .Level0) =
        (manager.chosenLevel0 forceAll).length ∧
      manager.level0Tables ≠ [] ∧
      (forceAll = false → manager.options.level0CompactionTrigger ≤ manager.level0Tables.length) := by
  have hnodup : manager.readers.Nodup := hpaths.of_map _
  unfold selectLevel0Compaction at hne ⊢
  split_ifs at hne ⊢ with hskip
  · exact absurd rfl hne
  obtain ⟨hwithin, ⟨taken, htaken, hlevel⟩, hall⟩ := Selecting.expand_spec
    (startSelecting_within
      (fun t (ht : t ∈ manager.chosenLevel0 forceAll) => (mem_chosenLevel0 ht).1)
      (nodup_chosenLevel0 hnodup))
    (manager.readers.length + 1) (by omega)
  set state := (startSelecting (manager.chosenLevel0 forceAll)).expand manager.readers
    (manager.readers.length + 1)
  refine ⟨⟨hwithin.perm hpaths, ?_, hwithin.low, hwithin.high, ?_⟩, ?_, ?_, ?_⟩
  · refine List.filter_congr fun table _ => ?_
    simp only [hwithin.paths, List.mem_map]
  · intro table ht hlevel1
    obtain ⟨hmem, hnot⟩ := List.mem_filter.mp ht
    exact (hall table hmem hlevel1).resolve_left (by simpa using hnot)
  · have hstart : (startSelecting (manager.chosenLevel0 forceAll)).selected =
        manager.chosenLevel0 forceAll := by
      cases manager.chosenLevel0 forceAll <;> rfl
    show state.selected.countP _ = _
    rw [htaken, hstart, List.countP_append, List.countP_eq_length.mpr fun t ht => by
      simpa using (mem_chosenLevel0 ht).2, List.countP_eq_zero.mpr fun t ht => by
      simp [hlevel t ht], Nat.add_zero]
  · exact fun hnil => hskip (Or.inl hnil)
  · intro hforce
    by_contra hlt
    exact hskip (Or.inr ⟨by simp [hforce], not_le.mp hlt⟩)

end SSTableManager

end NebulaKV.Lsm
