/-
# Crashes between the two renames of a manifest commit

`ManifestManager::commit` renames `MANIFEST-n` into place and then `CURRENT`, each atomically; a crash can
come before, between and after the two. `load` follows `CURRENT`, and REFUSES a directory that has a
manifest but no `CURRENT`.

That refusal is what goes wrong: after the very first `MANIFEST` rename there is no `CURRENT` yet. And
`commit` writes manifests that `load` does not read: larger than 64 MiB, or with the numbers of an empty
table. In every other case `load` finds the last completed commit or the one in flight (`reopen_iff`),
whatever manifests earlier crashes have left behind. Temporary files are ignored by `load` and not
modelled.
-/
import NebulaKV.Lsm.Store

namespace NebulaKV.Lsm

open Containers Effects

namespace ManifestManager

/-- The directory after a crash in a commit, behind some of its renames, as a new process finds it. -/
def crashed (manager : ManifestManager) (tables : List SSTableMetadata) (nextFileId renames : Nat) :
    ManifestManager :=
  match manager.commit tables nextFileId with
  | .error _ => { manager with currentGeneration := 0 }
  | .ok committed =>
    { currentGeneration := 0
      manifests := if 1 ≤ renames then committed.manifests else manager.manifests
      current := if 2 ≤ renames then committed.current else manager.current }

/-- The managers that commits, crashes and reopenings lead to, from an empty directory, with the
snapshot of the last commit that completed. -/
inductive Reachable : ManifestManager → Option ManifestSnapshot → Prop
  | fresh : Reachable {} none
  | commit {manager manager' : ManifestManager} {completed : Option ManifestSnapshot}
      {tables : List SSTableMetadata} {nextFileId : Nat} (before : Reachable manager completed)
      (commits : manager.commit tables nextFileId = .ok manager') :
      Reachable manager' (some ⟨manager.currentGeneration + 1, nextFileId, tables⟩)
  | reopen {manager manager' : ManifestManager} {completed loaded : Option ManifestSnapshot}
      {tables : List SSTableMetadata} {nextFileId renames : Nat} {present : Bytes → Bool}
      (before : Reachable manager completed)
      (loads : load present (manager.crashed tables nextFileId renames) = (.ok loaded, manager')) :
      Reachable manager' loaded

/-- `CURRENT` names the last completed snapshot; without one the directory has no manifest. -/
structure Consistent (manager : ManifestManager) (completed : Option ManifestSnapshot) : Prop where
  current : manager.current = completed.map ManifestSnapshot.generation
  found : ∀ snapshot, completed = some snapshot →
    manager.manifests.find? snapshot.generation = some snapshot ∧
      manager.currentGeneration = snapshot.generation
  empty : completed = none → manager.manifests.entries = [] ∧ manager.currentGeneration = 0

variable {manager manager' : ManifestManager} {present : Bytes → Bool}

/-- What a commit that is accepted leaves. -/
theorem commit_eq_ok {tables : List SSTableMetadata} {nextFileId : Nat}
    (h : manager.commit tables nextFileId = .ok manager') :
    manager' =
      { currentGeneration := manager.currentGeneration + 1
        manifests := manager.manifests.insert (manager.currentGeneration + 1)
          ⟨manager.currentGeneration + 1, nextFileId, tables⟩
        current := some (manager.currentGeneration + 1) } := by
  obtain ⟨-, h⟩ := refuse_bind_eq_ok.mp h
  obtain ⟨_, -, h⟩ := bind_eq_ok.mp h
  exact (Except.ok.inj h).symm

/-- A manifest that `load` reads. -/
structure Loadable (snapshot : ManifestSnapshot) : Prop where
  size : encodedManifestSize snapshot ≤ kMaximumMetadataFileBytes
  tables : ∀ table ∈ snapshot.tables, invalidMetadata table = false

/-- A successful load returns a snapshot that `CURRENT` names, or found no manifest at all. -/
theorem load_eq_ok {loaded : Option ManifestSnapshot}
    (h : load present manager = (.ok loaded, manager')) :
    (manager.current = none ∧ manager.manifests.entries = [] ∧ loaded = none ∧ manager' = manager) ∨
      ∃ snapshot, Loadable snapshot ∧ manager.current = some snapshot.generation ∧
        manager.manifests.find? snapshot.generation = some snapshot ∧ loaded = some snapshot ∧
        manager' = manager.opened snapshot.generation := by
  unfold load at h
  rw [Program.read_bind_apply] at h
  cases hcurrent : manager.current with
  | none =>
    rw [hcurrent] at h
    dsimp only at h
    split_ifs at h with hempty
    · cases h
    · obtain ⟨hok, rfl⟩ := Prod.mk.inj h
      exact Or.inl ⟨rfl, not_not.mp hempty, (Except.ok.inj hok).symm, rfl⟩
  | some generation =>
    rw [hcurrent] at h
    dsimp only at h
    cases hfind : manager.manifests.find? generation with
    | none =>
      rw [hfind] at h
      cases h
    | some snapshot =>
      rw [hfind] at h
      dsimp only at h
      split_ifs at h with hlarge hinvalid hgeneration htables
      · cases h
      · cases h
      · cases h
      · cases h
      · obtain rfl := not_not.mp hgeneration
        obtain ⟨hok, rfl⟩ := Prod.mk.inj h
        exact Or.inr ⟨snapshot, ⟨not_lt.mp hlarge, by simpa using hinvalid⟩, rfl, hfind,
          (Except.ok.inj hok).symm, rfl⟩

theorem Reachable.consistent {completed : Option ManifestSnapshot} (h : Reachable manager completed) :
    Consistent manager completed := by
  induction h with
  | fresh => exact ⟨rfl, fun _ h => (by cases h), fun _ => ⟨rfl, rfl⟩⟩
  | commit before commits ih =>
    obtain rfl := commit_eq_ok commits
    refine ⟨rfl, fun snapshot h => ?_, fun h => by cases h⟩
    obtain rfl := Option.some.inj h
    exact ⟨by rw [OrderedMap.find?_insert, if_pos rfl], rfl⟩
  | reopen before loads ih =>
    rename_i manager manager' completed loaded tables nextFileId renames present
    rcases load_eq_ok loads with ⟨hcurrent, hempty, rfl, rfl⟩ |
      ⟨snapshot, -, hcurrent, hfind, rfl, rfl⟩
    · refine ⟨hcurrent, fun _ h => (by cases h), fun _ => ⟨hempty, ?_⟩⟩
      unfold crashed
      split <;> rfl
    · refine ⟨hcurrent, fun s h => ?_, fun h => by cases h⟩
      obtain rfl := Option.some.inj h
      exact ⟨hfind, rfl⟩

/-- The snapshot a commit is about. -/
def inFlight (manager : ManifestManager) (tables : List SSTableMetadata) (nextFileId : Nat) :
    ManifestSnapshot :=
  ⟨manager.currentGeneration + 1, nextFileId, tables⟩

/-- The snapshot that `CURRENT` names after the crash. -/
def named (manager : ManifestManager) (completed : Option ManifestSnapshot)
    (tables : List SSTableMetadata) (nextFileId renames : Nat) : Option ManifestSnapshot :=
  match manager.commit tables nextFileId with
  | .error _ => completed
  | .ok _ => if 2 ≤ renames then some (manager.inFlight tables nextFileId) else completed

theorem load_of_find {snapshot : ManifestSnapshot} (hloadable : Loadable snapshot)
    (hcurrent : manager.current = some snapshot.generation)
    (hfind : manager.manifests.find? snapshot.generation = some snapshot)
    (hpresent : ∀ table ∈ snapshot.tables, present table.path = true) :
    load present manager =
      (.ok (some snapshot), manager.opened snapshot.generation) := by
  have hinvalid : ¬ (snapshot.tables.any invalidMetadata) = true := by
    simpa using hloadable.tables
  have htables : ¬ (snapshot.tables.any fun table => !present table.path) = true := by
    simpa using hpresent
  unfold load
  rw [Program.read_bind_apply, hcurrent]
  dsimp only
  rw [hfind]
  dsimp only
  rw [if_neg (not_lt.mpr hloadable.size), if_neg hinvalid, if_neg (not_not.mpr rfl), if_neg htables]
  rfl

/-- The first commit, torn between its two renames. -/
def FirstTorn (manager : ManifestManager) (completed : Option ManifestSnapshot)
    (tables : List SSTableMetadata) (nextFileId renames : Nat) : Prop :=
  completed = none ∧ renames = 1 ∧ ∃ committed, manager.commit tables nextFileId = .ok committed

/-- The directory loads, and to the last completed snapshot or the one in flight. -/
def Recovers (manager : ManifestManager) (completed : Option ManifestSnapshot)
    (tables : List SSTableMetadata) (nextFileId renames : Nat) (present : Bytes → Bool) : Prop :=
  ∃ loaded manager', load present (manager.crashed tables nextFileId renames) = (.ok loaded, manager') ∧
    (loaded = completed ∨ loaded = some (manager.inFlight tables nextFileId))

section Crash

variable {manager : ManifestManager} {completed : Option ManifestSnapshot}
  {tables : List SSTableMetadata} {nextFileId renames : Nat} {present : Bytes → Bool}

theorem named_eq_or : manager.named completed tables nextFileId renames = completed ∨
    manager.named completed tables nextFileId renames = some (manager.inFlight tables nextFileId) := by
  unfold named
  cases manager.commit tables nextFileId with
  | error e => exact Or.inl rfl
  | ok committed =>
    dsimp only
    split_ifs
    · exact Or.inr rfl
    · exact Or.inl rfl

/-- What the crash leaves, by how far the commit came. -/
theorem crashed_of_ok {committed : ManifestManager}
    (hcommit : manager.commit tables nextFileId = .ok committed) :
    manager.crashed tables nextFileId renames =
      { currentGeneration := 0
        manifests := if 1 ≤ renames then committed.manifests else manager.manifests
        current := if 2 ≤ renames then committed.current else manager.current } := by
  unfold crashed
  rw [hcommit]

theorem crashed_of_error {e : Error} (hcommit : manager.commit tables nextFileId = .error e) :
    manager.crashed tables nextFileId renames = { manager with currentGeneration := 0 } := by
  unfold crashed
  rw [hcommit]

theorem Consistent.crashed_current (h : Consistent manager completed) :
    (manager.crashed tables nextFileId renames).current =
      (manager.named completed tables nextFileId renames).map ManifestSnapshot.generation := by
  unfold named
  cases hcommit : manager.commit tables nextFileId with
  | error e =>
    rw [crashed_of_error hcommit]
    exact h.current
  | ok committed =>
    rw [crashed_of_ok hcommit, commit_eq_ok hcommit]
    dsimp only
    split_ifs
    · rfl
    · exact h.current

theorem Consistent.crashed_find (h : Consistent manager completed) {snapshot : ManifestSnapshot}
    (hnamed : manager.named completed tables nextFileId renames = some snapshot) :
    (manager.crashed tables nextFileId renames).manifests.find? snapshot.generation =
      some snapshot := by
  unfold named at hnamed
  cases hcommit : manager.commit tables nextFileId with
  | error e =>
    rw [hcommit] at hnamed
    rw [crashed_of_error hcommit]
    exact (h.found snapshot hnamed).1
  | ok committed =>
    rw [hcommit] at hnamed
    dsimp only at hnamed
    rw [crashed_of_ok hcommit, commit_eq_ok hcommit]
    dsimp only
    split_ifs at hnamed with htwo
    · obtain rfl := Option.some.inj hnamed
      rw [if_pos (show 1 ≤ renames by omega), OrderedMap.find?_insert]
      exact if_pos rfl
    · obtain ⟨hfind, hgeneration⟩ := h.found snapshot hnamed
      split_ifs
      · -- the manifest in flight has another generation
        rw [OrderedMap.find?_insert, if_neg (by omega)]
        exact hfind
      · exact hfind

/-- Without a `CURRENT` the directory has a manifest only if the first commit is torn. -/
theorem Consistent.crashed_empty (h : Consistent manager completed)
    (hnamed : manager.named completed tables nextFileId renames = none) :
    (manager.crashed tables nextFileId renames).manifests.entries = [] ↔
      ¬ FirstTorn manager completed tables nextFileId renames := by
  unfold named at hnamed
  cases hcommit : manager.commit tables nextFileId with
  | error e =>
    rw [hcommit] at hnamed
    rw [crashed_of_error hcommit]
    refine ⟨fun _ htorn => ?_, fun _ => (h.empty hnamed).1⟩
    obtain ⟨-, -, committed, hok⟩ := htorn
    rw [hcommit] at hok
    cases hok
  | ok committed =>
    rw [hcommit] at hnamed
    dsimp only at hnamed
    split_ifs at hnamed with htwo
    rw [crashed_of_ok hcommit]
    by_cases hone : renames = 1
    · refine ⟨fun hempty => ?_, fun htorn => absurd ⟨hnamed, hone, committed, hcommit⟩ htorn⟩
      have hfind : committed.manifests.find? (manager.currentGeneration + 1) =
          some (manager.inFlight tables nextFileId) := by
        rw [commit_eq_ok hcommit, OrderedMap.find?_insert]
        exact if_pos rfl
      rw [hone] at hempty
      rw [OrderedMap.find?, show committed.manifests.entries = [] from hempty] at hfind
      cases hfind
    · refine ⟨fun _ htorn => hone htorn.2.1, fun _ => ?_⟩
      dsimp only
      rw [if_neg (by omega)]
      exact (h.empty hnamed).1

/-- **Reopening after a crash** works iff the first commit is not torn between its renames and `load`
reads the manifest that `CURRENT` names. -/
theorem reopen_iff (hreach : Reachable manager completed)
    (hcompleted : ∀ snapshot, completed = some snapshot →
      ∀ table ∈ snapshot.tables, present table.path = true)
    (hflight : ∀ table ∈ tables, present table.path = true) :
    Recovers manager completed tables nextFileId renames present ↔
      ¬ FirstTorn manager completed tables nextFileId renames ∧
        ∀ snapshot, manager.named completed tables nextFileId renames = some snapshot →
          Loadable snapshot := by
  have h := hreach.consistent
  have hcurrent : (manager.crashed tables nextFileId renames).current =
      (manager.named completed tables nextFileId renames).map ManifestSnapshot.generation :=
    h.crashed_current
  have hcases : manager.named completed tables nextFileId renames = completed ∨
      manager.named completed tables nextFileId renames =
        some (manager.inFlight tables nextFileId) := named_eq_or
  cases hnamed : manager.named completed tables nextFileId renames with
  | none =>
    rw [hnamed] at hcurrent
    have hcompletedNone : completed = none := by
      rcases hcases with heq | heq
      · rw [← heq, hnamed]
      · rw [hnamed] at heq
        cases heq
    constructor
    · rintro ⟨loaded, manager', hload, -⟩
      rcases load_eq_ok hload with ⟨-, hempty, -, -⟩ | ⟨snapshot, -, hsome, -⟩
      · exact ⟨(h.crashed_empty hnamed).mp hempty, fun s hs => by cases hs⟩
      · rw [hcurrent] at hsome
        cases hsome
    · rintro ⟨htorn, -⟩
      refine ⟨none, manager.crashed tables nextFileId renames, ?_, Or.inl hcompletedNone.symm⟩
      unfold load
      rw [Program.read_bind_apply, hcurrent]
      dsimp only [Option.map_none]
      rw [if_neg (not_not.mpr ((h.crashed_empty hnamed).mpr htorn))]
      rfl
  | some snapshot =>
    rw [hnamed] at hcurrent
    have hfind := h.crashed_find hnamed
    constructor
    · rintro ⟨loaded, manager', hload, -⟩
      refine ⟨fun htorn => ?_, fun s hs => ?_⟩
      · obtain ⟨hnone, hone, committed, hcommit⟩ := htorn
        unfold named at hnamed
        rw [hcommit] at hnamed
        dsimp only at hnamed
        rw [if_neg (by omega), hnone] at hnamed
        cases hnamed
      · obtain rfl := Option.some.inj hs
        rcases load_eq_ok hload with ⟨hnone, -⟩ | ⟨found, hloadable, hsome, hfound, -⟩
        · rw [hcurrent] at hnone
          cases hnone
        · rw [hcurrent] at hsome
          have hgeneration : snapshot.generation = found.generation := Option.some.inj hsome
          rw [← hgeneration, hfind] at hfound
          exact Option.some.inj hfound ▸ hloadable
    · rintro ⟨-, hloadable⟩
      refine ⟨some snapshot, _, load_of_find (hloadable snapshot rfl) hcurrent hfind ?_, ?_⟩
      · rcases hcases with heq | heq
        · exact hcompleted snapshot (by rw [← heq, hnamed])
        · rw [hnamed] at heq
          obtain rfl := Option.some.inj heq
          exact hflight
      · rw [← hnamed]
        exact hcases

/-- After one commit of an empty directory. -/
def committedOnce : ManifestManager := ⟨1, OrderedMap.empty.insert 1 ⟨1, 1, []⟩, some 1⟩

/-- A second commit, torn between its renames, loads the first. -/
theorem reopen_iff_second :
    Reachable committedOnce (some ⟨1, 1, []⟩) ∧
      Recovers committedOnce (some ⟨1, 1, []⟩) [] 2 1 (fun _ => false) := by
  have hreach : Reachable committedOnce (some ⟨1, 1, []⟩) :=
    Reachable.commit Reachable.fresh (show ManifestManager.commit {} [] 1 = .ok committedOnce from rfl)
  refine ⟨hreach, (reopen_iff hreach (fun snapshot h => ?_) (by simp)).mpr ⟨?_, fun snapshot h => ?_⟩⟩
  · obtain rfl := Option.some.inj h
    simp
  · rintro ⟨hnone, -⟩
    cases hnone
  · obtain rfl := Option.some.inj h
    exact ⟨by decide, by simp⟩

/-- The first commit of an empty directory, torn between its two renames: `load` throws. -/
theorem first_commit_torn_throws :
    (ManifestManager.commit {} [] 1).toOption.isSome ∧
      (load (fun _ => true) (crashed {} [] 1 1)).1 =
        .error (.runtimeError "CURRENT is missing while versioned manifests are present") := by
  decide

end Crash

end ManifestManager

end NebulaKV.Lsm
