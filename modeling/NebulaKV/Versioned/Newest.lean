/-
# Versioned tables

Several tables may each hold a version of the same key; every version carries a stamp, and the one
with the GREATEST stamp counts. A version may say that the key is deleted: `live` reads the value out
of a version, or nothing.

What a reader sees (`visible`) depends only on the SET of versions a key has over all tables
(`newest_congr`), as long as no two of them carry one stamp. So tables may be reordered, replaced by
their merge (`newest_merge`), and rid of deletion marks that cover nothing (`visible_drop`).
-/
import Mathlib.Data.Set.Function
import Mathlib.Data.List.Basic
import Mathlib.Order.Lattice
import Mathlib.Tactic.Common

namespace Versioned

variable {κ ε τ α : Type*} [LinearOrder τ] (stamp : ε → τ) (live : ε → Option α)

/-- The newer of the best so far and one more candidate; a tie keeps the best so far. -/
def newer : Option ε → Option ε → Option ε
  | some best, some candidate => if stamp best < stamp candidate then some candidate else some best
  | some best, none => some best
  | none, candidate => candidate

/-- The version of a key with the greatest stamp over all tables. -/
def newest (tables : List (κ → Option ε)) (k : κ) : Option ε :=
  tables.foldl (fun best table => newer stamp best (table k)) none

/-- What a reader is shown: the newest version's value, if it is not a deletion mark. -/
def visible (tables : List (κ → Option ε)) (k : κ) : Option α := (newest stamp tables k).bind live

/-- All versions of a key. -/
def versions (tables : List (κ → Option ε)) (k : κ) : Set ε := {e | ∃ t ∈ tables, t k = some e}

variable {tables tables' selected rest : List (κ → Option ε)} {t merged kept : κ → Option ε}
  {k : κ} {e e' : ε} {best : Option ε}

theorem mem_versions_cons : e ∈ versions (t :: tables) k ↔ t k = some e ∨ e ∈ versions tables k := by
  simp [versions]

theorem mem_versions_append :
    e ∈ versions (tables ++ tables') k ↔ e ∈ versions tables k ∨ e ∈ versions tables' k := by
  simp [versions, or_and_right, exists_or]

theorem versions_perm (h : tables.Perm tables') (k : κ) : versions tables k = versions tables' k := by
  ext e
  simp [versions, h.mem_iff]

/-! ## The newest version -/

/-- `best` is the newest of a set of versions. -/
def IsNewest (s : Set ε) (best : Option ε) : Prop :=
  (∀ e, best = some e → e ∈ s) ∧ ∀ e ∈ s, ∃ b, best = some b ∧ stamp e ≤ stamp b

variable {stamp}

theorem IsNewest.newer {s : Set ε} (h : IsNewest stamp s best) (candidate : Option ε) :
    IsNewest stamp {e | candidate = some e ∨ e ∈ s} (newer stamp best candidate) := by
  obtain ⟨hin, hbound⟩ := h
  cases best with
  | none =>
    have hs : ∀ e, e ∉ s := fun e he => by simpa using hbound e he
    refine ⟨fun e he => Or.inl he, ?_⟩
    rintro e (he | he)
    · exact ⟨e, he, le_rfl⟩
    · exact absurd he (hs e)
  | some b =>
    have hb : ∀ e ∈ s, stamp e ≤ stamp b := fun e he => by simpa using hbound e he
    cases candidate with
    | none =>
      refine ⟨fun e he => Or.inr (hin e he), ?_⟩
      rintro e (he | he)
      · cases he
      · exact ⟨b, rfl, hb e he⟩
    | some c =>
      simp only [Versioned.newer]
      split_ifs with hlt
      · refine ⟨fun e he => Or.inl he, ?_⟩
        rintro e (he | he)
        · exact ⟨e, he, le_rfl⟩
        · exact ⟨c, rfl, (hb e he).trans hlt.le⟩
      · refine ⟨fun e he => Or.inr (hin e he), ?_⟩
        rintro e (he | he)
        · exact ⟨b, rfl, by cases he; exact not_lt.mp hlt⟩
        · exact ⟨b, rfl, hb e he⟩

theorem foldl_isNewest (tables : List (κ → Option ε)) (k : κ) {s : Set ε} (h : IsNewest stamp s best) :
    IsNewest stamp {e | e ∈ versions tables k ∨ e ∈ s}
      (tables.foldl (fun best table => newer stamp best (table k)) best) := by
  induction tables generalizing best s with
  | nil => simpa [versions] using h
  | cons t rest ih =>
    have hstep := ih (h.newer (t k))
    have hset : {e | e ∈ versions (t :: rest) k ∨ e ∈ s} =
        {e | e ∈ versions rest k ∨ e ∈ {e | t k = some e ∨ e ∈ s}} := by
      ext e
      simp only [Set.mem_ofPred_eq, mem_versions_cons]
      tauto
    rw [hset]
    exact hstep

theorem newest_isNewest : IsNewest stamp (versions tables k) (newest stamp tables k) := by
  have hnone : IsNewest stamp (∅ : Set ε) none :=
    ⟨fun e he => by simp at he, fun e he => by simp at he⟩
  have h := foldl_isNewest tables k hnone
  unfold newest
  simpa using h

theorem mem_of_newest (h : newest stamp tables k = some e) : e ∈ versions tables k :=
  newest_isNewest.1 e h

/-- Distinct stamps leave no choice. -/
theorem IsNewest.unique {s : Set ε} (hs : Set.InjOn stamp s) {b b' : Option ε}
    (h : IsNewest stamp s b) (h' : IsNewest stamp s b') : b = b' := by
  cases b with
  | none =>
    cases b' with
    | none => rfl
    | some e' => simpa using h.2 e' (h'.1 e' rfl)
  | some e =>
    obtain ⟨e', rfl, hle⟩ := h'.2 e (h.1 e rfl)
    have hle' : stamp e' ≤ stamp e := by simpa using h.2 e' (h'.1 e' rfl)
    rw [hs (h.1 e rfl) (h'.1 e' rfl) (le_antisymm hle hle')]

theorem newest_congr (hs : Set.InjOn stamp (versions tables k))
    (h : versions tables' k = versions tables k) : newest stamp tables' k = newest stamp tables k :=
  IsNewest.unique hs (h ▸ newest_isNewest) newest_isNewest

theorem newest_perm (hs : Set.InjOn stamp (versions tables k)) (h : tables'.Perm tables) :
    newest stamp tables' k = newest stamp tables k :=
  newest_congr hs (versions_perm h k)

theorem newest_cons_of_none (h : t k = none) :
    newest stamp (t :: tables) k = newest stamp tables k := by
  simp only [newest, List.foldl_cons, h]
  rfl

/-- A table whose version of the key is newer than all others is looked at first. -/
theorem newest_cons_of_newer
    (h : ∀ e, t k = some e → ∀ e' ∈ versions tables k, stamp e' < stamp e) :
    newest stamp (t :: tables) k = (t k).or (newest stamp tables k) := by
  cases ht : t k with
  | none => rw [newest_cons_of_none ht, Option.none_or]
  | some e =>
    have hall : newest stamp (t :: tables) k =
        tables.foldl (fun best table => newer stamp best (table k)) (some e) := by
      simp only [newest, List.foldl_cons, ht]
      rfl
    have hstart : IsNewest stamp ({e} : Set ε) (some e) :=
      ⟨fun b hb => by cases hb; rfl, fun b hb => ⟨e, rfl, by rw [hb]⟩⟩
    have hend := foldl_isNewest tables k hstart
    rw [hall, Option.some_or]
    obtain ⟨b, hb, hle⟩ := hend.2 e (Or.inr rfl)
    rcases hend.1 b hb with hmem | rfl
    · exact absurd hle (not_le.mpr (h e ht b hmem))
    · exact hb

/-- **Merging.** Tables may be replaced by one table that holds the newest version of each key. -/
theorem newest_merge (hs : Set.InjOn stamp (versions (selected ++ rest) k))
    (hmerged : merged k = newest stamp selected k) :
    newest stamp (merged :: rest) k = newest stamp (selected ++ rest) k := by
  have hsel : IsNewest stamp (versions selected k) (merged k) := hmerged ▸ newest_isNewest
  have hnew : IsNewest stamp (versions (merged :: rest) k) (newest stamp (merged :: rest) k) :=
    newest_isNewest
  refine IsNewest.unique hs ⟨fun e he => ?_, fun e he => ?_⟩ newest_isNewest
  · rcases mem_versions_cons.mp (hnew.1 e he) with hm | hr
    · exact mem_versions_append.mpr (Or.inl (hsel.1 e hm))
    · exact mem_versions_append.mpr (Or.inr hr)
  · rcases mem_versions_append.mp he with hm | hr
    · obtain ⟨b, hb, hle⟩ := hsel.2 e hm
      obtain ⟨c, hc, hle'⟩ := hnew.2 b (mem_versions_cons.mpr (Or.inl hb))
      exact ⟨c, hc, hle.trans hle'⟩
    · exact hnew.2 e (mem_versions_cons.mpr (Or.inr hr))

theorem versions_merge_subset (hmerged : merged k = newest stamp selected k) :
    versions (merged :: rest) k ⊆ versions (selected ++ rest) k := by
  intro e he
  rcases mem_versions_cons.mp he with hm | hr
  · exact mem_versions_append.mpr (Or.inl (mem_of_newest (hmerged.symm.trans hm)))
  · exact mem_versions_append.mpr (Or.inr hr)

/-! ## Deletion marks -/

variable {live}

/-- `kept` leaves out a deletion mark of `merged` only where no older live version is left for it to
cover. -/
def Covers (stamp : ε → τ) (live : ε → Option α) (merged kept : κ → Option ε)
    (rest : List (κ → Option ε)) (k : κ) : Prop :=
  kept k = merged k ∨ kept k = none ∧ ∃ e, merged k = some e ∧ live e = none ∧
    ∀ e' ∈ versions rest k, live e' ≠ none → stamp e < stamp e'

/-- **Dropping deletion marks.** -/
theorem visible_drop (hs : Set.InjOn stamp (versions (merged :: rest) k))
    (h : Covers stamp live merged kept rest k) :
    visible stamp live (kept :: rest) k = visible stamp live (merged :: rest) k := by
  rcases h with h | ⟨hkept, e, hmerged, hdead, hcovered⟩
  · simp only [visible, newest, List.foldl_cons, h]
  have hkeptrest : newest stamp (kept :: rest) k = newest stamp rest k := newest_cons_of_none hkept
  have hrest : IsNewest stamp (versions rest k) (newest stamp rest k) := newest_isNewest
  unfold visible
  rw [hkeptrest]
  cases hr : newest stamp rest k with
  | none =>
    -- the mark was the only version
    have hempty : ∀ e' ∈ versions rest k, False := fun e' he' => by
      obtain ⟨b, hb, -⟩ := hrest.2 e' he'
      rw [hr] at hb
      cases hb
    rw [newest_cons_of_newer fun _ _ e' he' => (hempty e' he').elim, hmerged]
    exact hdead.symm
  | some b =>
    have hb : b ∈ versions rest k := mem_of_newest hr
    have hbound : ∀ e' ∈ versions rest k, stamp e' ≤ stamp b := fun e' he' => by
      obtain ⟨b', hb', hle⟩ := hrest.2 e' he'
      rw [hr] at hb'
      cases hb'
      exact hle
    by_cases hlt : stamp e < stamp b
    · -- a newer version hides the mark anyway
      have hsame : newest stamp (merged :: rest) k = some b := by
        refine IsNewest.unique hs newest_isNewest ⟨fun c hc => ?_, fun c hc => ?_⟩
        · cases hc
          exact mem_versions_cons.mpr (Or.inr hb)
        · refine ⟨b, rfl, ?_⟩
          rcases mem_versions_cons.mp hc with hm | hm
          · rw [hmerged] at hm
            cases hm
            exact hlt.le
          · exact hbound c hm
      rw [hsame]
    · -- what is left is dead as well, or the mark would have stayed
      have hdeadb : live b = none := by
        by_contra hlive
        exact hlt (hcovered b hb hlive)
      have hmark : (newest stamp (merged :: rest) k).bind live = none := by
        have hnewest : IsNewest stamp (versions (merged :: rest) k)
            (newest stamp (merged :: rest) k) := newest_isNewest
        obtain ⟨c, hc, hle⟩ := hnewest.2 e (mem_versions_cons.mpr (Or.inl hmerged))
        rcases mem_versions_cons.mp (mem_of_newest hc) with hm | hm
        · rw [hmerged] at hm
          cases hm
          rw [hc]
          exact hdead
        · rw [hc]
          have hcb : stamp c = stamp b :=
            le_antisymm (hbound c hm) ((not_lt.mp hlt).trans hle)
          rw [hs (mem_versions_cons.mpr (Or.inr hm)) (mem_versions_cons.mpr (Or.inr hb)) hcb]
          exact hdeadb
      rw [hmark]
      exact hdeadb

end Versioned
