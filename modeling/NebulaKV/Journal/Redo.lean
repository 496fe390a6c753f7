/-
# A redo log over a map

A map from keys to values, and a log of writes to it, each of which sets a key or deletes it. Replaying
the log does not need the map that the log began with: it is enough that the map is right outside the
keys of the log (`redo_congr`). So a log may be replayed more than once (`redo_redo`).
-/
import Mathlib.Logic.Function.Basic
import Mathlib.Data.List.Basic

namespace Journal

variable {κ α : Type*} [DecidableEq κ]

/-- A write of one key; without a value it deletes the key. -/
structure Write (κ α : Type*) where
  key : κ
  value : Option α

/-- The map with the writes of a log. -/
def redo (log : List (Write κ α)) (view : κ → Option α) : κ → Option α :=
  log.foldl (fun view write => Function.update view write.key write.value) view

variable {log : List (Write κ α)} {view view' : κ → Option α} {key : κ}

theorem redo_cons (write : Write κ α) (log : List (Write κ α)) (view : κ → Option α) :
    redo (write :: log) view = redo log (Function.update view write.key write.value) := rfl

/-- **Only the keys outside the log matter.** -/
theorem redo_congr (h : ∀ key, key ∉ log.map Write.key → view key = view' key) :
    redo log view = redo log view' := by
  induction log generalizing view view' with
  | nil => exact funext fun key => h key (by simp)
  | cons write rest ih =>
    rw [redo_cons, redo_cons]
    refine ih fun key hkey => ?_
    by_cases hsame : key = write.key
    · rw [hsame, Function.update_self, Function.update_self]
    · rw [Function.update_of_ne hsame, Function.update_of_ne hsame]
      exact h key (by simpa [hsame] using hkey)

/-- A key that the log does not write. -/
theorem redo_of_notMem (h : key ∉ log.map Write.key) : redo log view key = view key := by
  induction log generalizing view with
  | nil => rfl
  | cons write rest ih =>
    have hboth : key ≠ write.key ∧ key ∉ rest.map Write.key := by simpa using h
    rw [redo_cons, ih hboth.2, Function.update_of_ne hboth.1]

/-- **Once is enough.** -/
theorem redo_redo (log : List (Write κ α)) (view : κ → Option α) :
    redo log (redo log view) = redo log view :=
  redo_congr fun _ hkey => redo_of_notMem hkey

end Journal
