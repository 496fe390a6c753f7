/-
# Exceptions, and the checks on keys and values

The exceptions the code throws, by their standard class and with their text, and the two checks that
every client write passes (`validation.cpp`, with the limits of `storage_limits.hpp`).
-/
import NebulaKV.Core.Bytes

namespace NebulaKV

/-- An exception: its class and its `what()`. -/
inductive Error where
  | invalidArgument (what : String)
  | lengthError (what : String)
  | overflowError (what : String)
  | runtimeError (what : String)
  | logicError (what : String)
  /-- `SSTableCorruptionError`. -/
  | corruption (byteOffset : Nat) (what : String)
  deriving Repr, DecidableEq

def Error.what : Error → String
  | .invalidArgument text | .lengthError text | .overflowError text | .runtimeError text
  | .logicError text | .corruption _ text => text

/-- `if (condition) throw error;`. -/
def refuse (condition : Prop) [Decidable condition] (error : Error) : Except Error Unit :=
  if condition then .error error else .ok ()

def kMaxKeySize : Nat := 1024

def kMaxValueSize : Nat := 1024 * 1024

def validateKey (key : Bytes) : Except Error Unit :=
  if key = [] then .error (.invalidArgument "NebulaKV keys must not be empty")
  else if key.length > kMaxKeySize then
    .error (.lengthError "NebulaKV key exceeds the maximum size")
  else .ok ()

def validateValue (value : Bytes) : Except Error Unit :=
  if value.length > kMaxValueSize then
    .error (.lengthError "NebulaKV value exceeds the maximum size")
  else .ok ()

/-- The keys `validate_key` lets through. -/
def ValidKey (key : Bytes) : Prop := key ≠ [] ∧ key.length ≤ kMaxKeySize

/-- The values `validate_value` lets through. -/
def ValidValue (value : Bytes) : Prop := value.length ≤ kMaxValueSize

instance (key : Bytes) : Decidable (ValidKey key) := inferInstanceAs (Decidable (_ ∧ _))

instance (value : Bytes) : Decidable (ValidValue value) := inferInstanceAs (Decidable (_ ≤ _))

variable {β : Type} {condition : Prop}

theorem ok_bind {α : Type} (a : α) (f : α → Except Error β) : Except.ok a >>= f = f a := rfl

theorem bind_eq_ok {α : Type} {x : Except Error α} {f : α → Except Error β} {b : β} :
    x >>= f = .ok b ↔ ∃ a, x = .ok a ∧ f a = .ok b := by
  cases x with
  | error e =>
    refine ⟨fun h => (by cases h), ?_⟩
    rintro ⟨a, ha, -⟩
    cases ha
  | ok a =>
    refine ⟨fun h => ⟨a, rfl, h⟩, ?_⟩
    rintro ⟨a', ha, h⟩
    obtain rfl := Except.ok.inj ha
    exact h

theorem map_eq_ok {α : Type} {x : Except Error α} {f : α → β} {b : β} (h : x.map f = .ok b) :
    ∃ a, x = .ok a ∧ f a = b := by
  cases x with
  | error e => cases h
  | ok a => exact ⟨a, rfl, Except.ok.inj h⟩

@[simp] theorem refuse_eq_ok [Decidable condition] {error : Error} {u : Unit} :
    refuse condition error = .ok u ↔ ¬ condition := by
  unfold refuse
  split_ifs with h
  · simp [h]
  · simp [h]

theorem refuse_bind [Decidable condition] (error : Error) (f : Unit → Except Error β) :
    refuse condition error >>= f = if condition then .error error else f () := by
  unfold refuse
  split_ifs
  · rfl
  · rfl

theorem refuse_bind_eq_ok [Decidable condition] {error : Error} {f : Unit → Except Error β} {b : β} :
    refuse condition error >>= f = .ok b ↔ ¬ condition ∧ f () = .ok b := by
  rw [bind_eq_ok]
  exact ⟨fun ⟨_, h, h'⟩ => ⟨refuse_eq_ok.mp h, h'⟩, fun ⟨h, h'⟩ => ⟨(), refuse_eq_ok.mpr h, h'⟩⟩

theorem bind_ok {α : Type} {x : Except Error α} {f : α → Except Error β} {a : α} {b : β}
    (hx : x = .ok a) (hf : f a = .ok b) : x >>= f = .ok b :=
  bind_eq_ok.mpr ⟨a, hx, hf⟩

theorem refuse_ok [Decidable condition] {error : Error} {f : Unit → Except Error β} {b : β}
    (h : ¬ condition) (hf : f () = .ok b) : refuse condition error >>= f = .ok b :=
  refuse_bind_eq_ok.mpr ⟨h, hf⟩

theorem validateKey_eq_ok {key : Bytes} : validateKey key = .ok () ↔ ValidKey key := by
  unfold validateKey ValidKey
  split_ifs with h₁ h₂
  · simp [h₁]
  · simp only [false_iff]
    omega
  · simp only [true_iff]
    exact ⟨h₁, by omega⟩

theorem validateValue_eq_ok {value : Bytes} : validateValue value = .ok () ↔ ValidValue value := by
  unfold validateValue ValidValue
  split_ifs with h
  · simp only [false_iff]
    omega
  · simp only [true_iff]
    omega

end NebulaKV
