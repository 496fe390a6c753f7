/-
# Byte strings

`std::string` is a sequence of bytes, compared lexicographically as unsigned bytes: `Bytes` is the
list of them, with the lexicographic order that Mathlib puts on lists over a linear order.
-/
import Mathlib.Algebra.GroupWithZero.Nat
import Mathlib.Data.List.Lex
import Mathlib.Order.Lattice
import Mathlib.Tactic.Common

namespace NebulaKV

instance byteOrder : LinearOrder UInt8 where
  le_refl a := UInt8.le_refl a
  le_trans _ _ _ := UInt8.le_trans
  le_antisymm _ _ := UInt8.le_antisymm
  le_total a b := UInt8.le_total a b
  lt_iff_le_not_ge a b := by
    simp only [UInt8.lt_iff_toNat_lt, UInt8.le_iff_toNat_le]
    omega
  toDecidableLE := inferInstance
  toDecidableLT := inferInstance
  toDecidableEq := inferInstance

abbrev Bytes := List UInt8

instance lawfulBytes : LawfulBEq (List UInt8) := inferInstance

/-- `2^64`: indices, terms and sequence numbers are `std::uint64_t`. -/
def u64 : Nat := 18446744073709551616

/-- `UINT32_MAX`, the longest string a `u32` length field can announce. -/
def uint32Max : Nat := 4294967295

/-- Unsigned 64-bit subtraction, which wraps around. -/
def u64Sub (a b : Nat) : Nat := (a + u64 - b) % u64

theorem u64Sub_of_le {a b : Nat} (h : b ≤ a) (ha : a < u64) : u64Sub a b = a - b := by
  unfold u64Sub
  rw [show a + u64 - b = (a - b) + u64 by omega, Nat.add_mod_right, Nat.mod_eq_of_lt (by omega)]

end NebulaKV
