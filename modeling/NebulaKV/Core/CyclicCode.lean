/-
# Cyclic codes

A cyclic redundancy check is a register of `w` bits: a byte is added to its low end, and then it is
shifted eight times, each time with the polynomial added if a one falls out. Addition is exclusive or.

The register is LINEAR (`shift_xor`), and if the polynomial has its top bit no shift loses anything
(`shift_injective`). As many bytes as the register holds are one value, added at once and shifted through
(`feedAll_short`): so a burst no longer than the register always shows (`feedAll_burst`), wherever it
begins.
-/
import NebulaKV.Core.LittleEndian
import Mathlib.Logic.Function.Iterate
import Mathlib.Tactic.Common

namespace Codec

namespace Crc

variable {w : Nat} (p : BitVec w)

/-- One shift. -/
def shift (c : BitVec w) : BitVec w := if c.getLsbD 0 then (c >>> 1) ^^^ p else c >>> 1

/-- A byte enters. -/
def feed (c : BitVec w) (byte : UInt8) : BitVec w := (shift p)^[8] (c ^^^ BitVec.ofNat w byte.toNat)

def feedAll (c : BitVec w) (bytes : List UInt8) : BitVec w := bytes.foldl (feed p) c

variable {p} {c c' v : BitVec w}

/-! ## Linear -/

theorem xor_eq_zero_iff : c ^^^ c' = 0#w ↔ c = c' := by
  refine ⟨fun h => ?_, fun h => by rw [h, BitVec.xor_self]⟩
  rw [← BitVec.xor_zero (x := c), ← h, ← BitVec.xor_assoc, BitVec.xor_self, BitVec.zero_xor]

theorem shift_xor (c c' : BitVec w) : shift p (c ^^^ c') = shift p c ^^^ shift p c' := by
  unfold shift
  rw [BitVec.getLsbD_xor, BitVec.ushiftRight_xor_distrib]
  cases c.getLsbD 0 <;> cases c'.getLsbD 0
  · rfl
  · exact BitVec.xor_assoc _ _ _
  · show c >>> 1 ^^^ c' >>> 1 ^^^ p = c >>> 1 ^^^ p ^^^ c' >>> 1
    rw [BitVec.xor_assoc, BitVec.xor_comm (c' >>> 1), ← BitVec.xor_assoc]
  · show c >>> 1 ^^^ c' >>> 1 = c >>> 1 ^^^ p ^^^ (c' >>> 1 ^^^ p)
    rw [BitVec.xor_comm (c' >>> 1) p, BitVec.xor_assoc, ← BitVec.xor_assoc p, BitVec.xor_self,
      BitVec.zero_xor]

theorem shifts_xor (n : Nat) (c c' : BitVec w) :
    (shift p)^[n] (c ^^^ c') = (shift p)^[n] c ^^^ (shift p)^[n] c' := by
  induction n generalizing c c' with
  | zero => rfl
  | succ n ih => rw [Function.iterate_succ_apply, shift_xor, ih]; rfl

/-! ## Nothing is lost -/

theorem shift_eq_zero (hp : p.msb = true) (h : shift p c = 0#w) : c = 0#w := by
  unfold shift at h
  split_ifs at h with hlow
  · -- the polynomial's top bit would have to come out of the shift
    have hshift : c >>> 1 = p := xor_eq_zero_iff.mp h
    rw [← hshift, BitVec.msb_ushiftRight] at hp
    simp at hp
  · apply BitVec.eq_of_getLsbD_eq
    intro i hi
    rw [BitVec.getLsbD_zero]
    cases i with
    | zero => simpa using hlow
    | succ i =>
      have hbit := congrArg (fun x => x.getLsbD i) h
      rwa [BitVec.getLsbD_zero, BitVec.getLsbD_ushiftRight, Nat.add_comm] at hbit

theorem shift_injective (hp : p.msb = true) : Function.Injective (shift p) := by
  intro c c' h
  refine xor_eq_zero_iff.mp (shift_eq_zero hp ?_)
  rw [shift_xor, h, BitVec.xor_self]

theorem feed_injective (hp : p.msb = true) (byte : UInt8) :
    Function.Injective fun c => feed p c byte := by
  intro c c' h
  have hxor := (shift_injective hp).iterate 8 h
  rwa [BitVec.xor_left_inj] at hxor

/-- What follows does not hide a difference. -/
theorem feedAll_injective (hp : p.msb = true) (bytes : List UInt8) :
    Function.Injective fun c => feedAll p c bytes := by
  induction bytes with
  | nil => exact fun _ _ h => h
  | cons byte rest ih => exact fun c c' h => feed_injective hp byte (ih h)

/-! ## As many bytes as the register holds -/

/-- What is moved up by some places comes down again. -/
theorem shifts_shiftLeft {n k : Nat} (hk : k * 2 ^ n < 2 ^ w) :
    (shift p)^[n] (BitVec.ofNat w (k * 2 ^ n)) = BitVec.ofNat w k := by
  induction n with
  | zero => rw [pow_zero, Nat.mul_one]; rfl
  | succ n ih =>
    rw [pow_succ, ← Nat.mul_assoc] at hk ⊢
    have hdown : BitVec.ofNat w (k * 2 ^ n * 2) >>> 1 = BitVec.ofNat w (k * 2 ^ n) := by
      apply BitVec.eq_of_toNat_eq
      rw [BitVec.toNat_ushiftRight, BitVec.toNat_ofNat, BitVec.toNat_ofNat,
        Nat.mod_eq_of_lt hk, Nat.mod_eq_of_lt (by omega), Nat.shiftRight_eq_div_pow]
      omega
    have hlow : (BitVec.ofNat w (k * 2 ^ n * 2)).getLsbD 0 = false := by
      rw [BitVec.getLsbD_ofNat]
      simp
    rw [Function.iterate_succ_apply, shift, hlow, if_neg (by decide), hdown]
    exact ih (by omega)

theorem ofNat_byte_xor (byte : UInt8) (k : Nat) :
    BitVec.ofNat w byte.toNat ^^^ BitVec.ofNat w (k * 2 ^ 8) =
      BitVec.ofNat w (byte.toNat + 256 * k) := by
  apply BitVec.eq_of_getLsbD_eq
  intro i hi
  have hsum : byte.toNat + 256 * k = 2 ^ 8 * k + byte.toNat := by omega
  rw [BitVec.getLsbD_xor, BitVec.getLsbD_ofNat, BitVec.getLsbD_ofNat, BitVec.getLsbD_ofNat, hsum,
    Nat.testBit_two_pow_mul_add _ byte.toNat_lt, Nat.mul_comm k, Nat.testBit_two_pow_mul]
  split_ifs with hlow
  · simp [Nat.not_le.mpr hlow]
  · have hbyte : byte.toNat.testBit i = false :=
      Nat.testBit_lt_two_pow (byte.toNat_lt.trans_le (Nat.pow_le_pow_right (by decide) (by omega)))
    simp [hbyte, Nat.not_lt.mp hlow, hi]

/-- **A short input** is added at once, and shifted through. -/
theorem feedAll_short {bytes : List UInt8} (hfits : 8 * bytes.length ≤ w) (c : BitVec w) :
    feedAll p c bytes = (shift p)^[8 * bytes.length] (c ^^^ BitVec.ofNat w (leValue bytes)) := by
  induction bytes generalizing c with
  | nil => simp [feedAll, leValue]
  | cons byte rest ih =>
    rw [List.length_cons] at hfits ⊢
    have hroom : leValue rest * 2 ^ 8 < 2 ^ w := by
      have hlt := leValue_lt rest
      calc leValue rest * 2 ^ 8 < 256 ^ rest.length * 2 ^ 8 :=
            Nat.mul_lt_mul_of_pos_right hlt (by decide)
        _ = 2 ^ (8 * rest.length + 8) := by rw [pow_add, pow_mul]; rfl
        _ ≤ 2 ^ w := Nat.pow_le_pow_right (by decide) (by omega)
    have hstep : feedAll p c (byte :: rest) = feedAll p (feed p c byte) rest := rfl
    rw [hstep, ih (by omega), feed, ← shifts_shiftLeft hroom, ← shifts_xor,
      ← Function.iterate_add_apply, BitVec.xor_assoc, ofNat_byte_xor, leValue, Nat.mul_add]

/-- **A burst shows**: the register tells apart any two inputs that differ in so few bytes. -/
theorem feedAll_burst (hp : p.msb = true) {before window window' after : List UInt8}
    (hlen : window.length = window'.length) (hfits : 8 * window.length ≤ w)
    (h : feedAll p c (before ++ (window ++ after)) = feedAll p c (before ++ (window' ++ after))) :
    window = window' := by
  unfold feedAll at h
  rw [List.foldl_append, List.foldl_append, List.foldl_append, List.foldl_append] at h
  have hwindow := feedAll_injective hp after h
  have hshort : feedAll p (before.foldl (feed p) c) window =
      feedAll p (before.foldl (feed p) c) window' := hwindow
  rw [feedAll_short hfits, feedAll_short (hlen ▸ hfits), hlen] at hshort
  have hvalues := (shift_injective hp).iterate _ hshort
  rw [BitVec.xor_right_inj] at hvalues
  refine leValue_inj hlen ?_
  have hsmall : ∀ bytes : List UInt8, 8 * bytes.length ≤ w → leValue bytes < 2 ^ w :=
    fun bytes hbytes => (leValue_lt bytes).trans_le (by
      rw [show (256 : Nat) = 2 ^ 8 by rfl, ← pow_mul]
      exact Nat.pow_le_pow_right (by decide) hbytes)
  have hnat := congrArg BitVec.toNat hvalues
  rwa [BitVec.toNat_ofNat, BitVec.toNat_ofNat, Nat.mod_eq_of_lt (hsmall _ hfits),
    Nat.mod_eq_of_lt (hsmall _ (hlen ▸ hfits))] at hnat

end Crc

end Codec
