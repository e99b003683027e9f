import Mathlib.Data.Nat.Bitwise
import Mathlib.Tactic.Ring

/-!
# Aligned Words

Bit fields below the alignment of an address. Registers of memory-mapped hardware often put
flags into the low bits of an aligned address; for these, `|||` is addition, and the fields
are quotient and remainder.

- `or_eq_add`: setting bits below the alignment adds them
- `toNat_field`: a bit field as a quotient and remainder
- `toNat_clear5`, `toNat_low5`: the two parts of a word at bit 5
-/

namespace AlignedWord

variable {w : ℕ}

theorem and_eq_zero {x y : BitVec w} {k : ℕ} (hx : x.toNat % 2 ^ k = 0)
    (hy : y.toNat < 2 ^ k) : x &&& y = 0 := by
  apply BitVec.eq_of_toNat_eq
  simp only [BitVec.toNat_and, BitVec.ofNat_eq_ofNat, BitVec.toNat_ofNat, Nat.zero_mod]
  apply Nat.eq_of_testBit_eq
  intro i
  rw [Nat.testBit_and, Nat.zero_testBit, Bool.and_eq_false_iff]
  rcases lt_or_ge i k with hi | hi
  · -- below the alignment the address has no bits
    left
    have hbit := congrArg (Nat.testBit · i) hx
    simpa [Nat.testBit_mod_two_pow, hi] using hbit
  · right
    exact Nat.testBit_lt_two_pow (hy.trans_le (Nat.pow_le_pow_right (by decide) hi))

theorem or_eq_add {x y : BitVec w} {k : ℕ} (hx : x.toNat % 2 ^ k = 0)
    (hy : y.toNat < 2 ^ k) : x ||| y = x + y :=
  (BitVec.add_eq_or_of_and_eq_zero x y (and_eq_zero hx hy)).symm

theorem toNat_or {x y : BitVec w} {k : ℕ} (hk : k ≤ w) (hx : x.toNat % 2 ^ k = 0)
    (hy : y.toNat < 2 ^ k) : (x ||| y).toNat = x.toNat + y.toNat := by
  rw [or_eq_add hx hy, BitVec.toNat_add, Nat.mod_eq_of_lt]
  -- the last multiple of the alignment leaves room for the low bits
  have hlt := x.isLt
  obtain ⟨m, hm⟩ := Nat.dvd_of_mod_eq_zero hx
  obtain ⟨d, rfl⟩ := Nat.exists_eq_add_of_le hk
  rw [Nat.pow_add] at hlt ⊢
  rw [hm] at hlt ⊢
  have hmd : m < 2 ^ d := lt_of_mul_lt_mul_left hlt (Nat.zero_le _)
  calc 2 ^ k * m + y.toNat < 2 ^ k * m + 2 ^ k := by omega
    _ = 2 ^ k * (m + 1) := by ring
    _ ≤ 2 ^ k * 2 ^ d := Nat.mul_le_mul_left _ hmd

/-- A bit field, as a number -/
theorem toNat_field {x mask : BitVec w} {s n : ℕ} (hmask : mask.toNat = 2 ^ n - 1) :
    ((x >>> s) &&& mask).toNat = x.toNat / 2 ^ s % 2 ^ n := by
  rw [BitVec.toNat_and, BitVec.toNat_ushiftRight, hmask, Nat.shiftRight_eq_div_pow]
  exact Nat.and_two_pow_sub_one_eq_mod _ n

theorem toNat_low5 (x : BitVec 32) : (x &&& 0x1f).toNat = x.toNat % 32 := by
  rw [BitVec.toNat_and]
  exact Nat.and_two_pow_sub_one_eq_mod x.toNat 5

theorem toNat_clear5 (x : BitVec 32) : (x &&& 0xffffffe0).toNat = x.toNat / 32 * 32 := by
  have hsplit : (x &&& 0xffffffe0) ||| (x &&& 0x1f) = x := by
    rw [← BitVec.and_or_distrib_left]
    exact BitVec.and_allOnes
  have hdisjoint : (x &&& 0xffffffe0) &&& (x &&& 0x1f) = 0 := by
    rw [BitVec.and_comm x 0x1f, ← BitVec.and_assoc, BitVec.and_assoc x]
    simp
  have hadd := BitVec.add_eq_or_of_and_eq_zero _ _ hdisjoint
  rw [hsplit] at hadd
  have hlow := toNat_low5 x
  have hnat := congrArg BitVec.toNat hadd
  rw [BitVec.toNat_add, hlow] at hnat
  have hle : (x &&& 0xffffffe0).toNat ≤ x.toNat := by
    rw [BitVec.toNat_and]
    exact Nat.and_le_left
  have hlt := x.isLt
  omega

end AlignedWord
