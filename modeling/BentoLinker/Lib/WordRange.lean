import Mathlib.Data.List.Nodup
import Mathlib.Tactic.Ring

/-!
# Ranges of Words

Addresses of consecutive 32-bit words in a 32-bit address space.

- `addrs a n`: the addresses of `n` words from `a` on, wrapping around
- `toNat_of_mem_addrs`: where they lie, for a range that does not wrap
- `nodup_addrs`: they are distinct, as long as the range is not the whole space
-/

namespace WordRange

/-- The addresses of `n` words from `a` on. -/
def addrs (a : BitVec 32) (n : ℕ) : List (BitVec 32) :=
  (List.range n).map fun i => a + 4 * BitVec.ofNat 32 i

theorem mem_addrs {a b : BitVec 32} {n : ℕ} :
    b ∈ addrs a n ↔ ∃ i < n, a + 4 * BitVec.ofNat 32 i = b := by
  simp [addrs]

theorem addrs_append (a : BitVec 32) (n k : ℕ) :
    addrs a (n + k) = addrs a n ++ addrs (a + 4 * BitVec.ofNat 32 n) k := by
  unfold addrs
  rw [List.range_add, List.map_append, List.map_map]
  congr 1
  apply List.map_congr_left
  intro i _
  rw [Function.comp_apply, BitVec.ofNat_add, BitVec.mul_add, BitVec.add_assoc]

private theorem toNat_offset {a : BitVec 32} {n i : ℕ} (h : a.toNat + 4 * n ≤ 2 ^ 32)
    (hi : i < n) : (a + 4 * BitVec.ofNat 32 i).toNat = a.toNat + 4 * i := by
  have hfour : (4 : BitVec 32).toNat = 4 := rfl
  rw [BitVec.toNat_add, BitVec.toNat_mul, BitVec.toNat_ofNat, hfour]
  omega

/-- The words of a range that does not wrap lie inside it. -/
theorem toNat_of_mem_addrs {a b : BitVec 32} {n : ℕ} (h : a.toNat + 4 * n ≤ 2 ^ 32)
    (hb : b ∈ addrs a n) : a.toNat ≤ b.toNat ∧ b.toNat + 4 ≤ a.toNat + 4 * n := by
  obtain ⟨i, hi, rfl⟩ := mem_addrs.mp hb
  rw [toNat_offset h hi]
  omega

/-- A place outside a range that does not wrap is none of its words. -/
theorem notMem_addrs {a b : BitVec 32} {n : ℕ} (h : a.toNat + 4 * n ≤ 2 ^ 32)
    (hb : b.toNat < a.toNat ∨ a.toNat + 4 * n ≤ b.toNat) : b ∉ addrs a n := by
  intro hmem
  obtain ⟨hlo, hhi⟩ := toNat_of_mem_addrs h hmem
  omega

theorem nodup_addrs (a : BitVec 32) {n : ℕ} (h : n ≤ 2 ^ 30) : (addrs a n).Nodup := by
  refine List.Nodup.map_on ?_ List.nodup_range
  intro i hi j hj hij
  rw [List.mem_range] at hi hj
  have hfour : (4 : BitVec 32).toNat = 4 := rfl
  have hnat := congrArg BitVec.toNat hij
  rw [BitVec.toNat_add, BitVec.toNat_add, BitVec.toNat_mul, BitVec.toNat_mul,
    BitVec.toNat_ofNat, BitVec.toNat_ofNat, hfour] at hnat
  omega

end WordRange
