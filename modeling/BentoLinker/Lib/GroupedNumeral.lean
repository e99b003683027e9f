import BentoLinker.Lib.BitCode
import Mathlib.Data.Nat.Digits.Defs

/-!
# Numbers in Groups of Seven Bits

Groups of seven bits, the lowest first, each behind a bit that says whether there are more.

- `group`: one of them
- `groups`: the digits of a number, and what follows it
- `groups_group`: how `groups` reads one
- `exists_group`, `groups_eq_none`: what it can be read from
-/

namespace GroupedNumeral

open BitCode

/-- A digit, and whether there are more -/
def group (more : Bool) (d : ℕ) : Bits := more :: toBits 7 d

/-- The digits up to the first without another one behind it, and the rest -/
def groups : Bits → Option (List ℕ × Bits)
  | more :: b₆ :: b₅ :: b₄ :: b₃ :: b₂ :: b₁ :: b₀ :: rest =>
    let d := ofBits [b₆, b₅, b₄, b₃, b₂, b₁, b₀]
    if more then (groups rest).map fun dsr => (d :: dsr.1, dsr.2) else some ([d], rest)
  | _ => none

theorem length_group (more : Bool) (d : ℕ) : (group more d).length = 8 := by
  rw [group, List.length_cons, length_toBits]

/-- Eight bits are a group. -/
theorem exists_group {bits : Bits} (h : 8 ≤ bits.length) :
    ∃ more d rest, d < 2 ^ 7 ∧ bits = group more d ++ rest := by
  obtain ⟨more, tail, rfl⟩ := List.exists_cons_of_length_pos (Nat.lt_of_lt_of_le (by decide) h)
  have hlen : 7 ≤ tail.length := Nat.le_of_succ_le_succ h
  have htake : (tail.take 7).length = 7 := by rw [List.length_take, Nat.min_eq_left hlen]
  have hlt := ofBits_lt (tail.take 7)
  rw [htake] at hlt
  refine ⟨more, ofBits (tail.take 7), tail.drop 7, hlt, ?_⟩
  have hbits : toBits 7 (ofBits (tail.take 7)) = tail.take 7 := by
    have htoBits := toBits_ofBits (tail.take 7)
    rwa [htake] at htoBits
  rw [group, hbits, List.cons_append, List.take_append_drop]

theorem groups_group {more : Bool} {d : ℕ} (hd : d < 2 ^ 7) (rest : Bits) :
    groups (group more d ++ rest) =
      if more then (groups rest).map fun dsr => (d :: dsr.1, dsr.2) else some ([d], rest) := by
  have hofBits : ofBits (toBits 7 d) = d := ofBits_toBits hd
  simp only [toBits] at hofBits
  simp only [group, toBits, List.cons_append, List.nil_append, groups, hofBits]

theorem groups_eq_none {bits : Bits} (h : bits.length < 8) : groups bits = none := by
  unfold groups
  split
  · simp only [List.length_cons] at h
    omega
  · rfl

theorem ne_nil_of_groups {bits rest : Bits} {ds : List ℕ} (h : groups bits = some (ds, rest)) :
    ds ≠ [] := by
  by_cases hlen : bits.length < 8
  · rw [groups_eq_none hlen] at h
    cases h
  · obtain ⟨more, d, tail, hd, rfl⟩ := exists_group (Nat.le_of_not_lt hlen)
    rw [groups_group hd] at h
    split at h
    · obtain ⟨dsr, -, heq⟩ := Option.map_eq_some_iff.mp h
      cases heq
      exact List.cons_ne_nil _ _
    · cases h
      exact List.cons_ne_nil _ _

end GroupedNumeral
