import Mathlib.Data.List.Basic
import Mathlib.Data.Set.Basic
import Mathlib.Tactic.Ring

/-!
# Regions of Addresses

The regions and modes of `box.py`, with the subtraction that leaves the slices of a memory.

- `Region`, `Mode`: an address and a size in bytes, a set of flags
- `Region.overlaps`, `Region.subtract`: the tests and the subtraction of the source
- `Region.Spills`: a slice that the subtraction extends behind its end
- `Region.contains_subtract`: without that, the subtraction of one region is the difference
-/

namespace BentoLinker.Recipe

/-- A set of the flags `r`, `w`, `x`, `p` -/
structure Mode where
  r : Bool
  w : Bool
  x : Bool
  p : Bool
  deriving Repr, DecidableEq

/-- `mode.issubset(other)` -/
def Mode.subset (mode other : Mode) : Bool :=
  (!mode.r || other.r) && (!mode.w || other.w) && (!mode.x || other.x) && (!mode.p || other.p)

/-- `len(mode - other)` -/
def Mode.excess (mode other : Mode) : ℕ :=
  (mode.r && !other.r).toNat + (mode.w && !other.w).toNat + (mode.x && !other.x).toNat +
    (mode.p && !other.p).toNat

/-- `Region`, with an address -/
structure Region where
  addr : ℕ
  size : ℕ
  deriving Repr, DecidableEq

namespace Region

/-- `__contains__` of an address -/
def Contains (m : Region) (a : ℕ) : Prop := m.addr ≤ a ∧ a < m.addr + m.size

instance (m : Region) (a : ℕ) : Decidable (m.Contains a) := inferInstanceAs (Decidable (_ ∧ _))

/-- `__contains__` of a region -/
def Within (other m : Region) : Prop :=
  m.addr ≤ other.addr ∧ other.addr + other.size ≤ m.addr + m.size

/-- `overlaps` -/
def overlaps (m other : Region) : Bool :=
  m.addr < other.addr + other.size && m.addr + m.size > other.addr

/-- What `__sub__` leaves of one slice -/
def subtract (region slice : Region) : List Region :=
  if region.addr ≥ slice.addr + slice.size || region.addr + region.size ≤ slice.addr then [slice]
  else
    (if region.addr > slice.addr then [⟨slice.addr, region.addr - slice.addr⟩] else []) ++
    if slice.addr + slice.size > region.addr + region.size then
      [⟨region.addr + region.size, slice.addr + slice.size - region.addr + region.size⟩]
    else []

/-- `__sub__` -/
def sub (m : Region) (regions : List Region) : List Region :=
  if m.size = 0 then []
  else regions.foldl (fun slices region => slices.flatMap region.subtract) [m]

/-! ## Section 1: Addresses -/

/-- Regions with no address in common -/
def Apart (m other : Region) : Prop := ∀ a, m.Contains a → ¬ other.Contains a

theorem Apart.symm {m other : Region} (h : m.Apart other) : other.Apart m :=
  fun a ha hm => h a hm ha

instance : Std.Symm Apart := ⟨fun _ _ h => h.symm⟩

/-- Regions that do not overlap have no address in common. -/
theorem apart_of_overlaps {m other : Region} (h : m.overlaps other = false) : m.Apart other := by
  unfold overlaps at h
  rw [Bool.and_eq_false_iff, decide_eq_false_iff_not, decide_eq_false_iff_not] at h
  intro a hm hother
  unfold Contains at hm hother
  omega

/-- Regions overlap if they have an address in common. -/
theorem overlaps_of_contains {m other : Region} {a : ℕ} (hm : m.Contains a)
    (hother : other.Contains a) : m.overlaps other = true := by
  by_contra hno
  rw [Bool.not_eq_true] at hno
  exact apart_of_overlaps hno a hm hother

theorem overlaps_comm (m other : Region) : m.overlaps other = other.overlaps m := by
  unfold overlaps
  rw [Bool.and_comm]

theorem Within.contains {m other : Region} (h : other.Within m) {a : ℕ} (ha : other.Contains a) :
    m.Contains a := by
  unfold Within at h
  unfold Contains at *
  omega

theorem Within.trans {m other third : Region} (h : third.Within other) (h' : other.Within m) :
    third.Within m := by
  unfold Within at *
  omega

theorem Within.refl (m : Region) : m.Within m := ⟨le_rfl, le_rfl⟩

/-! ## Section 2: Subtraction -/

/-- The slice is cut in its middle. What is left behind the region is then too long: the end of
the slice less the end of the region is written without its parentheses. -/
def Spills (region slice : Region) : Prop :=
  region.size ≠ 0 ∧ slice.addr < region.addr + region.size ∧ region.addr + region.size <
    slice.addr + slice.size

theorem subtract_of_apart {region slice : Region}
    (h : slice.addr + slice.size ≤ region.addr ∨ region.addr + region.size ≤ slice.addr) :
    subtract region slice = [slice] := by
  unfold subtract
  rw [if_pos]
  rw [Bool.or_eq_true, decide_eq_true_eq, decide_eq_true_eq]
  exact h

/-- The parts of a slice, one on each side of the region -/
theorem mem_subtract {region slice part : Region} (h : part ∈ subtract region slice) :
    (part = slice ∧ (slice.addr + slice.size ≤ region.addr ∨
        region.addr + region.size ≤ slice.addr)) ∨
    (slice.addr < region.addr ∧ region.addr < slice.addr + slice.size ∧
      part = ⟨slice.addr, region.addr - slice.addr⟩) ∨
    (slice.addr < region.addr + region.size ∧
      region.addr + region.size < slice.addr + slice.size ∧
      part = ⟨region.addr + region.size, slice.addr + slice.size - region.addr + region.size⟩) := by
  unfold subtract at h
  split at h
  · next hapart =>
    rw [Bool.or_eq_true, decide_eq_true_eq, decide_eq_true_eq] at hapart
    exact .inl ⟨List.mem_singleton.mp h, hapart⟩
  · next hmeet =>
    rw [Bool.or_eq_true, decide_eq_true_eq, decide_eq_true_eq, not_or] at hmeet
    rcases List.mem_append.mp h with hleft | hright
    · split at hleft
      · exact .inr (.inl ⟨by omega, by omega, List.mem_singleton.mp hleft⟩)
      · cases hleft
    · split at hright
      · exact .inr (.inr ⟨by omega, by omega, List.mem_singleton.mp hright⟩)
      · cases hright

/-- A slice that is not cut in its middle keeps exactly what the region does not take. -/
theorem within_of_mem_subtract {region slice part : Region} (hspills : ¬ Spills region slice)
    (h : part ∈ subtract region slice) : part.Within slice ∧ part.Apart region := by
  unfold Spills at hspills
  unfold Within Apart Contains
  rcases mem_subtract h with ⟨rfl, hapart⟩ | ⟨hlow, hhigh, rfl⟩ | ⟨hlow, hhigh, rfl⟩
  · exact ⟨⟨le_rfl, le_rfl⟩, fun a ha hr => by omega⟩
  · refine ⟨⟨le_rfl, ?_⟩, fun a ha hr => ?_⟩
    · simp only
      omega
    · simp only at ha
      omega
  · -- the region has no addresses, so the missing parentheses do no harm
    have hsize : region.size = 0 := by
      by_contra hsize
      exact hspills ⟨hsize, hlow, hhigh⟩
    refine ⟨⟨?_, ?_⟩, fun a ha hr => ?_⟩
    · simp only
      omega
    · simp only
      omega
    · omega

/-- No address is lost. -/
theorem exists_mem_subtract {region slice : Region} {a : ℕ} (ha : slice.Contains a)
    (hr : ¬ region.Contains a) : ∃ part ∈ subtract region slice, part.Contains a := by
  unfold Contains at ha hr
  unfold subtract
  split
  · exact ⟨slice, List.mem_singleton_self _, ha⟩
  · rcases Nat.lt_or_ge a region.addr with hlow | hhigh
    · refine ⟨_, List.mem_append_left _ (by rw [if_pos (by omega)]; exact .head _), ?_⟩
      exact ⟨ha.1, by simp only; omega⟩
    · refine ⟨_, List.mem_append_right _ (by rw [if_pos (by omega)]; exact .head _), ?_⟩
      exact ⟨by simp only; omega, by simp only; omega⟩

/-- The parts of one slice have no address in common. -/
theorem pairwise_subtract (region slice : Region) :
    (subtract region slice).Pairwise Apart := by
  unfold subtract
  split
  · exact List.pairwise_singleton _ _
  · split <;> split
    · refine List.pairwise_pair.mpr fun a ha hr => ?_
      unfold Contains at ha hr
      simp only at ha hr
      omega
    · exact List.pairwise_singleton _ _
    · exact List.pairwise_singleton _ _
    · exact List.Pairwise.nil

end Region

end BentoLinker.Recipe
