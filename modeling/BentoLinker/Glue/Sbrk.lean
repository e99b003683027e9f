import BentoLinker.Glue.Malloc
import BentoLinker.Lib.GuardedRun
import Mathlib.Data.Int.Notation

/-!
# The Break of the Heap

`_sbrk` in `heap_glue.py`, from which the allocator of newlib takes its memory.

- `HeapRange`: what the linker assigns
- `sbrk`: a call, and what becomes of `__heap_brk`
- `Within`, `SbrkMeets`: what should hold of the break, and of a call
- `Targeted`: the address that is asked for is inside of the heap, or behind it as the pointer is
- `sbrk_run`: in every run of such calls the break is inside of the heap

The address that is asked for is compared with the end of the heap only, after it has wrapped.
-/

namespace BentoLinker.Glue

/-! ## Section 1: Calls -/

/-- `&__heap_start` and `&__heap_end` -/
structure HeapRange where
  start : Word
  stop : Word
  le : start ≤ stop

/-- What the first lines of `_sbrk` make of `__heap_brk`, which is `NULL` at first -/
def HeapRange.pbrk (heap : HeapRange) (brk : Word) : Word := if brk = 0 then heap.start else brk

/-- `_sbrk`: what it returns, with `none` for `(void*)-1`, and `__heap_brk` -/
def sbrk (heap : HeapRange) (diff : Word) (brk : Word) : Option Word × Word :=
  let pbrk := heap.pbrk brk
  if heap.stop < pbrk + diff then (none, pbrk) else (some pbrk, pbrk + diff)

def SbrkStep (heap : HeapRange) (diff brk brk' : Word) : Prop := (sbrk heap diff brk).2 = brk'

/-! ## Section 2: What should hold -/

/-- The break is between the start and the end of the heap. -/
def Within (heap : HeapRange) (brk : Word) : Prop :=
  heap.start ≤ heap.pbrk brk ∧ heap.pbrk brk ≤ heap.stop

/-- A call that succeeds returns the break and moves it, and one that is refused leaves it. -/
def SbrkMeets (heap : HeapRange) (diff brk : Word) : Prop :=
  Within heap (sbrk heap diff brk).2 ∧
    match sbrk heap diff brk with
    | (some p, brk') => p = heap.pbrk brk ∧
        ((heap.pbrk brk').toNat : ℤ) = (heap.pbrk brk).toNat + diff.toInt
    | (none, brk') => heap.pbrk brk' = heap.pbrk brk

/-- The break that is asked for -/
def target (heap : HeapRange) (diff brk : Word) : ℤ := (heap.pbrk brk).toNat + diff.toInt

/-- What is asked for is inside of the heap, or is an address behind it. -/
def Targeted (heap : HeapRange) (diff brk : Word) : Prop :=
  ((heap.start.toNat : ℤ) ≤ target heap diff brk ∧ target heap diff brk ≤ heap.stop.toNat) ∨
    (heap.stop.toNat : ℤ) < target heap diff brk % 2 ^ 32

/-! ## Section 3: What a call does -/

variable {heap : HeapRange} {diff brk : Word}

theorem within_initial (heap : HeapRange) : Within heap 0 := by
  have hpbrk : heap.pbrk 0 = heap.start := if_pos rfl
  rw [Within, hpbrk]
  exact ⟨BitVec.le_refl _, heap.le⟩

/-- The pointer that is compared is the target, wrapped. -/
theorem toNat_pbrk_add (heap : HeapRange) (diff brk : Word) :
    ((heap.pbrk brk + diff).toNat : ℤ) = target heap diff brk % 2 ^ 32 := by
  have hdiff : (diff.toInt : ℤ) % 2 ^ 32 = diff.toNat := by
    have hbmod := Int.bmod_emod (x := diff.toNat) (m := 2 ^ 32)
    rw [BitVec.toInt_eq_toNat_bmod]
    exact hbmod.trans (Int.emod_eq_of_lt (Int.natCast_nonneg _) (Int.ofNat_lt.mpr diff.isLt))
  rw [target, BitVec.toNat_add, Int.natCast_emod, Int.natCast_add, ← hdiff]
  exact Int.add_emod_emod ..

/-- A call is refused just if the wrapped target is behind the heap. -/
theorem sbrk_eq (heap : HeapRange) (diff brk : Word) :
    sbrk heap diff brk =
      if (heap.stop.toNat : ℤ) < target heap diff brk % 2 ^ 32 then (none, heap.pbrk brk)
      else (some (heap.pbrk brk), heap.pbrk brk + diff) := by
  rw [sbrk, ← toNat_pbrk_add]
  simp only [BitVec.lt_def, Int.ofNat_lt]

/-- Inside of the heap, `NULL` stands for its start only. -/
theorem pbrk_of_le {p : Word} (h : heap.start ≤ p) : heap.pbrk p = p := by
  unfold HeapRange.pbrk
  split
  · next hzero =>
    subst hzero
    exact BitVec.le_antisymm h (BitVec.le_def.mpr (Nat.zero_le _))
  · rfl

theorem pbrk_pbrk (heap : HeapRange) (brk : Word) : heap.pbrk (heap.pbrk brk) = heap.pbrk brk := by
  by_cases hzero : brk = 0
  · have hpbrk : heap.pbrk brk = heap.start := if_pos hzero
    rw [hpbrk]
    exact pbrk_of_le (BitVec.le_refl _)
  · have hpbrk : heap.pbrk brk = brk := if_neg hzero
    rw [hpbrk, hpbrk]

/-- From a break inside of the heap, a call does what it should just if the target is there, or
the call is refused. -/
theorem sbrkMeets_iff (hwithin : Within heap brk) : SbrkMeets heap diff brk ↔
    Targeted heap diff brk := by
  have heq := sbrk_eq heap diff brk
  have hadd := toNat_pbrk_add heap diff brk
  by_cases hrefused : (heap.stop.toNat : ℤ) < target heap diff brk % 2 ^ 32
  · rw [if_pos hrefused] at heq
    constructor
    · exact fun _ => .inr hrefused
    · intro _
      rw [SbrkMeets, heq]
      refine ⟨?_, pbrk_pbrk heap brk⟩
      rwa [Within, pbrk_pbrk]
  · rw [if_neg hrefused] at heq
    rw [SbrkMeets, heq]
    constructor
    · rintro ⟨⟨hstart, hstop⟩, -, hmoved⟩
      rw [BitVec.le_def] at hstart hstop
      left
      rw [target, ← hmoved]
      exact ⟨Int.ofNat_le.mpr hstart, Int.ofNat_le.mpr hstop⟩
    · rintro (⟨hstart, hstop⟩ | hbehind)
      · -- the target does not wrap, so it is the new break
        have hlt := heap.stop.isLt
        rw [Int.emod_eq_of_lt (by omega) (by omega)] at hadd
        have hle : heap.start ≤ heap.pbrk brk + diff := by
          rw [BitVec.le_def]
          omega
        have hpbrk := pbrk_of_le hle
        refine ⟨?_, rfl, ?_⟩
        · rw [Within, hpbrk]
          refine ⟨hle, ?_⟩
          rw [BitVec.le_def]
          omega
        · rw [hpbrk]
          exact hadd
      · exact absurd hbehind hrefused

/-! ## Section 4: Runs -/

/-- In every run of calls whose targets are in the heap or are refused, the break stays in the
heap; a call keeps it there and does what it should just if it is such a call. -/
theorem sbrk_run (heap : HeapRange) {brk : Word}
    (hrun : GuardedRun (· = 0) (SbrkStep heap) (Targeted heap) brk) :
    Within heap brk ∧ ∀ diff, SbrkMeets heap diff brk ↔ Targeted heap diff brk := by
  have hwithin : Within heap brk := by
    apply hrun.invariant (Within heap)
    · rintro _ rfl
      exact within_initial heap
    · rintro diff brk _ hbrk htarget rfl
      exact ((sbrkMeets_iff hbrk).mpr htarget).1
  exact ⟨hwithin, fun diff => sbrkMeets_iff hwithin⟩

/-- 4 KiB -/
def fourKiB : HeapRange := ⟨0x20000000, 0x20001000, by decide⟩

theorem sbrk_run_grow : Within fourKiB 0x20000100 ∧
    ∀ diff, SbrkMeets fourKiB diff 0x20000100 ↔ Targeted fourKiB diff 0x20000100 := by
  apply sbrk_run fourKiB
  -- 512 bytes more, 256 bytes less
  have hgrow : GuardedRun (· = 0) (SbrkStep fourKiB) (Targeted fourKiB) 0x20000200 :=
    .step (.start rfl) (.inl (by decide) : Targeted fourKiB 0x200 0) rfl
  exact .step hgrow (.inl (by decide) : Targeted fourKiB (-0x100) 0x20000200) rfl

/-- One byte less than nothing is below the heap. -/
theorem not_sbrkMeets : sbrk fourKiB (-1) 0 = (some 0x20000000, 0x1fffffff) ∧
    ¬Within fourKiB 0x1fffffff := by
  refine ⟨by decide, ?_⟩
  rintro ⟨hstart, -⟩
  exact absurd hstart (by decide)

end BentoLinker.Glue
