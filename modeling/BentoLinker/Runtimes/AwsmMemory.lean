import Mathlib.Data.Int.Notation
import Mathlib.Data.Nat.Notation
import Mathlib.Tactic.TypeStar
import Mathlib.Tactic.Ring

/-!
# Linear Memory of aWsm

The accessors that `awsm.py` generates for loads and stores of a module that aWsm has compiled, in
the two modes that check bounds, and the pointers it hands out to the runtime.

- `branchAccess`, `wrapAccess`: one load or store
- `boundsCheckBranch`, `boundsCheckWrap`: all accessors of a mode
- `Access.Inside`: what an access may do
- `sandbox_iff`: which accesses do it
-/

namespace BentoLinker.Runtimes.AwsmMemory

abbrev Word := BitVec 32

/-! ## Section 1: Accessors -/

/-- What a load or store does -/
inductive Access where
  /-- `__box_abort(-EFAULT)` -/
  | abort
  /-- a remainder of a division by zero -/
  | undefined
  /-- the bytes of linear memory from an offset on -/
  | bytes (off n : ℕ)
  deriving DecidableEq, Repr

/-- `MEMORY_SIZE - n`, for an unsigned `n`. An `int` literal is converted to `uint32_t`; one that
does not fit an `int` is a `long long`. -/
def memorySizeSub (memorySize n : ℕ) : ℤ :=
  if memorySize < 2 ^ 31 then ((memorySize : ℤ) - n) % 2 ^ 32 else (memorySize : ℤ) - n

/-- `if (off > MEMORY_SIZE - n)`, in front of an access of `n` bytes -/
def branchAccess (memorySize n : ℕ) (off : Word) : Access :=
  if memorySizeSub memorySize n < off.toNat then .abort else .bytes off.toNat n

/-- `off = off % MEMORY_SIZE`, in front of an access of `n` bytes -/
def wrapAccess (memorySize n : ℕ) (off : Word) : Access :=
  if memorySize = 0 then .undefined else .bytes (off.toNat % memorySize) n

/-- `get_memory_ptr_for_runtime`, the same in all modes; `none` when it aborts -/
def getMemoryPtrForRuntime (memorySize : ℕ) (off bounds : Word) : Option Word :=
  if memorySizeSub memorySize bounds.toNat < off.toNat then none else some off

/-- The loads and stores of a mode -/
structure Accessors where
  getI8 : Word → Access
  getI16 : Word → Access
  getI32 : Word → Access
  getI64 : Word → Access
  getF32 : Word → Access
  getF64 : Word → Access
  setI8 : Word → Access
  setI16 : Word → Access
  setI32 : Word → Access
  setI64 : Word → Access
  setF32 : Word → Access
  setF64 : Word → Access

/-- `BOUNDS_CHECK_BRANCH` -/
def boundsCheckBranch (memorySize : ℕ) : Accessors where
  getI8 := branchAccess memorySize 1
  getI16 := branchAccess memorySize 2
  getI32 := branchAccess memorySize 4
  getI64 := branchAccess memorySize 8
  getF32 := branchAccess memorySize 4
  getF64 := branchAccess memorySize 8
  setI8 := branchAccess memorySize 1
  setI16 := branchAccess memorySize 2
  setI32 := branchAccess memorySize 4
  setI64 := branchAccess memorySize 8
  setF32 := branchAccess memorySize 4
  setF64 := branchAccess memorySize 8

/-- `BOUNDS_CHECK_WRAP` -/
def boundsCheckWrap (memorySize : ℕ) : Accessors where
  getI8 := wrapAccess memorySize 1
  getI16 := wrapAccess memorySize 2
  getI32 := wrapAccess memorySize 4
  getI64 := wrapAccess memorySize 8
  getF32 := wrapAccess memorySize 4
  getF64 := wrapAccess memorySize 8
  setI8 := wrapAccess memorySize 1
  setI16 := wrapAccess memorySize 2
  setI32 := wrapAccess memorySize 4
  setI64 := wrapAccess memorySize 8
  setF32 := wrapAccess memorySize 4
  setF64 := wrapAccess memorySize 8

/-- The modes of `--bounds_check` that check -/
inductive Mode where
  | branch
  | wrap
  deriving DecidableEq, Repr

/-- `BOUNDS_CHECKS` -/
def boundsChecks : Mode → ℕ → Accessors
  | .branch => boundsCheckBranch
  | .wrap => boundsCheckWrap

/-- The accessors, each with the size of what it loads or stores -/
def Accessors.all (a : Accessors) : List (ℕ × (Word → Access)) :=
  [(1, a.getI8), (2, a.getI16), (4, a.getI32), (8, a.getI64), (4, a.getF32), (8, a.getF64),
    (1, a.setI8), (2, a.setI16), (4, a.setI32), (8, a.setI64), (4, a.setF32), (8, a.setF64)]

/-! ## Section 2: The sandbox -/

/-- An access aborts, or all its bytes are in `[0, MEMORY_SIZE)`. -/
def Access.Inside (memorySize : ℕ) : Access → Prop
  | .abort => True
  | .undefined => False
  | .bytes off n => off + n ≤ memorySize

/-- A pointer that is handed out has all its bytes in `[0, MEMORY_SIZE)`. -/
def HandsOutInside (memorySize : ℕ) (off bounds : Word) : Prop :=
  ∀ ptr, getMemoryPtrForRuntime memorySize off bounds = some ptr →
    ptr.toNat + bounds.toNat ≤ memorySize

/-- Where the subtraction in a check does not wrap around, or wraps around to less than the
offset -/
def SubFits (memorySize n off : ℕ) : Prop :=
  n ≤ memorySize ∨ 2 ^ 31 ≤ memorySize ∨ memorySize + 2 ^ 32 < off + n

/-- Where a mode keeps an access of `n` bytes inside -/
def Mode.Fits (mode : Mode) (memorySize n off : ℕ) : Prop :=
  match mode with
  | .branch => SubFits memorySize n off
  | .wrap => 0 < memorySize ∧ off % memorySize + n ≤ memorySize

/-- The check lets an offset pass whose bytes are not inside only when the subtraction wraps
around. -/
theorem check_iff (memorySize n : ℕ) (off : Word) (hn : n < 2 ^ 32) :
    (memorySizeSub memorySize n < off.toNat ∨ off.toNat + n ≤ memorySize) ↔
      SubFits memorySize n off.toNat := by
  have hoff := off.isLt
  unfold memorySizeSub SubFits
  split
  · next hint =>
    rcases Nat.lt_or_ge memorySize n with hlt | hle
    · -- the difference is negative, and wraps around
      have hwrap : ((memorySize : ℤ) - n) % 2 ^ 32 = (memorySize : ℤ) - n + 2 ^ 32 := by
        rw [← Int.add_emod_right]
        exact Int.emod_eq_of_lt (by omega) (by omega)
      rw [hwrap]
      omega
    · have hsmall : ((memorySize : ℤ) - n) % 2 ^ 32 = (memorySize : ℤ) - n :=
        Int.emod_eq_of_lt (by omega) (by omega)
      rw [hsmall]
      omega
  · next hlong => omega

theorem branchAccess_inside_iff (memorySize n : ℕ) (off : Word) (hn : n < 2 ^ 32) :
    (branchAccess memorySize n off).Inside memorySize ↔ SubFits memorySize n off.toNat := by
  rw [← check_iff memorySize n off hn, branchAccess]
  split
  · next hcheck => exact ⟨fun _ => .inl hcheck, fun _ => trivial⟩
  · next hcheck => exact ⟨.inr, fun h => h.resolve_left hcheck⟩

theorem wrapAccess_inside_iff (memorySize n : ℕ) (off : Word) :
    (wrapAccess memorySize n off).Inside memorySize ↔
      0 < memorySize ∧ off.toNat % memorySize + n ≤ memorySize := by
  rw [wrapAccess]
  split
  · next hzero =>
    constructor
    · exact False.elim
    · rintro ⟨hpos, -⟩
      omega
  · next hne => exact ⟨fun h => ⟨Nat.pos_of_ne_zero hne, h⟩, And.right⟩

/-- An access in a mode -/
def Mode.access : Mode → ℕ → ℕ → Word → Access
  | .branch => branchAccess
  | .wrap => wrapAccess

/-- The accessors of a mode differ in their size only. -/
theorem eq_of_mem_all {mode : Mode} {memorySize n : ℕ} {f : Word → Access}
    (h : (n, f) ∈ (boundsChecks mode memorySize).all) :
    n ≤ 8 ∧ f = mode.access memorySize n := by
  cases mode with
  | branch =>
    simp only [boundsChecks, boundsCheckBranch, Accessors.all, List.mem_cons, Prod.mk.injEq,
      List.not_mem_nil, or_false] at h
    rcases h with ⟨rfl, rfl⟩ | ⟨rfl, rfl⟩ | ⟨rfl, rfl⟩ | ⟨rfl, rfl⟩ | ⟨rfl, rfl⟩ | ⟨rfl, rfl⟩ |
      ⟨rfl, rfl⟩ | ⟨rfl, rfl⟩ | ⟨rfl, rfl⟩ | ⟨rfl, rfl⟩ | ⟨rfl, rfl⟩ | ⟨rfl, rfl⟩ <;>
      exact ⟨by decide, rfl⟩
  | wrap =>
    simp only [boundsChecks, boundsCheckWrap, Accessors.all, List.mem_cons, Prod.mk.injEq,
      List.not_mem_nil, or_false] at h
    rcases h with ⟨rfl, rfl⟩ | ⟨rfl, rfl⟩ | ⟨rfl, rfl⟩ | ⟨rfl, rfl⟩ | ⟨rfl, rfl⟩ | ⟨rfl, rfl⟩ |
      ⟨rfl, rfl⟩ | ⟨rfl, rfl⟩ | ⟨rfl, rfl⟩ | ⟨rfl, rfl⟩ | ⟨rfl, rfl⟩ | ⟨rfl, rfl⟩ <;>
      exact ⟨by decide, rfl⟩

/-- Every load and store of a mode stays inside exactly where the mode keeps it, and every pointer
is inside exactly where the subtraction of its bounds fits. -/
theorem sandbox_iff (mode : Mode) (memorySize : ℕ) :
    (∀ n f, (n, f) ∈ (boundsChecks mode memorySize).all → ∀ off : Word,
      (f off).Inside memorySize ↔ mode.Fits memorySize n off.toNat) ∧
    ∀ off bounds, HandsOutInside memorySize off bounds ↔
      SubFits memorySize bounds.toNat off.toNat := by
  constructor
  · intro n f hmem off
    obtain ⟨hn, rfl⟩ := eq_of_mem_all hmem
    cases mode with
    | branch => exact branchAccess_inside_iff memorySize n off (by omega)
    | wrap => exact wrapAccess_inside_iff memorySize n off
  · intro off bounds
    rw [← check_iff memorySize bounds.toNat off bounds.isLt, HandsOutInside,
      getMemoryPtrForRuntime]
    split
    · next hcheck =>
      constructor
      · exact fun _ => .inl hcheck
      · rintro - ptr ⟨⟩
    · next hcheck =>
      constructor
      · exact fun h => .inr (h off rfl)
      · rintro h ptr ⟨⟩
        exact h.resolve_left hcheck

/-- In the default memory of one page, a load of two bytes from the last one in the wrapping
mode -/
theorem not_sandboxed : ¬∀ (mode : Mode) (memorySize : ℕ),
    (∀ n f, (n, f) ∈ (boundsChecks mode memorySize).all → ∀ off : Word,
      (f off).Inside memorySize) ∧
    ∀ off bounds, HandsOutInside memorySize off bounds := by
  intro hclaim
  have hinside := (hclaim .wrap 65536).1 2 (wrapAccess 65536 2) (.tail _ (.head _)) 65535
  have hbytes : wrapAccess 65536 2 65535 = .bytes 65535 2 := by decide
  rw [hbytes] at hinside
  exact absurd hinside (by decide : ¬65535 + 2 ≤ 65536)

end BentoLinker.Runtimes.AwsmMemory
