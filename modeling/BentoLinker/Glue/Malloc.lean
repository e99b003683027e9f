import Mathlib.Data.Nat.Notation
import Mathlib.Logic.Function.Basic
import Mathlib.Tactic.Ring

/-!
# The Replacement Heap

`REPLACE_ME_HEAP` in `heap_glue.py`, the heap of boxes in WebAssembly.

- `Heap`, `load`, `store`: the memory of the heap, in words
- `malloc`: `__wrap_malloc`, first fit
- `free`: `__wrap_free`, with the free neighbours

Pointers are indices of words. An access outside of the heap is an outcome of its own, so that
pointers that stay inside need not be reduced to 32 bits.
-/

namespace BentoLinker.Glue

abbrev Word := BitVec 32

/-! ## Section 1: Memory -/

/-- What the heap is made for. It is a part of the memory of the module, at its end. -/
structure HeapConfig where
  /-- `%(heap_size)d` -/
  heapSize : ℕ
  /-- `__builtin_wasm_memory_size(0)` -/
  pages : ℕ
  aligned : heapSize % 4 = 0
  two_words : 8 ≤ heapSize
  inside : heapSize < pages * 64 * 1024
  bounded : pages * 64 * 1024 < 2 ^ 32

/-- A heap of words in a memory of one page -/
def HeapConfig.onePage (words : ℕ) (two_words : 1 < words) (inside : words < 0x4000) :
    HeapConfig where
  heapSize := 4 * words
  pages := 1
  aligned := Nat.mul_mod_right 4 words
  two_words := Nat.mul_le_mul_left 4 two_words
  inside := Nat.mul_lt_mul_of_pos_left inside (by decide)
  bounded := by decide

structure Heap where
  /-- `__heap_start`, initially `NULL` -/
  start : ℕ
  /-- `__heap_end` -/
  stop : ℕ
  mem : ℕ → Word

/-- Why a call does not return -/
inductive Halt where
  /-- `__box_abort(-EFAULT)` -/
  | abort
  /-- an access outside of the heap -/
  | wild
  deriving Repr, DecidableEq

/-- The bit of a tag that marks a block as used -/
def usedBit : Word := 0x80000000

/-- `psize & 0x7fffffff` -/
def tagSize (tag : Word) : ℕ := (tag &&& 0x7fffffff).toNat

/-- `ptr[i] >= 0` -/
def isFree (tag : Word) : Bool := 0 ≤ tag.toInt

/-- `(size+3) / 4` -/
def words (size : Word) : Word := (size + 3) / 4

namespace Heap

def Contains (heap : Heap) (a : ℕ) : Prop := heap.start ≤ a ∧ a < heap.stop

instance (heap : Heap) (a : ℕ) : Decidable (heap.Contains a) := by
  unfold Contains
  infer_instance

def load (heap : Heap) (a : ℕ) : Except Halt Word :=
  if heap.Contains a then .ok (heap.mem a) else .error .wild

def store (heap : Heap) (a : ℕ) (v : Word) : Except Halt Heap :=
  if heap.Contains a then .ok { heap with mem := Function.update heap.mem a v } else .error .wild

/-! ## Section 2: malloc -/

/-- The heap once it has been set up, by the first call of `__wrap_malloc` -/
def ready (config : HeapConfig) (heap : Heap) : Heap :=
  if heap.start = 0 then
    let stop := config.pages * 64 * 1024 / 4
    let start := stop - config.heapSize / 4
    let psize : Word := BitVec.ofNat 32 (config.heapSize / 4 - 2)
    { start, stop, mem := Function.update (Function.update heap.mem start psize) (stop - 1) psize }
  else heap

/-- The block at `ptr` has been found. -/
def take (size : Word) (ptr : ℕ) (heap : Heap) : Except Halt (Option ℕ × Heap) := do
  let psize := heap.mem ptr
  -- should split?
  let (psize, heap) ←
    if size + 2 ≤ psize then do
      let heap ← heap.store (ptr + size.toNat + 2) (psize - (size + 2))
      let heap ← heap.store (ptr + psize.toNat + 1) (psize - (size + 2))
      let heap ← heap.store ptr size
      let heap ← heap.store (ptr + size.toNat + 1) size
      pure (size, heap)
    else pure (psize, heap)
  -- mark as used
  let heap ← heap.store ptr (psize ||| usedBit)
  let heap ← heap.store (ptr + size.toNat + 1) (psize ||| usedBit)
  return (some (ptr + 1), heap)

/-- The loop of `__wrap_malloc` -/
def mallocLoop (size : Word) (ptr : ℕ) (heap : Heap) : Except Halt (Option ℕ × Heap) :=
  if ptr < heap.stop then do
    -- make sure heap isn't corrupted
    let psize ← heap.load ptr
    let foot ← heap.load (ptr + tagSize psize + 1)
    if psize ≠ foot then .error .abort
    -- fits?
    else if size.sle psize then take size ptr heap
    else mallocLoop size (ptr + tagSize psize + 2) heap
  else .ok (none, heap)
termination_by heap.stop - ptr

/-- `__wrap_malloc` -/
def malloc (config : HeapConfig) (size : Word) (heap : Heap) : Except Halt (Option ℕ × Heap) :=
  let heap := heap.ready config
  mallocLoop (words size) heap.start heap

/-! ## Section 3: free -/

/-- The loop of `__wrap_free`: the block at `ptr` with its free neighbours -/
def coalesce (heap : Heap) (ptr psize : ℕ) : ℕ × ℕ :=
  if heap.start < ptr - 1 ∧ isFree (heap.mem (ptr - 1)) then
    let tag := (heap.mem (ptr - 1)).toNat
    coalesce heap (ptr - (tag + 2)) (psize + (tag + 2))
  else if ptr + psize + 2 < heap.stop ∧ isFree (heap.mem (ptr + psize + 2)) then
    let tag := (heap.mem (ptr + psize + 2)).toNat
    coalesce heap ptr (psize + (tag + 2))
  else (ptr, psize)
termination_by ptr + (heap.stop - (ptr + psize))

/-- `__wrap_free` -/
def free (pptr : ℕ) (heap : Heap) : Except Halt Heap :=
  if pptr = 0 then .ok heap
  else do
    let ptr := pptr - 1
    let psize ← heap.load ptr
    let foot ← heap.load (ptr + tagSize psize + 1)
    -- make sure heap isn't corrupted
    if psize ≠ foot then .error .abort
    else
      -- coalesce blocks?
      let (ptr, psize) := heap.coalesce ptr (tagSize psize)
      -- mark as free
      let heap ← heap.store ptr (BitVec.ofNat 32 psize)
      heap.store (ptr + psize + 1) (BitVec.ofNat 32 psize)

end Heap

end BentoLinker.Glue
