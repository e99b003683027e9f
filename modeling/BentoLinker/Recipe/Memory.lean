import BentoLinker.Recipe.Region
import Mathlib.Data.Prod.Lex
import Mathlib.Data.String.Basic

/-!
# Memories and Slices

The memories of a box, what is left of them as slices, and the search for the slice that a
request is served from.

- `Memory`, `Slice`: with and without an address that is left to the parent
- `Loader.constraints`: what a loader asks of the memory of its box
- `bestmemory`, `consume`: the first slice in the order of `keybest`, and the end of it

A slice that a request has been served from is rebuilt from its address and size right after,
so what has been consumed of it is not kept.
-/

namespace BentoLinker.Recipe

/-- `Memory`; the parent chooses the address if there is none. -/
structure Memory where
  name : String
  mode : Mode
  addr : Option ℕ
  size : ℕ
  align : Option ℕ
  deriving Repr, DecidableEq

/-- The addresses of a memory that has been placed -/
def Memory.region? (memory : Memory) : Option Region :=
  memory.addr.map fun addr => ⟨addr, memory.size⟩

/-- A memory with an address, or a slice of one -/
structure Slice extends Region where
  name : String
  mode : Mode
  align : Option ℕ
  /-- `origmemory` -/
  orig : Region
  deriving Repr, DecidableEq

/-- The memory as a slice of itself -/
def Memory.slice? (memory : Memory) : Option Slice :=
  memory.region?.map fun region =>
    { toRegion := region, name := memory.name, mode := memory.mode, align := memory.align,
      orig := region }

inductive Loader where
  | noop
  | glz
  | bd
  | fs
  deriving Repr, DecidableEq

/-- `constraints`: loaders that copy the image want RAM. The flag `c` of the glz loader is for
its own section and never asked for here. -/
def Loader.constraints : Loader → Mode → Mode
  | .noop, mode => mode
  | .glz, mode | .bd, mode | .fs, mode => { mode with p := false, w := true }

/-- `Memory.iscompatible` -/
def Slice.iscompatible (mode : Mode) (size : ℕ) (slice : Slice) : Bool :=
  slice.size ≠ 0 && mode.subset slice.mode && size ≤ slice.size

/-- `Memory.keybest` -/
def Slice.keybest (mode : Mode) (reverse : Bool) (slice : Slice) : ℕ ×ₗ ℤ ×ₗ ℤ :=
  -- 1st: the memory with the tightest mode match
  toLex (slice.mode.excess mode,
    -- 2nd: try first the memories with non-zero space remaining
    toLex (if slice.size ≠ 0 then -1 else 0,
      -- 3rd: address order, either in order or reversed
      if reverse then -(slice.addr : ℤ) else slice.addr))

/-- `Box.bestmemories` -/
def bestmemories (loader : Loader) (slices : List Slice) (mode : Mode) (size : ℕ)
    (reverse : Bool) : List Slice :=
  let mode := loader.constraints mode
  (slices.filter (Slice.iscompatible mode size)).mergeSort
    fun slice slice' => slice.keybest mode reverse ≤ slice'.keybest mode reverse

/-- `Box.bestmemory` -/
def bestmemory (loader : Loader) (slices : List Slice) (mode : Mode) (size : ℕ)
    (reverse : Bool) : Option Slice :=
  (bestmemories loader slices mode size reverse).head?

/-- `Box.consume` from the end of the best slice. Alignments are not supported. -/
def consume (loader : Loader) (slices : List Slice) (memory : Memory) : Option Region :=
  match memory.align with
  | some _ => none
  | none =>
    (bestmemory loader slices memory.mode memory.size true).map fun best =>
      ⟨best.addr + (best.size - memory.size), memory.size⟩

/-- `Memory.__init__` of a part of a slice: is the alignment kept? -/
def Slice.aligned (slice : Slice) : Bool :=
  match slice.align with
  | none | some 0 => true
  | some align => (slice.addr = 0 || slice.addr % align = 0) && slice.size % align = 0

/-- `Memory.__sub__`: the parts of a slice, if they are as aligned as the slice -/
def Slice.sub (slice : Slice) (region : Region) : Option (List Slice) :=
  let parts := (slice.toRegion.sub [region]).map fun part => { slice with toRegion := part }
  if parts.all Slice.aligned then some parts else none

/-! ## Section 1: The slice that is found -/

theorem bestmemory_spec {loader : Loader} {slices : List Slice} {mode : Mode} {size : ℕ}
    {reverse : Bool} {best : Slice} (h : bestmemory loader slices mode size reverse = some best) :
    best ∈ slices ∧ Slice.iscompatible (loader.constraints mode) size best = true := by
  unfold bestmemory bestmemories at h
  have hmem := List.mem_of_head? h
  rw [List.mem_mergeSort, List.mem_filter] at hmem
  exact hmem

/-- A request is served from the end of a slice. -/
theorem consume_spec {loader : Loader} {slices : List Slice} {memory : Memory} {region : Region}
    (h : consume loader slices memory = some region) :
    region.size = memory.size ∧ ∃ best ∈ slices, region.Within best.toRegion ∧
      region.addr + region.size = best.addr + best.size := by
  unfold consume at h
  cases halign : memory.align with
  | some align =>
    rw [halign] at h
    cases h
  | none =>
    rw [halign] at h
    obtain ⟨best, hbest, rfl⟩ := Option.map_eq_some_iff.mp h
    obtain ⟨hmem, hcompatible⟩ := bestmemory_spec hbest
    unfold Slice.iscompatible at hcompatible
    rw [Bool.and_eq_true, decide_eq_true_eq] at hcompatible
    refine ⟨rfl, best, hmem, ⟨?_, ?_⟩, ?_⟩
    · simp only
      omega
    · simp only
      omega
    · simp only
      omega

theorem map_toRegion_sub {slice : Slice} {region : Region} {parts : List Slice}
    (h : slice.sub region = some parts) :
    parts.map Slice.toRegion = slice.toRegion.sub [region] := by
  unfold Slice.sub at h
  dsimp only at h
  split at h
  · cases h
    rw [List.map_map]
    exact List.map_id _
  · cases h

end BentoLinker.Recipe
