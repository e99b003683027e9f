import BentoLinker.Recipe.Region
import BentoLinker.Lib.Pmsa
import BentoLinker.Mpu.State
import Mathlib.Data.Nat.Log

/-!
# Memories and MPU Regions

How the memories of a recipe become MPU regions: the checks and encodings of
`armv7m_mpu.py` and `armv8m_mpu.py`, and `MPU_IMPL`, which writes them to the registers.

- `Memory`, `Region`: regions of the recipe that the target can address
- `checkMpuRegion7`, `buildMpuRegions7`, `mpuInit7`, `mpuSwitch7`: ARMv7-M
- `checkMpuRegion8`, `buildMpuRegions8`, `mpuInit8`, `mpuSwitch8`: ARMv8-M

Logarithms are exact here; the source takes them in floating point.
-/

namespace BentoLinker.Recipe

open Pmsa

/-- The flag that an access needs -/
def Mode.has (mode : Mode) : Access → Bool
  | .read => mode.r
  | .write => mode.w
  | .execute => mode.x

end BentoLinker.Recipe

namespace BentoLinker.Mpu

open Pmsa

/-! ## Section 1: Ranges of a recipe -/

/-- A region in the address space of a 32-bit target -/
structure Region extends range : Recipe.Region where
  fits : addr + size ≤ 2 ^ 32
  deriving DecidableEq

/-- A memory of a box, with its mode -/
structure Memory extends Region where
  mode : Recipe.Mode
  deriving DecidableEq

/-! ## Section 2: ARMv7-M -/

/-- `math.log2(size) % 1 == 0` -/
def isPowerOfTwo (size : ℕ) : Bool := 2 ^ Nat.log 2 size = size

/-- The three assertions on a region: a power of two, aligned to it, and not too small -/
def checkRegion7 (region : Recipe.Region) : Bool :=
  isPowerOfTwo region.size && region.addr % region.size = 0 && 32 ≤ region.size

/-- `_check_call_region` -/
def checkCallRegion7 (callRegion : Recipe.Region) : Bool := checkRegion7 callRegion

/-- `_check_mpu_region` -/
def checkMpuRegion7 (memory : Memory) : Bool := checkRegion7 memory.range

/-- The `rasr` of `_build_mpu_regions` -/
def rasr7 (memory : Memory) : Word :=
  (if !memory.mode.x then 0x10000000 else 0 : Word) |||
    (if memory.mode.r && memory.mode.w then 0x03000000
      else if memory.mode.r then 0x02000000 else 0 : Word) |||
    BitVec.ofNat 32 (Nat.log 2 memory.size - 1) <<< 1 ||| 1

/-- `_build_mpu_regions`: the entries of `__box_X_mpuregions` -/
def buildMpuRegions7 (memories : List Memory) : List (Word × Word) :=
  memories.map fun memory => (BitVec.ofNat 32 memory.addr, rasr7 memory)

/-- `__box_mpu_init` -/
def mpuInit7 (callregion : Word) (calllog2 : ℕ) (m : V7.Mpu) : V7.Mpu :=
  if m.ctrl &&& 1 = 0 then
    -- setup call region
    let m := m.writeRbar (callregion ||| 0x10)
    -- disallow execution
    let m := m.writeRasr (0x10000001 ||| BitVec.ofNat 32 (calllog2 - 1) <<< 1)
    m.writeCtrl 5
  else m

/-- One region of the loop of `__box_mpu_switch` -/
def switchRegion7 (regions : List (Word × Word)) (m : V7.Mpu) (i : ℕ) : V7.Mpu :=
  match regions[i]? with
  | some (rbar, rasr) => (m.writeRbar (rbar ||| 0x10 ||| BitVec.ofNat 32 (i + 1))).writeRasr rasr
  | none => (m.writeRbar (0x10 ||| BitVec.ofNat 32 (i + 1))).writeRasr 0

/-- `__box_mpu_switch` -/
def mpuSwitch7 (mpuregions : ℕ) (regions : List (Word × Word)) (m : V7.Mpu) : V7.Mpu :=
  let m := m.writeCtrl 0
  let m := (List.range mpuregions).foldl (switchRegion7 regions) m
  m.writeCtrl 5

/-! ## Section 3: ARMv8-M -/

/-- The assertions on a region: aligned to 32 bytes, and not too small -/
def checkRegion8 (region : Recipe.Region) : Bool :=
  region.addr % 32 = 0 && region.size % 32 = 0 && 32 ≤ region.size

/-- `_check_call_region` -/
def checkCallRegion8 (callRegion : Recipe.Region) : Bool := checkRegion8 callRegion

/-- `_check_mpu_region` -/
def checkMpuRegion8 (memory : Memory) : Bool := checkRegion8 memory.range

/-- The `rbar` of `_build_mpu_regions` -/
def rbar8 (memory : Memory) : Word :=
  BitVec.ofNat 32 memory.addr ||| (if !memory.mode.x then 0x1 else 0x0 : Word) |||
    (if memory.mode.r && memory.mode.w then 0x2
      else if memory.mode.r then 0x6 else 0x4 : Word)

/-- The `rlar` of `_build_mpu_regions` -/
def rlar8 (memory : Memory) : Word :=
  (0xffffffe0 &&& BitVec.ofNat 32 (memory.addr + memory.size - 1)) ||| 0x1

/-- `_build_mpu_regions` -/
def buildMpuRegions8 (memories : List Memory) : List (Word × Word) :=
  memories.map fun memory => (rbar8 memory, rlar8 memory)

/-- `__box_mpu_init` -/
def mpuInit8 (callregion callsize : Word) (m : V8.Mpu) : V8.Mpu :=
  if m.ctrl &&& 1 = 0 then
    -- setup call region, disallow execution
    let m := m.writeRnr 0
    let m := m.writeMair0 0x44
    let m := m.writeRbar (callregion ||| 0x1)
    let m := m.writeRlar ((0xffffffe0 &&& (callregion + callsize - 1)) ||| 0x1)
    m.writeCtrl 5
  else m

/-- One region of the loop of `__box_mpu_switch` -/
def switchRegion8 (regions : List (Word × Word)) (m : V8.Mpu) (i : ℕ) : V8.Mpu :=
  let m := m.writeRnr (BitVec.ofNat 32 (i + 1))
  match regions[i]? with
  | some (rbar, rlar) => (m.writeRbar rbar).writeRlar rlar
  | none => (m.writeRbar 0).writeRlar 0

/-- `__box_mpu_switch` -/
def mpuSwitch8 (mpuregions : ℕ) (regions : List (Word × Word)) (m : V8.Mpu) : V8.Mpu :=
  let m := m.writeCtrl 0
  let m := (List.range mpuregions).foldl (switchRegion8 regions) m
  m.writeCtrl 5

end BentoLinker.Mpu
