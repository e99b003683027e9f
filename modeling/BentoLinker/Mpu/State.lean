import BentoLinker.Lib.TracedMemory
import Mathlib.Data.Fin.Basic

/-!
# MPU Runtime State

The state that the handlers of the MPU runtimes work on (`MPU_STATE`, `BOX_STATE` and
the tables of `build_parent_c_epilogue` in `armv7m_mpu.py`): the record of every
domain, the memory, the callee-saved registers, and the MPU.

- Words and addresses are `BitVec 32`; memory holds a word at each word address
- Domain 0 is sys, domain `i + 1` is box `i`
- `Config` holds the constants the recipe is compiled to

The registers of the MPU are a parameter here, with the effect of `__box_mpu_switch`
as a field of the configuration: the ARMv7-M and the ARMv8-M runtime share the handlers.
-/

namespace BentoLinker.Mpu

abbrev Word := BitVec 32

/-- `struct __box_state` -/
structure BoxState where
  initialized : Bool
  caller : Word
  lr : Word
  sp : Word
  deriving Repr, DecidableEq

/-- The registers a call saves: `r4-r11` and `s16-s31` -/
structure Regs where
  core : Fin 8 → Word
  fpu : Fin 16 → Word

/-- What the handlers read and write; `μ` are the registers of the MPU. -/
structure Machine (μ : Type) where
  /-- `__box_active` -/
  active : Word
  /-- `__box_state[]` -/
  state : Word → BoxState
  ram : TracedMemory Word Word
  regs : Regs
  mpu : μ

/-- The constants of a recipe -/
structure Config (μ : Type) where
  /-- `__BOX_COUNT` -/
  count : Word
  /-- the runtime is there because a box uses it -/
  count_pos : 0 < count
  /-- `__box_callregion` -/
  callregion : Word
  /-- `callsize`, the limit of the range test -/
  callsize : Word
  /-- `__box_jumptables[]` -/
  jumptables : Word → Word
  /-- `__box_sys_jumptables[]` -/
  sysJumptables : Word → Word
  /-- which domains have an entry in `__box_aborts[]` -/
  aborts : Word → Bool
  /-- `__box_mpu_switch(__box_mpuregions[domain])` -/
  mpuSwitch : Word → μ → μ

/-- How a handler ends. -/
inductive Outcome (μ : Type) where
  /-- exception return with `lr` and the stack pointer it selects -/
  | resume (lr sp : Word) (m : Machine μ)
  /-- `__box_abort(err)`, which does not return -/
  | abort (err : Word) (m : Machine μ)
  /-- the abort hook of a box, which does not return -/
  | hook (err : Word) (m : Machine μ)
  /-- a domain index behind the end of `__box_state[]` -/
  | wild

/-- The machine at the end of a handler -/
def Outcome.machine? {μ : Type} : Outcome μ → Option (Machine μ)
  | .resume _ _ m => some m
  | .abort _ m => some m
  | .hook _ m => some m
  | .wild => none

namespace Machine

variable {μ : Type}

/-- The word at address `a` -/
def load (m : Machine μ) (a : Word) : Word := m.ram.cells a

def store (m : Machine μ) (a v : Word) : Machine μ := { m with ram := m.ram.store a v }

def storeAll (m : Machine μ) (writes : List (Word × Word)) : Machine μ :=
  { m with ram := m.ram.storeAll writes }

/-- `*__box_state[d] = s` -/
def setState (m : Machine μ) (d : Word) (s : BoxState) : Machine μ :=
  { m with state := Function.update m.state d s }

/-- `__box_mpu_switch(__box_mpuregions[__box_active])` -/
def mpuSwitch (c : Config μ) (m : Machine μ) : Machine μ :=
  { m with mpu := c.mpuSwitch m.active m.mpu }

section Fields

variable (c : Config μ) (m : Machine μ) (a v d : Word) (s : BoxState)
  (writes : List (Word × Word))

@[simp] theorem active_store : (m.store a v).active = m.active := rfl
@[simp] theorem state_store : (m.store a v).state = m.state := rfl
@[simp] theorem regs_store : (m.store a v).regs = m.regs := rfl
@[simp] theorem ram_store : (m.store a v).ram = m.ram.store a v := rfl
@[simp] theorem mpu_store : (m.store a v).mpu = m.mpu := rfl

@[simp] theorem active_storeAll : (m.storeAll writes).active = m.active := rfl
@[simp] theorem state_storeAll : (m.storeAll writes).state = m.state := rfl
@[simp] theorem regs_storeAll : (m.storeAll writes).regs = m.regs := rfl
@[simp] theorem ram_storeAll : (m.storeAll writes).ram = m.ram.storeAll writes := rfl
@[simp] theorem mpu_storeAll : (m.storeAll writes).mpu = m.mpu := rfl

@[simp] theorem active_setState : (m.setState d s).active = m.active := rfl
@[simp] theorem state_setState : (m.setState d s).state = Function.update m.state d s := rfl
@[simp] theorem regs_setState : (m.setState d s).regs = m.regs := rfl
@[simp] theorem ram_setState : (m.setState d s).ram = m.ram := rfl
@[simp] theorem mpu_setState : (m.setState d s).mpu = m.mpu := rfl

@[simp] theorem active_mpuSwitch : (m.mpuSwitch c).active = m.active := rfl
@[simp] theorem state_mpuSwitch : (m.mpuSwitch c).state = m.state := rfl
@[simp] theorem regs_mpuSwitch : (m.mpuSwitch c).regs = m.regs := rfl
@[simp] theorem ram_mpuSwitch : (m.mpuSwitch c).ram = m.ram := rfl
@[simp] theorem mpu_mpuSwitch : (m.mpuSwitch c).mpu = c.mpuSwitch m.active m.mpu := rfl

end Fields

end Machine

end BentoLinker.Mpu
