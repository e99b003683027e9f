import BentoLinker.Lib.WordRange
import BentoLinker.Mpu.State

/-!
# MPU Handlers

The exception handlers of `MPU_HANDLERS` in `armv7m_mpu.py`, statement by statement.

- `saveFrame` / `popFrame`: what the assembly around a setup function stores and loads
- `callsetup`, `returnsetup`, `faultsetup`: the setup functions
- `callhandler`, `returnhandler`, `faulthandler`, `mpuHandler`: the handlers

The registers in which the assembly passes arguments are arguments here. The C functions'
own stack frames, on the interrupt stack, are left out.
-/

namespace BentoLinker.Mpu

variable {μ : Type}

/-- `-EFAULT` -/
def negEFAULT : Word := BitVec.ofInt 32 (-14)

/-- `-ELOOP` -/
def negELOOP : Word := BitVec.ofInt 32 (-40)

/-! ## Section 1: Frames -/

/-- `tst lr, #0x10; eq`: does the exception frame hold floating-point registers? -/
def hasFp (lr : Word) : Bool := lr &&& 0x10 = 0

/-- Bytes of saved registers above `struct __box_frame` -/
def savedSize (lr : Word) : Word := if hasFp lr then 96 else 32

/-- Consecutive words from `a` on -/
def wordsAt {n : ℕ} (a : Word) (v : Fin n → Word) : List (Word × Word) :=
  (WordRange.addrs a n).zip (List.ofFn v)

/-- `stmdb r1!, {r4-r11}`, `vstmdbeq r1!, {s16-s31}` -/
def saveRegs (m : Machine μ) (lr sp : Word) : Machine μ :=
  let m := m.storeAll (wordsAt (sp - 32) m.regs.core)
  if hasFp lr then m.storeAll (wordsAt (sp - 96) m.regs.fpu) else m

/-- `vldmiaeq r1!, {s16-s31}`, `ldmia r1!, {r4-r11}` behind a `struct __box_frame` at `sp` -/
def popFrame (m : Machine μ) (lr sp : Word) : Outcome μ :=
  let sp := sp + 16
  let fpu := if hasFp lr then fun i : Fin 16 => m.load (sp + 4 * BitVec.ofNat 32 i) else m.regs.fpu
  let sp := if hasFp lr then sp + 64 else sp
  let core := fun i : Fin 8 => m.load (sp + 4 * BitVec.ofNat 32 i)
  .resume lr (sp + 32) { m with regs := ⟨core, fpu⟩ }

/-- `frame->fp`, `frame->lr`, `frame->sp`, `frame->caller` -/
def frameWords (sp fp : Word) (s : BoxState) : List (Word × Word) :=
  [(sp, fp), (sp + 4, s.lr), (sp + 8, s.sp), (sp + 12, s.caller)]

/-- `lr`, `sp` and `caller` as the frame at `sp` has them -/
def restoreState (m : Machine μ) (sp : Word) (s : BoxState) : BoxState :=
  { s with lr := m.load (sp + 4), sp := m.load (sp + 8), caller := m.load (sp + 12) }

/-! ## Section 2: Faults -/

/-- The return frame of a fault: `r0` is the error, `pc` the stacked link -/
def faultFrame (m : Machine μ) (targetfp err : Word) : Machine μ :=
  let m := m.store targetfp err
  let m := m.store (targetfp + 4) 0
  let m := m.store (targetfp + 8) 0
  let m := m.store (targetfp + 12) 0
  m.store (targetfp + 24) (m.load (targetfp + 20))

/-- `__box_faultsetup`; the pair the source returns is the outcome's `lr` and `sp`. -/
def faultsetup (c : Config μ) (m : Machine μ) (err : Word) : Outcome μ :=
  -- mark box as uninitialized
  let m := m.setState m.active { m.state m.active with initialized := false }
  if c.aborts m.active then .hook err m
  else
    let state := m.state m.active
    if c.count < state.caller then .wild
    else
      let targetstate := m.state state.caller
      let targetlr := targetstate.lr
      let targetsp := targetstate.sp
      let targetfp := m.load targetsp
      -- in call?
      if targetlr = 0 then .abort negELOOP m
      else
        -- check if our return target supports erroring
        let op := m.load (targetfp + 24)
        if op &&& 2 = 0 then .abort err m
        else
          let m := { m with active := state.caller }
          let m := m.setState m.active (restoreState m targetsp targetstate)
          let m := m.mpuSwitch c
          -- copy return frame
          let m := faultFrame m targetfp err
          .resume targetlr targetsp m

/-- `__box_faulthandler` -/
def faulthandler (c : Config μ) (m : Machine μ) (err : Word) : Outcome μ :=
  match faultsetup c m err with
  | .resume lr sp m => popFrame m lr sp
  | o => o

/-! ## Section 3: Calls -/

/-- `(op/4)-2` -/
def callIndex (op : Word) : Word := op / 4 - 2

/-- The domain a call goes to -/
def callTarget (c : Config μ) (caller op : Word) : Word :=
  if caller = 0 then callIndex op % c.count + 1 else 0

/-- The slot of the jumptable that a call uses -/
def callSlot (c : Config μ) (caller op : Word) : Word :=
  if caller = 0 then callIndex op / c.count + 1 else callIndex op

/-- The jumptable of a call: the box's own one, or the one of sys for the calling box -/
def callTable (c : Config μ) (caller target : Word) : Word :=
  if caller = 0 then c.jumptables (target - 1) else c.sysJumptables (caller - 1)

/-- The frame a callee returns from into its code: arguments of the caller at `fp`,
`__box_return` as the link -/
def pushCallFrame (c : Config μ) (m : Machine μ) (targetsp fp targetpc : Word) : Machine μ :=
  let m := m.store targetsp (m.load fp)
  let m := m.store (targetsp + 4) (m.load (fp + 4))
  let m := m.store (targetsp + 8) (m.load (fp + 8))
  let m := m.store (targetsp + 12) (m.load (fp + 12))
  let m := m.store (targetsp + 16) (m.load (fp + 16))
  let m := m.store (targetsp + 20) c.callregion
  let m := m.store (targetsp + 24) targetpc
  m.store (targetsp + 28) (m.load (fp + 28))

/-- `__box_callsetup` -/
def callsetup (c : Config μ) (m : Machine μ) (lr sp op fp : Word) : Outcome μ :=
  if c.count < m.active then .wild
  else
    -- save lr + sp
    let state := m.state m.active
    let m := m.storeAll (frameWords sp fp state)
    let m := m.setState m.active { state with lr := lr, sp := sp }
    let caller := m.active
    let m := { m with active := callTarget c caller op }
    let targetpc := m.load (callTable c caller m.active + 4 * callSlot c caller op)
    let targetstate := m.state m.active
    let targetlr := targetstate.lr
    let targetsp := targetstate.sp
    -- keep track of caller, don't allow returns while executing
    let m := m.setState m.active { targetstate with caller := caller, lr := 0, sp := targetsp }
    let m := m.mpuSwitch c
    -- setup new call frame
    let targetsp := targetsp - 32
    let m := pushCallFrame c m targetsp fp targetpc
    .resume targetlr targetsp m

/-- `__box_callhandler` -/
def callhandler (c : Config μ) (m : Machine μ) (lr sp op : Word) : Outcome μ :=
  callsetup c (saveRegs m lr sp) lr (sp - savedSize lr - 16) op sp

/-! ## Section 4: Returns -/

/-- The return frame of a return: results of the callee at `fp`, `pc` the stacked link -/
def returnFrame (m : Machine μ) (targetfp fp : Word) : Machine μ :=
  let m := m.store targetfp (m.load fp)
  let m := m.store (targetfp + 4) (m.load (fp + 4))
  let m := m.store (targetfp + 8) (m.load (fp + 8))
  let m := m.store (targetfp + 12) (m.load (fp + 12))
  m.store (targetfp + 24) (m.load (targetfp + 20))

/-- `__box_returnsetup` -/
def returnsetup (c : Config μ) (m : Machine μ) (lr fp : Word) : Outcome μ :=
  -- save lr, drop the exception frame
  let state := m.state m.active
  let m := m.setState m.active { state with lr := lr, sp := state.sp }
  let m := { m with active := state.caller }
  if c.count < m.active then .wild
  else
    let targetstate := m.state m.active
    let targetlr := targetstate.lr
    -- in call?
    if targetlr = 0 then faulthandler c m negEFAULT
    else
      let targetsp := targetstate.sp
      let targetfp := m.load targetsp
      let m := m.setState m.active (restoreState m targetsp targetstate)
      let m := m.mpuSwitch c
      -- copy return frame
      let m := returnFrame m targetfp fp
      popFrame m targetlr targetsp

/-- `__box_returnhandler` -/
def returnhandler (c : Config μ) (m : Machine μ) (lr sp : Word) : Outcome μ :=
  returnsetup c m lr sp

/-! ## Section 5: Dispatch -/

/-- Where `__box_mpu_handler` branches to -/
inductive Branch where
  | return_
  | abort
  | call
  | fault
  deriving Repr, DecidableEq

/-- The comparisons of `__box_mpu_handler` on the stacked program counter -/
def branchOf (c : Config μ) (pc : Word) : Branch :=
  let op := pc - c.callregion
  if op = 0 then .return_
  else if op = 4 then .abort
  else if op < c.callsize then .call
  else .fault

/-- `__box_mpu_handler`, entered with `lr` and the stack pointer that `lr` selects -/
def mpuHandler (c : Config μ) (m : Machine μ) (lr sp : Word) : Outcome μ :=
  let pc := m.load (sp + 24)
  match branchOf c pc with
  | .return_ => returnhandler c m lr sp
  | .abort => faulthandler c m (m.load sp)
  | .call => callhandler c m lr sp (pc - c.callregion)
  | .fault => faulthandler c m negEFAULT

end BentoLinker.Mpu
