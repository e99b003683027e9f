import BentoLinker.Lib.GuardedRun
import BentoLinker.Lib.StackFrames
import Mathlib.Algebra.Order.Group.Nat

/-!
# Data Stacks

`__box_X_push` and `__box_X_pop` of the runtimes. The caller of a box takes room on the stack of the
box, in front of a call, and gives it back behind it.

1. The functions, in 32-bit arithmetic: down in the MPU and the jumptable runtime, up in the
   WebAssembly runtimes
2. Runs of calls, in which each pop is for the latest push
3. What a push does when its size does not slip
4. What a push has done when it was right
-/

namespace BentoLinker.Runtimes.DataStack

open StackFrames

abbrev Word := BitVec 32

/-! ## Section 1: The functions -/

/-- Take `size` bytes below `sp`: the pointer that is returned, and the new `sp`. -/
def pushDown (start size sp : Word) : Word × Word :=
  if sp - size < start then (0, sp) else (sp - size, sp - size)

/-- Give them back. The second branch is the failed assertion. -/
def popDown (stop size sp : Word) : Option Word :=
  if sp + size ≤ stop then some (sp + size) else none

/-- `__box_X_push` of `armv7m_mpu.py`; `sp` is a `uint32_t *`, `size = (size+3)/4` -/
def mpuPush (start size sp : Word) : Word × Word := pushDown start (4 * ((size + 3) / 4)) sp

/-- `__box_X_pop` of `armv7m_mpu.py` -/
def mpuPop (stop size sp : Word) : Option Word := popDown stop (4 * ((size + 3) / 4)) sp

/-- `__box_X_push` of `jumptable.py`; `size = ((size+3)/4)*4` -/
def jumptablePush (stackSize : ℕ) (start size sp : Word) : Word × Word :=
  if 0 < stackSize then pushDown start ((size + 3) / 4 * 4) sp else (0, sp)

/-- `__box_X_pop` of `jumptable.py` -/
def jumptablePop (stackSize : ℕ) (stop size sp : Word) : Option Word :=
  if 0 < stackSize then popDown stop ((size + 3) / 4 * 4) sp else none

/-- Take `size` bytes above `sp`: the pointer that is returned, and the new `sp`. -/
def pushUp (limit size sp : Word) : Word × Word :=
  if limit < sp + size then (0, sp) else (sp, sp + size)

/-- `__box_X_push` of `wasm3.py` and `wamr.py`. What is returned is a pointer of the module; the
address of its memory is added to it. -/
def wasmPush (dataStack size sp : Word) : Word × Word := pushUp dataStack size sp

/-- `__box_X_pop` of `wasm3.py` and `wamr.py`; that `sp - size >= 0` holds of any `uint32_t` -/
def wasmPop (size sp : Word) : Option Word := some (sp - size)

/-- `__box_push` of `awsm.py` -/
def awsmPush (memoryEnd size sp : Word) : Word × Word := pushUp memoryEnd size sp

/-- `__box_pop` of `awsm.py` -/
def awsmPop (size sp : Word) : Option Word := some (sp - size)

/-! ## Section 2: Runs -/

/-- The memory of the stack of a box, as linked -/
structure StackMemory where
  /-- `__box_X_<memory>_start` -/
  start : Word
  /-- `__box_X_<memory>_end` -/
  stop : Word
  /-- `__stack_end` of the box, behind an `ALIGN(4)` -/
  stackEnd : Word
  start_pos : 0 < start
  aligned : 4 ∣ stackEnd.toNat
  start_le : start ≤ stackEnd
  le_stop : stackEnd ≤ stop

/-- The linear memory of a box that aWsm has compiled -/
structure LinearMemory where
  /-- `__memory_start` -/
  memoryStart : Word
  /-- `__memory_end` -/
  memoryEnd : Word
  /-- `%(stack_size)d` -/
  stackSize : ℕ
  /-- `__stack_end`, which is `&__memory_start + %(stack_size)d`, is an address. -/
  stack_end : memoryStart.toNat + stackSize < 2 ^ 32
  stack_start : memoryStart.toNat + 4 < 2 ^ 32

/-- A runtime, with what its functions have been configured with -/
inductive Runtime where
  | mpu (memory : StackMemory) (stackSize : ℕ)
  | jumptable (memory : StackMemory) (stackSize : ℕ)
  /-- wasm3 and wamr, with `%(data_stack)d` -/
  | wasm (dataStack : Word)
  | awsm (memory : LinearMemory)

inductive Op where
  | push (size : Word)
  | pop (size : Word)

/-- The saved stack pointer, and the pushes that have not been popped, the latest first -/
structure Sys where
  sp : Word
  outstanding : List (Frame Word)

namespace Runtime

def push : Runtime → Word → Word → Word × Word
  | mpu memory _ => mpuPush memory.start
  | jumptable memory stackSize => jumptablePush stackSize memory.start
  | wasm dataStack => wasmPush dataStack
  | awsm memory => awsmPush memory.memoryEnd

def pop : Runtime → Word → Word → Option Word
  | mpu memory _ => mpuPop memory.stop
  | jumptable memory stackSize => jumptablePop stackSize memory.stop
  | wasm _ => wasmPop
  | awsm _ => awsmPop

/-- Where the stack memory starts; in linear memory, behind the address that means `NULL` -/
def low : Runtime → ℕ
  | mpu memory _ => memory.start.toNat
  | jumptable memory _ => memory.start.toNat
  | wasm _ => 4
  | awsm memory => memory.memoryStart.toNat + 4

/-- Where the stack memory ends -/
def high : Runtime → ℕ
  | mpu memory _ => memory.stop.toNat
  | jumptable memory _ => memory.stop.toNat
  | wasm dataStack => dataStack.toNat
  | awsm memory => memory.memoryStart.toNat + memory.stackSize

/-- The box has been initialized. Without a stack, the first entry of its jumptable, which the MPU
runtime takes for the stack pointer, may be anything; `datasp` of the jumptable runtime is not
there. -/
def Initial (r : Runtime) (s : Sys) : Prop :=
  s.outstanding = [] ∧
    match r with
    | mpu memory stackSize => 0 < stackSize → s.sp = memory.stackEnd
    | jumptable memory _ => s.sp = memory.stackEnd
    | wasm _ => s.sp = 4
    | awsm memory => s.sp = memory.memoryStart + 4

/-- A push that does not return `NULL` is outstanding. -/
def apply (r : Runtime) (s : Sys) : Op → Option Sys
  | .push size =>
    let (ptr, sp) := r.push size s.sp
    some ⟨sp, if ptr = 0 then s.outstanding else ⟨ptr, size, s.sp⟩ :: s.outstanding⟩
  | .pop size => (r.pop size s.sp).map fun sp => ⟨sp, s.outstanding.tail⟩

/-- A pop is for the latest push. -/
def Allowed (op : Op) (s : Sys) : Prop :=
  match op with
  | .push _ => True
  | .pop size => ∃ f ∈ s.outstanding.head?, f.size = size

def Step (r : Runtime) (op : Op) (s s' : Sys) : Prop := Allowed op s ∧ r.apply s op = some s'

/-- The stack pointer is in the stack memory. -/
def InRange (r : Runtime) (sp : Word) : Prop := r.low ≤ sp.toNat ∧ sp.toNat ≤ r.high

/-- The stack pointer and all outstanding pushes are in the stack memory, and these are apart. -/
structure Sound (r : Runtime) (s : Sys) : Prop where
  inRange : r.InRange s.sp
  inside : ∀ f ∈ s.outstanding, r.low ≤ f.ptr.toNat ∧ f.ptr.toNat + f.size.toNat ≤ r.high
  apart : s.outstanding.Pairwise (Frame.Apart BitVec.toNat)

/-- What a call should do -/
def Meets (r : Runtime) (op : Op) (s : Sys) : Prop :=
  match op with
  | .push size =>
    let (ptr, sp) := r.push size s.sp
    (ptr = 0 ∧ sp = s.sp ∨
      ptr ≠ 0 ∧ r.low ≤ ptr.toNat ∧ ptr.toNat + size.toNat ≤ r.high ∧
        ∀ f ∈ s.outstanding, Frame.Apart BitVec.toNat ⟨ptr, size, s.sp⟩ f) ∧
      r.InRange sp
  | .pop size => ∃ sp, r.pop size s.sp = some sp ∧ r.InRange sp ∧
      ∀ f ∈ s.outstanding.head?, sp = f.saved

/-- Neither the rounding nor the stack pointer of a push wraps around, and what the push is checked
against is the end of the stack. -/
def NoSlip (r : Runtime) (op : Op) (s : Sys) : Prop :=
  match op with
  | .pop _ => True
  | .push size =>
    match r with
    | mpu _ _ => size.toNat + 3 < 2 ^ 32 ∧ (size.toNat + 3) / 4 * 4 ≤ s.sp.toNat
    | jumptable _ stackSize => 0 < stackSize →
        size.toNat + 3 < 2 ^ 32 ∧ (size.toNat + 3) / 4 * 4 ≤ s.sp.toNat
    | wasm _ => s.sp.toNat + size.toNat < 2 ^ 32
    | awsm memory => memory.memoryEnd < s.sp + size ∨
        s.sp.toNat + size.toNat ≤ memory.memoryStart.toNat + memory.stackSize

/-- The box has a stack where the runtime needs one. -/
def Roomy : Runtime → Prop
  | mpu _ stackSize => 0 < stackSize
  | jumptable _ _ => True
  | wasm dataStack => 4 ≤ dataStack.toNat
  | awsm memory => 4 ≤ memory.stackSize

/-! ## Section 3: Right pushes -/

def growth : Runtime → Growth
  | mpu _ _ => .down
  | jumptable _ _ => .down
  | wasm _ => .up
  | awsm _ => .up

/-- What the stack pointer is a multiple of -/
def align : Runtime → ℕ
  | mpu _ _ => 4
  | jumptable _ _ => 4
  | wasm _ => 1
  | awsm _ => 1

structure Valid (r : Runtime) (sp : Word) : Prop where
  inRange : r.InRange sp
  aligned : r.align ∣ sp.toNat

/-- The invariant of runs: pop takes the stack pointer back to where the push has found it. -/
def Held (r : Runtime) (s : Sys) : Prop :=
  Stacked BitVec.toNat r.growth r.Valid (fun sp f => r.pop f.size sp = some f.saved)
    s.sp s.outstanding

theorem Held.sound {r : Runtime} {s : Sys} (h : r.Held s) : r.Sound s where
  inRange := h.pointer.inRange
  inside := h.inside fun _ hvalid => hvalid.inRange
  apart := h.apart

/-- What a push returns and leaves: nothing new, or a frame between the old and the new stack
pointer -/
inductive Pushed (r : Runtime) (size sp : Word) : Word × Word → Prop where
  | refused : Pushed r size sp (0, sp)
  | granted {ptr sp' : Word} (hne : ptr ≠ 0) (hvalid : r.Valid sp')
      (hbetween : r.growth.Between BitVec.toNat sp' ⟨ptr, size, sp⟩)
      (hpop : r.pop size sp' = some sp) : Pushed r size sp (ptr, sp')

end Runtime

/-- What a size is rounded up to, unless this overflows -/
theorem toNat_rounded (size : Word) :
    (4 * ((size + 3) / 4) : Word).toNat = (size.toNat + 3) % 2 ^ 32 / 4 * 4 := by
  have hlt : (size.toNat + 3) % 2 ^ 32 < 2 ^ 32 := Nat.mod_lt _ (by decide)
  rw [BitVec.toNat_mul, BitVec.toNat_udiv, BitVec.toNat_add]
  change 4 * ((size.toNat + 3) % 2 ^ 32 / 4) % 2 ^ 32 = _
  rw [Nat.mod_eq_of_lt (by omega), Nat.mul_comm]

section Down

variable {size sp : Word}

/-- A stack pointer that wraps around -/
theorem toNat_sub_of_lt {w : Word} (h : sp.toNat < w.toNat) :
    (sp - w).toNat = sp.toNat + 2 ^ 32 - w.toNat := by
  have hw := w.isLt
  rw [BitVec.toNat_sub, Nat.mod_eq_of_lt (by omega)]
  omega

/-- A push down whose size does not slip -/
theorem pushDown_of_fits (memory : StackMemory) (hstop : sp ≤ memory.stop)
    (haligned : 4 ∣ sp.toNat) (hsize : size.toNat + 3 < 2 ^ 32)
    (hfits : (size.toNat + 3) / 4 * 4 ≤ sp.toNat) :
    pushDown memory.start (4 * ((size + 3) / 4)) sp = (0, sp) ∨
      ∃ p : Word, pushDown memory.start (4 * ((size + 3) / 4)) sp = (p, p) ∧ p ≠ 0 ∧
        memory.start.toNat ≤ p.toNat ∧ p.toNat ≤ memory.stop.toNat ∧ 4 ∣ p.toNat ∧
        p.toNat + size.toNat ≤ sp.toNat ∧
        popDown memory.stop (4 * ((size + 3) / 4)) p = some sp := by
  have hw := toNat_rounded size
  rw [Nat.mod_eq_of_lt hsize] at hw
  generalize (4 * ((size + 3) / 4) : Word) = w at hw ⊢
  have hsub : (sp - w).toNat = sp.toNat - w.toNat := BitVec.toNat_sub_of_le (by
    rw [BitVec.le_def, hw]
    exact hfits)
  have hpos := BitVec.lt_def.mp memory.start_pos
  rw [pushDown]
  split
  · exact .inl rfl
  · next hcheck =>
    rw [BitVec.not_lt, BitVec.le_def] at hcheck
    rw [BitVec.le_def] at hstop
    refine .inr ⟨sp - w, rfl, ?_, hcheck, by omega, ?_, by omega, ?_⟩
    · intro hzero
      rw [hzero] at hcheck
      exact absurd (hpos.trans_le hcheck) (Nat.lt_irrefl _)
    · rw [hsub, hw]
      exact Nat.dvd_sub haligned (Nat.dvd_mul_left 4 _)
    · rw [popDown, BitVec.sub_add_cancel, if_pos (BitVec.le_def.mpr hstop)]

/-- A push down whose size slips returns a pointer with too little room behind it. -/
theorem pushDown_of_slip (memory : StackMemory) (hstart : memory.start ≤ sp)
    (haligned : 4 ∣ sp.toNat)
    (hslip : ¬(size.toNat + 3 < 2 ^ 32 ∧ (size.toNat + 3) / 4 * 4 ≤ sp.toNat)) :
    ∃ p : Word, pushDown memory.start (4 * ((size + 3) / 4)) sp = (p, p) ∧ p ≠ 0 ∧
      memory.stop.toNat < p.toNat + size.toNat := by
  have hw := toNat_rounded size
  generalize (4 * ((size + 3) / 4) : Word) = w at hw ⊢
  have hpos := BitVec.lt_def.mp memory.start_pos
  have hstart := BitVec.le_def.mp hstart
  have hstop := memory.stop.isLt
  have hsizelt := size.isLt
  have hsp : 4 ≤ sp.toNat := Nat.le_of_dvd (by omega) haligned
  refine ⟨sp - w, ?_⟩
  have hsub : memory.start.toNat ≤ (sp - w).toNat ∧
      memory.stop.toNat < (sp - w).toNat + size.toNat := by
    rcases Nat.lt_or_ge (size.toNat + 3) (2 ^ 32) with hlt | hge
    · -- the stack pointer wraps around
      rw [Nat.mod_eq_of_lt hlt] at hw
      rw [toNat_sub_of_lt (by omega)]
      omega
    · -- the size wraps around, and nothing is taken
      have hzero : (size.toNat + 3) % 2 ^ 32 / 4 = 0 := by omega
      rw [hzero] at hw
      rw [BitVec.toNat_sub_of_le (by rw [BitVec.le_def, hw]; exact Nat.zero_le _), hw]
      omega
  refine ⟨?_, ?_, hsub.2⟩
  · rw [pushDown, if_neg (by rw [BitVec.not_lt, BitVec.le_def]; exact hsub.1)]
  · intro hzero
    rw [hzero] at hsub
    exact absurd (hpos.trans_le hsub.1) (Nat.lt_irrefl _)

end Down

/-- A push up that is not refused -/
theorem pushUp_eq (limit : Word) {size sp : Word} (h : sp.toNat + size.toNat < 2 ^ 32) :
    pushUp limit size sp = (0, sp) ∨ pushUp limit size sp = (sp, sp + size) ∧
      (sp + size).toNat = sp.toNat + size.toNat ∧ sp.toNat + size.toNat ≤ limit.toNat := by
  have hadd : (sp + size).toNat = sp.toNat + size.toNat := by
    rw [BitVec.toNat_add, Nat.mod_eq_of_lt h]
  rw [pushUp]
  split
  · exact .inl rfl
  · next hcheck =>
    rw [BitVec.not_lt, BitVec.le_def, hadd] at hcheck
    exact .inr ⟨rfl, hadd, hcheck⟩

namespace Runtime

variable {r : Runtime} {s s' : Sys} {size : Word} {op : Op}

/-- A push that does not slip -/
theorem pushed_of_noSlip (hvalid : r.Valid s.sp) (h : r.NoSlip (.push size) s) :
    r.Pushed size s.sp (r.push size s.sp) := by
  obtain ⟨⟨hlow, hhigh⟩, haligned⟩ := hvalid
  cases r with
  | mpu memory stackSize =>
    rcases pushDown_of_fits memory (BitVec.le_def.mpr hhigh) haligned h.1 h.2 with
      heq | ⟨p, heq, hne, hstart, hstop, hdvd, hroom, hpop⟩
    · change Pushed _ _ _ (pushDown _ _ _)
      rw [heq]
      exact .refused
    · change Pushed _ _ _ (pushDown _ _ _)
      rw [heq]
      exact .granted hne ⟨⟨hstart, hstop⟩, hdvd⟩ ⟨le_rfl, hroom⟩ hpop
  | jumptable memory stackSize =>
    -- without a stack every request is refused
    by_cases hstack : 0 < stackSize
    · have hpush : (jumptable memory stackSize).push size s.sp =
          pushDown memory.start (4 * ((size + 3) / 4)) s.sp := by
        rw [BitVec.mul_comm]
        exact if_pos hstack
      obtain ⟨hsize, hfits⟩ := h hstack
      rw [hpush]
      rcases pushDown_of_fits memory (BitVec.le_def.mpr hhigh) haligned hsize hfits with
        heq | ⟨p, heq, hne, hstart, hstop, hdvd, hroom, hpop⟩
      · rw [heq]
        exact .refused
      · rw [heq]
        refine .granted hne ⟨⟨hstart, hstop⟩, hdvd⟩ ⟨le_rfl, hroom⟩ ?_
        rw [BitVec.mul_comm] at hpop
        exact (if_pos hstack).trans hpop
    · have hpush : (jumptable memory stackSize).push size s.sp = (0, s.sp) := if_neg hstack
      rw [hpush]
      exact .refused
  | wasm dataStack =>
    have hlow : 4 ≤ s.sp.toNat := hlow
    have hpop : s.sp + size - size = s.sp := BitVec.add_sub_cancel ..
    rcases pushUp_eq dataStack h with heq | ⟨heq, hadd, hle⟩
    · change Pushed _ _ _ (pushUp _ _ _)
      rw [heq]
      exact .refused
    · change Pushed _ _ _ (pushUp _ _ _)
      rw [heq]
      refine .granted ?_ ⟨⟨?_, ?_⟩, Nat.one_dvd _⟩ ⟨le_rfl, hadd.ge⟩ (congrArg some hpop)
      · intro hzero
        rw [hzero] at hlow
        exact absurd hlow (by decide)
      · change 4 ≤ (s.sp + size).toNat
        omega
      · change (s.sp + size).toNat ≤ dataStack.toNat
        omega
  | awsm memory =>
    have hlow : memory.memoryStart.toNat + 4 ≤ s.sp.toNat := hlow
    have hend := memory.stack_end
    have hpop : s.sp + size - size = s.sp := BitVec.add_sub_cancel ..
    change Pushed _ _ _ (pushUp _ _ _)
    -- the check itself can wrap around
    rcases h with hcheck | hfits
    · rw [pushUp, if_pos hcheck]
      exact .refused
    · rcases pushUp_eq memory.memoryEnd (hfits.trans_lt hend) with
        heq | ⟨heq, hadd, -⟩
      · rw [heq]
        exact .refused
      · rw [heq]
        refine .granted ?_ ⟨⟨?_, ?_⟩, Nat.one_dvd _⟩ ⟨le_rfl, hadd.ge⟩ (congrArg some hpop)
        · intro hzero
          rw [hzero] at hlow
          exact absurd hlow (by simp)
        · change memory.memoryStart.toNat + 4 ≤ (s.sp + size).toNat
          omega
        · change (s.sp + size).toNat ≤ memory.memoryStart.toNat + memory.stackSize
          omega

/-! ## Section 4: Wrong pushes -/

/-- A push that slips returns a pointer, but not to the room it was asked for. -/
theorem noSlip_of_room (hvalid : r.Valid s.sp)
    (h : (r.push size s.sp).1 ≠ 0 →
      (r.push size s.sp).1.toNat + size.toNat ≤ r.high) :
    r.NoSlip (.push size) s := by
  obtain ⟨⟨hlow, hhigh⟩, haligned⟩ := hvalid
  cases r with
  | mpu memory stackSize =>
    -- a request that slips is granted, with a region that does not hold it
    by_contra hslip
    obtain ⟨p, heq, hne, hroom⟩ :=
      pushDown_of_slip memory (BitVec.le_def.mpr hlow) haligned hslip
    have hpush : (mpu memory stackSize).push size s.sp = (p, p) := heq
    rw [hpush] at h
    exact absurd (h hne) (Nat.not_le.mpr hroom)
  | jumptable memory stackSize =>
    intro hstack
    by_contra hslip
    obtain ⟨p, heq, hne, hroom⟩ :=
      pushDown_of_slip memory (BitVec.le_def.mpr hlow) haligned hslip
    have hpush : (jumptable memory stackSize).push size s.sp = (p, p) := by
      rw [BitVec.mul_comm] at heq
      exact (if_pos hstack).trans heq
    rw [hpush] at h
    exact absurd (h hne) (Nat.not_le.mpr hroom)
  | wasm dataStack =>
    apply Nat.lt_of_not_le
    intro hwrap
    have hlow : 4 ≤ s.sp.toNat := hlow
    have hhigh : s.sp.toNat ≤ dataStack.toNat := hhigh
    have hlimit := dataStack.isLt
    have hsize := size.isLt
    -- the sum wraps around to something below the stack pointer
    have hcheck : ¬dataStack < s.sp + size := by
      rw [BitVec.lt_def, BitVec.toNat_add, Nat.mod_eq_sub_mod hwrap, Nat.mod_eq_of_lt (by omega)]
      omega
    have hpush : (wasm dataStack).push size s.sp = (s.sp, s.sp + size) := if_neg hcheck
    rw [hpush] at h
    have hne : s.sp ≠ 0 := by
      intro hzero
      rw [hzero] at hlow
      exact absurd hlow (by decide)
    have hroom : s.sp.toNat + size.toNat ≤ dataStack.toNat := h hne
    omega
  | awsm memory =>
    have hlow : memory.memoryStart.toNat + 4 ≤ s.sp.toNat := hlow
    by_cases hcheck : memory.memoryEnd < s.sp + size
    · exact .inl hcheck
    · have hpush : (awsm memory).push size s.sp = (s.sp, s.sp + size) := if_neg hcheck
      rw [hpush] at h
      have hne : s.sp ≠ 0 := by
        intro hzero
        rw [hzero] at hlow
        exact absurd hlow (by simp)
      exact .inr (h hne)

/-! ## Section 5: All runs -/

/-- The box has been initialized with its stack. -/
theorem held_initial (hroomy : r.Roomy) (h : r.Initial s) : r.Held s := by
  obtain ⟨sp, outstanding⟩ := s
  obtain ⟨rfl, hsp⟩ := h
  cases r with
  | mpu memory stackSize =>
    obtain rfl : sp = memory.stackEnd := hsp hroomy
    exact ⟨⟨BitVec.le_def.mp memory.start_le, BitVec.le_def.mp memory.le_stop⟩, memory.aligned⟩
  | jumptable memory stackSize =>
    obtain rfl : sp = memory.stackEnd := hsp
    exact ⟨⟨BitVec.le_def.mp memory.start_le, BitVec.le_def.mp memory.le_stop⟩, memory.aligned⟩
  | wasm dataStack =>
    obtain rfl : sp = 4 := hsp
    exact ⟨⟨le_rfl, hroomy⟩, Nat.one_dvd _⟩
  | awsm memory =>
    obtain rfl : sp = memory.memoryStart + 4 := hsp
    have hadd : (memory.memoryStart + 4).toNat = memory.memoryStart.toNat + 4 := by
      rw [BitVec.toNat_add]
      exact Nat.mod_eq_of_lt memory.stack_start
    refine ⟨⟨hadd.ge, ?_⟩, Nat.one_dvd _⟩
    rw [hadd]
    exact Nat.add_le_add_left hroomy _

/-- Where there is no room for a stack the stack pointer may be out of range from the start. -/
theorem roomy_of_sound (h : ∀ s, r.Initial s → r.Sound s) : r.Roomy := by
  cases r with
  | mpu memory stackSize =>
    apply Nat.pos_of_ne_zero
    rintro rfl
    obtain ⟨⟨hlow, -⟩, -, -⟩ := h ⟨0, []⟩ ⟨rfl, fun hpos => absurd hpos (Nat.lt_irrefl 0)⟩
    exact absurd ((BitVec.lt_def.mp memory.start_pos).trans_le hlow) (Nat.lt_irrefl _)
  | jumptable memory stackSize => trivial
  | wasm dataStack => exact (h ⟨4, []⟩ ⟨rfl, rfl⟩).inRange.2
  | awsm memory =>
    have hhigh := (h ⟨memory.memoryStart + 4, []⟩ ⟨rfl, rfl⟩).inRange.2
    change (memory.memoryStart + 4).toNat ≤ memory.memoryStart.toNat + memory.stackSize at hhigh
    rw [BitVec.toNat_add] at hhigh
    change (memory.memoryStart.toNat + 4) % 2 ^ 32 ≤ _ at hhigh
    rw [Nat.mod_eq_of_lt memory.stack_start] at hhigh
    exact Nat.le_of_add_le_add_left hhigh

theorem Held.pop {f : Frame Word} (h : r.Held s) (hf : f ∈ s.outstanding.head?) :
    r.pop f.size s.sp = some f.saved ∧ r.Held ⟨f.saved, s.outstanding.tail⟩ := by
  obtain ⟨sp, outstanding⟩ := s
  cases outstanding with
  | nil => cases hf
  | cons first frames =>
    cases hf
    exact ⟨h.2.2.1, h.2.2.2⟩

theorem apply_push {ptr sp : Word} (h : r.push size s.sp = (ptr, sp)) :
    r.apply s (.push size) =
      some ⟨sp, if ptr = 0 then s.outstanding else ⟨ptr, size, s.sp⟩ :: s.outstanding⟩ := by
  rw [apply, h]

theorem meets_push_iff {ptr sp : Word} (h : r.push size s.sp = (ptr, sp)) :
    r.Meets (.push size) s ↔
      (ptr = 0 ∧ sp = s.sp ∨
        ptr ≠ 0 ∧ r.low ≤ ptr.toNat ∧ ptr.toNat + size.toNat ≤ r.high ∧
          ∀ f ∈ s.outstanding, Frame.Apart BitVec.toNat ⟨ptr, size, s.sp⟩ f) ∧
        r.InRange sp := by
  rw [Meets, h]

theorem Held.step (h : r.Held s) (hok : r.NoSlip op s) (hstep : r.Step op s s') : r.Held s' := by
  obtain ⟨hallowed, happly⟩ := hstep
  cases op with
  | push size =>
    have hpushed := pushed_of_noSlip h.pointer hok
    generalize hresult : r.push size s.sp = result at hpushed
    cases hpushed with
    | refused =>
      rw [apply_push hresult] at happly
      cases happly
      exact h
    | granted hne hvalid hbetween hpop =>
      rw [apply_push hresult, if_neg hne] at happly
      cases happly
      exact ⟨hvalid, hbetween, hpop, h⟩
  | pop size =>
    obtain ⟨f, hf, rfl⟩ := hallowed
    obtain ⟨hpop, hheld⟩ := h.pop hf
    change (r.pop f.size s.sp).map _ = some s' at happly
    rw [hpop] at happly
    cases happly
    exact hheld

theorem Held.meets (h : r.Held s) (hallowed : Allowed op s) (hok : r.NoSlip op s) :
    r.Meets op s := by
  cases op with
  | push size =>
    have hpushed := pushed_of_noSlip h.pointer hok
    generalize hresult : r.push size s.sp = result at hpushed
    cases hpushed with
    | refused => exact (meets_push_iff hresult).mpr ⟨.inl ⟨rfl, rfl⟩, h.pointer.inRange⟩
    | @granted ptr sp' hne hvalid hbetween hpop =>
      have hheld : r.Held ⟨sp', ⟨ptr, size, s.sp⟩ :: s.outstanding⟩ :=
        ⟨hvalid, hbetween, hpop, h⟩
      obtain ⟨hlow, hhigh⟩ := hheld.sound.inside _ (.head _)
      refine (meets_push_iff hresult).mpr ⟨.inr ⟨hne, hlow, hhigh, ?_⟩, hvalid.inRange⟩
      exact fun f hf => hbetween.apart (h.behind f hf)
  | pop size =>
    obtain ⟨f, hf, rfl⟩ := hallowed
    obtain ⟨hpop, hheld⟩ := h.pop hf
    refine ⟨f.saved, hpop, hheld.pointer.inRange, fun f' hf' => ?_⟩
    rw [Option.mem_unique hf hf']

theorem Held.noSlip (h : r.Held s) (hmeets : r.Meets op s) : r.NoSlip op s := by
  cases op with
  | push size =>
    obtain ⟨⟨hnull, -⟩ | ⟨-, -, hroom, -⟩, -⟩ := hmeets
    · exact noSlip_of_room h.pointer fun hne => absurd hnull hne
    · exact noSlip_of_room h.pointer fun _ => hroom
  | pop size => trivial

end Runtime

/-- A box whose runtime has room for its stack starts with its stack pointer in it, and no other
does. In every run of pushes that do not slip and of pops for the latest push, the stack pointer and
all outstanding pushes are in the stack memory and apart. A next call does what it should if and
only if it does not slip. -/
theorem stack_run (r : Runtime) :
    ((∀ s, r.Initial s → r.Sound s) ↔ r.Roomy) ∧
      (r.Roomy → ∀ s, GuardedRun r.Initial r.Step r.NoSlip s →
        r.Sound s ∧ ∀ op, Runtime.Allowed op s → (r.Meets op s ↔ r.NoSlip op s)) := by
  refine ⟨⟨Runtime.roomy_of_sound, fun hroomy s h => (Runtime.held_initial hroomy h).sound⟩, ?_⟩
  intro hroomy s hrun
  have hheld : r.Held s := by
    refine hrun.invariant r.Held (fun s h => Runtime.held_initial hroomy h) ?_
    intro op s s' h hok hstep
    exact h.step hok hstep
  exact ⟨hheld.sound, fun op hallowed => ⟨hheld.noSlip, hheld.meets hallowed⟩⟩

/-- A memory of 4 KiB with the stack at its end -/
def fourKiB : StackMemory where
  start := 0x20000000
  stop := 0x20001000
  stackEnd := 0x20001000
  start_pos := by decide
  aligned := by decide
  start_le := by decide
  le_stop := by decide

/-- A push of 768 MiB in a new box of the MPU runtime: the stack pointer wraps around to `0xf0001000`,
which is not below the start of the memory. -/
theorem not_meets_run : ¬∀ (r : Runtime) (s : Sys), r.Roomy →
    GuardedRun r.Initial r.Step (fun _ _ => True) s →
      ∀ op, Runtime.Allowed op s → r.Meets op s := by
  intro hclaim
  have hmeets := hclaim (.mpu fourKiB 4096) ⟨0x20001000, []⟩ (Nat.succ_pos 4095)
    (.start ⟨rfl, fun _ => rfl⟩) (.push 0x30000000) trivial
  have hpush : (Runtime.mpu fourKiB 4096).push 0x30000000 0x20001000 =
      (0xf0001000, 0xf0001000) := by decide
  obtain ⟨-, -, hhigh⟩ := (Runtime.meets_push_iff hpush).mp hmeets
  exact absurd hhigh (by decide)

end BentoLinker.Runtimes.DataStack
