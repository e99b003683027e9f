import BentoLinker.Lib.GuardedRun
import BentoLinker.Mpu.Discipline

/-!
# Runs of the MPU Runtime

The domains run, initialize boxes, call, return and fault, in any order.

- `Event`, `Step`: one thing that happens
- `Start`: sys runs, nothing has been called
- `Good`: returns and faults that keep a suspended domain fit to be resumed
- `inv_step`, `inv_run`: the invariant along a run of good steps
-/

namespace BentoLinker.Mpu

variable {μ : Type}

/-! ## Section 1: Steps -/

/-- The machine, and the calls that have not returned -/
structure RunState (μ : Type) where
  machine : Machine μ
  chain : List Suspended

inductive Event where
  /-- the active domain runs its own code -/
  | own
  /-- `__box_X_init` prepares the stack of a box -/
  | prepare (box : Word)
  /-- `__box_X_init` or `__box_X_clobber` sets the flag of a box -/
  | mark (box : Word) (initialized : Bool)
  /-- an exception, with the `EXC_RETURN` value and the stack pointer of the handler -/
  | call (lr sp : Word)
  | ret (lr sp : Word)
  | fault (lr sp : Word)

/-- The record of a box whose stack has been prepared -/
def prepared (c : Config μ) (m : Machine μ) (box : Word) : BoxState :=
  { m.state box with lr := 0xfffffffd, sp := m.load (c.jumptables (box - 1)) }

/-- Steps of a run. Calls and returns nest, and the domains keep to their stacks. -/
inductive Step (c : Config μ) (stk : Stacks) : Event → RunState μ → RunState μ → Prop where
  | own {m m' : Machine μ} {chain : List Suspended} :
      m'.active = m.active → m'.state = m.state →
      (∀ f ∈ chain, ∀ a, f.Owns a → m'.load a = m.load a) →
      Step c stk .own ⟨m, chain⟩ ⟨m', chain⟩
  | prepare {m : Machine μ} {chain : List Suspended} {box : Word} :
      m.active = 0 → box ≠ 0 → ¬ Live chain box →
      Step c stk (.prepare box) ⟨m, chain⟩ ⟨m.setState box (prepared c m box), chain⟩
  | mark {m : Machine μ} {chain : List Suspended} {box : Word} {initialized : Bool} :
      m.active = 0 → box ≠ 0 →
      Step c stk (.mark box initialized) ⟨m, chain⟩
        ⟨m.setState box { m.state box with initialized := initialized }, chain⟩
  | call {m m' : Machine μ} {chain : List Suspended} {target lr sp exc excsp : Word} :
      branchOf c (m.load (sp + 24)) = .call →
      target = callTarget c m.active (m.load (sp + 24) - c.callregion) →
      CallOk stk m chain target lr sp → mpuHandler c m lr sp = .resume exc excsp m' →
      Step c stk (.call lr sp) ⟨m, chain⟩ ⟨m', suspend m m' target lr sp :: chain⟩
  | ret {m m' : Machine μ} {f : Suspended} {rest : List Suspended} {lr sp exc excsp : Word} :
      branchOf c (m.load (sp + 24)) = .return_ →
      lr ≠ 0 → mpuHandler c m lr sp = .resume exc excsp m' →
      Step c stk (.ret lr sp) ⟨m, f :: rest⟩ ⟨m', rest⟩
  | fault {m m' : Machine μ} {f : Suspended} {rest : List Suspended} {lr sp exc excsp : Word} :
      branchOf c (m.load (sp + 24)) = .abort ∨ branchOf c (m.load (sp + 24)) = .fault →
      mpuHandler c m lr sp = .resume exc excsp m' →
      Step c stk (.fault lr sp) ⟨m, f :: rest⟩ ⟨m', rest⟩

/-- Sys runs, and no box has been called. -/
def Start (s : RunState μ) : Prop :=
  s.chain = [] ∧ s.machine.active = 0 ∧ ∀ d, d ≠ 0 → (s.machine.state d).caller = 0

/-- Nothing happens that would leave a suspended domain unfit to be resumed: when it is
re-entered, it returns with the `EXC_RETURN` value of its suspended call, and does not fault. -/
def Good : Event → RunState μ → Prop
  | .ret lr _, ⟨m, f :: rest⟩ => Live rest m.active → lr = (f.table m.active).lr
  | .fault _ _, ⟨m, _ :: rest⟩ => ¬ Live rest m.active
  | _, _ => True

/-! ## Section 2: The handlers on each branch -/

section Branches

variable {c : Config μ} {m : Machine μ} {lr sp : Word}

theorem mpuHandler_return (h : branchOf c (m.load (sp + 24)) = .return_) :
    mpuHandler c m lr sp = returnhandler c m lr sp := by
  simp only [mpuHandler, h]

theorem mpuHandler_call (h : branchOf c (m.load (sp + 24)) = .call) :
    mpuHandler c m lr sp = callhandler c m lr sp (m.load (sp + 24) - c.callregion) := by
  simp only [mpuHandler, h]

/-- What `__box_mpu_handler` passes to `__box_faulthandler`: the argument of an explicit
abort, `-EFAULT` for a fault -/
def faultError (c : Config μ) (m : Machine μ) (sp : Word) : Word :=
  if branchOf c (m.load (sp + 24)) = .abort then m.load sp else negEFAULT

theorem mpuHandler_fault
    (h : branchOf c (m.load (sp + 24)) = .abort ∨ branchOf c (m.load (sp + 24)) = .fault) :
    mpuHandler c m lr sp = faulthandler c m (faultError c m sp) := by
  rcases h with h | h
  · simp only [mpuHandler, faultError, h, if_true]
  · simp only [mpuHandler, faultError, h, reduceCtorEq, if_false]

end Branches

/-! ## Section 3: The invariant along a run -/

variable {c : Config μ} {stk : Stacks}

theorem inv_start {s : RunState μ} (h : Start s) : Inv c stk s.machine s.chain := by
  obtain ⟨m, chain⟩ := s
  obtain ⟨rfl, hactive, hcaller⟩ := h
  constructor
  case framed => trivial
  case linked => exact hactive
  case inRange =>
    change m.active = 0 at hactive
    refine ⟨?_, fun f hf => by cases hf⟩
    rw [hactive, BitVec.lt_def]
    simp
  case holds => intro f hf; cases hf
  case cells => intro f hf; cases hf
  case recorded => trivial
  case resumable => intro f hf; cases hf
  case table =>
    constructor
    case sp => rintro d ⟨f, hf, -⟩; cases hf
    case lr => rintro d ⟨f, hf, -⟩; cases hf
    case running => exact fun h => absurd rfl h
    case caller => intro f rest h; cases h
    case boxes => exact hcaller

/-- Changing the record of a box that is not running, up to what the invariant needs. -/
theorem inv_setState {m : Machine μ} {chain : List Suspended} {box : Word} {s : BoxState}
    (hinv : Inv c stk m chain) (hne : box ≠ m.active) (hcaller : s.caller = (m.state box).caller)
    (hlive : Live chain box → s.lr = (m.state box).lr ∧ s.sp = (m.state box).sp) :
    Inv c stk (m.setState box s) chain := by
  refine { hinv with table := ?_ }
  have hof : ∀ d, d ≠ box → (m.setState box s).state d = m.state d :=
    fun d hd => Function.update_of_ne hd _ _
  have hself : (m.setState box s).state box = s := Function.update_self ..
  constructor
  case sp =>
    intro d hd
    rw [← hinv.table.sp d hd]
    by_cases hbox : d = box
    · subst hbox
      rw [hself, (hlive hd).2]
    · rw [hof d hbox]
  case lr =>
    intro d hd hactive
    rw [← hinv.table.lr d hd hactive]
    by_cases hbox : d = box
    · subst hbox
      rw [hself, (hlive hd).1]
    · rw [hof d hbox]
  case running =>
    intro hchain
    rw [Machine.active_setState, hof _ hne.symm]
    exact hinv.table.running hchain
  case caller =>
    intro f rest hchain
    rw [Machine.active_setState, hof _ hne.symm]
    exact hinv.table.caller f rest hchain
  case boxes =>
    intro d hd
    rw [← hinv.table.boxes d hd]
    by_cases hbox : d = box
    · subst hbox
      rw [hself, hcaller]
    · rw [hof d hbox]

/-- The record of a domain that is re-entered had the `EXC_RETURN` value of its suspended
call. -/
theorem Inv.reentered {m : Machine μ} {f : Suspended} {rest : List Suspended}
    (hinv : Inv c stk m (f :: rest)) (hlive : Live rest m.active) :
    (f.table m.active).lr = latestLr rest m.active := by
  have hne := hinv.top.ne
  rw [hinv.top.caller] at hne
  exact hinv.recorded.1.lr m.active hlive hne.symm

/-- One step preserves the invariant. -/
theorem inv_step {e : Event} {s s' : RunState μ} (hinv : Inv c stk s.machine s.chain)
    (hgood : Good e s) (hstep : Step c stk e s s') : Inv c stk s'.machine s'.chain := by
  cases hstep with
  | own hactive hstate hcells =>
    refine { hinv with linked := ?_, inRange := ?_, cells := ?_, table := ?_ }
    · rw [hactive]; exact hinv.linked
    · rw [hactive]; exact hinv.inRange
    · exact fun f hf a ha => (hcells f hf a ha).trans (hinv.cells f hf a ha)
    · rw [hactive, hstate]; exact hinv.table
  | prepare hactive hbox hlive =>
    refine inv_setState hinv ?_ rfl fun h => absurd h hlive
    rw [hactive]
    exact hbox
  | mark hactive hbox =>
    refine inv_setState hinv ?_ rfl fun _ => ⟨rfl, rfl⟩
    rw [hactive]
    exact hbox
  | call hbranch htarget hok hresume =>
    rw [mpuHandler_call hbranch] at hresume
    subst htarget
    exact inv_call hinv hok (callSpec_of_callhandler (callTarget_ne c _ _) hresume)
  | ret hbranch hlr hresume =>
    rw [mpuHandler_return hbranch] at hresume
    have htop := hinv.top
    refine inv_pop hinv (returnSpec_of_returnhandler htop.ne ?_ hresume) rfl rfl ?_
    · rw [htop.caller, htop.lr]
      exact htop.resumable
    · intro hlive
      exact (hgood hlive).trans (hinv.reentered hlive)
  | fault hbranch hresume =>
    rw [mpuHandler_fault hbranch] at hresume
    obtain ⟨-, hspec, -⟩ := returnSpec_of_faulthandler hinv.top.ne hresume
    exact inv_pop hinv hspec rfl rfl fun hlive => absurd hlive hgood

/-- The invariant holds along every run of good steps. -/
theorem inv_run {s : RunState μ} (h : GuardedRun Start (Step c stk) Good s) :
    Inv c stk s.machine s.chain :=
  h.invariant (fun s => Inv c stk s.machine s.chain) (fun _ => inv_start)
    fun _ _ _ hinv hgood hstep => inv_step hinv hgood hstep

/-! ## Section 4: A recipe with one box -/

/-- The constants of a recipe with one box -/
def oneBox : Config Unit where
  count := 1
  count_pos := by decide
  callregion := 0x1000
  callsize := 0x1000
  jumptables _ := 0x2000
  sysJumptables _ := 0x3000
  aborts _ := false
  mpuSwitch _ mpu := mpu

/-- 4 KiB of stack for sys, and for the box -/
def oneBoxStacks : Stacks where
  lo d := if d = 0 then 0x10000 else if d = 1 then 0x20000 else 2 ^ 32
  hi d := if d = 0 then 0x11000 else if d = 1 then 0x21000 else 0
  hi_le d := by split_ifs <;> decide
  disjoint d e hne := by
    split_ifs with h₁ h₂ <;> first | omega | (subst_vars; exact absurd rfl hne)

/-- Sys runs, the box is initialized. In memory are the program counters of exceptions to
come: a falible call of sys at `0x10f00`, one of the box at `0x20f00`, a return of sys at
`0x10e00` and one of the box at `0x20f80`. Exceptions elsewhere are faults. -/
def oneBoxStart : Machine Unit where
  active := 0
  state d := ⟨d = 1, 0, if d = 1 then 0xfffffffd else 0, if d = 1 then 0x21000 else 0⟩
  ram := ⟨fun a => if a = 0x10f18 ∨ a = 0x20f18 then 0x100a
    else if a = 0x10e18 ∨ a = 0x20f98 then 0x1000 else 0, []⟩
  regs := ⟨fun _ => 0, fun _ => 0⟩
  mpu := ()

theorem start_oneBox : Start ⟨oneBoxStart, []⟩ := ⟨rfl, rfl, fun _ _ => rfl⟩

/-- Sys has called the box. -/
def oneBoxCalled : Machine Unit :=
  (mpuHandler oneBox oneBoxStart 0xfffffff9 0x10f00).machine?.getD oneBoxStart

/-- The box has called sys back. -/
def oneBoxNested : Machine Unit :=
  (mpuHandler oneBox oneBoxCalled 0xfffffffd 0x20f00).machine?.getD oneBoxCalled

/-- The call of the box in `oneBoxCalled` -/
def oneBoxCall : Suspended := suspend oneBoxStart oneBoxCalled 1 0xfffffff9 0x10f00

/-- The call of sys in `oneBoxNested` -/
def oneBoxCallBack : Suspended := suspend oneBoxCalled oneBoxNested 0 0xfffffffd 0x20f00

theorem step_oneBoxCalled : Step oneBox oneBoxStacks (.call 0xfffffff9 0x10f00)
    ⟨oneBoxStart, []⟩ ⟨oneBoxCalled, [oneBoxCall]⟩ := by
  refine .call rfl rfl ?_ rfl
  constructor
  case lr_ne => decide
  case room => decide
  case below => decide
  case prepared => intro; decide
  case space => decide

theorem step_oneBoxNested : Step oneBox oneBoxStacks (.call 0xfffffffd 0x20f00)
    ⟨oneBoxCalled, [oneBoxCall]⟩
    ⟨oneBoxNested, [oneBoxCallBack, oneBoxCall]⟩ := by
  refine .call rfl rfl ?_ rfl
  constructor
  case lr_ne => decide
  case room => decide +kernel
  case below => decide +kernel
  case prepared => intro; decide +kernel
  case space => decide +kernel

end BentoLinker.Mpu
