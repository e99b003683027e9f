import BentoLinker.Lib.GuardedRun
import Mathlib.Data.Nat.Notation
import Mathlib.Logic.Function.Basic

/-!
# Boxes at Run Time

The glue that the runtimes generate on the parent's side (`build_parent_c` in
`runtimes/jumptable.py`, `awsm.py`, `armv7m_mpu.py`, `wasm3.py` and `wamr.py`): export
wrappers, `__box_X_init`, `__box_X_clobber` and the default abort handling.

- `Frame`: what is suspended on the way from main to the code that runs
- `State`: the flags and pointers the glue keeps for each box, and the frames
- `enter`, `startInit`, `initDone`, `returned`, `longjmp`, ...: the glue between two points
  at which code of sys or of a box runs
- `Event`, `step`: what that code can do, in any order

The code of sys and of the boxes is free: load hooks, postinit and imported functions may
call whatever the glue offers. The parts of the state that only record what has happened
are marked as history; no branch of the glue reads them.
-/

namespace BentoLinker.Runtimes

variable {ι : Type} [DecidableEq ι]

/-! ## Section 1: Boxes -/

inductive Runtime where
  | jumptable
  | awsm
  | mpu
  | wasm3
  | wamr
  deriving DecidableEq, Repr

/-- Aborts come back to the wrapper by `longjmp`. -/
def Runtime.longjmps : Runtime → Bool
  | .jumptable | .awsm => true
  | .mpu | .wasm3 | .wamr => false

/-- The box is run by an interpreter. -/
def Runtime.interprets : Runtime → Bool
  | .wasm3 | .wamr => true
  | .jumptable | .awsm | .mpu => false

/-- The boxes of a parent. The MPU runtime switches between domains in its handlers, the
others run their boxes on the parent's stack. -/
structure Config (ι : Type) where
  runtime : ι → Runtime
  /-- `box.init == 'lazy'` -/
  lazy : ι → Bool
  /-- `box.roommates` -/
  roommates : ι → List ι
  unmixed : (∀ b, runtime b = .mpu) ∨ ∀ b, runtime b ≠ .mpu

/-- One of the two lists the other one. -/
def Config.Shares (c : Config ι) (a b : ι) : Prop := a ∈ c.roommates b ∨ b ∈ c.roommates a

instance (c : Config ι) (a b : ι) : Decidable (c.Shares a b) := by
  unfold Config.Shares; infer_instance

def ENOEXEC : Int := 8
def EFAULT : Int := 14
def ELOOP : Int := 40
def ECANCELED : Int := 125

/-! ## Section 2: Frames and states -/

/-- A call of an export wrapper -/
structure Call where
  falible : Bool
  /-- the interpreter finds the function in the module -/
  found : Bool
  deriving DecidableEq, Repr

inductive Frame (ι : Type) where
  /-- `__box_X_init`, and the wrapper that calls it if it is a lazy one. Its load hook runs,
  or its postinit does, after the load of that number. -/
  | init (box : ι) (wrapper : Option Call) (load : Option ℕ)
  /-- an export wrapper in the call of the box; its `jmpbuf` and `pjmpbuf` -/
  | call (box : ι) (falible : Bool) (jmpbuf : ℕ) (pjmpbuf : Option ℕ)
  /-- code of the box in a call of sys, and how often the memory of the box had been
  loaded over when it made the call (history) -/
  | callback (box : ι) (falible : Bool) (overwrites : ℕ)

/-- How everything ends -/
inductive Stop where
  /-- `__box_abort(err)` -/
  | boxAbort (err : Int)
  /-- a jump to a place that is no target any more -/
  | wild
  deriving DecidableEq, Repr

structure State (ι : Type) where
  /-- `__box_X_initialized`, `__box_X_state.initialized` -/
  initialized : ι → Bool
  /-- `__box_X_jmpbuf` -/
  jmpbuf : ι → Option ℕ
  /-- `__box_X_err` of the wamr runtime -/
  err : ι → Int
  /-- MPU runtime: `lr` in the record of the domain is not 0; `none` is sys -/
  lr : Option ι → Bool
  /-- innermost first -/
  stack : List (Frame ι)
  stopped : Option Stop
  /-- the number of the next `jmp_buf` -/
  serial : ℕ
  /-- history: how often the box has been loaded -/
  loads : ι → ℕ
  /-- history: how often a load has begun that writes the memory of the box -/
  overwrites : ι → ℕ
  /-- history: a falible call has ended in an error since the box was last initialized in
  full, because the box failed; the number of loads at that time -/
  died : ι → Option ℕ
  /-- history: an export of the box has been called although the box had died -/
  calledDead : ι → Bool

/-- Before main -/
def State.initial : State ι where
  initialized _ := false
  jmpbuf _ := none
  err _ := 0
  lr _ := false
  stack := []
  stopped := none
  serial := 0
  loads _ := 0
  overwrites _ := 0
  died _ := none
  calledDead _ := false

def State.stop (s : State ι) (how : Stop) : State ι := { s with stopped := some how }

/-- Code of sys runs: main, a load hook, or an imported function. -/
def sysRuns : List (Frame ι) → Bool
  | [] | .init _ _ none :: _ | .callback .. :: _ => true
  | .init _ _ (some _) :: _ | .call .. :: _ => false

/-! ## Section 3: Wrappers and initialization -/

variable (c : Config ι)

/-- `__box_X_clobber`, which always returns 0 -/
def clobber (b : ι) (s : State ι) : State ι :=
  { s with initialized := Function.update s.initialized b false }

/-- The call into the box. A falible wrapper of a longjmp runtime saves `__box_X_jmpbuf` and
sets it to its own. `__box_callsetup` goes to where the box's record says; a cleared `lr` is
no place to go to. -/
def enter (b : ι) (falible : Bool) (s : State ι) : State ι :=
  let s' := { s with
    stack := .call b falible s.serial (s.jmpbuf b) :: s.stack
    serial := s.serial + 1 }
  match c.runtime b with
  | .jumptable | .awsm =>
    if falible then { s' with jmpbuf := Function.update s.jmpbuf b (some s.serial) } else s'
  | .mpu =>
    if s.lr (some b) then
      { s' with lr := Function.update (Function.update s.lr none true) (some b) false }
    else s.stop .wild
  | .wasm3 => s'
  | .wamr => if falible then { s' with err := Function.update s.err b 0 } else s'

/-- The wrapper, past its lazy init -/
def wrapperCall (b : ι) (call : Call) (s : State ι) : State ι :=
  if (c.runtime b).interprets && !call.found then
    -- the lookup in the module fails
    if call.falible then s else s.stop (.boxAbort (-ENOEXEC))
  else
    enter c b call.falible
      { s with calledDead := Function.update s.calledDead b (s.calledDead b || (s.died b).isSome) }

/-- `__box_X_init` returns `err`, to sys or to a lazy wrapper. -/
def initReturn (b : ι) (wrapper : Option Call) (err : Int) (s : State ι) : State ι :=
  match wrapper with
  | none => s
  | some call =>
    if err ≠ 0 then
      if call.falible then s else s.stop (.boxAbort err)
    else wrapperCall c b call s

/-- `__box_X_init` up to its load hook: bring down the roommates, prepare the stack. -/
def startInit (b : ι) (wrapper : Option Call) (s : State ι) : State ι :=
  if s.initialized b then initReturn c b wrapper 0 s
  else
    let s' := (c.roommates b).foldl (fun s r => clobber r s) s
    { s' with
      lr := if c.runtime b = .mpu then Function.update s.lr (some b) true else s.lr
      stack := .init b wrapper none :: s.stack
      overwrites := fun x => if x = b ∨ c.Shares x b then s.overwrites x + 1 else s.overwrites x }

/-- The end of `__box_X_init`. Only a load after the box has died makes it live again. -/
def initDone (b : ι) (wrapper : Option Call) (load : ℕ) (s : State ι) : State ι :=
  initReturn c b wrapper 0 { s with
    initialized := Function.update s.initialized b true
    died := Function.update s.died b ((s.died b).filter fun n => load ≤ n) }

/-- A wrapper has returned `v`. If it is the one of postinit, init goes on. -/
def returned (v : Int) (s : State ι) : State ι :=
  match s.stack with
  | .init b wrapper (some load) :: rest =>
    if v ≠ 0 then initReturn c b wrapper v { s with stack := rest }
    else initDone c b wrapper load { s with stack := rest }
  | _ => s

/-- A wrapper has returned an error because its box failed. -/
def failed (b : ι) (err : Int) (s : State ι) : State ι :=
  returned c err { s with
    died := if err = 0 then s.died else Function.update s.died b (some (s.loads b)) }

/-- The load hook of `b` has returned `err`. Interpreters then bring up the module, with
result `res`, the others call postinit. -/
def loaded (b : ι) (wrapper : Option Call) (err res : Int) (s : State ι) : State ι :=
  if err ≠ 0 then initReturn c b wrapper err s
  else
    let s' := { s with loads := Function.update s.loads b (s.loads b + 1) }
    if (c.runtime b).interprets then
      if res ≠ 0 then initReturn c b wrapper res s'
      else initDone c b wrapper (s.loads b + 1) s'
    else
      enter c b true
        { s' with stack := .init b wrapper (some (s.loads b + 1)) :: s.stack }

/-! ## Section 4: Aborts, traps and faults -/

/-- The wrapper of `b` with the given `jmp_buf`: its `pjmpbuf`, and the frames below it -/
def unwind (b : ι) (jmpbuf : ℕ) : List (Frame ι) → Option (Option ℕ × List (Frame ι))
  | [] => none
  | .call b' _ j pjmpbuf :: rest =>
    if b' = b ∧ j = jmpbuf then some (pjmpbuf, rest) else unwind b jmpbuf rest
  | _ :: rest => unwind b jmpbuf rest

/-- `longjmp(*__box_X_jmpbuf, err)`, where `setjmp` returns 1 for 0 -/
def longjmp (b : ι) (jmpbuf : ℕ) (err : Int) (s : State ι) : State ι :=
  match unwind b jmpbuf s.stack with
  | none => s.stop .wild
  | some (pjmpbuf, rest) =>
    failed c b (if err = 0 then 1 else err)
      { s with stack := rest, jmpbuf := Function.update s.jmpbuf b pjmpbuf }

/-- `__box_X_abort` of the longjmp runtimes -/
def abortJump (b : ι) (err : Int) (s : State ι) : State ι :=
  match s.jmpbuf b with
  | some jmpbuf => longjmp c b jmpbuf err (clobber b s)
  | none => (clobber b s).stop (.boxAbort err)

/-- How an interpreter comes back early: by `__box_abort(err)` of the box, or by a trap -/
inductive Trap where
  | exit (err : Int)
  | trap (err : Int)
  deriving DecidableEq, Repr

/-- `__box_wasm3_toerr` -/
def Trap.toerr : Trap → Int
  | .exit _ => -ECANCELED
  | .trap err => err

/-- The error path of the wrappers of wasm3, the stack is what is below them. -/
def wasm3Trapped (b : ι) (falible : Bool) (t : Trap) (s : State ι) : State ι :=
  if falible then
    match t with
    | .exit err => failed c b err s
    | .trap err => failed c b err s
  else s.stop (.boxAbort (-t.toerr))

/-- The error path of the wrappers of wamr. The abort hook has set `__box_X_err`. -/
def wamrTrapped (b : ι) (falible : Bool) (t : Trap) (s : State ι) : State ι :=
  let err := match t with
    | .exit err => err
    | .trap _ => s.err b
  let s' := { s with err := Function.update s.err b err }
  if falible then failed c b (if err ≠ 0 then err else -EFAULT) s'
  else s'.stop (.boxAbort (-EFAULT))

/-- `__box_faultsetup` while `b` is active, the stack is what is below its call. -/
def boxFault (b : ι) (falible : Bool) (err : Int) (s : State ι) : State ι :=
  let s' := clobber b s
  if !s.lr none then s'.stop (.boxAbort (-ELOOP))
  else if !falible then s'.stop (.boxAbort err)
  else failed c b err { s' with lr := Function.update s.lr none false }

/-- The latest call of sys by a box, and the frames below it -/
def latestCallback : List (Frame ι) → Option (ι × Bool × List (Frame ι))
  | [] => none
  | .callback b falible _ :: rest => some (b, falible, rest)
  | _ :: rest => latestCallback rest

/-- The latest call of sys by the box, and the frames below it -/
def latestCallbackOf (b : ι) : List (Frame ι) → Option (Bool × List (Frame ι))
  | [] => none
  | .callback b' falible _ :: rest =>
    if b' = b then some (falible, rest) else latestCallbackOf b rest
  | _ :: rest => latestCallbackOf b rest

/-- `__box_faultsetup` while sys is active -/
def sysFault (err : Int) (s : State ι) : State ι :=
  match latestCallback s.stack with
  | none => s.stop (.boxAbort (-ELOOP))
  | some (b, falible, rest) =>
    if !s.lr (some b) then s.stop (.boxAbort (-ELOOP))
    else if !falible then s.stop (.boxAbort err)
    else { s with stack := rest, lr := Function.update s.lr (some b) false }

/-! ## Section 5: Steps -/

/-- The wrapper after the call, the stack is what is below it. `__box_returnsetup` takes a
return for a fault of sys if sys has lost its `lr`; its caller is then still `b`. -/
def boxReturn (b : ι) (falible : Bool) (pjmpbuf : Option ℕ) (v : Int) (s : State ι) :
    State ι :=
  match c.runtime b with
  | .jumptable | .awsm =>
    if falible then returned c v { s with jmpbuf := Function.update s.jmpbuf b pjmpbuf }
    else returned c v s
  | .mpu =>
    let s' := { s with lr := Function.update s.lr (some b) true }
    if s.lr none then returned c v { s' with lr := Function.update s'.lr none false }
    else
      match latestCallbackOf b s.stack with
      | none => s'.stop .wild
      | some (falible, rest) =>
        if !falible then s'.stop (.boxAbort (-EFAULT))
        else { s' with stack := rest, lr := Function.update s'.lr (some b) false }
  | .wasm3 | .wamr => returned c v s

/-- The box calls sys. -/
def callback (b : ι) (falible : Bool) (s : State ι) : State ι :=
  let s' := { s with stack := .callback b falible (s.overwrites b) :: s.stack }
  if c.runtime b = .mpu then
    if s.lr none then
      { s' with lr := Function.update (Function.update s.lr none false) (some b) true }
    else s.stop .wild
  else s'

/-- Sys returns to the box; `stack` is what is below its call. If the box has lost its `lr`,
`__box_returnsetup` takes this for a fault of the box. -/
def callbackReturn (b : ι) (stack : List (Frame ι)) (s : State ι) : State ι :=
  if c.runtime b = .mpu then
    let s' := { s with lr := Function.update s.lr none true }
    if s.lr (some b) then
      { s' with stack := stack, lr := Function.update s'.lr (some b) false }
    else
      match stack with
      | .call _ falible _ _ :: rest => boxFault c b falible (-EFAULT) { s' with stack := rest }
      | _ => s'.stop .wild
  else { s with stack := stack }

inductive Event (ι : Type) where
  /-- sys calls `__box_X_init` -/
  | init (box : ι)
  /-- sys calls `__box_X_clobber` -/
  | clobber (box : ι)
  /-- sys calls an export wrapper -/
  | call (box : ι) (call : Call)
  /-- the load hook returns `err`; the interpreter is then brought up with `res` -/
  | loaded (err res : Int)
  /-- the box calls a function of sys -/
  | callback (falible : Bool)
  /-- and the function returns -/
  | callbackReturn
  /-- the box returns from an export -/
  | boxReturn (v : Int)
  /-- the box calls `__box_abort` -/
  | abort (err : Int)
  /-- the interpreter traps, with an error other than 0 -/
  | trap (err : Int)
  /-- a hardware fault -/
  | fault

/-- What happens to the box that runs, `stack` is what is below its call. -/
def boxStep (b : ι) (falible : Bool) (pjmpbuf : Option ℕ) (stack : List (Frame ι))
    (s : State ι) : Event ι → Option (State ι)
  | .callback falible => some (callback c b falible s)
  | .boxReturn v => some (boxReturn c b falible pjmpbuf v { s with stack := stack })
  | .abort err =>
    match c.runtime b with
    | .jumptable | .awsm => some (abortJump c b err s)
    | .mpu => some (boxFault c b falible err { s with stack := stack })
    | .wasm3 => some (wasm3Trapped c b falible (.exit err) { s with stack := stack })
    | .wamr => some (wamrTrapped c b falible (.exit err) { s with stack := stack })
  | .trap err =>
    if err = 0 then none
    else
      match c.runtime b with
      | .wasm3 => some (wasm3Trapped c b falible (.trap err) { s with stack := stack })
      | .wamr => some (wamrTrapped c b falible (.trap err) { s with stack := stack })
      | .jumptable | .awsm | .mpu => none
  | .fault =>
    if c.runtime b = .mpu then some (boxFault c b falible (-EFAULT) { s with stack := stack })
    else none
  | _ => none

/-- What sys does while it runs. Only the MPU runtime has a fault handler. -/
def sysStep (s : State ι) : Event ι → Option (State ι)
  | .init b => some (startInit c b none s)
  | .clobber b => some (clobber b s)
  | .call b call =>
    -- the lazy init of the wrapper
    if c.lazy b && !s.initialized b then some (startInit c b (some call) s)
    else some (wrapperCall c b call s)
  | .loaded err res =>
    match s.stack with
    | .init b wrapper none :: rest => some (loaded c b wrapper err res { s with stack := rest })
    | _ => none
  | .callbackReturn =>
    match s.stack with
    | .callback b _ _ :: rest => some (callbackReturn c b rest s)
    | _ => none
  | .fault =>
    match latestCallback s.stack with
    | some (b, _, _) => if c.runtime b = .mpu then some (sysFault (-EFAULT) s) else none
    | none => none
  | _ => none

def step (s : State ι) (e : Event ι) : Option (State ι) :=
  if s.stopped.isSome then none
  else
    match s.stack with
    | .call b falible _ pjmpbuf :: rest => boxStep c b falible pjmpbuf rest s e
    | .init _ _ (some _) :: _ => none
    | _ => sysStep c s e

/-- Runs from before main, with a condition on what is done in which state -/
abbrev Run (ok : Event ι → State ι → Prop) : State ι → Prop :=
  GuardedRun (fun s => s = .initial) (fun e s s' => step c s e = some s') ok

/-- What happens one after the other -/
def after (es : List (Event ι)) (s : State ι) : Option (State ι) := es.foldlM (step c) s

/-- The condition is met all along. -/
def Allowed (ok : Event ι → State ι → Prop) : List (Event ι) → State ι → Prop
  | [], _ => True
  | e :: es, s => ok e s ∧ ∀ s', step c s e = some s' → Allowed ok es s'

theorem run_after {ok : Event ι → State ι → Prop} {es : List (Event ι)} {s s' : State ι}
    (hrun : Run c ok s) (hok : Allowed c ok es s) (h : after c es s = some s') :
    Run c ok s' := by
  induction es generalizing s with
  | nil =>
    cases h
    exact hrun
  | cons e es ih =>
    obtain ⟨t, ht, h⟩ := Option.bind_eq_some_iff.mp h
    exact ih (.step hrun hok.1 ht) (hok.2 t ht) h

theorem allowed_true (es : List (Event ι)) (s : State ι) :
    Allowed c (fun _ _ => True) es s := by
  induction es generalizing s with
  | nil => trivial
  | cons e es ih => exact ⟨trivial, fun s' _ => ih s'⟩

/-- Two boxes in the same memory -/
def hosts (r : Runtime) : Config Bool where
  runtime _ := r
  lazy _ := true
  roommates b := [!b]
  unmixed := by cases r <;> simp

/-- Two boxes with memory of their own -/
def neighbours (r : Runtime) : Config Bool where
  runtime _ := r
  lazy _ := false
  roommates _ := []
  unmixed := by cases r <;> simp

end BentoLinker.Runtimes
