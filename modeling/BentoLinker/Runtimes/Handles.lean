import BentoLinker.Runtimes.Machine

/-!
# Handles of the Interpreters

`__box_X_init` and `__box_X_clobber` of `runtimes/wamr.py` and `runtimes/wasm3.py`, and what
they hold of the interpreters. A create function of an interpreter that succeeds acquires one
handle, a destroy function releases the one it is given, and `m3_FreeRuntime` releases the
modules that have been loaded into the runtime with it.

- `Handles`: the pointers of one box, and what of the interpreter is live for it
- `Handles.wamrBringUp`, `Handles.wasm3BringUp`: the chain of acquisitions of an init
- `Interpreters.step`: a call of an init or clobber, of any box
- `Tidy`: nothing is held twice, and nothing by a box that is not marked initialized
- `tidy_run`: tidy in runs without late failures, and after a call only if it is none
-/

namespace BentoLinker.Runtimes

def EGENERAL : Int := 1
def ENOMEM : Int := 12

inductive Kind where
  | module
  | instance_
  | execEnv
  | runtime
  deriving DecidableEq, Repr

/-- What the glue keeps of one box. The handles are numbered for each box. -/
structure Handles where
  /-- `__box_X_initialized` -/
  initialized : Bool
  /-- `__box_X_module`, `__box_X_module_inst`, `__box_X_exec_env`, `__box_X_runtime` -/
  pointer : Kind → Option ℕ
  /-- what the interpreter has not released -/
  live : Kind → List ℕ
  /-- the runtime that a module has been loaded into -/
  owner : ℕ → Option ℕ
  serial : ℕ
  /-- history: the most that were live at a time -/
  peak : Kind → ℕ

namespace Handles

def initial : Handles where
  initialized := false
  pointer _ := none
  live _ := []
  owner _ := none
  serial := 0
  peak _ := 0

/-- A create function; it returns `NULL` if it fails. -/
def acquire (kind : Kind) (ok : Bool) (h : Handles) : Handles :=
  if ok then
    { h with
      pointer := Function.update h.pointer kind (some h.serial)
      live := Function.update h.live kind (h.serial :: h.live kind)
      serial := h.serial + 1
      peak := Function.update h.peak kind (max (h.peak kind) ((h.live kind).length + 1)) }
  else { h with pointer := Function.update h.pointer kind none }

/-- A destroy function -/
def release (kind : Kind) (h : Handles) : Handles :=
  match h.pointer kind with
  | none => h
  | some n => { h with live := Function.update h.live kind ((h.live kind).erase n) }

/-- `m3_LoadModule`: the module belongs to the runtime then. -/
def loadModule (h : Handles) : Handles :=
  match h.pointer .module with
  | none => h
  | some m => { h with owner := Function.update h.owner m (h.pointer .runtime) }

/-- `m3_FreeRuntime` -/
def freeRuntime (h : Handles) : Handles :=
  match h.pointer .runtime with
  | none => h
  | some r =>
    let h' := h.release .runtime
    { h' with
      live := Function.update h'.live .module ((h'.live .module).filter fun m => h.owner m ≠ some r) }

/-- `__box_X_clobber` -/
def clobber (runtime : Runtime) (h : Handles) : Handles :=
  let h' :=
    if h.initialized then
      match runtime with
      | .wamr => ((h.release .execEnv).release .instance_).release .module
      | .wasm3 => h.freeRuntime
      | .jumptable | .awsm | .mpu => h
    else h
  { h' with initialized := false }

/-- How the steps of an init of wamr end -/
structure WamrAttempt where
  /-- `__box_X_load` -/
  load : Int
  /-- `wasm_runtime_init` -/
  runtimeInit : Bool
  /-- `wasm_runtime_register_natives` -/
  natives : Bool
  /-- `wasm_runtime_load` -/
  moduleLoad : Bool
  /-- `wasm_runtime_instantiate` -/
  instantiate : Bool
  /-- `wasm_runtime_create_exec_env` -/
  execEnv : Bool
  deriving DecidableEq, Repr

/-- The init of wamr from the parsing of the image on -/
def wamrBringUp (attempt : WamrAttempt) (h : Handles) : Int × Handles :=
  let h := h.acquire .module attempt.moduleLoad
  if !attempt.moduleLoad then (-ENOEXEC, h)
  else
    let h := h.acquire .instance_ attempt.instantiate
    if !attempt.instantiate then (-ENOEXEC, h)
    else
      let h := h.acquire .execEnv attempt.execEnv
      if !attempt.execEnv then (-ENOEXEC, h)
      else (0, { h with initialized := true })

/-- `M3Result`; an error comes with what `__box_wasm3_toerr` makes of it. -/
inductive M3Result where
  | none
  | functionLookupFailed
  | error (err : Int)
  deriving DecidableEq, Repr

/-- `__box_wasm3_toerr` -/
def M3Result.toerr : M3Result → Int
  | .none => 0
  | .functionLookupFailed => -ENOEXEC
  | .error err => err

/-- How the steps of an init of wasm3 end -/
structure Wasm3Attempt where
  /-- `__box_X_load` -/
  load : Int
  /-- `m3_NewEnvironment` -/
  environment : Bool
  /-- `m3_NewRuntime` -/
  runtime : Bool
  /-- `m3_ParseModule` -/
  parse : M3Result
  /-- `m3_LoadModule` -/
  loadModule : M3Result
  /-- `m3_LinkRawFunction`, for each import -/
  links : List M3Result
  deriving DecidableEq, Repr

/-- The first import whose linking fails. A module that does not want an import is fine. -/
def linkError (links : List M3Result) : Option M3Result :=
  links.find? fun res => res ≠ .none && res ≠ .functionLookupFailed

/-- The init of wasm3 from `m3_NewRuntime` on -/
def wasm3BringUp (attempt : Wasm3Attempt) (h : Handles) : Int × Handles :=
  let h := h.acquire .runtime attempt.runtime
  if !attempt.runtime then (-ENOMEM, h)
  else
    let h := h.acquire .module (attempt.parse = .none)
    if attempt.parse ≠ .none then (attempt.parse.toerr, h)
    else if attempt.loadModule ≠ .none then (attempt.loadModule.toerr, h)
    else
      let h := h.loadModule
      match linkError attempt.links with
      | some res => (res.toerr, h)
      | none => (0, { h with initialized := true })

end Handles

/-! ## Section 1: Calls -/

variable {ι : Type} [DecidableEq ι]

/-- All boxes, and what is brought up once for all of them -/
structure Interpreters (ι : Type) where
  handles : ι → Handles
  /-- `__box_wamr_runtime_initialized` -/
  runtimeInitialized : Bool
  /-- `__box_wasm3_environment` is not `NULL`. -/
  environment : Bool

def Interpreters.initial : Interpreters ι := ⟨fun _ => .initial, false, false⟩

namespace Interpreters

variable (c : Config ι)

/-- `__box_X_clobber` of any runtime -/
def clobber (g : Interpreters ι) (b : ι) : Interpreters ι :=
  { g with handles := Function.update g.handles b ((g.handles b).clobber (c.runtime b)) }

/-- The end of an init, on the handles of the box -/
def bringUp (b : ι) (f : Handles → Int × Handles) (g : Interpreters ι) : Int × Interpreters ι :=
  ((f (g.handles b)).1, { g with handles := Function.update g.handles b (f (g.handles b)).2 })

/-- `__box_X_init` of a wamr box -/
def wamrInit (b : ι) (attempt : Handles.WamrAttempt) (g : Interpreters ι) : Int × Interpreters ι :=
  if (g.handles b).initialized then (0, g)
  else
    -- bring down any overlapping boxes
    let g := (c.roommates b).foldl (clobber c) g
    if attempt.load ≠ 0 then (attempt.load, g)
    else if !g.runtimeInitialized && !attempt.runtimeInit then (-EGENERAL, g)
    else
      let g := { g with runtimeInitialized := true }
      if ((g.handles b).pointer .module).isNone && !attempt.natives then (-EGENERAL, g)
      else g.bringUp b (Handles.wamrBringUp attempt)

/-- `__box_X_init` of a wasm3 box -/
def wasm3Init (b : ι) (attempt : Handles.Wasm3Attempt) (g : Interpreters ι) : Int × Interpreters ι :=
  if (g.handles b).initialized then (0, g)
  else
    let g := (c.roommates b).foldl (clobber c) g
    if attempt.load ≠ 0 then (attempt.load, g)
    else if !g.environment && !attempt.environment then (-ENOMEM, g)
    else { g with environment := true }.bringUp b (Handles.wasm3BringUp attempt)

/-- `__box_X_init` of another runtime, which holds nothing of an interpreter: its load and
its postinit return `err`. -/
def otherInit (b : ι) (err : Int) (g : Interpreters ι) : Int × Interpreters ι :=
  if (g.handles b).initialized then (0, g)
  else
    let g := (c.roommates b).foldl (clobber c) g
    if err ≠ 0 then (err, g)
    else g.bringUp b fun h => (0, { h with initialized := true })

inductive Op (ι : Type) where
  | wamrInit (b : ι) (attempt : Handles.WamrAttempt)
  | wasm3Init (b : ι) (attempt : Handles.Wasm3Attempt)
  | otherInit (b : ι) (err : Int)
  | clobber (b : ι)

/-- The box has the init that is called. -/
def Op.Offered : Op ι → Prop
  | .wamrInit b _ => c.runtime b = .wamr
  | .wasm3Init b _ => c.runtime b = .wasm3
  | .otherInit b _ => (c.runtime b).interprets = false
  | .clobber _ => True

def apply (g : Interpreters ι) : Op ι → Int × Interpreters ι
  | .wamrInit b attempt => wamrInit c b attempt g
  | .wasm3Init b attempt => wasm3Init c b attempt g
  | .otherInit b err => otherInit c b err g
  | .clobber b => (0, clobber c g b)

def Step (op : Op ι) (g g' : Interpreters ι) : Prop := op.Offered c ∧ g' = (apply c g op).2

/-- Of each kind at most one handle is live for a box, has ever been, and none if the box is
not marked initialized. -/
structure Tidy (g : Interpreters ι) : Prop where
  single : ∀ b kind, ((g.handles b).live kind).length ≤ 1
  peak : ∀ b kind, (g.handles b).peak kind ≤ 1
  idle : ∀ b, (g.handles b).initialized = false → ∀ kind, (g.handles b).live kind = []

/-- An init that acquires its first handle acquires all of them, and links all imports. -/
def NoLateFailure (op : Op ι) (g : Interpreters ι) : Prop :=
  match op with
  | .wamrInit b attempt =>
    (g.handles b).initialized = false → attempt.load = 0 →
      (g.runtimeInitialized = true ∨ attempt.runtimeInit = true) →
      (((g.handles b).pointer .module).isSome = true ∨ attempt.natives = true) →
      attempt.moduleLoad = true → attempt.instantiate = true ∧ attempt.execEnv = true
  | .wasm3Init b attempt =>
    (g.handles b).initialized = false → attempt.load = 0 →
      (g.environment = true ∨ attempt.environment = true) → attempt.runtime = true →
      attempt.parse = .none ∧ attempt.loadModule = .none ∧ Handles.linkError attempt.links = none
  | .otherInit .. | .clobber _ => True

end Interpreters

/-! ## Section 2: The handles of one box -/

namespace Handles

/-- What is carried along: an initialized box holds what its clobber releases. -/
structure Held (runtime : Runtime) (h : Handles) : Prop where
  peak : ∀ kind, h.peak kind ≤ 1
  idle : h.initialized = false → ∀ kind, h.live kind = []
  wamr : runtime = .wamr → h.initialized = true → ∃ m i e,
    h.pointer .module = some m ∧ h.pointer .instance_ = some i ∧ h.pointer .execEnv = some e ∧
    h.live .module = [m] ∧ h.live .instance_ = [i] ∧ h.live .execEnv = [e] ∧ h.live .runtime = []
  wasm3 : runtime = .wasm3 → h.initialized = true → ∃ m r,
    h.pointer .runtime = some r ∧ h.owner m = some r ∧ h.live .module = [m] ∧
    h.live .runtime = [r] ∧ h.live .instance_ = [] ∧ h.live .execEnv = []
  other : runtime.interprets = false → ∀ kind, h.live kind = []

variable {runtime : Runtime} {h : Handles}

theorem held_initial : Held runtime initial where
  peak _ := Nat.zero_le _
  idle _ _ := rfl
  wamr _ hinit := by cases hinit
  wasm3 _ hinit := by cases hinit
  other _ _ := rfl

/-- Handles of a box that is not marked and holds nothing -/
theorem held_of_idle (hpeak : ∀ kind, h.peak kind ≤ 1) (hinit : h.initialized = false)
    (hlive : ∀ kind, h.live kind = []) : Held runtime h where
  peak := hpeak
  idle _ := hlive
  wamr _ htrue := by rw [hinit] at htrue; cases htrue
  wasm3 _ htrue := by rw [hinit] at htrue; cases htrue
  other _ := hlive

theorem Held.length_le (held : Held runtime h) (kind : Kind) : (h.live kind).length ≤ 1 := by
  cases hinit : h.initialized with
  | false =>
    rw [held.idle hinit]
    exact Nat.zero_le 1
  | true =>
    cases runtime with
    | wamr =>
      obtain ⟨m, i, e, -, -, -, hm, hi, he, hr⟩ := held.wamr rfl hinit
      cases kind <;> simp [hm, hi, he, hr]
    | wasm3 =>
      obtain ⟨m, r, -, -, hm, hr, hi, he⟩ := held.wasm3 rfl hinit
      cases kind <;> simp [hm, hi, he, hr]
    | jumptable | awsm | mpu =>
      rw [held.other rfl]
      exact Nat.zero_le 1

@[simp] theorem initialized_clobber : (h.clobber runtime).initialized = false := rfl

@[simp] theorem pointer_release (kind : Kind) : (h.release kind).pointer = h.pointer := by
  unfold release
  split <;> rfl

@[simp] theorem peak_release (kind : Kind) : (h.release kind).peak = h.peak := by
  unfold release
  split <;> rfl

theorem live_release {kind : Kind} {n : ℕ} (hp : h.pointer kind = some n) :
    (h.release kind).live = Function.update h.live kind ((h.live kind).erase n) := by
  unfold release
  rw [hp]

theorem pointer_clobber : (h.clobber runtime).pointer = h.pointer := by
  unfold clobber
  split
  · cases runtime with
    | wamr => exact (pointer_release _).trans ((pointer_release _).trans (pointer_release _))
    | wasm3 =>
      dsimp only
      unfold freeRuntime
      split
      · rfl
      · exact pointer_release _
    | jumptable | awsm | mpu => rfl
  · rfl

/-- A clobber releases all that the box holds. -/
theorem held_clobber (held : Held runtime h) : Held runtime (h.clobber runtime) := by
  cases hinit : h.initialized with
  | false =>
    have heq : h.clobber runtime = { h with initialized := false } := by
      unfold clobber
      rw [hinit]
      rfl
    rw [heq]
    exact held_of_idle held.peak rfl (held.idle hinit)
  | true =>
    cases runtime with
    | wamr =>
      obtain ⟨m, i, e, hpm, hpi, hpe, hm, hi, he, hr⟩ := held.wamr rfl hinit
      have heq : h.clobber .wamr =
          { ((h.release .execEnv).release .instance_).release .module with
            initialized := false } := by
        unfold clobber
        rw [hinit]
        rfl
      rw [heq]
      apply held_of_idle
      · simp only [peak_release]
        exact held.peak
      · rfl
      · intro kind
        simp only
        rw [live_release (by simpa using hpm), live_release (by simpa using hpi),
          live_release hpe]
        cases kind <;> simp [hm, hi, he, hr]
    | wasm3 =>
      obtain ⟨m, r, hpr, howner, hm, hr, hi, he⟩ := held.wasm3 rfl hinit
      have heq : h.clobber .wasm3 = { h.freeRuntime with initialized := false } := by
        unfold clobber
        rw [hinit]
        rfl
      rw [heq]
      unfold freeRuntime
      rw [hpr]
      apply held_of_idle
      · simp only [peak_release]
        exact held.peak
      · rfl
      · intro kind
        simp only
        rw [live_release hpr]
        cases kind <;> simp [hm, hr, hi, he, howner]
    | jumptable | awsm | mpu =>
      unfold clobber
      rw [hinit]
      exact held_of_idle held.peak rfl (held.other rfl)

/-- A chain of acquisitions that is not broken off late leaves what a clobber releases. -/
theorem held_wamrBringUp {attempt : WamrAttempt} (held : Held .wamr h)
    (hinit : h.initialized = false)
    (hlate : attempt.moduleLoad = true → attempt.instantiate = true ∧ attempt.execEnv = true) :
    Held .wamr (wamrBringUp attempt h).2 := by
  have hlive := held.idle hinit
  have hpeak := held.peak
  unfold wamrBringUp
  cases hmodule : attempt.moduleLoad with
  | false =>
    exact held_of_idle (by simpa [acquire] using hpeak) (by simpa [acquire] using hinit)
      (by simpa [acquire] using hlive)
  | true =>
    obtain ⟨hinst, henv⟩ := hlate hmodule
    rw [hinst, henv]
    refine ⟨?_, ?_, fun _ _ => ?_, (by intro h; cases h), (by intro h; cases h)⟩
    · intro kind
      cases kind <;> simp [acquire, hlive, hpeak]
    · intro h
      cases h
    · refine ⟨h.serial, h.serial + 1, h.serial + 1 + 1, ?_⟩
      simp [acquire, hlive]

/-- A chain that is broken off late leaves the module behind. -/
theorem leak_wamrBringUp {attempt : WamrAttempt} (hinit : h.initialized = false)
    (hmodule : attempt.moduleLoad = true)
    (hlate : ¬ (attempt.instantiate = true ∧ attempt.execEnv = true)) :
    (wamrBringUp attempt h).2.initialized = false ∧ (wamrBringUp attempt h).2.live .module ≠ [] := by
  unfold wamrBringUp
  rw [hmodule]
  cases hinst : attempt.instantiate with
  | false => simp [acquire, hinit]
  | true =>
    have henv : attempt.execEnv = false := by
      rw [← Bool.not_eq_true]
      exact fun henv => hlate ⟨hinst, henv⟩
    rw [henv]
    simp [acquire, hinit]

theorem held_wasm3BringUp {attempt : Wasm3Attempt} (held : Held .wasm3 h)
    (hinit : h.initialized = false)
    (hlate : attempt.runtime = true →
      attempt.parse = .none ∧ attempt.loadModule = .none ∧ linkError attempt.links = none) :
    Held .wasm3 (wasm3BringUp attempt h).2 := by
  have hlive := held.idle hinit
  have hpeak := held.peak
  unfold wasm3BringUp
  cases hruntime : attempt.runtime with
  | false =>
    exact held_of_idle (by simpa [acquire] using hpeak) (by simpa [acquire] using hinit)
      (by simpa [acquire] using hlive)
  | true =>
    obtain ⟨hparse, hload, hlink⟩ := hlate hruntime
    rw [hparse, hload, hlink]
    refine ⟨?_, ?_, (by intro h; cases h), fun _ _ => ?_, (by intro h; cases h)⟩
    · intro kind
      cases kind <;> simp [acquire, loadModule, hlive, hpeak]
    · intro h
      cases h
    · refine ⟨h.serial + 1, h.serial, ?_⟩
      simp [acquire, loadModule, hlive]

/-- A chain that is broken off late leaves the runtime behind. -/
theorem leak_wasm3BringUp {attempt : Wasm3Attempt} (hinit : h.initialized = false)
    (hruntime : attempt.runtime = true)
    (hlate : ¬ (attempt.parse = .none ∧ attempt.loadModule = .none ∧
      linkError attempt.links = none)) :
    (wasm3BringUp attempt h).2.initialized = false ∧
      (wasm3BringUp attempt h).2.live .runtime ≠ [] := by
  unfold wasm3BringUp
  rw [hruntime]
  by_cases hparse : attempt.parse = .none
  · by_cases hload : attempt.loadModule = .none
    · cases hlink : linkError attempt.links with
      | none => exact absurd ⟨hparse, hload, hlink⟩ hlate
      | some res => simp [acquire, loadModule, hparse, hload, hinit]
    · simp [acquire, hparse, hload, hinit]
  · simp [acquire, hparse, hinit]

end Handles

/-! ## Section 3: Calls in any order -/

namespace Interpreters

variable {c : Config ι} {g : Interpreters ι}

/-- What is carried along a run, box by box -/
def AllHeld (c : Config ι) (g : Interpreters ι) : Prop :=
  ∀ b, (g.handles b).Held (c.runtime b)

omit [DecidableEq ι] in
theorem AllHeld.tidy (h : g.AllHeld c) : g.Tidy where
  single b kind := (h b).length_le kind
  peak b := (h b).peak
  idle b := (h b).idle

theorem allHeld_update {b : ι} {h : Handles} (held : g.AllHeld c) (hb : h.Held (c.runtime b)) :
    AllHeld c { g with handles := Function.update g.handles b h } := by
  intro b'
  by_cases heq : b' = b
  · subst heq
    simpa using hb
  · simpa [heq] using held b'

theorem allHeld_clobber (h : g.AllHeld c) (b : ι) : (clobber c g b).AllHeld c :=
  allHeld_update h (Handles.held_clobber (h b))

/-- The roommates are brought down: all that an init does before its load. -/
theorem allHeld_roommates (h : g.AllHeld c) (roommates : List ι) :
    (roommates.foldl (clobber c) g).AllHeld c := by
  induction roommates generalizing g with
  | nil => exact h
  | cons r roommates ih => exact ih (allHeld_clobber h r)

/-- Bringing down the roommates marks no box and moves no pointer. -/
theorem roommates_frame (b : ι) (roommates : List ι) (hinit : (g.handles b).initialized = false) :
    ((roommates.foldl (clobber c) g).handles b).initialized = false ∧
      ((roommates.foldl (clobber c) g).handles b).pointer = (g.handles b).pointer ∧
      (roommates.foldl (clobber c) g).runtimeInitialized = g.runtimeInitialized ∧
      (roommates.foldl (clobber c) g).environment = g.environment := by
  induction roommates generalizing g with
  | nil => exact ⟨hinit, rfl, rfl, rfl⟩
  | cons r roommates ih =>
    have hstep : ((clobber c g r).handles b).initialized = false ∧
        ((clobber c g r).handles b).pointer = (g.handles b).pointer := by
      by_cases hb : b = r
      · subst hb
        simp [clobber, Handles.pointer_clobber]
      · simp [clobber, hb, hinit]
    obtain ⟨hlast, hpointer, hruntime, henv⟩ := ih hstep.1
    exact ⟨hlast, hpointer.trans hstep.2, hruntime, henv⟩

omit [DecidableEq ι] in
/-- A box that holds something without being marked -/
theorem not_tidy_of_leak {b : ι} {kind : Kind} (hinit : (g.handles b).initialized = false)
    (hlive : (g.handles b).live kind ≠ []) : ¬ g.Tidy :=
  fun htidy => hlive (htidy.idle b hinit kind)

theorem handles_bringUp (b : ι) (f : Handles → Int × Handles) :
    (g.bringUp b f).2.handles b = (f (g.handles b)).2 := Function.update_self ..

/-- The init of wamr gets to the parsing of the image. -/
def WamrStarts (b : ι) (attempt : Handles.WamrAttempt) (g : Interpreters ι) : Prop :=
  attempt.load = 0 ∧ (g.runtimeInitialized = true ∨ attempt.runtimeInit = true) ∧
    (((g.handles b).pointer .module).isSome = true ∨ attempt.natives = true)

/-- The init of wasm3 gets to `m3_NewRuntime`. -/
def Wasm3Starts (attempt : Handles.Wasm3Attempt) (g : Interpreters ι) : Prop :=
  attempt.load = 0 ∧ (g.environment = true ∨ attempt.environment = true)

/-- What is not up yet fails to come up. -/
theorem down_iff {up ok : Bool} : (!up && !ok) = true ↔ ¬ (up = true ∨ ok = true) := by
  cases up <;> cases ok <;> simp

/-- Before the first acquisition an init of wamr only brings down the roommates. -/
theorem handles_wamrInit {b : ι} {attempt : Handles.WamrAttempt}
    (hinit : (g.handles b).initialized = false) :
    (WamrStarts b attempt g → (wamrInit c b attempt g).2.handles =
      (((c.roommates b).foldl (clobber c) g).bringUp b (Handles.wamrBringUp attempt)).2.handles) ∧
    (¬ WamrStarts b attempt g →
      (wamrInit c b attempt g).2.handles = ((c.roommates b).foldl (clobber c) g).handles) := by
  obtain ⟨-, hpointer, hruntime, -⟩ := roommates_frame (c := c) b (c.roommates b) hinit
  unfold wamrInit WamrStarts
  rw [hinit, if_neg Bool.false_ne_true]
  dsimp only
  rw [hpointer, hruntime, ← Option.not_isSome]
  constructor
  · rintro ⟨hload, hup, hnatives⟩
    rw [if_neg (not_not.mpr hload), if_neg fun hdown => down_iff.mp hdown hup,
      if_neg fun hdown => down_iff.mp hdown hnatives]
    rfl
  · intro hstop
    split
    · rfl
    · next hload =>
      split
      · rfl
      · next hup =>
        split
        · rfl
        · next hnatives =>
          exact absurd ⟨not_not.mp hload, not_not.mp fun h => hup (down_iff.mpr h),
            not_not.mp fun h => hnatives (down_iff.mpr h)⟩ hstop

/-- Before the first acquisition an init of wasm3 only brings down the roommates. -/
theorem handles_wasm3Init {b : ι} {attempt : Handles.Wasm3Attempt}
    (hinit : (g.handles b).initialized = false) :
    (Wasm3Starts attempt g → (wasm3Init c b attempt g).2.handles =
      (((c.roommates b).foldl (clobber c) g).bringUp b (Handles.wasm3BringUp attempt)).2.handles) ∧
    (¬ Wasm3Starts attempt g →
      (wasm3Init c b attempt g).2.handles = ((c.roommates b).foldl (clobber c) g).handles) := by
  obtain ⟨-, -, -, henv⟩ := roommates_frame (c := c) b (c.roommates b) hinit
  unfold wasm3Init Wasm3Starts
  rw [hinit, if_neg Bool.false_ne_true]
  dsimp only
  rw [henv]
  constructor
  · rintro ⟨hload, hup⟩
    rw [if_neg (not_not.mpr hload), if_neg fun hdown => down_iff.mp hdown hup]
    rfl
  · intro hstop
    split
    · rfl
    · next hload =>
      split
      · rfl
      · next hup =>
        exact absurd ⟨not_not.mp hload, not_not.mp fun h => hup (down_iff.mpr h)⟩ hstop

/-- The chain of an init, after the roommates have been brought down -/
theorem allHeld_bringUp {b : ι} {f : Handles → Int × Handles} (held : g.AllHeld c)
    (hf : (f (g.handles b)).2.Held (c.runtime b)) : (g.bringUp b f).2.AllHeld c :=
  allHeld_update held hf

omit [DecidableEq ι] in
theorem allHeld_congr {g' : Interpreters ι} (h : g'.handles = g.handles) (held : g.AllHeld c) :
    g'.AllHeld c := by
  unfold AllHeld
  rw [h]
  exact held

/-- A call that does not fail late keeps what is carried along. -/
theorem allHeld_apply {op : Op ι} (held : g.AllHeld c) (hop : op.Offered c)
    (hlate : NoLateFailure op g) : (apply c g op).2.AllHeld c := by
  cases op with
  | clobber b => exact allHeld_clobber held b
  | wamrInit b attempt =>
    cases hinit : (g.handles b).initialized with
    | true =>
      change (wamrInit c b attempt g).2.AllHeld c
      unfold wamrInit
      rw [if_pos hinit]
      exact held
    | false =>
      have held' := allHeld_roommates held (c.roommates b)
      obtain ⟨hinit', -⟩ := roommates_frame (c := c) b (c.roommates b) hinit
      by_cases hstarts : WamrStarts b attempt g
      · refine allHeld_congr ((handles_wamrInit hinit).1 hstarts) (allHeld_bringUp held' ?_)
        rw [show c.runtime b = .wamr from hop]
        refine Handles.held_wamrBringUp ?_ hinit'
          (hlate hinit hstarts.1 hstarts.2.1 hstarts.2.2)
        rw [← show c.runtime b = .wamr from hop]
        exact held' b
      · exact allHeld_congr ((handles_wamrInit hinit).2 hstarts) held'
  | wasm3Init b attempt =>
    cases hinit : (g.handles b).initialized with
    | true =>
      change (wasm3Init c b attempt g).2.AllHeld c
      unfold wasm3Init
      rw [if_pos hinit]
      exact held
    | false =>
      have held' := allHeld_roommates held (c.roommates b)
      obtain ⟨hinit', -⟩ := roommates_frame (c := c) b (c.roommates b) hinit
      by_cases hstarts : Wasm3Starts attempt g
      · refine allHeld_congr ((handles_wasm3Init hinit).1 hstarts) (allHeld_bringUp held' ?_)
        rw [show c.runtime b = .wasm3 from hop]
        refine Handles.held_wasm3BringUp ?_ hinit' (hlate hinit hstarts.1 hstarts.2)
        rw [← show c.runtime b = .wasm3 from hop]
        exact held' b
      · exact allHeld_congr ((handles_wasm3Init hinit).2 hstarts) held'
  | otherInit b err =>
    have held' := allHeld_roommates held (c.roommates b)
    change (otherInit c b err g).2.AllHeld c
    unfold otherInit
    split
    · exact held
    · dsimp only
      split
      · exact held'
      · have hother : (c.runtime b).interprets = false := hop
        refine allHeld_bringUp held' ⟨(held' b).peak, ?_, ?_, ?_, (held' b).other⟩
        · intro hinit
          cases hinit
        · intro hwamr
          rw [hwamr] at hother
          cases hother
        · intro hwasm3
          rw [hwasm3] at hother
          cases hother

/-- A call that fails late leaves a handle behind. -/
theorem not_tidy_apply {op : Op ι} (hlate : ¬ NoLateFailure op g) :
    ¬ (apply c g op).2.Tidy := by
  cases op with
  | clobber b => exact absurd trivial hlate
  | otherInit b err => exact absurd trivial hlate
  | wamrInit b attempt =>
    unfold NoLateFailure at hlate
    simp only [Classical.not_imp] at hlate
    obtain ⟨hinit, hload, hup, hnatives, hmodule, hfails⟩ := hlate
    obtain ⟨hinit', -⟩ := roommates_frame (c := c) b (c.roommates b) hinit
    have heq : (apply c g (.wamrInit b attempt)).2.handles b = _ :=
      (congrFun ((handles_wamrInit hinit).1 ⟨hload, hup, hnatives⟩) b).trans (handles_bringUp ..)
    obtain ⟨hidle, hlive⟩ := Handles.leak_wamrBringUp hinit' hmodule hfails
    exact not_tidy_of_leak (by rw [heq]; exact hidle) (by rw [heq]; exact hlive)
  | wasm3Init b attempt =>
    unfold NoLateFailure at hlate
    simp only [Classical.not_imp] at hlate
    obtain ⟨hinit, hload, hup, hruntime, hfails⟩ := hlate
    obtain ⟨hinit', -⟩ := roommates_frame (c := c) b (c.roommates b) hinit
    have heq : (apply c g (.wasm3Init b attempt)).2.handles b = _ :=
      (congrFun ((handles_wasm3Init hinit).1 ⟨hload, hup⟩) b).trans (handles_bringUp ..)
    obtain ⟨hidle, hlive⟩ := Handles.leak_wasm3BringUp hinit' hruntime hfails
    exact not_tidy_of_leak (by rw [heq]; exact hidle) (by rw [heq]; exact hlive)

/-- One wamr box and one wasm3 box that share their memory -/
def shared : Config Bool where
  runtime b := if b then .wamr else .wasm3
  lazy _ := false
  roommates b := [!b]
  unmixed := .inr (by decide)

end Interpreters

end BentoLinker.Runtimes
