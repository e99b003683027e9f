import BentoLinker.Mpu.Runs

/-!
# Where the MPU Handlers Write

The handlers run privileged, with a stack pointer that the box presents and with frames that
lie in memory the box can write. This module says where they write for every state of the
machine, and when these writes stay in memory of the domains that take part.

- `handlerStores`: the addresses a handler stores to, from the state it is entered in
- `tracks_mpuHandler`: it stores to these and to nothing else
- `Confined`: all writes are in allowed memory
- `confined_iff`: the condition on the presented stack pointer and on the saved frame

Neither is checked by the handlers.
-/

namespace BentoLinker.Mpu

open TracedMemory WordRange

variable {μ : Type}

/-! ## Section 1: The addresses a handler stores to -/

/-- `frame->fp` of the frame at the stack pointer of a domain -/
def savedFp (m : Machine μ) (d : Word) : Word := m.load (m.state d).sp

/-- A fault is passed on to the caller. -/
def Unwinds (c : Config μ) (m : Machine μ) : Prop :=
  c.aborts m.active = false ∧ ¬ c.count < (m.state m.active).caller ∧
    (m.state (m.state m.active).caller).lr ≠ 0 ∧
    m.load (savedFp m (m.state m.active).caller + 24) &&& 2 ≠ 0

instance (c : Config μ) (m : Machine μ) : Decidable (Unwinds c m) := by
  unfold Unwinds; infer_instance

def faultStores (c : Config μ) (m : Machine μ) : List Word :=
  if Unwinds c m then returnStores (savedFp m (m.state m.active).caller) else []

/-- The state in which `__box_returnsetup` looks for its target -/
def leave (m : Machine μ) (lr : Word) : Machine μ :=
  { m.setState m.active { m.state m.active with lr := lr } with
    active := (m.state m.active).caller }

/-- The domain returned to is not in a call: the return is a fault of that domain. -/
def Strays (m : Machine μ) (lr : Word) : Prop := ((leave m lr).state (leave m lr).active).lr = 0

instance (m : Machine μ) (lr : Word) : Decidable (Strays m lr) := by
  unfold Strays; infer_instance

def returnhandlerStores (c : Config μ) (m : Machine μ) (lr : Word) : List Word :=
  if Strays m lr then faultStores c (leave m lr)
  else returnStores (savedFp (leave m lr) (leave m lr).active)

/-- The addresses that `__box_mpu_handler` and what it branches to store to, latest first -/
def handlerStores (c : Config μ) (m : Machine μ) (lr sp : Word) : List Word :=
  match branchOf c (m.load (sp + 24)) with
  | .return_ => returnhandlerStores c m lr
  | .abort => faultStores c m
  | .call =>
    callStores lr sp (m.state (callTarget c m.active (m.load (sp + 24) - c.callregion))).sp
  | .fault => faultStores c m

section Stores

variable {c : Config μ} {m m' : Machine μ} {lr sp err : Word}

theorem ram_popFrame (h : (popFrame m lr sp).machine? = some m') : m'.ram = m.ram := by
  unfold popFrame at h
  cases h
  rfl

/-- Marking a box as uninitialized keeps the other fields. -/
theorem marked_fields (m : Machine μ) (d : Word) :
    (Function.update m.state m.active { m.state m.active with initialized := false } d).lr =
        (m.state d).lr ∧
      (Function.update m.state m.active { m.state m.active with initialized := false } d).sp =
        (m.state d).sp := by
  by_cases hd : d = m.active
  · subst hd
    rw [Function.update_self]
    exact ⟨rfl, rfl⟩
  · rw [Function.update_of_ne hd]
    exact ⟨rfl, rfl⟩

theorem tracks_faulthandler (h : (faulthandler c m err).machine? = some m') :
    Tracks (faultStores c m) m.ram m'.ram := by
  obtain ⟨hlr, hsp⟩ := marked_fields m (m.state m.active).caller
  unfold faulthandler faultsetup at h
  simp only [Machine.active_setState, Machine.state_setState, Function.update_self, hlr,
    hsp] at h
  unfold faultStores
  -- each test that stops the fault leaves the memory as it is
  by_cases habort : c.aborts m.active = true
  · rw [if_pos habort] at h
    rw [if_neg fun hunwinds => by simp [hunwinds.1] at habort]
    cases h
    exact Tracks.refl _
  rw [if_neg habort] at h
  by_cases hrange : c.count < (m.state m.active).caller
  · rw [if_pos hrange] at h
    cases h
  rw [if_neg hrange] at h
  by_cases hcall : (m.state (m.state m.active).caller).lr = 0
  · rw [if_pos hcall] at h
    rw [if_neg fun hunwinds => hunwinds.2.2.1 hcall]
    cases h
    exact Tracks.refl _
  rw [if_neg hcall] at h
  by_cases hop : m.load (savedFp m (m.state m.active).caller + 24) &&& 2 = 0
  · rw [if_pos (by exact hop)] at h
    rw [if_neg fun hunwinds => hunwinds.2.2.2 hop]
    cases h
    exact Tracks.refl _
  rw [if_neg (by exact hop)] at h
  rw [if_pos ⟨by simpa using habort, hrange, hcall, hop⟩, ram_popFrame h]
  exact tracks_faultFrame _ _ _

theorem tracks_returnhandler (h : (returnhandler c m lr sp).machine? = some m') :
    Tracks (returnhandlerStores c m lr) m.ram m'.ram := by
  unfold returnhandler returnsetup at h
  change (if c.count < (leave m lr).active then _ else
    if ((leave m lr).state (leave m lr).active).lr = 0 then
      faulthandler c (leave m lr) negEFAULT
    else _ : Outcome μ).machine? = _ at h
  unfold returnhandlerStores
  by_cases hrange : c.count < (leave m lr).active
  · rw [if_pos hrange] at h
    cases h
  rw [if_neg hrange] at h
  by_cases hcall : Strays m lr
  · rw [if_pos (by exact hcall)] at h
    rw [if_pos hcall]
    exact tracks_faulthandler h
  · rw [if_neg (by exact hcall)] at h
    rw [if_neg hcall, ram_popFrame h]
    exact tracks_returnFrame _ _ _

/-- The handlers store to `handlerStores` and leave all other memory alone. -/
theorem tracks_mpuHandler (h : (mpuHandler c m lr sp).machine? = some m') :
    Tracks (handlerStores c m lr sp) m.ram m'.ram := by
  unfold handlerStores
  unfold mpuHandler at h
  cases hbranch : branchOf c (m.load (sp + 24)) with
  | return_ =>
    simp only [hbranch] at h
    exact tracks_returnhandler h
  | abort =>
    simp only [hbranch] at h
    exact tracks_faulthandler h
  | fault =>
    simp only [hbranch] at h
    exact tracks_faulthandler h
  | call =>
    simp only [hbranch] at h
    rcases callhandler_cases c m lr sp (m.load (sp + 24) - c.callregion) with
      hwild | ⟨exc, excsp, m₁, hresume⟩
    · rw [hwild] at h
      cases h
    · rw [hresume] at h
      cases h
      exact (callSpec_of_callhandler (callTarget_ne c _ _) hresume).tracks

end Stores

/-! ## Section 2: Staying in allowed memory -/

/-- Stores go to allowed memory, all other memory is unchanged. -/
structure Confined (allowed : Word → Prop) (m m' : Machine μ) : Prop where
  stores : ∀ new, m'.ram.stores = new ++ m.ram.stores → ∀ a ∈ new, allowed a
  unchanged : ∀ a, ¬ allowed a → m'.load a = m.load a

/-- The domains that a handler acts for: the active one and its target, and the target of the
fault that a return to a domain that is not in a call turns into -/
def parties (c : Config μ) (m : Machine μ) (lr sp : Word) : List Word :=
  match branchOf c (m.load (sp + 24)) with
  | .call => [m.active, callTarget c m.active (m.load (sp + 24) - c.callregion)]
  | .return_ =>
    m.active :: (m.state m.active).caller ::
      (if Strays m lr then [((leave m lr).state (leave m lr).active).caller] else [])
  | .abort => [m.active, (m.state m.active).caller]
  | .fault => [m.active, (m.state m.active).caller]

/-- `r0` to `r3` and `pc` of an exception frame are in allowed memory. -/
def FrameIn (allowed : Word → Prop) (fp : Word) : Prop :=
  allowed fp ∧ allowed (fp + 4) ∧ allowed (fp + 8) ∧ allowed (fp + 12) ∧ allowed (fp + 24)

/-- Words that a call saves below the stack pointer: registers and `struct __box_frame` -/
def savedWords (lr : Word) : ℕ := if hasFp lr then 28 else 12

/-- What would have to hold of the presented stack pointer, of the stack pointer of a callee,
and of the frame pointer that is saved at the stack pointer of a caller. -/
def PointersIn (c : Config μ) (allowed : Word → Prop) (m : Machine μ) (lr sp : Word) : Prop :=
  match branchOf c (m.load (sp + 24)) with
  | .call =>
    (∀ a ∈ addrs (sp - savedSize lr - 16) (savedWords lr), allowed a) ∧
      ∀ a ∈ addrs ((m.state
        (callTarget c m.active (m.load (sp + 24) - c.callregion))).sp - 32) 8, allowed a
  | .return_ =>
    if Strays m lr then Unwinds c (leave m lr) →
      FrameIn allowed (savedFp (leave m lr) ((leave m lr).state (leave m lr).active).caller)
    else FrameIn allowed (savedFp (leave m lr) (leave m lr).active)
  | .abort => Unwinds c m → FrameIn allowed (savedFp m (m.state m.active).caller)
  | .fault => Unwinds c m → FrameIn allowed (savedFp m (m.state m.active).caller)

section Confined

variable {c : Config μ} {m m' : Machine μ} {lr sp : Word} {allowed : Word → Prop}

theorem confined_iff_of_tracks {new : List Word} (h : Tracks new m.ram m'.ram) :
    Confined allowed m m' ↔ ∀ a ∈ new, allowed a := by
  constructor
  · exact fun hconfined => hconfined.stores new h.stores
  · intro hnew
    constructor
    case stores =>
      intro new' hstores
      rw [h.stores] at hstores
      rwa [← List.append_cancel_right hstores]
    case unchanged =>
      intro a ha
      exact h.cells a fun hmem => ha (hnew a hmem)

/-- The frame and the saved registers are the words right below the stack pointer. -/
theorem mem_callStores_iff {targetsp a : Word} : a ∈ callStores lr sp targetsp ↔
    a ∈ addrs (sp - savedSize lr - 16) (savedWords lr) ∨ a ∈ addrs (targetsp - 32) 8 := by
  unfold callStores savedAddrs savedSize savedWords
  simp only [List.mem_append, List.mem_reverse]
  rw [or_comm]
  apply or_congr_left
  cases hasFp lr with
  | false =>
    have hsplit : addrs (sp - 32 - 16) 12 = addrs (sp - 32 - 16) 4 ++ addrs (sp - 32) 8 := by
      rw [addrs_append _ 4 8]
      congr 2
      bv_omega
    simp only [Bool.false_eq_true, if_false, List.not_mem_nil, false_or]
    rw [hsplit, List.mem_append]
  | true =>
    have hsplit : addrs (sp - 96 - 16) 28 =
        addrs (sp - 96 - 16) 4 ++ (addrs (sp - 96) 16 ++ addrs (sp - 32) 8) := by
      rw [addrs_append _ 4 24, addrs_append _ 16 8]
      congr 2
      · congr 1
        bv_omega
      · congr 1
        bv_omega
    simp only [if_true, List.mem_reverse]
    rw [hsplit, List.mem_append, List.mem_append]

theorem forall_mem_returnStores {fp : Word} :
    (∀ a ∈ returnStores fp, allowed a) ↔ FrameIn allowed fp := by
  rw [returnStores_eq]
  simp only [List.forall_mem_cons, FrameIn]
  tauto

theorem forall_mem_faultStores : (∀ a ∈ faultStores c m, allowed a) ↔
    (Unwinds c m → FrameIn allowed (savedFp m (m.state m.active).caller)) := by
  unfold faultStores
  split
  · next hunwinds => rw [forall_mem_returnStores, forall_prop_of_true hunwinds]
  · next hunwinds => simp [hunwinds]

theorem forall_mem_handlerStores :
    (∀ a ∈ handlerStores c m lr sp, allowed a) ↔ PointersIn c allowed m lr sp := by
  unfold handlerStores PointersIn
  cases branchOf c (m.load (sp + 24)) with
  | call => simp only [mem_callStores_iff, or_imp, forall_and]
  | abort => exact forall_mem_faultStores
  | fault => exact forall_mem_faultStores
  | return_ =>
    simp only [returnhandlerStores]
    by_cases hstrays : Strays m lr
    · rw [if_pos hstrays, if_pos hstrays]
      exact forall_mem_faultStores
    · rw [if_neg hstrays, if_neg hstrays]
      exact forall_mem_returnStores

end Confined

section Stacks

variable {c : Config μ} {stk : Stacks}

/-- The stacks of the domains that are active before and after a step -/
def InStacks (stk : Stacks) (m m' : Machine μ) (a : Word) : Prop :=
  ∃ d, (d = m.active ∨ d = m'.active) ∧ stk.lo d ≤ a.toNat ∧ a.toNat < stk.hi d

theorem mem_returnStores {fp a : Word} (hfp : fp.toNat + 32 ≤ 2 ^ 32)
    (ha : a ∈ returnStores fp) : fp.toNat ≤ a.toNat ∧ a.toNat < fp.toNat + 32 := by
  unfold returnStores at ha
  rcases List.mem_cons.mp ha with rfl | ha
  · have h24 : (fp + 24).toNat = fp.toNat + 24 := toNat_add_ofNat (k := 24) (by omega)
    omega
  · have hin := toNat_of_mem_addrs (by omega) (List.mem_reverse.mp ha)
    omega

/-- A popped call writes to the stack of the domain that has made it. -/
theorem confined_pop {m m' : Machine μ} {f : Suspended} {rest : List Suspended}
    {returned : BoxState} {exc excsp : Word} (hinv : Inv c stk m (f :: rest))
    (hspec : ReturnSpec c m returned exc excsp m') : Confined (InStacks stk m m') m m' := by
  have htop := hinv.top
  have htracks := hspec.tracks
  rw [htop.caller, htop.sp, htop.fp] at htracks
  obtain ⟨hfloor, hlo, hsize, hhi⟩ := framed_mem hinv.framed (List.mem_cons_self ..)
  have hmax := stk.hi_le f.dom
  refine (confined_iff_of_tracks htracks).mpr fun a ha => ?_
  obtain ⟨hlow, hhigh⟩ := mem_returnStores (by omega) ha
  refine ⟨f.dom, .inr ?_, by omega, by omega⟩
  rw [hspec.active, htop.caller]

/-- What a step of a handler writes lies in the stacks of the two domains that take part. -/
theorem confined_step {e : Event} {s s' : RunState μ}
    (hrun : GuardedRun Start (Step c stk) Good s) (hstep : Step c stk e s s')
    (hexc : ∃ lr sp, e = .call lr sp ∨ e = .ret lr sp ∨ e = .fault lr sp) :
    Confined (InStacks stk s.machine s'.machine) s.machine s'.machine := by
  have hinv := inv_run hrun
  cases hstep with
  | own => simp at hexc
  | prepare => simp at hexc
  | mark => simp at hexc
  | @call m m' chain target lr sp exc excsp hbranch htarget hok hresume =>
    rw [mpuHandler_call hbranch] at hresume
    subst htarget
    have hspec := callSpec_of_callhandler (callTarget_ne c _ _) hresume
    refine (confined_iff_of_tracks hspec.tracks).mpr fun a ha => ?_
    have hroom := hok.room
    have hspace := hok.space
    have hbelow := hok.below
    have hfloor : floor stk chain m.active ≤ stk.hi m.active := floor_le_hi hinv.framed m.active
    have hhi := hok.sp_le_hi hinv.framed hinv.table.sp
    rcases mem_callStores (by omega) (by omega) ha with ⟨hlow, hhigh⟩ | ⟨hlow, hhigh⟩
    · exact ⟨_, .inr hspec.active.symm, by omega, by omega⟩
    · exact ⟨m.active, .inl rfl, by omega, by omega⟩
  | ret hbranch hlr hresume =>
    rw [mpuHandler_return hbranch] at hresume
    have htop := hinv.top
    have hcall := htop.resumable
    rw [← htop.lr, ← htop.caller] at hcall
    exact confined_pop hinv (returnSpec_of_returnhandler htop.ne hcall hresume)
  | fault hbranch hresume =>
    rw [mpuHandler_fault hbranch] at hresume
    obtain ⟨-, hspec, -⟩ := returnSpec_of_faulthandler hinv.top.ne hresume
    exact confined_pop hinv hspec

end Stacks

/-! ## Section 4: A box with its stack pointer at the end of its memory -/

/-- The constants of a recipe with two boxes -/
def twoBoxes : Config Unit where
  count := 2
  count_pos := by decide
  callregion := 0x1000
  callsize := 0x1000
  jumptables d := if d = 0 then 0x2000 else 0x2800
  sysJumptables d := if d = 0 then 0x3000 else 0x3800
  aborts _ := false
  mpuSwitch _ mpu := mpu

/-- RAM of sys, of box 1, and of box 2 right below that of box 1 -/
def twoBoxesRam (d a : Word) : Prop :=
  (d = 0 ∧ 0x10000 ≤ a ∧ a < 0x11000) ∨ (d = 1 ∧ 0x21000 ≤ a ∧ a < 0x22000) ∨
    (d = 2 ∧ 0x20000 ≤ a ∧ a < 0x21000)

/-- Box 1 runs, called by sys. It has moved its stack pointer to the start of its RAM, where
the exception frame of its next call still fits. -/
def twoBoxesCalling : Machine Unit where
  active := 1
  state d := ⟨true, 0, if d = 1 then 0 else 0xfffffffd, if d = 0 then 0x10f00 else 0x22000⟩
  ram := ⟨fun a => if a = 0x21018 then 0x1008 else 0, []⟩
  regs := ⟨fun _ => 0xbad, fun _ => 0⟩
  mpu := ()

/-- The call has been made. -/
def twoBoxesCalled : Machine Unit :=
  (mpuHandler twoBoxes twoBoxesCalling 0xfffffffd 0x21000).machine?.getD twoBoxesCalling

end BentoLinker.Mpu
