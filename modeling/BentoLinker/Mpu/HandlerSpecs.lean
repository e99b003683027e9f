import BentoLinker.Mpu.Handlers

/-!
# What the MPU Handlers Do

One specification for each handler: how it ends, the records it changes, and the
addresses it stores to. Everything proved about runs cites these and does not look
into the handlers again.

- `CallSpec`: a call that a handler has set up
- `ReturnSpec`: a frame that a return or a fault has resumed
-/

namespace BentoLinker.Mpu

open TracedMemory WordRange

variable {μ : Type}

/-! ## Section 1: Addresses -/

theorem map_fst_wordsAt {n : ℕ} (a : Word) (v : Fin n → Word) :
    (wordsAt a v).map Prod.fst = addrs a n := by
  rw [wordsAt, List.map_fst_zip (by simp [addrs])]

theorem map_fst_frameWords (sp fp : Word) (s : BoxState) :
    (frameWords sp fp s).map Prod.fst = addrs sp 4 := by
  simp [frameWords, addrs, List.range_succ]

/-- Where the registers of a frame are saved, latest first -/
def savedAddrs (lr sp : Word) : List Word :=
  (if hasFp lr then (addrs (sp - 96) 16).reverse else []) ++ (addrs (sp - 32) 8).reverse

/-- The addresses a call stores to, latest first: the new frame of the callee below its
stack pointer, and the frame and the registers of the caller -/
def callStores (lr sp targetsp : Word) : List Word :=
  (addrs (targetsp - 32) 8).reverse ++
    ((addrs (sp - savedSize lr - 16) 4).reverse ++ savedAddrs lr sp)

/-- The addresses a return or a fault stores to, latest first: `pc` and `r0` to `r3` of the
exception frame it resumes -/
def returnStores (targetfp : Word) : List Word :=
  (targetfp + 24) :: (addrs targetfp 4).reverse

theorem tracks_saveRegs (m : Machine μ) (lr sp : Word) :
    Tracks (savedAddrs lr sp) m.ram (saveRegs m lr sp).ram := by
  have hcore := (Tracks.refl m.ram).storeAll (wordsAt (sp - 32) m.regs.core)
  rw [map_fst_wordsAt, List.append_nil] at hcore
  unfold saveRegs savedAddrs
  cases hasFp lr with
  | false => exact hcore
  | true =>
    have hfpu := hcore.storeAll (wordsAt (sp - 96) m.regs.fpu)
    rw [map_fst_wordsAt] at hfpu
    exact hfpu

theorem saveRegs_fields (m : Machine μ) (lr sp : Word) :
    (saveRegs m lr sp).active = m.active ∧ (saveRegs m lr sp).state = m.state ∧
      (saveRegs m lr sp).mpu = m.mpu := by
  unfold saveRegs
  cases hasFp lr <;> exact ⟨rfl, rfl, rfl⟩

theorem tracks_pushCallFrame {new : List Word} {ram : TracedMemory Word Word} {m : Machine μ}
    (c : Config μ) (targetsp fp targetpc : Word) (h : Tracks new ram m.ram) :
    Tracks ((addrs targetsp 8).reverse ++ new) ram
      (pushCallFrame c m targetsp fp targetpc).ram := by
  have haddrs : (addrs targetsp 8).reverse ++ new = (targetsp + 28) :: (targetsp + 24) ::
      (targetsp + 20) :: (targetsp + 16) :: (targetsp + 12) :: (targetsp + 8) ::
      (targetsp + 4) :: targetsp :: new := by
    simp [addrs, List.range_succ]
  rw [haddrs]
  exact (((((((h.store _ _).store _ _).store _ _).store _ _).store _ _).store _ _).store _
    _).store _ _

/-! ## Section 2: Calls -/

/-- What a call does: the caller's record and registers go into a frame on its stack, the
callee runs with its record marked as in a call. -/
structure CallSpec (c : Config μ) (m : Machine μ) (lr sp op : Word) (exc excsp : Word)
    (m' : Machine μ) : Prop where
  active : m'.active = callTarget c m.active op
  lr_eq : exc = (m.state (callTarget c m.active op)).lr
  sp_eq : excsp = (m.state (callTarget c m.active op)).sp - 32
  state : m'.state = Function.update
    (Function.update m.state m.active
      { m.state m.active with lr := lr, sp := sp - savedSize lr - 16 })
    (callTarget c m.active op)
    { m.state (callTarget c m.active op) with caller := m.active, lr := 0 }
  mpu : m'.mpu = c.mpuSwitch (callTarget c m.active op) m.mpu
  tracks : Tracks (callStores lr sp (m.state (callTarget c m.active op)).sp) m.ram m'.ram
  frame : ∀ w ∈ frameWords (sp - savedSize lr - 16) sp (m.state m.active),
    w.1 ∉ addrs ((m.state (callTarget c m.active op)).sp - 32) 8 → m'.load w.1 = w.2

theorem callSpec_of_callhandler {c : Config μ} {m m' : Machine μ} {lr sp op exc excsp : Word}
    (hne : callTarget c m.active op ≠ m.active)
    (h : callhandler c m lr sp op = .resume exc excsp m') :
    CallSpec c m lr sp op exc excsp m' := by
  obtain ⟨hactive, hstate, hmpu⟩ := saveRegs_fields m lr sp
  have htarget : ∀ s, Function.update m.state m.active s (callTarget c m.active op) =
      m.state (callTarget c m.active op) :=
    fun s => Function.update_of_ne hne s m.state
  unfold callhandler callsetup at h
  split at h
  · cases h
  -- the frame first, the new frame of the callee last
  have hsaved := (tracks_saveRegs m lr sp).storeAll
    (frameWords (sp - savedSize lr - 16) sp (m.state m.active))
  rw [map_fst_frameWords] at hsaved
  simp only [Machine.active_storeAll, Machine.active_setState, Machine.state_setState,
    Machine.state_storeAll, hactive, hstate, htarget] at h
  cases h
  constructor
  case active => rfl
  case lr_eq => rfl
  case sp_eq => rfl
  case state => rfl
  case mpu => simp [pushCallFrame, hmpu]
  case tracks => exact tracks_pushCallFrame c _ _ _ hsaved
  case frame =>
    intro w hw hnot
    refine ((tracks_pushCallFrame c _ _ _ (Tracks.refl _)).cells w.1 ?_).trans ?_
    · rw [List.append_nil, List.mem_reverse]
      exact hnot
    · refine cells_storeAll ?_ hw
      rw [map_fst_frameWords]
      exact nodup_addrs _ (by decide)

/-- A call is always set up, if there is a record for the active domain. -/
theorem callhandler_cases (c : Config μ) (m : Machine μ) (lr sp op : Word) :
    callhandler c m lr sp op = .wild ∨
      ∃ exc excsp m', callhandler c m lr sp op = .resume exc excsp m' := by
  unfold callhandler callsetup
  split
  · left; rfl
  · right; exact ⟨_, _, _, rfl⟩

/-! ## Section 3: Returns and faults -/

theorem returnStores_eq (targetfp : Word) :
    returnStores targetfp = [targetfp + 24, targetfp + 12, targetfp + 8, targetfp + 4,
      targetfp] := by
  simp [returnStores, addrs, List.range_succ]

theorem tracks_faultFrame (m : Machine μ) (targetfp err : Word) :
    Tracks (returnStores targetfp) m.ram (faultFrame m targetfp err).ram := by
  rw [returnStores_eq]
  exact (((((Tracks.refl _).store _ _).store _ _).store _ _).store _ _).store _ _

theorem tracks_returnFrame (m : Machine μ) (targetfp fp : Word) :
    Tracks (returnStores targetfp) m.ram (returnFrame m targetfp fp).ram := by
  rw [returnStores_eq]
  exact (((((Tracks.refl _).store _ _).store _ _).store _ _).store _ _).store _ _

theorem load_faultFrame (m : Machine μ) (targetfp err : Word) :
    (faultFrame m targetfp err).load targetfp = err ∧
      (faultFrame m targetfp err).load (targetfp + 24) = m.load (targetfp + 20) := by
  constructor
  · simp only [faultFrame, Machine.load, Machine.ram_store]
    rw [cells_store_of_ne (by bv_omega), cells_store_of_ne (by bv_omega),
      cells_store_of_ne (by bv_omega), cells_store_of_ne (by bv_omega), cells_store_self]
  · simp only [faultFrame, Machine.load, Machine.ram_store, cells_store_self]
    rw [cells_store_of_ne (by bv_omega), cells_store_of_ne (by bv_omega),
      cells_store_of_ne (by bv_omega), cells_store_of_ne (by bv_omega)]

/-- What a return and an unwinding fault do: the frame at the caller's stack pointer is
popped, the records other than `returned` and the caller's are left alone. -/
structure ReturnSpec (c : Config μ) (m : Machine μ) (returned : BoxState) (exc excsp : Word)
    (m' : Machine μ) : Prop where
  inRange : ¬ c.count < (m.state m.active).caller
  lr_eq : exc = (m.state (m.state m.active).caller).lr
  sp_eq : excsp = (m.state (m.state m.active).caller).sp + 16 + savedSize exc
  inCall : exc ≠ 0
  active : m'.active = (m.state m.active).caller
  state : m'.state = Function.update (Function.update m.state m.active returned)
    (m.state m.active).caller
    (restoreState m (m.state (m.state m.active).caller).sp
      (m.state (m.state m.active).caller))
  mpu : m'.mpu = c.mpuSwitch (m.state m.active).caller m.mpu
  tracks : Tracks (returnStores (m.load (m.state (m.state m.active).caller).sp)) m.ram m'.ram

theorem popFrame_eq_resume {m m' : Machine μ} {lr sp exc excsp : Word}
    (h : popFrame m lr sp = .resume exc excsp m') :
    exc = lr ∧ excsp = sp + 16 + savedSize lr ∧ m'.active = m.active ∧ m'.state = m.state ∧
      m'.mpu = m.mpu ∧ m'.ram = m.ram := by
  cases h
  refine ⟨rfl, ?_, rfl, rfl, rfl, rfl⟩
  unfold savedSize
  cases hasFp lr with
  | false => rfl
  | true =>
    simp only [if_true]
    bv_omega

/-- A fault that is unwound: the callee is no longer initialized, the caller's call returns
`err`. -/
theorem returnSpec_of_faulthandler {c : Config μ} {m m' : Machine μ} {err exc excsp : Word}
    (hne : (m.state m.active).caller ≠ m.active)
    (h : faulthandler c m err = .resume exc excsp m') :
    c.aborts m.active = false ∧
      ReturnSpec c m { m.state m.active with initialized := false } exc excsp m' ∧
      m.load (m.load (m.state (m.state m.active).caller).sp + 24) &&& 2 ≠ 0 := by
  have htarget : ∀ s, Function.update m.state m.active s (m.state m.active).caller =
      m.state (m.state m.active).caller :=
    fun s => Function.update_of_ne hne s m.state
  unfold faulthandler faultsetup at h
  simp only [Machine.active_setState, Machine.state_setState, Function.update_self,
    htarget] at h
  cases habort : c.aborts m.active with
  | true =>
    rw [habort] at h
    cases h
  | false =>
    rw [habort, if_neg Bool.false_ne_true] at h
    split at h
    · next hresume =>
      split at hresume
      · cases hresume
      next hrange =>
      split at hresume
      · cases hresume
      next hlr =>
      split at hresume
      · cases hresume
      next hop =>
      obtain ⟨rfl, hexcsp, hactive, hstate, hmpu, hram⟩ := popFrame_eq_resume h
      cases hresume
      refine ⟨rfl, ?_, hop⟩
      constructor
      case inRange => exact hrange
      case lr_eq => rfl
      case sp_eq => exact hexcsp
      case inCall => exact hlr
      case active => exact hactive
      case state => exact hstate
      case mpu => exact hmpu
      case tracks =>
        rw [hram]
        exact tracks_faultFrame _ _ _
    · next o hresume =>
      exact absurd h (hresume exc excsp m')

/-- The frame that a fault resumes: `r0` is the error, `pc` the stacked link. -/
theorem load_of_faulthandler {c : Config μ} {m m' : Machine μ} {err exc excsp : Word}
    (hne : (m.state m.active).caller ≠ m.active)
    (h : faulthandler c m err = .resume exc excsp m') :
    m'.load (m.load (m.state (m.state m.active).caller).sp) = err ∧
      m'.load (m.load (m.state (m.state m.active).caller).sp + 24) =
        m.load (m.load (m.state (m.state m.active).caller).sp + 20) := by
  have htarget : ∀ s, Function.update m.state m.active s (m.state m.active).caller =
      m.state (m.state m.active).caller := fun s => Function.update_of_ne hne s m.state
  unfold faulthandler faultsetup at h
  simp only [Machine.active_setState, Machine.state_setState, Function.update_self,
    htarget] at h
  split at h
  · next hresume =>
    split at hresume
    · cases hresume
    split at hresume
    · cases hresume
    split at hresume
    · cases hresume
    split at hresume
    · cases hresume
    obtain ⟨-, -, -, -, -, hram⟩ := popFrame_eq_resume h
    cases hresume
    have hload : ∀ a, m'.load a = _ := fun a => congrFun (congrArg TracedMemory.cells hram) a
    rw [hload, hload]
    exact load_faultFrame _ _ err
  · next o hresume =>
    exact absurd h (hresume exc excsp m')

/-- Without an abort hook, a fault in a call is unwound if the call is falible, and stops
the system if not. -/
theorem faulthandler_inCall {c : Config μ} {m : Machine μ} (err : Word)
    (hne : (m.state m.active).caller ≠ m.active) (habort : c.aborts m.active = false)
    (hrange : ¬ c.count < (m.state m.active).caller)
    (hcall : (m.state (m.state m.active).caller).lr ≠ 0) :
    (m.load (m.load (m.state (m.state m.active).caller).sp + 24) &&& 2 = 0 →
      ∃ m', faulthandler c m err = .abort err m') ∧
    (m.load (m.load (m.state (m.state m.active).caller).sp + 24) &&& 2 ≠ 0 →
      ∃ exc excsp m', faulthandler c m err = .resume exc excsp m') := by
  have htarget : ∀ s, Function.update m.state m.active s (m.state m.active).caller =
      m.state (m.state m.active).caller := fun s => Function.update_of_ne hne s m.state
  have hop : ∀ s, (m.setState m.active s).load = m.load := fun s => rfl
  unfold faulthandler faultsetup
  simp only [Machine.active_setState, Machine.state_setState, Function.update_self, htarget,
    habort, Bool.false_eq_true, if_false, if_neg hrange, if_neg hcall, hop]
  constructor
  · intro hfalible
    rw [if_pos hfalible]
    exact ⟨_, rfl⟩
  · intro hfalible
    rw [if_neg hfalible]
    exact ⟨_, _, _, rfl⟩

/-- A return to a domain that is in a call is never a fault. -/
theorem returnhandler_inCall {c : Config μ} {m : Machine μ} (lr sp : Word)
    (hne : (m.state m.active).caller ≠ m.active)
    (hrange : ¬ c.count < (m.state m.active).caller)
    (hcall : (m.state (m.state m.active).caller).lr ≠ 0) :
    ∃ exc excsp m', returnhandler c m lr sp = .resume exc excsp m' := by
  have htarget : ∀ s, Function.update m.state m.active s (m.state m.active).caller =
      m.state (m.state m.active).caller := fun s => Function.update_of_ne hne s m.state
  unfold returnhandler returnsetup
  simp only [Machine.state_setState, htarget, if_neg hrange, if_neg hcall]
  exact ⟨_, _, _, rfl⟩

/-- A return to a domain that is in a call: the record of the domain returned from takes the
`lr` of the return. -/
theorem returnSpec_of_returnhandler {c : Config μ} {m m' : Machine μ} {lr sp exc excsp : Word}
    (hne : (m.state m.active).caller ≠ m.active)
    (hcall : (m.state (m.state m.active).caller).lr ≠ 0)
    (h : returnhandler c m lr sp = .resume exc excsp m') :
    ReturnSpec c m { m.state m.active with lr := lr } exc excsp m' := by
  have htarget : ∀ s, Function.update m.state m.active s (m.state m.active).caller =
      m.state (m.state m.active).caller := fun s => Function.update_of_ne hne s m.state
  unfold returnhandler returnsetup at h
  simp only [Machine.state_setState, htarget] at h
  split at h
  · cases h
  next hrange =>
  obtain ⟨rfl, hexcsp, hactive, hstate, hmpu, hram⟩ := popFrame_eq_resume h
  constructor
  case inRange => exact hrange
  case lr_eq => rfl
  case sp_eq => exact hexcsp
  case inCall => exact hcall
  case active => exact hactive
  case state => exact hstate
  case mpu => exact hmpu
  case tracks =>
    rw [hram]
    exact tracks_returnFrame _ _ _

end BentoLinker.Mpu
