import BentoLinker.Mpu.Runs

/-!
# Faults

What a fault gives back of the state before the call it unwinds.

- `Unwound`: the call returns the error, the domain that has faulted is not initialized
- `Waiting`: the domains further down the chain can be resumed
- `unwound_iff`: a falible call is unwound, and the chain stays fit to be resumed if and
  only if the domain that has faulted is not itself suspended further down
- a fault in a call that is not falible stops the system

`__box_callsetup` clears the `lr` of the domain it calls, `__box_returnsetup` sets it again,
but `__box_faultsetup` does not: a domain that faults keeps the cleared one.
-/

namespace BentoLinker.Mpu

variable {μ : Type}

/-- The caller runs again, as it was before its call, and sees the call return `err`. -/
structure Unwound (f : Suspended) (m : Machine μ) (err exc excsp : Word) (m' : Machine μ) :
    Prop where
  active : m'.active = f.dom
  exc : exc = f.lr
  excsp : excsp = f.fp
  r0 : m'.load f.fp = err
  /-- at the link that has been stacked with the call -/
  pc : m'.load (f.fp + 24) = f.cells (f.fp + 20)
  lr : (m'.state f.dom).lr = (f.table f.dom).lr
  sp : (m'.state f.dom).sp = (f.table f.dom).sp
  caller : (m'.state f.dom).caller = (f.table f.dom).caller
  faulted : (m'.state m.active).initialized = false

/-- Suspended domains have an `EXC_RETURN` value, and their stack pointer at their frame. -/
def Waiting (stk : Stacks) (rest : List Suspended) (m' : Machine μ) : Prop :=
  ∀ d, Live rest d → d ≠ m'.active →
    (m'.state d).lr ≠ 0 ∧ (m'.state d).sp.toNat = floor stk rest d

variable {c : Config μ} {stk : Stacks}

theorem latestLr_ne_zero {chain : List Suspended} {d : Word} (hlr : ∀ f ∈ chain, f.lr ≠ 0)
    (hlive : Live chain d) : latestLr chain d ≠ 0 := by
  induction chain with
  | nil =>
    obtain ⟨f, hf, -⟩ := hlive
    cases hf
  | cons f chain ih =>
    rw [latestLr]
    split
    · exact hlr f (List.mem_cons_self ..)
    · next hd =>
      apply ih
      · exact fun g hg => hlr g (List.mem_cons_of_mem _ hg)
      · exact (live_cons.mp hlive).resolve_left hd

section Fault

variable {m m' : Machine μ} {f : Suspended} {rest : List Suspended} {err exc excsp : Word}

theorem unwound_of_faulthandler (hinv : Inv c stk m (f :: rest))
    (hresume : faulthandler c m err = .resume exc excsp m') :
    Unwound f m err exc excsp m' ∧
      Popped m { m.state m.active with initialized := false } f m' := by
  have htop := hinv.top
  obtain ⟨-, hspec, -⟩ := returnSpec_of_faulthandler htop.ne hresume
  obtain ⟨hr0, hpc⟩ := load_of_faulthandler htop.ne hresume
  rw [htop.caller, htop.sp, htop.fp] at hr0 hpc
  have hpop := popped_of_returnSpec htop hspec
  have hexc : exc = f.lr := by rw [hspec.lr_eq, htop.caller, htop.lr]
  refine ⟨?_, hpop⟩
  constructor
  case active => exact hpop.active
  case exc => exact hexc
  case excsp =>
    rw [hspec.sp_eq, htop.caller, htop.sp, hexc, (hinv.holds f (List.mem_cons_self ..)).size]
    bv_omega
  case r0 => exact hr0
  case pc => exact hpc.trans htop.ret
  case lr => rw [hpop.caller]
  case sp => rw [hpop.caller]
  case caller => rw [hpop.caller]
  case faulted => rw [hpop.returned]

/-- The domains down the chain can be resumed, unless the one that has faulted is one of
them: its `lr` has been cleared by the call. -/
theorem waiting_iff_of_popped (hinv : Inv c stk m (f :: rest))
    (hpop : Popped m { m.state m.active with initialized := false } f m') :
    Waiting stk rest m' ↔ ¬ Live rest m.active := by
  have hne := hinv.top.ne
  rw [hinv.top.caller] at hne
  constructor
  · intro hwaiting hlive
    obtain ⟨hlr, -⟩ := hwaiting m.active hlive (by rw [hpop.active]; exact hne.symm)
    rw [hpop.returned] at hlr
    exact hlr (hinv.table.running (by simp))
  · intro hnot d hd hdom
    rw [hpop.active] at hdom
    have hactive : d ≠ m.active := by
      rintro rfl
      exact hnot hd
    have hlive : Live (f :: rest) d := live_cons.mpr (.inr hd)
    have hlr := hinv.table.lr d hlive hactive
    have hsp := hinv.table.sp d hlive
    rw [latestLr, if_neg (Ne.symm hdom)] at hlr
    rw [floor, if_neg (Ne.symm hdom)] at hsp
    rw [hpop.others d hdom hactive]
    refine ⟨?_, hsp⟩
    rw [hlr]
    exact latestLr_ne_zero (fun g hg => hinv.resumable g (List.mem_cons_of_mem _ hg)) hd

end Fault

/-- A fault or an abort in a falible call is unwound, and leaves the chain fit to be resumed
if and only if the domain that has faulted is not suspended further down. In a call that is
not falible it stops the system. -/
theorem unwound_iff {m : Machine μ} {f : Suspended} {rest : List Suspended} {lr sp : Word}
    (hrun : GuardedRun Start (Step c stk) Good ⟨m, f :: rest⟩)
    (hbranch : branchOf c (m.load (sp + 24)) = .abort ∨ branchOf c (m.load (sp + 24)) = .fault)
    (habort : c.aborts m.active = false) :
    (f.Falible → ∃ exc excsp m', mpuHandler c m lr sp = .resume exc excsp m' ∧
      (Unwound f m (faultError c m sp) exc excsp m' ∧ Waiting stk rest m' ↔
        ¬ Live rest m.active)) ∧
    (¬ f.Falible → ∃ m', mpuHandler c m lr sp = .abort (faultError c m sp) m') := by
  have hinv := inv_run hrun
  have htop := hinv.top
  have hcall := htop.resumable
  rw [← htop.lr, ← htop.caller] at hcall
  have hrange := htop.inRange
  rw [← htop.caller] at hrange
  obtain ⟨hstop, hunwind⟩ := faulthandler_inCall (faultError c m sp) htop.ne habort hrange hcall
  rw [htop.caller, htop.sp, htop.fp, htop.pc] at hstop hunwind
  rw [mpuHandler_fault hbranch]
  constructor
  · intro hfalible
    obtain ⟨exc, excsp, m', hresume⟩ := hunwind hfalible
    obtain ⟨hunwound, hpop⟩ := unwound_of_faulthandler hinv hresume
    refine ⟨exc, excsp, m', hresume, ?_⟩
    rw [← waiting_iff_of_popped hinv hpop]
    exact and_iff_right hunwound
  · exact fun hfalible => hstop (not_not.mp hfalible)

/-- The box faults in a call of sys. -/
theorem oneBoxCalled_unwound :
    (oneBoxCall.Falible → ∃ exc excsp m',
      mpuHandler oneBox oneBoxCalled 0xfffffffd 0x20e00 = .resume exc excsp m' ∧
      (Unwound oneBoxCall oneBoxCalled (faultError oneBox oneBoxCalled 0x20e00) exc excsp m' ∧
        Waiting oneBoxStacks [] m' ↔ ¬ Live [] oneBoxCalled.active)) ∧
    (¬ oneBoxCall.Falible → ∃ m', mpuHandler oneBox oneBoxCalled 0xfffffffd 0x20e00 =
      .abort (faultError oneBox oneBoxCalled 0x20e00) m') :=
  unwound_iff (.step (.start start_oneBox) (e := .call 0xfffffff9 0x10f00) trivial
    step_oneBoxCalled) (.inr (by decide +kernel)) rfl

/-- A sys function that a box has called faults: the call of the box is unwound, but sys, which
waits for the box to return, has no `EXC_RETURN` value any more. -/
theorem oneBoxNested_not_waiting :
    GuardedRun Start (Step oneBox oneBoxStacks) (fun _ _ => True)
        ⟨oneBoxNested, [oneBoxCallBack, oneBoxCall]⟩ ∧
      branchOf oneBox (oneBoxNested.load (0x10d00 + 24)) = .fault ∧
      oneBox.aborts oneBoxNested.active = false ∧ oneBoxCallBack.Falible ∧
      ∃ exc excsp m', mpuHandler oneBox oneBoxNested 0xfffffff9 0x10d00 = .resume exc excsp m' ∧
        Live [oneBoxCall] 0 ∧ m'.active = 1 ∧ (m'.state 0).lr = 0 ∧
        ¬ Waiting oneBoxStacks [oneBoxCall] m' := by
  have hrun : GuardedRun Start (Step oneBox oneBoxStacks) (fun _ _ => True)
      ⟨oneBoxNested, [oneBoxCallBack, oneBoxCall]⟩ :=
    .step (.step (.start start_oneBox) trivial step_oneBoxCalled) trivial step_oneBoxNested
  have hfault : branchOf oneBox (oneBoxNested.load (0x10d00 + 24)) = .fault := by decide +kernel
  have hsys : oneBoxNested.active = 0 := by decide +kernel
  have hbox : (oneBoxNested.state 0).caller = 1 := by decide +kernel
  have hlive : Live [oneBoxCall] 0 := ⟨oneBoxCall, by simp, rfl⟩
  have habort : oneBox.aborts oneBoxNested.active = false := by rw [oneBox]
  have hfalible : oneBoxCallBack.Falible := by decide +kernel
  have hop : oneBoxNested.load (oneBoxNested.load (oneBoxNested.state
      (oneBoxNested.state oneBoxNested.active).caller).sp + 24) &&& 2 ≠ 0 := by decide +kernel
  have hne : (oneBoxNested.state oneBoxNested.active).caller ≠ oneBoxNested.active := by
    rw [hsys, hbox]
    decide
  have hrange : ¬ oneBox.count < (oneBoxNested.state oneBoxNested.active).caller := by
    rw [hsys, hbox]
    decide
  have hcall : (oneBoxNested.state (oneBoxNested.state oneBoxNested.active).caller).lr ≠ 0 := by
    decide +kernel
  obtain ⟨-, hunwind⟩ := faulthandler_inCall (faultError oneBox oneBoxNested 0x10d00) hne habort
    hrange hcall
  obtain ⟨exc, excsp, m', hresume⟩ := hunwind hop
  obtain ⟨-, hspec, -⟩ := returnSpec_of_faulthandler hne hresume
  have hactive : m'.active = 1 := hspec.active.trans (by rw [hsys, hbox])
  have hlr : (m'.state 0).lr = 0 := by
    rw [hspec.state, hsys, hbox, Function.update_of_ne (by decide), Function.update_self]
    decide +kernel
  have hhandler : mpuHandler oneBox oneBoxNested 0xfffffff9 0x10d00 =
      faulthandler oneBox oneBoxNested (faultError oneBox oneBoxNested 0x10d00) :=
    mpuHandler_fault (.inr hfault)
  rw [← hhandler] at hresume
  refine ⟨hrun, hfault, habort, hfalible, exc, excsp, m', hresume, hlive, hactive, hlr, ?_⟩
  intro hwaiting
  exact (hwaiting 0 hlive (by rw [hactive]; decide)).1 hlr

end BentoLinker.Mpu
