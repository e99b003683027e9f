import BentoLinker.Mpu.Runs

/-!
# Calls and Returns

What a return gives back of the state before the call it matches.

- `Restored`: the caller runs again, the records are those from before the call
- `afterCall`, `Exact`: the records along a chain, as each call has left them
- `restored_iff_matched`: a return restores the records if and only if the callee returns
  with the `EXC_RETURN` value that its record had

`__box_returnsetup` writes the `EXC_RETURN` value of the return into the record of the
callee. A callee that has started or stopped to use the FPU returns with another value
than the one it was entered with, and the record keeps that value.
-/

namespace BentoLinker.Mpu

variable {μ : Type}

/-! ## Section 1: Records -/

/-- Equal records, but for the caller link of sys: it names the box that has called sys
last, and each call of sys saves and restores it. -/
def SameRecords (s t : Word → BoxState) : Prop :=
  (∀ d, d ≠ 0 → s d = t d) ∧ s 0 = { t 0 with caller := (s 0).caller }

theorem sameRecords_iff {s t : Word → BoxState} :
    SameRecords s t ↔ ∀ d, (s d).initialized = (t d).initialized ∧ (s d).lr = (t d).lr ∧
      (s d).sp = (t d).sp ∧ (d ≠ 0 → (s d).caller = (t d).caller) := by
  constructor
  · rintro ⟨hboxes, hsys⟩ d
    by_cases hd : d = 0
    · rw [hd, hsys]
      exact ⟨rfl, rfl, rfl, fun h => absurd rfl h⟩
    · rw [hboxes d hd]
      exact ⟨rfl, rfl, rfl, fun _ => rfl⟩
  · intro h
    refine ⟨fun d hd => ?_, ?_⟩
    · obtain ⟨hinit, hlr, hsp, hcaller⟩ := h d
      exact (BoxState.mk.injEq ..).mpr ⟨hinit, hcaller hd, hlr, hsp⟩
    · obtain ⟨hinit, hlr, hsp, -⟩ := h 0
      exact (BoxState.mk.injEq ..).mpr ⟨hinit, rfl, hlr, hsp⟩

theorem SameRecords.refl (s : Word → BoxState) : SameRecords s s := ⟨fun _ _ => rfl, rfl⟩

theorem SameRecords.trans {s t u : Word → BoxState} (h : SameRecords s t)
    (h' : SameRecords t u) : SameRecords s u := by
  rw [sameRecords_iff] at *
  intro d
  obtain ⟨hinit, hlr, hsp, hcaller⟩ := h d
  obtain ⟨hinit', hlr', hsp', hcaller'⟩ := h' d
  exact ⟨hinit.trans hinit', hlr.trans hlr', hsp.trans hsp',
    fun hd => (hcaller hd).trans (hcaller' hd)⟩

/-- The records that a call leaves -/
def afterCall (f : Suspended) : Word → BoxState :=
  Function.update
    (Function.update f.table f.dom { f.table f.dom with lr := f.lr, sp := f.sp })
    f.callee { f.table f.callee with caller := f.dom, lr := 0 }

/-- The records are those after the latest call, whose records before the call are those
after the call before it. -/
def Exact : (Word → BoxState) → List Suspended → Prop
  | _, [] => True
  | table, f :: rest => SameRecords table (afterCall f) ∧ Exact f.table rest

theorem Exact.of_sameRecords {s t : Word → BoxState} {chain : List Suspended}
    (h : SameRecords s t) (hexact : Exact t chain) : Exact s chain := by
  cases chain with
  | nil => trivial
  | cons f rest => exact ⟨h.trans hexact.1, hexact.2⟩

/-! ## Section 2: One return -/

/-- The state of a call's caller, and that of everyone else, is what it was before the
call; the caller is resumed as it was suspended. -/
structure Restored (f : Suspended) (exc excsp : Word) (m' : Machine μ) : Prop where
  active : m'.active = f.dom
  lr : exc = f.lr
  sp : excsp = f.fp
  caller : m'.state f.dom = f.table f.dom
  records : SameRecords m'.state f.table

section Return

variable {c : Config μ} {stk : Stacks} {m m' : Machine μ} {f : Suspended}
  {rest : List Suspended} {lr : Word}

/-- After a return, the records are those from before the call, but for the `EXC_RETURN`
value of the callee. -/
theorem popped_fields (hinv : Inv c stk m (f :: rest))
    (hexact : SameRecords m.state (afterCall f))
    (hpop : Popped m { m.state m.active with lr := lr } f m') (d : Word) :
    (m'.state d).initialized = (f.table d).initialized ∧
      (m'.state d).lr = (if d = m.active then lr else (f.table d).lr) ∧
      (m'.state d).sp = (f.table d).sp ∧
      (d ≠ 0 → (m'.state d).caller = (f.table d).caller) := by
  have htop := hinv.top
  have hne : f.dom ≠ m.active := by
    have := htop.ne
    rwa [htop.caller] at this
  obtain ⟨hinit, hlr, hsp, hcaller⟩ := sameRecords_iff.mp hexact d
  unfold afterCall at hinit hlr hsp hcaller
  rw [htop.callee] at hinit hlr hsp hcaller
  by_cases hdom : d = f.dom
  · -- the caller has its frame back
    subst hdom
    rw [if_neg hne, hpop.caller]
    rw [Function.update_of_ne hne, Function.update_self] at hinit
    exact ⟨hinit, rfl, rfl, fun _ => rfl⟩
  · by_cases hactive : d = m.active
    · subst hactive
      rw [if_pos rfl, hpop.returned]
      rw [Function.update_self] at hinit hsp
      -- boxes are only called by sys
      refine ⟨hinit, rfl, hsp, fun hd => ?_⟩
      exact (hinv.table.boxes _ hd).trans (hinv.recorded.1.boxes _ hd).symm
    · rw [if_neg hactive, hpop.others d hdom hactive]
      rw [Function.update_of_ne hactive, Function.update_of_ne hdom] at hinit hlr hsp hcaller
      exact ⟨hinit, hlr, hsp, hcaller⟩

theorem sameRecords_popped_iff (hinv : Inv c stk m (f :: rest))
    (hexact : SameRecords m.state (afterCall f))
    (hpop : Popped m { m.state m.active with lr := lr } f m') :
    SameRecords m'.state f.table ↔ lr = (f.table m.active).lr := by
  have hfields := popped_fields hinv hexact hpop
  constructor
  · intro hsame
    obtain ⟨-, hlr, -⟩ := sameRecords_iff.mp hsame m.active
    obtain ⟨-, hlr', -⟩ := hfields m.active
    rw [if_pos rfl] at hlr'
    exact hlr'.symm.trans hlr
  · intro hlr
    refine sameRecords_iff.mpr fun d => ?_
    obtain ⟨hinit, hlr', hsp, hcaller⟩ := hfields d
    refine ⟨hinit, ?_, hsp, hcaller⟩
    split at hlr'
    · next hd => rw [hlr', hlr, hd]
    · exact hlr'

end Return

/-! ## Section 3: Along a run -/

/-- Calls and returns only, and each callee returns with the `EXC_RETURN` value that its
record had when it was called. -/
def Matched : Event → RunState μ → Prop
  | .own, _ => True
  | .call _ _, _ => True
  | .ret lr _, ⟨m, f :: _⟩ => lr = (f.table m.active).lr
  | _, _ => False

theorem good_of_matched (e : Event) (s : RunState μ) (h : Matched e s) : Good e s := by
  obtain ⟨m, chain⟩ := s
  cases e with
  | ret lr sp =>
    cases chain with
    | nil => trivial
    | cons f rest => exact fun _ => h
  | fault lr sp => cases h
  | _ => trivial

variable {c : Config μ} {stk : Stacks}

theorem exact_step {e : Event} {s s' : RunState μ} (hinv : Inv c stk s.machine s.chain)
    (hexact : Exact s.machine.state s.chain) (hmatched : Matched e s)
    (hstep : Step c stk e s s') : Exact s'.machine.state s'.chain := by
  cases hstep with
  | own hactive hstate hcells =>
    rw [hstate]
    exact hexact
  | prepare => cases hmatched
  | mark => cases hmatched
  | fault => cases hmatched
  | call hbranch htarget hok hresume =>
    rw [mpuHandler_call hbranch] at hresume
    subst htarget
    have hspec := callSpec_of_callhandler (callTarget_ne c _ _) hresume
    refine ⟨?_, hexact⟩
    rw [hspec.state]
    exact SameRecords.refl _
  | ret hbranch hlr hresume =>
    rw [mpuHandler_return hbranch] at hresume
    have htop := hinv.top
    have hcall := htop.resumable
    rw [← htop.lr, ← htop.caller] at hcall
    have hpop := popped_of_returnSpec htop
      (returnSpec_of_returnhandler htop.ne hcall hresume)
    -- the records from before the call, exact for the rest of the chain
    exact .of_sameRecords ((sameRecords_popped_iff hinv hexact.1 hpop).mpr hmatched) hexact.2

theorem exact_run {s : RunState μ} (h : GuardedRun Start (Step c stk) Matched s) :
    Exact s.machine.state s.chain := by
  have hboth : Inv c stk s.machine s.chain ∧ Exact s.machine.state s.chain := by
    refine h.invariant (fun s => Inv c stk s.machine s.chain ∧ Exact s.machine.state s.chain)
      ?_ ?_
    · intro s hstart
      refine ⟨inv_start hstart, ?_⟩
      rw [hstart.1]
      trivial
    · intro e s s' ⟨hinv, hexact⟩ hmatched hstep
      exact ⟨inv_step hinv (good_of_matched e s hmatched) hstep,
        exact_step hinv hexact hmatched hstep⟩
  exact hboth.2

/-- A return to a suspended caller resumes it as it was suspended; the records are those from
before the call if and only if the callee returns with the `EXC_RETURN` value that its
record had when it was called. -/
theorem restored_iff_matched {m : Machine μ} {f : Suspended} {rest : List Suspended}
    {lr sp : Word} (hrun : GuardedRun Start (Step c stk) Matched ⟨m, f :: rest⟩)
    (hbranch : branchOf c (m.load (sp + 24)) = .return_) :
    ∃ exc excsp m', mpuHandler c m lr sp = .resume exc excsp m' ∧
      (Restored f exc excsp m' ↔ lr = (f.table m.active).lr) := by
  have hinv := inv_run (hrun.mono good_of_matched)
  have hexact := exact_run hrun
  have htop := hinv.top
  have hcall := htop.resumable
  rw [← htop.lr, ← htop.caller] at hcall
  have hrange := htop.inRange
  rw [← htop.caller] at hrange
  rw [mpuHandler_return hbranch]
  obtain ⟨exc, excsp, m', hresume⟩ := returnhandler_inCall lr sp htop.ne hrange hcall
  have hspec := returnSpec_of_returnhandler htop.ne hcall hresume
  have hpop := popped_of_returnSpec htop hspec
  have hrecords := sameRecords_popped_iff hinv hexact.1 hpop
  have hexc : exc = f.lr := by rw [hspec.lr_eq, htop.caller, htop.lr]
  refine ⟨exc, excsp, m', hresume, fun h => hrecords.mp h.records, fun hlr => ?_⟩
  constructor
  case active => exact hpop.active
  case lr => exact hexc
  case sp =>
    rw [hspec.sp_eq, htop.caller, htop.sp, hexc, (hinv.holds f (List.mem_cons_self ..)).size]
    bv_omega
  case caller =>
    rw [hpop.caller]
    have hinit := (popped_fields hinv hexact.1 hpop f.dom).1
    rw [hpop.caller] at hinit
    exact (BoxState.mk.injEq ..).mpr ⟨hinit, rfl, rfl, rfl⟩
  case records => exact hrecords.mpr hlr

/-! ## Section 4: A sys function that uses the FPU -/

/-- The sys function has used the FPU and returned to the box. -/
def oneBoxReturned : Machine Unit :=
  (mpuHandler oneBox oneBoxNested 0xffffffe9 0x10e00).machine?.getD oneBoxNested

theorem resume_oneBoxNested : ∃ exc excsp,
    mpuHandler oneBox oneBoxNested 0xffffffe9 0x10e00 = .resume exc excsp oneBoxReturned := by
  obtain ⟨exc, excsp, m', hresume⟩ := returnhandler_inCall (c := oneBox) (m := oneBoxNested)
    0xffffffe9 0x10e00 (by decide +kernel) (by decide +kernel) (by decide +kernel)
  rw [← mpuHandler_return (by decide +kernel)] at hresume
  rw [oneBoxReturned, hresume]
  exact ⟨exc, excsp, rfl⟩

theorem step_oneBoxReturned : Step oneBox oneBoxStacks (.ret 0xffffffe9 0x10e00)
    ⟨oneBoxNested, [oneBoxCallBack, oneBoxCall]⟩
    ⟨oneBoxReturned, [oneBoxCall]⟩ := by
  obtain ⟨exc, excsp, hresume⟩ := resume_oneBoxNested
  exact .ret (by decide +kernel) (by decide) hresume

/-- A box that is called and returns as it was entered leaves the records as they were. -/
theorem oneBox_restored :
    ∃ exc excsp m', mpuHandler oneBox oneBoxCalled 0xfffffffd 0x20f80 = .resume exc excsp m' ∧
      (Restored oneBoxCall exc excsp m' ↔
        0xfffffffd = (oneBoxCall.table oneBoxCalled.active).lr) := by
  have hmatched : Matched (.call 0xfffffff9 0x10f00) ⟨oneBoxStart, []⟩ := trivial
  exact restored_iff_matched (.step (.start start_oneBox) hmatched step_oneBoxCalled) rfl

/-- The sys function has used the FPU when it returns to the box, so that `EXC_RETURN` is
`0xffffffe9`. When the box returns, sys is resumed with this value, not with the
`0xfffffff9` it made its call with. -/
theorem oneBox_not_restored :
    GuardedRun Start (Step oneBox oneBoxStacks) (fun _ _ => True)
        ⟨oneBoxReturned, [oneBoxCall]⟩ ∧
      branchOf oneBox (oneBoxReturned.load (0x20f80 + 24)) = .return_ ∧
      oneBoxCall.lr = 0xfffffff9 ∧
      ∃ exc excsp m', mpuHandler oneBox oneBoxReturned 0xfffffffd 0x20f80 =
          .resume exc excsp m' ∧ exc = 0xffffffe9 ∧ ¬ Restored oneBoxCall exc excsp m' := by
  have hcall : (oneBoxReturned.state
      (oneBoxReturned.state oneBoxReturned.active).caller).lr ≠ 0 := by
    decide +kernel
  obtain ⟨exc, excsp, m', hresume⟩ := returnhandler_inCall (c := oneBox) (m := oneBoxReturned)
    0xfffffffd 0x20f80 (by decide +kernel) (by decide +kernel) hcall
  have hspec := returnSpec_of_returnhandler (by decide +kernel) hcall hresume
  have hexc : exc = 0xffffffe9 := hspec.lr_eq.trans (by decide +kernel)
  have hbranch : branchOf oneBox (oneBoxReturned.load (0x20f80 + 24)) = .return_ := by
    decide +kernel
  rw [← mpuHandler_return hbranch] at hresume
  refine ⟨?_, hbranch, rfl, exc, excsp, m', hresume, hexc, fun h => ?_⟩
  case refine_2 => exact absurd (hexc.symm.trans h.lr) (by decide)
  exact .step (.step (.step (.start start_oneBox) trivial step_oneBoxCalled) trivial
    step_oneBoxNested) trivial step_oneBoxReturned

end BentoLinker.Mpu
