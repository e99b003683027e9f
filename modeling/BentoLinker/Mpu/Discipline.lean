import BentoLinker.Mpu.HandlerSpecs

/-!
# Runs of Calls, Returns and Faults

The domains of an MPU runtime take turns: one is active, the others wait in calls. The
runtime keeps this chain of calls in the records of the domains and in frames on their
stacks; here it is also kept as a list of `Suspended` calls, innermost first.

- `Stacks`: a stack for each domain, apart from each other
- `Step`, `Reach`: what the active domain does, and runs of it
- `Inv`: frames and records describe the chain
- `inv_call`, `inv_pop`: a call pushes, a return or an unwound fault pops

A domain keeps to its stack: it leaves the frames of suspended calls alone, and makes a
call from below the frames it has there.
-/

namespace BentoLinker.Mpu

open TracedMemory WordRange

variable {μ : Type}

/-! ## Section 1: Suspended calls -/

/-- A call that has not returned yet, with what was the case when it was made. -/
structure Suspended where
  dom : Word
  callee : Word
  /-- the `EXC_RETURN` value of the call -/
  lr : Word
  /-- where `struct __box_frame` is -/
  sp : Word
  /-- where the exception frame is -/
  fp : Word
  /-- the program counter that made the call -/
  pc : Word
  /-- the records before the call -/
  table : Word → BoxState
  /-- the memory after the call -/
  cells : Word → Word

/-- A call is falible if bit 1 of its address is set. -/
def Suspended.Falible (f : Suspended) : Prop := f.pc &&& 2 ≠ 0

instance (f : Suspended) : Decidable f.Falible := by
  unfold Suspended.Falible; infer_instance

/-- The words from the frame of a call up to the end of its exception frame -/
def Suspended.Owns (f : Suspended) (a : Word) : Prop :=
  f.sp.toNat ≤ a.toNat ∧ a.toNat < f.fp.toNat + 32

/-- Is the domain suspended in the chain? -/
def Live (chain : List Suspended) (d : Word) : Prop := ∃ f ∈ chain, f.dom = d

/-- A range of addresses for the stack of each domain -/
structure Stacks where
  lo : Word → ℕ
  hi : Word → ℕ
  hi_le : ∀ d, hi d ≤ 2 ^ 32
  disjoint : ∀ d e, d ≠ e → hi d ≤ lo e ∨ hi e ≤ lo d

/-- The lowest address that the suspended calls of a domain take up -/
def floor (stk : Stacks) : List Suspended → Word → ℕ
  | [], d => stk.hi d
  | f :: chain, d => if f.dom = d then f.sp.toNat else floor stk chain d

/-- The `EXC_RETURN` value of the latest call that a domain is suspended in -/
def latestLr : List Suspended → Word → Word
  | [], _ => 0
  | f :: chain, d => if f.dom = d then f.lr else latestLr chain d

/-- Frames of a domain are stacked, the latest one lowest. -/
def Framed (stk : Stacks) : List Suspended → Prop
  | [] => True
  | f :: chain => stk.lo f.dom ≤ f.sp.toNat ∧ f.sp.toNat + 16 ≤ f.fp.toNat ∧
      f.fp.toNat + 32 ≤ floor stk chain f.dom ∧ Framed stk chain

/-- Calls go from sys to a box or from a box to sys, and the callee makes the next one. -/
def Linked : Word → List Suspended → Prop
  | active, [] => active = 0
  | active, f :: chain => f.callee = active ∧ (f.dom = 0 ↔ active ≠ 0) ∧ Linked f.dom chain

theorem live_cons {f : Suspended} {chain : List Suspended} {d : Word} :
    Live (f :: chain) d ↔ f.dom = d ∨ Live chain d := by
  simp [Live]

theorem floor_le_hi {stk : Stacks} {chain : List Suspended} (h : Framed stk chain) (d : Word) :
    floor stk chain d ≤ stk.hi d := by
  induction chain with
  | nil => exact le_rfl
  | cons f chain ih =>
    obtain ⟨-, hsp, hfp, hchain⟩ := h
    rw [floor]
    split
    · next hd =>
      subst hd
      have := ih hchain
      omega
    · exact ih hchain

theorem floor_of_not_live {stk : Stacks} {chain : List Suspended} {d : Word}
    (h : ¬ Live chain d) : floor stk chain d = stk.hi d := by
  induction chain with
  | nil => rfl
  | cons f chain ih =>
    rw [live_cons, not_or] at h
    rw [floor, if_neg h.1, ih h.2]

/-- A suspended call lies in the stack of its domain, above the floor. -/
theorem framed_mem {stk : Stacks} {chain : List Suspended} {f : Suspended}
    (h : Framed stk chain) (hf : f ∈ chain) :
    floor stk chain f.dom ≤ f.sp.toNat ∧ stk.lo f.dom ≤ floor stk chain f.dom ∧
      f.sp.toNat + 16 ≤ f.fp.toNat ∧ f.fp.toNat + 32 ≤ stk.hi f.dom := by
  induction chain with
  | nil => cases hf
  | cons g chain ih =>
    obtain ⟨hlo, hsp, hfp, hchain⟩ := h
    have hhi := floor_le_hi hchain g.dom
    rw [floor]
    rcases List.mem_cons.mp hf with rfl | hf
    · rw [if_pos rfl]
      omega
    · obtain ⟨h₁, h₂, h₃, h₄⟩ := ih hchain hf
      split
      · next hd =>
        rw [← hd] at h₁ h₂ h₄ ⊢
        omega
      · exact ⟨h₁, h₂, h₃, h₄⟩

/-- The chain ends in a call that sys has made. -/
theorem live_zero {active : Word} {f : Suspended} {chain : List Suspended}
    (h : Linked active (f :: chain)) : Live (f :: chain) 0 := by
  induction chain generalizing active f with
  | nil => exact ⟨f, by simp, h.2.2⟩
  | cons g chain ih =>
    obtain ⟨k, hk, hdom⟩ := ih h.2.2
    exact ⟨k, List.mem_cons_of_mem _ hk, hdom⟩

/-- Words of a suspended call are not below the floor of any domain. -/
theorem owns_outside {stk : Stacks} {chain : List Suspended} {f : Suspended} {a : Word}
    (h : Framed stk chain) (hf : f ∈ chain) (ha : f.Owns a) (d : Word) :
    a.toNat < stk.lo d ∨ floor stk chain d ≤ a.toNat := by
  obtain ⟨hlow, hhigh⟩ := ha
  obtain ⟨hfloor, hlo, -, hhi⟩ := framed_mem h hf
  by_cases hd : f.dom = d
  · right
    rw [← hd]
    omega
  · have hle := floor_le_hi h d
    -- the stack of `d` is on one side of the stack of `f`
    rcases stk.disjoint f.dom d hd with hdis | hdis
    · left; omega
    · right; omega

/-! ## Section 2: The invariant -/

/-- The frame of a call holds what the caller's record was. -/
structure Suspended.Holds (f : Suspended) : Prop where
  fp : f.cells f.sp = f.fp
  lr : f.cells (f.sp + 4) = (f.table f.dom).lr
  sp : f.cells (f.sp + 8) = (f.table f.dom).sp
  caller : f.cells (f.sp + 12) = (f.table f.dom).caller
  pc : f.cells (f.fp + 24) = f.pc
  size : f.sp = f.fp - savedSize f.lr - 16

/-- What the records say about a chain, when `active` runs. -/
structure TableOk (stk : Stacks) (chain : List Suspended) (active : Word)
    (table : Word → BoxState) : Prop where
  /-- a suspended domain has its stack pointer at its latest frame -/
  sp : ∀ d, Live chain d → (table d).sp.toNat = floor stk chain d
  /-- a waiting domain is resumed with the `EXC_RETURN` value of its latest call -/
  lr : ∀ d, Live chain d → d ≠ active → (table d).lr = latestLr chain d
  /-- a domain that has been called cannot be returned to -/
  running : chain ≠ [] → (table active).lr = 0
  /-- the active domain knows who called it -/
  caller : ∀ f rest, chain = f :: rest → (table active).caller = f.dom
  /-- boxes are only called by sys -/
  boxes : ∀ d, d ≠ 0 → (table d).caller = 0

/-- The records were in order when each of the calls was made. -/
def Recorded (stk : Stacks) : List Suspended → Prop
  | [] => True
  | f :: chain => TableOk stk chain f.dom f.table ∧ Recorded stk chain

/-- The invariant of runs. -/
structure Inv (c : Config μ) (stk : Stacks) (m : Machine μ) (chain : List Suspended) :
    Prop where
  framed : Framed stk chain
  linked : Linked m.active chain
  inRange : ¬ c.count < m.active ∧ ∀ f ∈ chain, ¬ c.count < f.dom
  holds : ∀ f ∈ chain, f.Holds
  cells : ∀ f ∈ chain, ∀ a, f.Owns a → m.load a = f.cells a
  table : TableOk stk chain m.active m.state
  recorded : Recorded stk chain
  /-- `EXC_RETURN` values are not zero -/
  resumable : ∀ f ∈ chain, f.lr ≠ 0

theorem toNat_add_ofNat {a : Word} {k : ℕ} (h : a.toNat + k < 2 ^ 32) :
    (a + BitVec.ofNat 32 k).toNat = a.toNat + k := by
  rw [BitVec.toNat_add, BitVec.toNat_ofNat]
  omega

theorem owns_frame {f : Suspended} (k : ℕ) (hsize : f.sp.toNat + 16 ≤ f.fp.toNat)
    (hfp : f.fp.toNat + 32 ≤ 2 ^ 32) (hk : k < 16) : f.Owns (f.sp + BitVec.ofNat 32 k) := by
  unfold Suspended.Owns
  rw [toNat_add_ofNat (by omega)]
  omega

theorem owns_exception {f : Suspended} (k : ℕ) (hsize : f.sp.toNat + 16 ≤ f.fp.toNat)
    (hfp : f.fp.toNat + 32 ≤ 2 ^ 32) (hk : k < 32) : f.Owns (f.fp + BitVec.ofNat 32 k) := by
  unfold Suspended.Owns
  rw [toNat_add_ofNat (by omega)]
  omega

/-! ## Section 3: Popping a call -/

section Pop

variable {c : Config μ} {stk : Stacks} {m m' : Machine μ} {f : Suspended}
  {rest : List Suspended}

/-- What the runtime finds at the caller's stack pointer. -/
structure Top (c : Config μ) (m : Machine μ) (f : Suspended) : Prop where
  caller : (m.state m.active).caller = f.dom
  ne : (m.state m.active).caller ≠ m.active
  callee : f.callee = m.active
  sys : f.dom = 0 ↔ m.active ≠ 0
  inRange : ¬ c.count < f.dom
  lr : (m.state f.dom).lr = f.lr
  resumable : f.lr ≠ 0
  sp : (m.state f.dom).sp = f.sp
  fp : m.load f.sp = f.fp
  pc : m.load (f.fp + 24) = f.pc
  ret : m.load (f.fp + 20) = f.cells (f.fp + 20)
  saved : restoreState m f.sp (m.state f.dom) = { m.state f.dom with
    lr := (f.table f.dom).lr, sp := (f.table f.dom).sp, caller := (f.table f.dom).caller }

theorem Inv.top (hinv : Inv c stk m (f :: rest)) : Top c m f := by
  obtain ⟨hcallee, hsys, -⟩ := hinv.linked
  have hlive : Live (f :: rest) f.dom := live_cons.mpr (.inl rfl)
  have hne : f.dom ≠ m.active := by
    intro heq
    rw [heq] at hsys
    exact iff_not_self hsys
  have hcaller := hinv.table.caller f rest rfl
  obtain ⟨-, -, hsize, hfp⟩ := framed_mem hinv.framed (List.mem_cons_self ..)
  have hfp' := hfp.trans (stk.hi_le f.dom)
  have hsp : (m.state f.dom).sp = f.sp := by
    apply BitVec.eq_of_toNat_eq
    rw [hinv.table.sp f.dom hlive, floor, if_pos rfl]
  have hholds := hinv.holds f (List.mem_cons_self ..)
  have hcells := hinv.cells f (List.mem_cons_self ..)
  have hframe : ∀ k : ℕ, k < 16 → m.load (f.sp + BitVec.ofNat 32 k) =
      f.cells (f.sp + BitVec.ofNat 32 k) := fun k hk => hcells _ (owns_frame k hsize hfp' hk)
  have hexc : ∀ k : ℕ, k < 32 → m.load (f.fp + BitVec.ofNat 32 k) =
      f.cells (f.fp + BitVec.ofNat 32 k) :=
    fun k hk => hcells _ (owns_exception k hsize hfp' hk)
  have hzero := hframe 0 (by decide)
  rw [BitVec.add_zero] at hzero
  have hlr := hinv.table.lr f.dom hlive hne
  rw [latestLr, if_pos rfl] at hlr
  exact {
    caller := hcaller
    ne := by rw [hcaller]; exact hne
    callee := hcallee
    sys := hsys
    inRange := hinv.inRange.2 f (List.mem_cons_self ..)
    lr := hlr
    resumable := hinv.resumable f (List.mem_cons_self ..)
    sp := hsp
    fp := hzero.trans hholds.fp
    pc := (hexc 24 (by decide)).trans hholds.pc
    ret := hexc 20 (by decide)
    saved := by
      unfold restoreState
      rw [show m.load (f.sp + 4) = _ from (hframe 4 (by decide)).trans hholds.lr,
        show m.load (f.sp + 8) = _ from (hframe 8 (by decide)).trans hholds.sp,
        show m.load (f.sp + 12) = _ from (hframe 12 (by decide)).trans hholds.caller] }

/-- The records after a call has been popped. -/
structure Popped (m : Machine μ) (returned : BoxState) (f : Suspended) (m' : Machine μ) :
    Prop where
  active : m'.active = f.dom
  caller : m'.state f.dom = { m.state f.dom with
    lr := (f.table f.dom).lr, sp := (f.table f.dom).sp, caller := (f.table f.dom).caller }
  returned : m'.state m.active = returned
  others : ∀ d, d ≠ f.dom → d ≠ m.active → m'.state d = m.state d

theorem popped_of_returnSpec {returned : BoxState} {exc excsp : Word} (htop : Top c m f)
    (hspec : ReturnSpec c m returned exc excsp m') : Popped m returned f m' := by
  have hstate := hspec.state
  have hne := htop.ne
  rw [htop.caller] at hstate hne
  rw [htop.sp, htop.saved] at hstate
  constructor
  case active => rw [hspec.active, htop.caller]
  case caller => rw [hstate, Function.update_self]
  case returned => rw [hstate, Function.update_of_ne hne.symm, Function.update_self]
  case others =>
    intro d hd hd'
    rw [hstate, Function.update_of_ne hd, Function.update_of_ne hd']

/-- Words of another suspended call are not in the exception frame of the popped one. -/
theorem notMem_returnStores (hframed : Framed stk (f :: rest)) {g : Suspended}
    (hg : g ∈ rest) {a : Word} (ha : g.Owns a) : a ∉ returnStores f.fp := by
  obtain ⟨hlo, hsize, hfp, hrest⟩ := hframed
  have hhi := floor_le_hi hrest f.dom
  have hmax := stk.hi_le f.dom
  have hout : a.toNat < f.fp.toNat ∨ f.fp.toNat + 32 ≤ a.toNat := by
    rcases owns_outside hrest hg ha f.dom with hlow | hhigh
    · left; omega
    · right; omega
  unfold returnStores
  rw [List.mem_cons, List.mem_reverse, not_or]
  refine ⟨fun heq => ?_, notMem_addrs (by omega) (by omega)⟩
  have h24 : (f.fp + 24).toNat = f.fp.toNat + 24 := toNat_add_ofNat (k := 24) (by omega)
  rw [heq] at hout
  omega

/-- A return, or a fault that is unwound, pops a call. The domain it leaves must stay fit to
be resumed if it is suspended further down. -/
theorem inv_pop {returned : BoxState} {exc excsp : Word} (hinv : Inv c stk m (f :: rest))
    (hspec : ReturnSpec c m returned exc excsp m')
    (hsp : returned.sp = (m.state m.active).sp)
    (hcaller : returned.caller = (m.state m.active).caller)
    (hlr : Live rest m.active → returned.lr = latestLr rest m.active) : Inv c stk m' rest := by
  have htop := hinv.top
  have hpop := popped_of_returnSpec htop hspec
  obtain ⟨-, -, hlinked⟩ := hinv.linked
  obtain ⟨htable, hrecorded⟩ := hinv.recorded
  have hne := htop.ne
  rw [htop.caller] at hne
  have htracks := hspec.tracks
  rw [htop.caller, htop.sp, htop.fp] at htracks
  constructor
  case framed => exact hinv.framed.2.2.2
  case linked => rw [hpop.active]; exact hlinked
  case inRange =>
    rw [hpop.active]
    exact ⟨htop.inRange, fun g hg => hinv.inRange.2 g (List.mem_cons_of_mem _ hg)⟩
  case holds => exact fun g hg => hinv.holds g (List.mem_cons_of_mem _ hg)
  case cells =>
    intro g hg a ha
    rw [← hinv.cells g (List.mem_cons_of_mem _ hg) a ha]
    exact htracks.cells a (notMem_returnStores hinv.framed hg ha)
  case recorded => exact hrecorded
  case table =>
    rw [hpop.active]
    constructor
    case sp =>
      intro d hd
      -- the domain that the frame has suspended runs again
      by_cases hdom : d = f.dom
      · rw [hdom, hpop.caller]
        exact htable.sp f.dom (hdom ▸ hd)
      · have hold := hinv.table.sp d (live_cons.mpr (.inr hd))
        rw [floor, if_neg (Ne.symm hdom)] at hold
        by_cases hactive : d = m.active
        · rw [hactive, hpop.returned, hsp, ← hactive]
          exact hold
        · rw [hpop.others d hdom hactive]
          exact hold
    case lr =>
      intro d hd hdom
      by_cases hactive : d = m.active
      · rw [hactive, hpop.returned]
        exact hlr (hactive ▸ hd)
      · have hold := hinv.table.lr d (live_cons.mpr (.inr hd)) hactive
        rw [latestLr, if_neg (Ne.symm hdom)] at hold
        rw [hpop.others d hdom hactive]
        exact hold
    case running =>
      intro hrest
      rw [hpop.caller]
      exact htable.running hrest
    case caller =>
      intro g rest' hrest
      rw [hpop.caller]
      exact htable.caller g rest' hrest
    case boxes =>
      intro d hd
      by_cases hdom : d = f.dom
      · rw [hdom, hpop.caller]
        exact htable.boxes f.dom (hdom ▸ hd)
      · by_cases hactive : d = m.active
        · rw [hactive, hpop.returned, hcaller]
          exact hinv.table.boxes m.active (hactive ▸ hd)
        · rw [hpop.others d hdom hactive]
          exact hinv.table.boxes d hd
  case resumable => exact fun g hg => hinv.resumable g (List.mem_cons_of_mem _ hg)

end Pop

/-! ## Section 4: Pushing a call -/

/-- A call that keeps to the stacks: made from below the suspended calls of the active
domain, to a domain that is suspended or has been prepared by its init. -/
structure CallOk (stk : Stacks) (m : Machine μ) (chain : List Suspended) (target lr sp : Word) :
    Prop where
  lr_ne : lr ≠ 0
  room : stk.lo m.active + (savedSize lr).toNat + 16 ≤ sp.toNat
  below : sp.toNat + 32 ≤ floor stk chain m.active
  prepared : ¬ Live chain target → (m.state target).sp.toNat ≤ stk.hi target
  space : stk.lo target + 32 ≤ (m.state target).sp.toNat

/-- The suspended call that a call leaves behind -/
def suspend (m m' : Machine μ) (target lr sp : Word) : Suspended where
  dom := m.active
  callee := target
  lr := lr
  sp := sp - savedSize lr - 16
  fp := sp
  pc := m.load (sp + 24)
  table := m.state
  cells := m'.ram.cells

section

variable (m m' : Machine μ) (target lr sp : Word)

@[simp] theorem suspend_dom : (suspend m m' target lr sp).dom = m.active := rfl
@[simp] theorem suspend_lr : (suspend m m' target lr sp).lr = lr := rfl
@[simp] theorem suspend_sp : (suspend m m' target lr sp).sp = sp - savedSize lr - 16 := rfl

end

theorem callTarget_spec (c : Config μ) (caller op : Word) :
    ¬ c.count < callTarget c caller op ∧ (caller = 0 ↔ callTarget c caller op ≠ 0) := by
  have hpos : 0 < c.count.toNat := by simpa [BitVec.lt_def] using c.count_pos
  unfold callTarget
  split
  · next hcaller =>
    -- a remainder and one more, so from 1 to the count
    have hlt := Nat.mod_lt (callIndex op).toNat hpos
    have hnat : (callIndex op % c.count + 1).toNat = (callIndex op).toNat % c.count.toNat + 1 := by
      have hmax := c.count.isLt
      rw [BitVec.toNat_add, BitVec.toNat_umod]
      change (_ + 1) % 2 ^ 32 = _
      omega
    refine ⟨?_, iff_of_true hcaller fun h0 => ?_⟩
    · rw [BitVec.lt_def, hnat]
      omega
    · rw [h0] at hnat
      simp at hnat
  · next hcaller =>
    refine ⟨?_, iff_of_false hcaller fun h0 => h0 rfl⟩
    rw [BitVec.lt_def]
    simp

theorem callTarget_ne (c : Config μ) (caller op : Word) : callTarget c caller op ≠ caller := by
  intro heq
  have hsys := (callTarget_spec c caller op).2
  rw [heq] at hsys
  exact iff_not_self hsys

section Push

variable {c : Config μ} {stk : Stacks} {m m' : Machine μ} {chain : List Suspended}
  {lr sp op exc excsp : Word}

theorem savedSize_toNat (lr : Word) : (savedSize lr).toNat = 32 ∨ (savedSize lr).toNat = 96 := by
  unfold savedSize
  split
  · right; rfl
  · left; rfl

/-- The new frame is right below the saved registers. -/
theorem toNat_frame (lr : Word) (hroom : (savedSize lr).toNat + 16 ≤ sp.toNat) :
    (sp - savedSize lr - 16).toNat = sp.toNat - (savedSize lr).toNat - 16 := by
  have hsp := sp.isLt
  rw [BitVec.toNat_sub, BitVec.toNat_sub]
  rcases savedSize_toNat lr with h | h <;> rw [h] at hroom ⊢ <;> simp <;> omega

/-- A call saves the state of its caller right below the stack pointer. -/
theorem mem_savedState {a : Word} (hroom : (savedSize lr).toNat + 16 ≤ sp.toNat)
    (ha : a ∈ (addrs (sp - savedSize lr - 16) 4).reverse ++ savedAddrs lr sp) :
    sp.toNat - (savedSize lr).toNat - 16 ≤ a.toNat ∧ a.toNat < sp.toNat := by
  have hspmax := sp.isLt
  have hframe := toNat_frame lr hroom
  rcases List.mem_append.mp ha with hhead | ha
  · have hin := toNat_of_mem_addrs (by rw [hframe]; omega) (List.mem_reverse.mp hhead)
    rw [hframe] at hin
    rcases savedSize_toNat lr with h | h <;> omega
  -- the core registers, and below them those of the FPU
  have h32 : (sp - 32).toNat = sp.toNat - 32 :=
    BitVec.toNat_sub_of_le (show 32 ≤ sp.toNat by rcases savedSize_toNat lr with h | h <;> omega)
  have hcore : a ∈ (addrs (sp - 32) 8).reverse →
      sp.toNat - (savedSize lr).toNat - 16 ≤ a.toNat ∧ a.toNat < sp.toNat := by
    intro hmem
    have hin := toNat_of_mem_addrs (by rw [h32]; omega) (List.mem_reverse.mp hmem)
    rw [h32] at hin
    rcases savedSize_toNat lr with h | h <;> omega
  unfold savedAddrs at ha
  split at ha
  · next hfp =>
    rcases List.mem_append.mp ha with hfpu | ha
    · have hsize : (savedSize lr).toNat = 96 := by
        rw [savedSize, if_pos hfp]
        rfl
      rw [hsize] at hroom ⊢
      have h96 : (sp - 96).toNat = sp.toNat - 96 :=
        BitVec.toNat_sub_of_le (show 96 ≤ sp.toNat by omega)
      have hin := toNat_of_mem_addrs (by rw [h96]; omega) (List.mem_reverse.mp hfpu)
      rw [h96] at hin
      omega
    · exact hcore ha
  · exact hcore ha

/-- A call stores below the stack pointers of the two domains. -/
theorem mem_callStores {targetsp a : Word} (hroom : (savedSize lr).toNat + 16 ≤ sp.toNat)
    (hspace : 32 ≤ targetsp.toNat) (ha : a ∈ callStores lr sp targetsp) :
    (targetsp.toNat - 32 ≤ a.toNat ∧ a.toNat < targetsp.toNat) ∨
      (sp.toNat - (savedSize lr).toNat - 16 ≤ a.toNat ∧ a.toNat < sp.toNat) := by
  have hmax := targetsp.isLt
  rcases List.mem_append.mp ha with hnew | ha
  · have h32 : (targetsp - 32).toNat = targetsp.toNat - 32 := BitVec.toNat_sub_of_le hspace
    have hin := toNat_of_mem_addrs (by rw [h32]; omega) (List.mem_reverse.mp hnew)
    rw [h32] at hin
    left; omega
  · exact .inr (mem_savedState hroom ha)

theorem CallOk.sp_le_hi {target : Word} (hok : CallOk stk m chain target lr sp)
    (hframed : Framed stk chain)
    (hsp : ∀ d, Live chain d → (m.state d).sp.toNat = floor stk chain d) :
    (m.state target).sp.toNat ≤ stk.hi target := by
  by_cases hlive : Live chain target
  · rw [hsp target hlive]
    exact floor_le_hi hframed target
  · exact hok.prepared hlive

/-- A call leaves the suspended calls alone. -/
theorem notMem_callStores {target : Word} (hframed : Framed stk chain)
    (hok : CallOk stk m chain target lr sp) (hsp : ∀ d, Live chain d →
      (m.state d).sp.toNat = floor stk chain d) {g : Suspended} (hg : g ∈ chain) {a : Word}
    (ha : g.Owns a) : a ∉ callStores lr sp (m.state target).sp := by
  intro hmem
  have hroom := hok.room
  have hspace := hok.space
  have hbelow := hok.below
  have htarget : (m.state target).sp.toNat ≤ floor stk chain target ∨
      ¬ Live chain target := by
    by_cases hlive : Live chain target
    · exact .inl (hsp target hlive).le
    · exact .inr hlive
  rcases mem_callStores (by omega) (by omega) hmem with ⟨hlo, hhi⟩ | ⟨hlo, hhi⟩
  · -- in the new frame of the callee
    rcases owns_outside hframed hg ha target with hlow | hhigh
    · omega
    · rcases htarget with hle | hlive
      · omega
      · have hprepared := hok.prepared hlive
        rw [floor_of_not_live hlive] at hhigh
        omega
  · -- in the frame of the caller
    rcases owns_outside hframed hg ha m.active with hlow | hhigh
    · omega
    · omega

/-- A call leaves its own exception frame and its frame to the callee alone. -/
theorem notMem_newFrame {target a : Word} (hne : target ≠ m.active) (hframed : Framed stk chain)
    (hok : CallOk stk m chain target lr sp) (hsp : ∀ d, Live chain d →
      (m.state d).sp.toNat = floor stk chain d)
    (ha : sp.toNat - (savedSize lr).toNat - 16 ≤ a.toNat ∧ a.toNat < sp.toNat + 32) :
    a ∉ addrs ((m.state target).sp - 32) 8 := by
  have hroom := hok.room
  have hspace := hok.space
  have hbelow := hok.below
  have hactive := floor_le_hi hframed m.active
  have hhi := hok.sp_le_hi hframed hsp
  have hmax := (m.state target).sp.isLt
  have h32 : ((m.state target).sp - 32).toNat = (m.state target).sp.toNat - 32 :=
    BitVec.toNat_sub_of_le (show 32 ≤ (m.state target).sp.toNat by omega)
  refine notMem_addrs (by rw [h32]; omega) ?_
  rw [h32]
  -- the two stacks are apart
  rcases stk.disjoint target m.active hne with hdis | hdis
  · right; omega
  · left; omega

theorem holds_suspend {target : Word} (hne : target ≠ m.active) (hframed : Framed stk chain)
    (hok : CallOk stk m chain target lr sp)
    (hsp : ∀ d, Live chain d → (m.state d).sp.toNat = floor stk chain d)
    (htracks : Tracks (callStores lr sp (m.state target).sp) m.ram m'.ram)
    (hframe : ∀ w ∈ frameWords (sp - savedSize lr - 16) sp (m.state m.active),
      w.1 ∉ addrs ((m.state target).sp - 32) 8 → m'.load w.1 = w.2) :
    (suspend m m' target lr sp).Holds := by
  have hroom := hok.room
  have hbelow := hok.below
  have hmax := (floor_le_hi hframed m.active).trans (stk.hi_le m.active)
  have hfsp := toNat_frame lr (show (savedSize lr).toNat + 16 ≤ sp.toNat by omega)
  have hword : ∀ w ∈ frameWords (sp - savedSize lr - 16) sp (m.state m.active),
      m'.ram.cells w.1 = w.2 := by
    intro w hw
    refine hframe w hw (notMem_newFrame hne hframed hok hsp ?_)
    have hmem : w.1 ∈ addrs (sp - savedSize lr - 16) 4 := by
      rw [← map_fst_frameWords _ sp (m.state m.active)]
      exact List.mem_map_of_mem hw
    have hin := toNat_of_mem_addrs (by rw [hfsp]; omega) hmem
    rw [hfsp] at hin
    omega
  constructor
  case fp => exact hword (_, sp) (by simp [frameWords, suspend])
  case lr => exact hword (_, (m.state m.active).lr) (by simp [frameWords, suspend])
  case sp => exact hword (_, (m.state m.active).sp) (by simp [frameWords, suspend])
  case caller => exact hword (_, (m.state m.active).caller) (by simp [frameWords, suspend])
  case size => rfl
  case pc =>
    -- the program counter is above what is stored
    have h24 : (sp + 24).toNat = sp.toNat + 24 := toNat_add_ofNat (k := 24) (by omega)
    refine htracks.cells (sp + 24) fun hmem => ?_
    have hspace := hok.space
    rcases mem_callStores (by omega) (by omega) hmem with ⟨hlo, hhi⟩ | ⟨hlo, hhi⟩
    · have hnot := notMem_newFrame (a := sp + 24) hne hframed hok hsp (by omega)
      rcases List.mem_append.mp hmem with hnew | hown
      · exact hnot (List.mem_reverse.mp hnew)
      · have htarget := hok.sp_le_hi hframed hsp
        have hactive := floor_le_hi hframed m.active
        rcases stk.disjoint target m.active hne with hdis | hdis <;> omega
    · omega

/-- A call pushes. -/
theorem inv_call (hinv : Inv c stk m chain)
    (hok : CallOk stk m chain (callTarget c m.active op) lr sp)
    (hspec : CallSpec c m lr sp op exc excsp m') :
    Inv c stk m' (suspend m m' (callTarget c m.active op) lr sp :: chain) := by
  obtain ⟨hrange, hsys⟩ := callTarget_spec c m.active op
  have hne := callTarget_ne c m.active op
  have htracks := hspec.tracks
  have hstate := hspec.state
  have hframe := hspec.frame
  have hactive := hspec.active
  generalize callTarget c m.active op = target at *
  have hroom := hok.room
  have hfsp := toNat_frame lr (show (savedSize lr).toNat + 16 ≤ sp.toNat by omega)
  constructor
  case framed =>
    refine ⟨?_, ?_, hok.below, hinv.framed⟩
    · rw [suspend_dom, suspend_sp]
      omega
    · rw [suspend_sp]
      change _ ≤ sp.toNat
      omega
  case linked => rw [hactive]; exact ⟨rfl, hsys, hinv.linked⟩
  case inRange =>
    rw [hactive]
    exact ⟨hrange, List.forall_mem_cons.mpr ⟨hinv.inRange.1, hinv.inRange.2⟩⟩
  case holds =>
    exact List.forall_mem_cons.mpr
      ⟨holds_suspend hne hinv.framed hok hinv.table.sp htracks hframe, hinv.holds⟩
  case cells =>
    refine List.forall_mem_cons.mpr ⟨fun a ha => rfl, fun g hg a ha => ?_⟩
    rw [← hinv.cells g hg a ha]
    exact htracks.cells a (notMem_callStores hinv.framed hok hinv.table.sp hg ha)
  case recorded => exact ⟨hinv.table, hinv.recorded⟩
  case resumable => exact List.forall_mem_cons.mpr ⟨hok.lr_ne, hinv.resumable⟩
  case table =>
    -- what the handler stores for the caller, the callee and all others
    have hcaller : m'.state m.active =
        { m.state m.active with lr := lr, sp := sp - savedSize lr - 16 } := by
      rw [hstate, Function.update_of_ne hne.symm, Function.update_self]
    have hcallee : m'.state target = { m.state target with caller := m.active, lr := 0 } := by
      rw [hstate, Function.update_self]
    have hothers : ∀ d, d ≠ m.active → d ≠ target → m'.state d = m.state d := by
      intro d hd hd'
      rw [hstate, Function.update_of_ne hd', Function.update_of_ne hd]
    rw [hactive]
    constructor
    case sp =>
      intro d hd
      by_cases hdom : d = m.active
      · rw [hdom, hcaller, floor, suspend_dom, if_pos rfl, suspend_sp]
      · rw [floor, suspend_dom, if_neg (Ne.symm hdom), ← hinv.table.sp d
          ((live_cons.mp hd).resolve_left (Ne.symm hdom))]
        by_cases htarget : d = target
        · rw [htarget, hcallee]
        · rw [hothers d hdom htarget]
    case lr =>
      intro d hd htarget
      by_cases hdom : d = m.active
      · rw [hdom, hcaller, latestLr, suspend_dom, if_pos rfl, suspend_lr]
      · rw [hothers d hdom htarget, latestLr, suspend_dom, if_neg (Ne.symm hdom)]
        exact hinv.table.lr d ((live_cons.mp hd).resolve_left (Ne.symm hdom)) hdom
    case running => intro; rw [hcallee]
    case caller =>
      intro f rest hrest
      cases hrest
      rw [hcallee]
      rfl
    case boxes =>
      intro d hd
      by_cases htarget : d = target
      · rw [htarget, hcallee]
        exact hsys.mpr (htarget ▸ hd)
      · by_cases hdom : d = m.active
        · rw [hdom, hcaller]
          exact hinv.table.boxes m.active (hdom ▸ hd)
        · rw [hothers d hdom htarget]
          exact hinv.table.boxes d hd

end Push

end BentoLinker.Mpu
