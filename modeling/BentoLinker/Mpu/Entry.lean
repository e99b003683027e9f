import BentoLinker.Mpu.Dispatch
import BentoLinker.Mpu.Runs

/-!
# Entering a Domain

A call ends in an exception return into the callee: the processor takes the frame that
`__box_callsetup` has built off the callee's stack.

- `exceptionReturn`: what the return of the processor pops, and into which registers
- `Fits`: the frames of a call lie in the stacks of their domains
- `Entered`: the frame of the call is popped, and nothing else of the callee's stack
- `entered_iff`: it is if and only if the callee's record asks for a frame without
  floating-point registers and the caller's stack was aligned

The size of what is popped is in the callee's `EXC_RETURN` value and in the program status of
the caller, which is copied. `__box_callsetup` builds eight words in any case.
-/

namespace BentoLinker.Mpu

open TracedMemory WordRange

variable {μ : Type}

/-! ## Section 1: The exception return of ARMv7-M -/

/-- `r0`-`r3`, `r12`, `lr`, `pc`, `xPSR`; then `s0`-`s15`, `FPSCR` and a reserved word if bit 4
of `EXC_RETURN` is clear; then a word of padding if bit 9 of the stacked `xPSR` is set -/
def unstackedWords (lr xpsr : Word) : ℕ :=
  (if hasFp lr then 26 else 8) + if xpsr &&& 0x200 = 0 then 0 else 1

/-- The registers after an exception return -/
structure Unstacked where
  r0 : Word
  r1 : Word
  r2 : Word
  r3 : Word
  r12 : Word
  lr : Word
  pc : Word
  sp : Word
  deriving Repr, DecidableEq

/-- Where an exception return reads -/
def unstackedAddrs (m : Machine μ) (lr sp : Word) : List Word :=
  addrs sp (unstackedWords lr (m.load (sp + 28)))

/-- `bx lr` with an `EXC_RETURN` value and the stack pointer that it selects -/
def exceptionReturn (m : Machine μ) (lr sp : Word) : Unstacked where
  r0 := m.load sp
  r1 := m.load (sp + 4)
  r2 := m.load (sp + 8)
  r3 := m.load (sp + 12)
  r12 := m.load (sp + 16)
  lr := m.load (sp + 20)
  pc := m.load (sp + 24)
  sp := sp + 4 * BitVec.ofNat 32 (unstackedWords lr (m.load (sp + 28)))

/-! ## Section 2: The frame of the callee -/

/-- The words of a frame that is built from one that it does not touch -/
def callFrameWords (c : Config μ) (m : Machine μ) (targetsp fp targetpc : Word) :
    List (Word × Word) :=
  [(targetsp, m.load fp), (targetsp + 4, m.load (fp + 4)), (targetsp + 8, m.load (fp + 8)),
    (targetsp + 12, m.load (fp + 12)), (targetsp + 16, m.load (fp + 16)),
    (targetsp + 20, c.callregion), (targetsp + 24, targetpc),
    (targetsp + 28, m.load (fp + 28))]

theorem map_fst_callFrameWords (c : Config μ) (m : Machine μ) (targetsp fp targetpc : Word) :
    (callFrameWords c m targetsp fp targetpc).map Prod.fst = addrs targetsp 8 := by
  simp [callFrameWords, addrs, List.range_succ]

theorem Machine.storeAll_nil (m : Machine μ) : m.storeAll [] = m := rfl

theorem Machine.storeAll_cons (m : Machine μ) (a v : Word) (writes : List (Word × Word)) :
    m.storeAll ((a, v) :: writes) = (m.store a v).storeAll writes := rfl

/-- The offsets of an exception frame -/
def frameOffsets : List Word := [0, 4, 8, 12, 16, 20, 24, 28]

theorem offset_mem_addrs {a k : Word} (hk : k ∈ frameOffsets) : a + k ∈ addrs a 8 := by
  simp only [frameOffsets, List.mem_cons, List.not_mem_nil, or_false] at hk
  rcases hk with rfl | rfl | rfl | rfl | rfl | rfl | rfl | rfl <;> simp [addrs, List.range_succ]

/-- The caller's frame is read word by word while the callee's is written. -/
theorem pushCallFrame_eq {c : Config μ} {m : Machine μ} {targetsp fp targetpc : Word}
    (hapart : ∀ b ∈ addrs fp 8, b ∉ addrs targetsp 8) :
    pushCallFrame c m targetsp fp targetpc =
      m.storeAll (callFrameWords c m targetsp fp targetpc) := by
  have hload : ∀ (n : Machine μ) (k l v : Word), k ∈ frameOffsets → l ∈ frameOffsets →
      (n.store (targetsp + l) v).load (fp + k) = n.load (fp + k) := by
    intro n k l v hk hl
    exact cells_store_of_ne fun heq =>
      hapart _ (offset_mem_addrs hk) (heq ▸ offset_mem_addrs hl)
  have hfirst : ∀ (n : Machine μ) (k v : Word), k ∈ frameOffsets →
      (n.store targetsp v).load (fp + k) = n.load (fp + k) := by
    intro n k v hk
    have hzero := hload n k 0 v hk (by decide)
    rwa [show targetsp + (0 : Word) = targetsp from BitVec.add_zero _] at hzero
  unfold pushCallFrame callFrameWords
  simp (disch := decide) only [hload, hfirst]
  simp only [Machine.storeAll_cons, Machine.storeAll_nil]

/-- The words that a call saves on the stack of the caller, latest first -/
def callerStores (lr sp : Word) : List Word :=
  (addrs (sp - savedSize lr - 16) 4).reverse ++ savedAddrs lr sp

/-- A call saves the state of the caller first, and builds the frame of the callee then. -/
theorem callhandler_frames {c : Config μ} {m m' : Machine μ} {lr sp op exc excsp : Word}
    (h : callhandler c m lr sp op = .resume exc excsp m') :
    Tracks (callerStores lr sp) m.ram (callerSaved m lr sp).ram ∧
      m'.ram = (pushCallFrame c (callerSaved m lr sp) ((m.state (callTarget c m.active op)).sp - 32)
        sp ((callerSaved m lr sp).load (callEntry c m.active op))).ram := by
  have hne := callTarget_ne c m.active op
  obtain ⟨hactive, hstate, hmpu⟩ := saveRegs_fields m lr sp
  have htarget : ∀ s, Function.update m.state m.active s (callTarget c m.active op) =
      m.state (callTarget c m.active op) :=
    fun s => Function.update_of_ne hne s m.state
  have hsaved := (tracks_saveRegs m lr sp).storeAll
    (frameWords (sp - savedSize lr - 16) sp (m.state m.active))
  rw [map_fst_frameWords] at hsaved
  unfold callhandler callsetup at h
  split at h
  · cases h
  simp only [Machine.active_storeAll, Machine.active_setState, Machine.state_setState,
    Machine.state_storeAll, hactive, hstate, htarget] at h
  cases h
  exact ⟨hsaved, rfl⟩

/-! ## Section 3: Entry -/

/-- The frames of a call lie in the stacks of their domains, and the jumptable in none. -/
structure Fits (c : Config μ) (stk : Stacks) (m : Machine μ) (lr sp op : Word) : Prop where
  active_le : ¬ c.count < m.active
  room : stk.lo m.active + (savedSize lr).toNat + 16 ≤ sp.toNat
  below : sp.toNat + 32 ≤ stk.hi m.active
  space : stk.lo (callTarget c m.active op) + 32 ≤ (m.state (callTarget c m.active op)).sp.toNat
  inside : (m.state (callTarget c m.active op)).sp.toNat ≤ stk.hi (callTarget c m.active op)
  entry : ∀ d, (callEntry c m.active op).toNat < stk.lo d ∨
    stk.hi d ≤ (callEntry c m.active op).toNat

/-- The exception return takes the words that were written for it, all of them and no others,
and what the callee has on its stack stays. -/
structure Entered (c : Config μ) (stk : Stacks) (m : Machine μ) (sp op exc excsp : Word)
    (m' : Machine μ) : Prop where
  popped : unstackedAddrs m' exc excsp = addrs ((m.state (callTarget c m.active op)).sp - 32) 8
  args : (exceptionReturn m' exc excsp).r0 = m.load sp ∧
    (exceptionReturn m' exc excsp).r1 = m.load (sp + 4) ∧
    (exceptionReturn m' exc excsp).r2 = m.load (sp + 8) ∧
    (exceptionReturn m' exc excsp).r3 = m.load (sp + 12)
  link : (exceptionReturn m' exc excsp).lr = c.callregion
  pc : (exceptionReturn m' exc excsp).pc = m.load (callEntry c m.active op)
  sp : (exceptionReturn m' exc excsp).sp = (m.state (callTarget c m.active op)).sp
  kept : ∀ a : Word, (m.state (callTarget c m.active op)).sp.toNat ≤ a.toNat →
    a.toNat < stk.hi (callTarget c m.active op) → m'.load a = m.load a

/-- The callee's record asks for a frame without floating-point registers, and the caller's
stack pointer was aligned to 8 bytes. -/
def Plain (c : Config μ) (m : Machine μ) (sp op : Word) : Prop :=
  hasFp (m.state (callTarget c m.active op)).lr = false ∧ m.load (sp + 28) &&& 0x200 = 0

section

variable {c : Config μ} {stk : Stacks} {m m' : Machine μ} {lr sp op exc excsp : Word}

/-- Frames that fit are apart: what is read of the caller is not what is written. -/
theorem Fits.apart (hfits : Fits c stk m lr sp op) {a : Word}
    (ha : sp.toNat - (savedSize lr).toNat - 16 ≤ a.toNat ∧ a.toNat < sp.toNat + 32) :
    a ∉ addrs ((m.state (callTarget c m.active op)).sp - 32) 8 := by
  have hroom := hfits.room
  have hbelow := hfits.below
  have hspace := hfits.space
  have hinside := hfits.inside
  have hmax := (m.state (callTarget c m.active op)).sp.isLt
  have h32 : ((m.state (callTarget c m.active op)).sp - 32).toNat =
      (m.state (callTarget c m.active op)).sp.toNat - 32 :=
    BitVec.toNat_sub_of_le (show 32 ≤ (m.state (callTarget c m.active op)).sp.toNat by omega)
  refine notMem_addrs (by rw [h32]; omega) ?_
  rw [h32]
  rcases stk.disjoint _ _ (callTarget_ne c m.active op) with hdis | hdis
  · right; omega
  · left; omega

/-- What is saved of the caller is neither its exception frame nor above it. -/
theorem notMem_callerStores {a : Word} (hroom : (savedSize lr).toNat + 16 ≤ sp.toNat)
    (ha : a.toNat < sp.toNat - (savedSize lr).toNat - 16 ∨ sp.toNat ≤ a.toNat) :
    a ∉ callerStores lr sp := by
  intro hmem
  have hbounds := mem_savedState hroom hmem
  omega

theorem toNat_offset_le {k : Word} (hk : k ∈ frameOffsets) : k.toNat ≤ 28 := by
  simp only [frameOffsets, List.mem_cons, List.not_mem_nil, or_false] at hk
  rcases hk with rfl | rfl | rfl | rfl | rfl | rfl | rfl | rfl <;> decide

/-- The frame of the callee in memory -/
theorem Fits.load (hfits : Fits c stk m lr sp op)
    (h : callhandler c m lr sp op = .resume exc excsp m') :
    ∀ w ∈ callFrameWords c m ((m.state (callTarget c m.active op)).sp - 32) sp
      (m.load (callEntry c m.active op)), m'.load w.1 = w.2 := by
  have hroom := hfits.room
  have hbelow := hfits.below
  have hhi := stk.hi_le m.active
  obtain ⟨htracks, hram⟩ := callhandler_frames h
  generalize callerSaved m lr sp = saved at htracks hram
  -- the caller's exception frame is as it was
  have hframe : ∀ k ∈ frameOffsets, saved.load (sp + k) = m.load (sp + k) := by
    intro k hk
    have hle := toNat_offset_le hk
    refine htracks.cells _ (notMem_callerStores (by omega) (.inr ?_))
    rw [BitVec.toNat_add, Nat.mod_eq_of_lt (by omega)]
    exact Nat.le_add_right _ _
  have hzero : saved.load sp = m.load sp := by
    have h0 := hframe 0 (by decide)
    rwa [show sp + (0 : Word) = sp from BitVec.add_zero _] at h0
  have hentry : saved.load (callEntry c m.active op) = m.load (callEntry c m.active op) := by
    have hout := hfits.entry m.active
    exact htracks.cells _ (notMem_callerStores (by omega) (by omega))
  have hwords : callFrameWords c saved ((m.state (callTarget c m.active op)).sp - 32) sp
      (saved.load (callEntry c m.active op)) =
      callFrameWords c m ((m.state (callTarget c m.active op)).sp - 32) sp
        (m.load (callEntry c m.active op)) := by
    unfold callFrameWords
    rw [hzero, hframe 4 (by decide), hframe 8 (by decide), hframe 12 (by decide),
      hframe 16 (by decide), hframe 28 (by decide), hentry]
  rw [pushCallFrame_eq, hwords] at hram
  · intro w hw
    have hcell := congrFun (congrArg TracedMemory.cells hram) w.1
    refine hcell.trans (cells_storeAll ?_ hw)
    rw [map_fst_callFrameWords]
    exact nodup_addrs _ (by decide)
  · intro b hb
    have hin := toNat_of_mem_addrs (by omega) hb
    exact hfits.apart ⟨by omega, by omega⟩

theorem unstackedWords_eq_eight {lr xpsr : Word} :
    unstackedWords lr xpsr = 8 ↔ hasFp lr = false ∧ xpsr &&& 0x200 = 0 := by
  unfold unstackedWords
  cases hasFp lr with
  | true =>
    refine ⟨fun h => ?_, fun h => absurd h.1 Bool.true_eq_false_eq_False⟩
    rw [if_pos rfl] at h
    omega
  | false =>
    by_cases hpad : xpsr &&& 0x200 = 0
    · rw [if_pos hpad]
      exact iff_of_true rfl ⟨rfl, hpad⟩
    · rw [if_neg hpad]
      exact iff_of_false (by decide) fun h => hpad h.2

theorem unstackedWords_le (lr xpsr : Word) : unstackedWords lr xpsr ≤ 27 := by
  unfold unstackedWords
  split <;> split <;> decide

theorem length_addrs (a : Word) (n : ℕ) : (addrs a n).length = n := by
  simp [addrs]

/-- A call whose frames fit enters its callee with exactly the frame built for it, if and only
if the callee's record asks for no floating-point registers and the caller's stack was
aligned. -/
theorem entered_iff (hcall : branchOf c (m.load (sp + 24)) = .call)
    (hfits : Fits c stk m lr sp (m.load (sp + 24) - c.callregion)) :
    ∃ exc excsp m', mpuHandler c m lr sp = .resume exc excsp m' ∧
      (Entered c stk m sp (m.load (sp + 24) - c.callregion) exc excsp m' ↔
        Plain c m sp (m.load (sp + 24) - c.callregion)) := by
  rw [mpuHandler_call hcall]
  generalize m.load (sp + 24) - c.callregion = op at *
  obtain hwild | ⟨exc, excsp, m', hresume⟩ := callhandler_cases c m lr sp op
  · -- the active domain has a record
    unfold callhandler callsetup at hwild
    rw [(saveRegs_fields m lr sp).1, if_neg hfits.active_le] at hwild
    cases hwild
  refine ⟨exc, excsp, m', hresume, ?_⟩
  have hspec := callSpec_of_callhandler (callTarget_ne c m.active op) hresume
  have hexc := hspec.lr_eq
  have hexcsp := hspec.sp_eq
  have hload := hfits.load hresume
  rw [← hexcsp] at hload
  have hword : ∀ a v, (a, v) ∈ callFrameWords c m excsp sp (m.load (callEntry c m.active op)) →
      m'.load a = v := fun a v hw => hload (a, v) hw
  have hpsr : m'.load (excsp + 28) = m.load (sp + 28) :=
    hword _ _ (by simp [callFrameWords])
  have hplain : Plain c m sp op ↔ unstackedWords exc (m'.load (excsp + 28)) = 8 := by
    rw [unstackedWords_eq_eight, hpsr, hexc]
    rfl
  rw [hplain]
  constructor
  · intro hentered
    have hlength := congrArg List.length hentered.popped
    rw [unstackedAddrs, length_addrs, length_addrs] at hlength
    exact hlength
  · intro height
    have hspace := hfits.space
    refine ⟨?_, ⟨?_, ?_, ?_, ?_⟩, ?_, ?_, ?_, ?_⟩
    · rw [unstackedAddrs, height, hexcsp]
    · exact hword _ _ (by simp [callFrameWords])
    · exact hword _ _ (by simp [callFrameWords])
    · exact hword _ _ (by simp [callFrameWords])
    · exact hword _ _ (by simp [callFrameWords])
    · exact hword _ _ (by simp [callFrameWords])
    · exact hword _ _ (by simp [callFrameWords])
    · change excsp + 4 * BitVec.ofNat 32 (unstackedWords exc (m'.load (excsp + 28))) = _
      rw [height, hexcsp]
      bv_omega
    · intro a hlow hhigh
      have hroom := hfits.room
      have hbelow := hfits.below
      refine hspec.tracks.cells a fun hmem => ?_
      rcases mem_callStores (by omega) (by omega) hmem with ⟨-, hlt⟩ | ⟨hge, hlt⟩
      · omega
      · -- the caller's stack is another one
        rcases stk.disjoint _ _ (callTarget_ne c m.active op) with hdis | hdis <;> omega

/-! ## Section 4: In a run -/

/-- In a run whose domains keep to their stacks, the frames of a call fit. -/
theorem fits_of_run {chain : List Suspended}
    (hrun : GuardedRun Start (Step c stk) Good ⟨m, chain⟩)
    (hok : CallOk stk m chain (callTarget c m.active op) lr sp)
    (hentry : ∀ d, (callEntry c m.active op).toNat < stk.lo d ∨ stk.hi d ≤ (callEntry c m.active op).toNat) :
    Fits c stk m lr sp op := by
  have hinv : Inv c stk m chain := inv_run hrun
  have hbelow := hok.below
  have hfloor := floor_le_hi hinv.framed m.active
  exact {
    active_le := hinv.inRange.1
    room := hok.room
    below := by omega
    space := hok.space
    inside := hok.sp_le_hi hinv.framed hinv.table.sp
    entry := hentry }

/-- The frames of a suspended callee are among what a call leaves on its stack. -/
theorem suspended_kept {chain : List Suspended}
    (hrun : GuardedRun Start (Step c stk) Good ⟨m, chain⟩) {f : Suspended} (hf : f ∈ chain)
    {a : Word} (ha : f.Owns a) :
    (m.state f.dom).sp.toNat ≤ a.toNat ∧ a.toNat < stk.hi f.dom := by
  have hinv : Inv c stk m chain := inv_run hrun
  obtain ⟨hlow, -, -, hhigh⟩ := framed_mem hinv.framed hf
  have hsp : (m.state f.dom).sp.toNat = floor stk chain f.dom := hinv.table.sp f.dom ⟨f, hf, rfl⟩
  obtain ⟨hge, hlt⟩ := ha
  omega

end

/-- Sys calls the box of `oneBoxStart`. -/
theorem oneBox_entered :
    ∃ exc excsp m', mpuHandler oneBox oneBoxStart 0xfffffff9 0x10f00 = .resume exc excsp m' ∧
      (Entered oneBox oneBoxStacks oneBoxStart 0x10f00 10 exc excsp m' ↔
        Plain oneBox oneBoxStart 0x10f00 10) := by
  refine entered_iff rfl ?_
  constructor
  case active_le => decide
  case room => decide
  case below => decide
  case space => decide
  case inside => decide
  case entry =>
    intro d
    left
    have hentry : (callEntry oneBox oneBoxStart.active 10).toNat = 0x2004 := by decide
    unfold oneBoxStacks
    refine hentry.trans_lt ?_
    dsimp only
    split_ifs <;> decide

/-- `oneBoxStart`, with the stack of sys not aligned to 8 bytes at the call -/
def oneBoxUnaligned : Machine Unit := oneBoxStart.store 0x10f1c 0x200

/-- The return pops the frame of the box and the word above it. -/
theorem oneBox_not_entered :
    GuardedRun Start (Step oneBox oneBoxStacks) (fun _ _ => True) ⟨oneBoxUnaligned, []⟩ ∧
      ∃ exc excsp m',
        mpuHandler oneBox oneBoxUnaligned 0xfffffff9 0x10f00 = .resume exc excsp m' ∧
        (exceptionReturn m' exc excsp).sp = 0x21004 ∧ (oneBoxUnaligned.state 1).sp = 0x21000 ∧
        ¬ Entered oneBox oneBoxStacks oneBoxUnaligned 0x10f00 10 exc excsp m' := by
  refine ⟨.start ⟨rfl, rfl, fun _ _ => rfl⟩, _, _, _, rfl, by decide +kernel, by decide +kernel, ?_⟩
  intro hentered
  exact absurd hentered.sp (by decide +kernel)

end BentoLinker.Mpu
