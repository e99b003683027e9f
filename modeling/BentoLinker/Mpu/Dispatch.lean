import BentoLinker.Mpu.Runs

/-!
# Dispatch of Calls

A box makes a call by a branch into the call region. The offset of the branch selects a word
of the jumptable of sys for this box, which becomes the program counter of sys.

- `Table`: the entries of a jumptable
- `load_pc_of_callhandler`: where the program counter of a callee comes from
- `callIndex_lt_iff`: which offsets select an entry
- `dispatch_iff`: a call of a box reads an entry of its table if and only if its offset is
  past the slots of return and abort and in front of the end of the table
-/

namespace BentoLinker.Mpu

open TracedMemory WordRange

variable {μ : Type}

/-! ## Section 1: Jumptables -/

/-- The entries of a jumptable. It is an array of words in a 32-bit address space. -/
structure Table where
  entries : List Word
  fits : entries.length ≤ 2 ^ 30

/-- The table is in memory at `a`. -/
def Table.At (t : Table) (m : Machine μ) (a : Word) : Prop :=
  ∀ i (h : i < t.entries.length), m.load (a + 4 * BitVec.ofNat 32 i) = t.entries[i]

/-! ## Section 2: The program counter of a callee -/

/-- The machine when `__box_callsetup` looks up its target: registers and frame of the
caller have been saved. -/
def callerSaved (m : Machine μ) (lr sp : Word) : Machine μ :=
  (saveRegs m lr sp).storeAll (frameWords (sp - savedSize lr - 16) sp (m.state m.active))

/-- The word of a jumptable that a call uses -/
def callEntry (c : Config μ) (caller op : Word) : Word :=
  callTable c caller (callTarget c caller op) + 4 * callSlot c caller op

theorem load_pushCallFrame (c : Config μ) (m : Machine μ) (targetsp fp targetpc : Word) :
    (pushCallFrame c m targetsp fp targetpc).load (targetsp + 24) = targetpc := by
  unfold pushCallFrame Machine.load
  rw [Machine.ram_store, cells_store_of_ne (by bv_omega), Machine.ram_store, cells_store_self]

/-- A call resumes the callee at the word its offset selects. -/
theorem load_pc_of_callhandler {c : Config μ} {m m' : Machine μ} {lr sp op exc excsp : Word}
    (h : callhandler c m lr sp op = .resume exc excsp m') :
    m'.load (excsp + 24) = (callerSaved m lr sp).load (callEntry c m.active op) := by
  obtain ⟨hactive, hstate, -⟩ := saveRegs_fields m lr sp
  unfold callhandler callsetup at h
  split at h
  · cases h
  simp only [Machine.active_storeAll, Machine.active_setState, hactive, hstate] at h
  cases h
  exact load_pushCallFrame ..

/-! ## Section 3: Offsets and slots -/

/-- The subtraction of the two reserved slots is unsigned: their halves select words far
behind the end of any table. -/
theorem callIndex_lt_iff {op : Word} {n : ℕ} (hn : n ≤ 2 ^ 30) :
    (callIndex op).toNat < n ↔ 8 ≤ op.toNat ∧ op.toNat < 8 + 4 * n := by
  have hop := op.isLt
  have hquot : (op / 4).toNat = op.toNat / 4 := BitVec.toNat_udiv ..
  unfold callIndex
  rw [BitVec.toNat_sub, hquot]
  change (2 ^ 32 - 2 + op.toNat / 4) % 2 ^ 32 < n ↔ _
  omega

/-- A slot of a table selects its entry. -/
theorem load_entry {t : Table} {m : Machine μ} {a slot : Word} (hat : t.At m a)
    (hslot : slot.toNat < t.entries.length) : m.load (a + 4 * slot) ∈ t.entries := by
  have hentry := hat slot.toNat hslot
  rw [BitVec.ofNat_toNat, BitVec.setWidth_eq] at hentry
  rw [hentry]
  exact List.getElem_mem hslot

/-- A call of a box that the range test lets through goes to sys, at the word its offset
selects. This is an entry of the table if and only if the offset is one of the table's. -/
theorem dispatch_iff {c : Config μ} {m : Machine μ} {lr sp : Word} (sysTable : Table)
    (hbox : m.active ≠ 0) (hrange : ¬ c.count < m.active)
    (hbranch : branchOf c (m.load (sp + 24)) = .call) :
    ∃ exc excsp m', mpuHandler c m lr sp = .resume exc excsp m' ∧ m'.active = 0 ∧
      m'.load (excsp + 24) = (callerSaved m lr sp).load (c.sysJumptables (m.active - 1) +
        4 * callSlot c m.active (m.load (sp + 24) - c.callregion)) ∧
      ((callSlot c m.active (m.load (sp + 24) - c.callregion)).toNat < sysTable.entries.length ↔
        8 ≤ (m.load (sp + 24) - c.callregion).toNat ∧
          (m.load (sp + 24) - c.callregion).toNat < 8 + 4 * sysTable.entries.length) := by
  rw [mpuHandler_call hbranch]
  generalize m.load (sp + 24) - c.callregion = op
  rcases callhandler_cases c m lr sp op with hwild | ⟨exc, excsp, m', hresume⟩
  · -- the record of the active domain exists
    unfold callhandler callsetup at hwild
    rw [(saveRegs_fields m lr sp).1, if_neg hrange] at hwild
    cases hwild
  have hspec := callSpec_of_callhandler (callTarget_ne c _ _) hresume
  refine ⟨exc, excsp, m', hresume, ?_, ?_, ?_⟩
  · rw [hspec.active, callTarget, if_neg hbox]
  · rw [load_pc_of_callhandler hresume, callEntry, callTable, if_neg hbox]
  · rw [callSlot, if_neg hbox]
    exact callIndex_lt_iff sysTable.fits

/-- Calls of a box with an offset of its table go to an entry of it. -/
theorem targetpc_mem {c : Config μ} {m m' : Machine μ} {lr sp op exc excsp : Word} {t : Table}
    (hbox : m.active ≠ 0) (hat : t.At (callerSaved m lr sp) (c.sysJumptables (m.active - 1)))
    (hlow : 8 ≤ op.toNat) (hhigh : op.toNat < 8 + 4 * t.entries.length)
    (h : callhandler c m lr sp op = .resume exc excsp m') : m'.load (excsp + 24) ∈ t.entries := by
  rw [load_pc_of_callhandler h, callEntry, callTable, callSlot, if_neg hbox, if_neg hbox]
  apply load_entry hat
  exact (callIndex_lt_iff t.fits).mpr ⟨hlow, hhigh⟩

/-! ## Section 4: The halves of the reserved slots -/

/-- The box runs, called by sys, and calls the second entry of its table. -/
def oneBoxFlushing : Machine Unit := oneBoxCalled.store 0x20d18 0x100c

/-- The box has branched to the upper half of the return slot instead. -/
def oneBoxStray : Machine Unit := oneBoxCalled.store 0x20d18 0x1002

/-- The entries `__box_write` and `__box_flush` -/
def oneBoxSysTable : Table := ⟨[0x8001, 0x8101], by decide⟩

theorem oneBoxFlushing_dispatch : ∃ exc excsp m',
    mpuHandler oneBox oneBoxFlushing 0xfffffffd 0x20d00 = .resume exc excsp m' ∧
      m'.active = 0 ∧
      m'.load (excsp + 24) = (callerSaved oneBoxFlushing 0xfffffffd 0x20d00).load
        (oneBox.sysJumptables (oneBoxFlushing.active - 1) + 4 * callSlot oneBox
          oneBoxFlushing.active (oneBoxFlushing.load (0x20d00 + 24) - oneBox.callregion)) ∧
      ((callSlot oneBox oneBoxFlushing.active
          (oneBoxFlushing.load (0x20d00 + 24) - oneBox.callregion)).toNat <
            oneBoxSysTable.entries.length ↔
        8 ≤ (oneBoxFlushing.load (0x20d00 + 24) - oneBox.callregion).toNat ∧
          (oneBoxFlushing.load (0x20d00 + 24) - oneBox.callregion).toNat <
            8 + 4 * oneBoxSysTable.entries.length) :=
  dispatch_iff oneBoxSysTable (by decide +kernel) (by decide +kernel) (by decide +kernel)

/-- The branch is passed to the call path, and selects the second word in front of the table. -/
theorem oneBoxStray_dispatch :
    branchOf oneBox (oneBoxStray.load (0x20d00 + 24)) = .call ∧
      oneBoxStray.active = 1 ∧
      callSlot oneBox 1 (oneBoxStray.load (0x20d00 + 24) - oneBox.callregion) = 0xfffffffe ∧
      callEntry oneBox 1 (oneBoxStray.load (0x20d00 + 24) - oneBox.callregion) =
        oneBox.sysJumptables 0 - 8 ∧
      ∀ t : Table, ¬ (callSlot oneBox 1
        (oneBoxStray.load (0x20d00 + 24) - oneBox.callregion)).toNat < t.entries.length := by
  have hslot : callSlot oneBox 1 (oneBoxStray.load (0x20d00 + 24) - oneBox.callregion) =
      0xfffffffe := by decide +kernel
  refine ⟨by decide +kernel, by decide +kernel, hslot, by decide +kernel, fun t => ?_⟩
  have hfits := t.fits
  rw [hslot]
  change ¬ 4294967294 < _
  omega

end BentoLinker.Mpu
