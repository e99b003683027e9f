import BentoLinker.Runtimes.AwsmMemory
import Mathlib.Tactic.ByContra

/-!
# Function Table of aWsm

The table of functions that a module calls indirectly, in `awsm.py`. The size of the table is
configured in bytes, and the linker script reserves that many (`__table_min`); the accessors take it
for a number of entries.

- `getFunctionFromTable`, `addFunctionToTable`, `clearTable`: the accessors, with the bytes that
  they touch
- `Call.Inside`: what an accessor may do
- `table_iff`: which calls do it
-/

namespace BentoLinker.Runtimes.AwsmTable

abbrev Word := AwsmMemory.Word

/-! ## Section 1: Accessors -/

/-- `struct table_entry` -/
structure TableEntry where
  typeId : Word
  funcPtr : Word
  deriving DecidableEq, Repr

/-- `sizeof(struct table_entry)` -/
def sizeofTableEntry : ℕ := 8

/-- `__table`, as entries from its start on -/
abbrev Table := ℕ → TableEntry

/-- A call of an accessor: the bytes it touches, from the start of the table on, and what it
returns, unless it aborts -/
structure Call (α : Type) where
  off : ℕ
  size : ℕ
  result : Option α
  deriving DecidableEq, Repr

/-- `__box_abort(-EFAULT)` in front of any access -/
def Call.abort {α : Type} : Call α := ⟨0, 0, none⟩

/-- The entry at `idx`; addresses have 32 bits -/
def entryOffset (idx : Word) : ℕ := idx.toNat * sizeofTableEntry % 2 ^ 32

/-- `get_function_from_table` -/
def getFunctionFromTable (tableCount : ℕ) (table : Table) (idx typeId : Word) : Call Word :=
  if tableCount ≤ idx.toNat then .abort
  else
    let f := table (entryOffset idx / sizeofTableEntry)
    ⟨entryOffset idx, sizeofTableEntry,
      if f.typeId ≠ typeId ∨ f.funcPtr = 0 then none else some f.funcPtr⟩

/-- `add_function_to_table` -/
def addFunctionToTable (tableCount : ℕ) (table : Table) (idx typeId funcPtr : Word) : Call Table :=
  if tableCount ≤ idx.toNat then .abort
  else ⟨entryOffset idx, sizeofTableEntry, some fun i =>
    if i = entryOffset idx / sizeofTableEntry then ⟨typeId, funcPtr⟩ else table i⟩

/-- `clear_table`; the product is a `size_t` -/
def clearTable (tableCount : ℕ) (table : Table) : Call Table :=
  let size := tableCount * sizeofTableEntry % 2 ^ 32
  ⟨0, size, some fun i => if i < size / sizeofTableEntry then ⟨0, 0⟩ else table i⟩

/-- `TABLE_COUNT`, which `box` sets to the size of the section in bytes -/
def tableCount (tableMin : ℕ) : ℕ := tableMin

/-! ## Section 2: The section -/

/-- What a call touches is in the `__table_min` bytes of the section. -/
def Call.Inside {α : Type} (tableMin : ℕ) (call : Call α) : Prop :=
  call.size = 0 ∨ call.off + call.size ≤ tableMin

/-- The entry at `idx` is in the section. -/
def HasEntry (tableMin : ℕ) (idx : Word) : Prop :=
  idx.toNat * sizeofTableEntry + sizeofTableEntry ≤ tableMin

/-- A call for one entry stays in the section, and aborts if the section does not have it. -/
structure Call.Guarded {α : Type} (tableMin : ℕ) (idx : Word) (call : Call α) : Prop where
  inside : call.Inside tableMin
  outside : ¬HasEntry tableMin idx → call = .abort

/-- The section has the entry, or `TABLE_COUNT` does not count it. -/
def EntryFits (tableMin : ℕ) (idx : Word) : Prop := HasEntry tableMin idx ∨ tableMin ≤ idx.toNat

theorem entryOffset_le (idx : Word) : entryOffset idx ≤ idx.toNat * sizeofTableEntry :=
  Nat.mod_le _ _

/-- An accessor that aborts behind the count, and touches an entry before it -/
theorem guarded_iff {α : Type} {tableMin : ℕ} {idx : Word} {call : Call α}
    (habort : tableMin ≤ idx.toNat → call = .abort)
    (hentry : idx.toNat < tableMin →
      call.off = entryOffset idx ∧ call.size = sizeofTableEntry) :
    call.Guarded tableMin idx ↔ EntryFits tableMin idx := by
  rcases Nat.lt_or_ge idx.toNat tableMin with hlt | hle
  · obtain ⟨hoff, hsize⟩ := hentry hlt
    constructor
    · intro hguarded
      by_contra hfits
      have hcall := hguarded.outside fun hhas => hfits (.inl hhas)
      rw [hcall] at hsize
      cases hsize
    · rintro (hhas | hle)
      · refine ⟨.inr ?_, fun hnot => absurd hhas hnot⟩
        have hoffset := entryOffset_le idx
        unfold HasEntry at hhas
        omega
      · omega
  · exact ⟨fun _ => .inr hle, fun _ => ⟨.inl (by rw [habort hle]; rfl), fun _ => habort hle⟩⟩

/-- The accessors of one entry are guarded exactly for the entries of the section and for what is
not counted as one, and clearing the table stays in the section only if the section is empty or the
product wraps around. -/
theorem table_iff (tableMin : ℕ) (table : Table) :
    (∀ idx typeId, (getFunctionFromTable (tableCount tableMin) table idx typeId).Guarded
      tableMin idx ↔ EntryFits tableMin idx) ∧
    (∀ idx typeId funcPtr,
      (addFunctionToTable (tableCount tableMin) table idx typeId funcPtr).Guarded tableMin idx ↔
        EntryFits tableMin idx) ∧
    ((clearTable (tableCount tableMin) table).Inside tableMin ↔
      tableMin * sizeofTableEntry % 2 ^ 32 ≤ tableMin) := by
  refine ⟨fun idx typeId => ?_, fun idx typeId funcPtr => ?_, ?_⟩
  · apply guarded_iff
    · intro hle
      rw [getFunctionFromTable, tableCount, if_pos hle]
    · intro hlt
      rw [getFunctionFromTable, tableCount, if_neg (by omega)]
      exact ⟨rfl, rfl⟩
  · apply guarded_iff
    · intro hle
      rw [addFunctionToTable, tableCount, if_pos hle]
    · intro hlt
      rw [addFunctionToTable, tableCount, if_neg (by omega)]
      exact ⟨rfl, rfl⟩
  · change tableMin * sizeofTableEntry % 2 ^ 32 = 0 ∨
      0 + tableMin * sizeofTableEntry % 2 ^ 32 ≤ tableMin ↔ _
    rw [Nat.zero_add]
    constructor
    · rintro (hzero | hle)
      · rw [hzero]
        exact Nat.zero_le _
      · exact hle
    · exact .inr

/-- In the default table of 512 bytes, the entry behind the last one is not refused. -/
theorem not_guarded : ¬∀ (tableMin : ℕ) (table : Table),
    (∀ idx typeId, (getFunctionFromTable (tableCount tableMin) table idx typeId).Guarded
      tableMin idx) ∧
    (∀ idx typeId funcPtr,
      (addFunctionToTable (tableCount tableMin) table idx typeId funcPtr).Guarded tableMin idx) ∧
    (clearTable (tableCount tableMin) table).Inside tableMin := by
  intro hclaim
  have hguarded := (hclaim 512 fun _ => ⟨0, 0⟩).2.1 64 0 0
  have hcall := hguarded.outside (by unfold HasEntry; decide)
  exact absurd (congrArg Call.size hcall) (by decide)

end BentoLinker.Runtimes.AwsmTable
