import BentoLinker.Linker.Resolve
import BentoLinker.Mpu.CallRegion

/-!
# Numbers of Calls

A call across boxes is a number, the offset of its address in the call region. The linker scripts
compute it from the imports of the caller, `__box_callsetup` takes it apart, and the jumptables
are laid out by the exports of the callee.

- `parentimports`, `parentexports`, `imports`, `exports`: the functions that need linking
- `jumptable`, `sysJumptable`: what the jumptables hold
- `called`, `sysCalled`: the entry that a number selects
- `Agree`: every number selects the function it has been given out for
- `agree_iff`: that is so if and only if the linked functions are the first of the tables

Boxes are equal if their names are. A box has another name than the box above its parent, so that
imports of the latter do not count as its own.
-/

namespace BentoLinker.Mpu

open Linker

/-! ## Section 1: Functions that need linking -/

/-- What an entry of a jumptable holds, or an import is linked to -/
inductive Callee where
  /-- `&__stack_end` -/
  | stackEnd
  /-- `__box_init` -/
  | init
  /-- `__box_write` of the parent, for a box -/
  | write
  /-- `__box_flush` of the parent, for a box -/
  | flush
  /-- the function of a box, or its wrapper -/
  | fn (link : Link)
  deriving DecidableEq

/-- A symbol of a linker script that stands for a call -/
structure Call where
  falible : Bool
  callee : Callee
  deriving DecidableEq

/-- An import that is linked -/
def Call.ofImport (import_ : Fn) (link : Link) : Call := ⟨import_.isfalible, .fn link⟩

/-- The imports of the parent that are linked to the box -/
def parentCalls (parent box : Linker.Linked) : List Call :=
  parent.imports.filterMap fun entry =>
    (entry.2.filter fun link => link.box = box.box.name).map (Call.ofImport entry.1)

/-- `_parentimports` -/
def parentimports (parent box : Linker.Linked) : List Call :=
  -- implicit imports
  ⟨true, .init⟩ :: parentCalls parent box

/-- The names of the boxes whose imports are linked to an export of the parent -/
def linkedBoxes (parent : Linker.Linked) (export_ : Fn) : List String :=
  ((parent :: parent.boxes).filter fun box =>
    box.imports.any fun entry => entry.2 = some ⟨parent.box.name, export_⟩).map fun box =>
      box.box.name

/-- The exports of the parent that imports of the box are linked to -/
def linkedExports (parent box : Linker.Linked) : List Callee :=
  (parent.exports.filter fun export_ => box.box.name ∈ linkedBoxes parent export_).map
    fun export_ => .fn ⟨parent.box.name, export_⟩

/-- `_parentexports` -/
def parentexports (parent box : Linker.Linked) : List Callee :=
  -- implicit exports
  .write :: .flush :: linkedExports parent box

/-- The imports of the box that are linked to other boxes -/
def boxCalls (box : Linker.Linked) : List Call :=
  box.imports.filterMap fun entry =>
    (entry.2.filter fun link => link.box ≠ box.box.name).map (Call.ofImport entry.1)

/-- `_imports` -/
def imports (box : Linker.Linked) : List Call :=
  -- implicit imports
  ⟨true, .write⟩ :: ⟨true, .flush⟩ :: boxCalls box

/-- The exports of the box that are not for the box alone -/
def publicExports (box : Linker.Linked) : List Callee :=
  (box.exports.filter fun export_ => export_.scope ≠ some box.box.name).map
    fun export_ => .fn ⟨box.box.name, export_⟩

/-- `_exports` -/
def exports (box : Linker.Linked) : List Callee :=
  -- implicit exports
  .init :: publicExports box

/-! ## Section 2: Numbers -/

/-- The boxes of the parent with a runtime, those that `__BOX_COUNT` counts -/
def runtimeBoxes (runtime : String) (parent : Linker.Linked) : List Linker.Linked :=
  parent.boxes.filter fun box => box.box.runtime = runtime

/-- `build_c`: `__box_jumptable` -/
def jumptable (box : Linker.Linked) : List Callee :=
  if 0 < box.box.stackSize then .stackEnd :: exports box else exports box

/-- `build_parent_c`: `__box_X_sys_jumptable` -/
def sysJumptable (parent box : Linker.Linked) : List Callee := parentexports parent box

/-- `build_parent_ld_epilogue`: the address of import `j` that is linked to box `i` -/
def parentAddress (callregion boxcount i j : ℕ) (call : Call) : ℕ :=
  callAddress callregion (2 + boxcount * j + i) call.falible

/-- `build_ld`: the address of import `i` -/
def boxAddress (callregion i : ℕ) (call : Call) : ℕ :=
  callAddress callregion (2 + i) call.falible

/-- What `__box_mpu_handler` makes of a branch to an address, whose lowest bit is not part of the
program counter -/
def callOp (callregion address : ℕ) : ℕ := address - 1 - callregion

/-- The box a call of sys goes to -/
def opBox (boxcount op : ℕ) : ℕ := (op / 4 - 2) % boxcount + 1

/-- The entry of its jumptable -/
def opSlot (boxcount op : ℕ) : ℕ := (op / 4 - 2) / boxcount + 1

/-- The entry that `__box_callsetup` selects for a call of sys -/
def called (runtime : String) (parent : Linker.Linked) (op : ℕ) : Option Callee :=
  let boxes := runtimeBoxes runtime parent
  boxes[opBox boxes.length op - 1]?.bind fun box => (jumptable box)[opSlot boxes.length op]?

/-- The entry that `__box_callsetup` selects for a call of a box -/
def sysCalled (runtime : String) (parent : Linker.Linked) (caller op : ℕ) : Option Callee :=
  (runtimeBoxes runtime parent)[caller - 1]?.bind fun box =>
    (sysJumptable parent box)[op / 4 - 2]?

theorem toNat_callIndex {op : Word} (hop : 8 ≤ op.toNat) :
    (callIndex op).toNat = op.toNat / 4 - 2 := by
  unfold callIndex
  rw [BitVec.toNat_sub_of_le]
  · simp
  · rw [BitVec.le_def, BitVec.toNat_udiv]
    exact (Nat.le_div_iff_mul_le (by decide)).mpr hop

/-- The handlers take numbers apart as above. -/
theorem toNat_callTarget {μ : Type} {c : Config μ} (hcount : c.count ≠ 0) {op : Word}
    (hop : 8 ≤ op.toNat) : (callTarget c 0 op).toNat = opBox c.count.toNat op.toNat := by
  have hpos : 0 < c.count.toNat := by
    rw [Nat.pos_iff_ne_zero]
    intro hzero
    exact hcount (BitVec.eq_of_toNat_eq hzero)
  have hlt := Nat.mod_lt (op.toNat / 4 - 2) hpos
  unfold callTarget opBox
  rw [if_pos rfl, BitVec.toNat_add, BitVec.toNat_umod, toNat_callIndex hop]
  exact Nat.mod_eq_of_lt (by simp; omega)

theorem toNat_callSlot {μ : Type} (c : Config μ) {op : Word} (hop : 8 ≤ op.toNat) :
    (callSlot c 0 op).toNat = opSlot c.count.toNat op.toNat := by
  have hle := Nat.div_le_self (op.toNat / 4 - 2) c.count.toNat
  unfold callSlot opSlot
  rw [if_pos rfl, BitVec.toNat_add, BitVec.toNat_udiv, toNat_callIndex hop]
  exact Nat.mod_eq_of_lt (by simp; omega)

/-! ## Section 3: Agreement -/

/-- Every number that is given out for a linked import selects the function the import is linked
to. -/
structure Agree (runtime : String) (parent : Linker.Linked) (callregion : ℕ) : Prop where
  calls : ∀ i box, (runtimeBoxes runtime parent)[i]? = some box →
    ∀ j call link, (parentimports parent box)[j]? = some call → call.callee = .fn link →
      called runtime parent (callOp callregion
        (parentAddress callregion (runtimeBoxes runtime parent).length i j call)) =
          some (.fn link)
  sysCalls : ∀ i box, (runtimeBoxes runtime parent)[i]? = some box →
    ∀ j call, (imports box)[j]? = some call →
      sysCalled runtime parent (i + 1) (callOp callregion (boxAddress callregion j call)) =
        some call.callee

/-- The exports that are numbered: without a stack the first one gets the number of
`__box_init`. -/
def numbered (box : Linker.Linked) : List Callee :=
  if 0 < box.box.stackSize then publicExports box else (publicExports box).tail

/-- The functions that are linked are the first ones of the tables, in the order of the imports,
and none is imported twice. -/
structure InOrder (parent box : Linker.Linked) : Prop where
  calls : (parentCalls parent box).map Call.callee <+: numbered box
  sysCalls : (boxCalls box).map Call.callee <+: linkedExports parent box

theorem callOp_callAddress (callregion slot : ℕ) (falible : Bool) :
    callOp callregion (callAddress callregion slot falible) / 4 = slot := by
  unfold callOp callAddress
  cases falible with
  | false => rw [Bool.toNat_false]; omega
  | true => rw [Bool.toNat_true]; omega

theorem drop_jumptable (box : Linker.Linked) : (jumptable box).drop 2 = numbered box := by
  unfold jumptable numbered exports
  split
  · rfl
  · exact List.drop_one

/-- The entry behind the number of import `j` that is linked to box `i` -/
theorem called_parentAddress {runtime : String} {parent box : Linker.Linked} {i : ℕ}
    (hbox : (runtimeBoxes runtime parent)[i]? = some box) (callregion j : ℕ) (call : Call) :
    called runtime parent (callOp callregion
      (parentAddress callregion (runtimeBoxes runtime parent).length i j call)) =
        (jumptable box)[j + 1]? := by
  have hlt : i < (runtimeBoxes runtime parent).length := (List.getElem?_eq_some_iff.mp hbox).1
  generalize hN : (runtimeBoxes runtime parent).length = boxcount at hlt
  have hindex : callOp callregion (parentAddress callregion boxcount i j call) / 4 - 2 =
      i + boxcount * j := by
    unfold parentAddress
    rw [callOp_callAddress]
    omega
  have hopBox : opBox boxcount (callOp callregion
      (parentAddress callregion boxcount i j call)) = i + 1 := by
    unfold opBox
    rw [hindex, Nat.add_mul_mod_self_left, Nat.mod_eq_of_lt hlt]
  have hopSlot : opSlot boxcount (callOp callregion
      (parentAddress callregion boxcount i j call)) = j + 1 := by
    unfold opSlot
    rw [hindex, Nat.add_mul_div_left _ _ (Nat.zero_lt_of_lt hlt), Nat.div_eq_of_lt hlt,
      Nat.zero_add]
  unfold called
  dsimp only
  rw [hN, hopBox, hopSlot, Nat.add_sub_cancel, hbox]
  rfl

/-- The entry behind the number of import `j` of box `i` -/
theorem sysCalled_boxAddress {runtime : String} {parent box : Linker.Linked} {i : ℕ}
    (hbox : (runtimeBoxes runtime parent)[i]? = some box) (callregion j : ℕ) (call : Call) :
    sysCalled runtime parent (i + 1) (callOp callregion (boxAddress callregion j call)) =
      (sysJumptable parent box)[j]? := by
  unfold sysCalled boxAddress
  rw [callOp_callAddress, Nat.add_sub_cancel, Nat.add_sub_cancel_left, hbox]
  rfl

/-- Imports that are linked are linked to functions. -/
theorem exists_callee_of_mem {p : Link → Bool} {imports : List (Fn × Option Link)} {call : Call}
    (h : call ∈ imports.filterMap fun entry =>
      (entry.2.filter p).map (Call.ofImport entry.1)) : ∃ link, call.callee = .fn link := by
  obtain ⟨entry, -, hcall⟩ := List.mem_filterMap.mp h
  obtain ⟨link, -, rfl⟩ := Option.map_eq_some_iff.mp hcall
  exact ⟨link, rfl⟩

theorem map_callee_prefix_iff {calls : List Call} {table : List Callee} :
    calls.map Call.callee <+: table ↔
      ∀ (j : ℕ) (call : Call), calls[j]? = some call → table[j]? = some call.callee := by
  rw [List.prefix_iff_getElem?]
  constructor
  · intro h j call hcall
    obtain ⟨hj, rfl⟩ := List.getElem?_eq_some_iff.mp hcall
    rw [h j (by rwa [List.length_map]), List.getElem_map]
  · intro h j hj
    rw [List.getElem_map]
    apply h
    exact List.getElem?_eq_getElem _

/-- Numbers agree with functions if and only if the linked functions of each box, in the order in
which they are imported, are the first ones of its jumptable. -/
theorem agree_iff (runtime : String) (parent : Linker.Linked) (callregion : ℕ) :
    Agree runtime parent callregion ↔
      ∀ box ∈ runtimeBoxes runtime parent, InOrder parent box := by
  constructor
  · intro hagree box hmem
    obtain ⟨i, hbox⟩ := List.mem_iff_getElem?.mp hmem
    constructor
    · rw [map_callee_prefix_iff]
      intro j call hcall
      obtain ⟨link, hlink⟩ := exists_callee_of_mem (List.mem_of_getElem? hcall)
      have hcalled := hagree.calls i box hbox (j + 1) call link hcall hlink
      rw [called_parentAddress hbox] at hcalled
      rw [← drop_jumptable, List.getElem?_drop, Nat.add_comm 2 j, hlink]
      exact hcalled
    · rw [map_callee_prefix_iff]
      intro j call hcall
      have hcalled := hagree.sysCalls i box hbox (j + 2) call hcall
      rw [sysCalled_boxAddress hbox] at hcalled
      exact hcalled
  · intro horder
    constructor
    · intro i box hbox j call link hcall hlink
      rw [called_parentAddress hbox]
      cases j with
      | zero =>
        -- the hook after init is no import of the parent
        cases hcall
        cases hlink
      | succ j =>
        have hprefix := (horder box (List.mem_of_getElem? hbox)).calls
        rw [map_callee_prefix_iff] at hprefix
        have hcalled := hprefix j call hcall
        rw [← drop_jumptable, List.getElem?_drop, Nat.add_comm 2 j, hlink] at hcalled
        exact hcalled
    · intro i box hbox j call hcall
      rw [sysCalled_boxAddress hbox]
      match j, hcall with
      | 0, hcall =>
        cases hcall
        rfl
      | 1, hcall =>
        cases hcall
        rfl
      | j + 2, hcall =>
        have hprefix := (horder box (List.mem_of_getElem? hbox)).sysCalls
        rw [map_callee_prefix_iff] at hprefix
        exact hprefix j call hcall

/-- A function without arguments, as a box exports it -/
def plainExport (name : String) : Fn where
  name
  scope := none
  source := "a"
  alias_ := name
  weak := false
  noreturn := false
  preboundargs := []
  rets := [Arg.value .i32 none]
  boundargs := []
  ispostbound := true
  bound_nodup := nodup_noBound

/-- Its import -/
def plainImport (name : String) : Fn :=
  { plainExport name with source := "sys", ispostbound := false }

/-- A box with two functions, the second of which is imported -/
def secondOfTwo : Tree :=
  .node ⟨"sys", "armv7m_sys", 0, [plainImport "g"], []⟩
    [.node ⟨"a", "armv7m_mpu", 1024, [], [plainExport "f", plainExport "g"]⟩ []]

def secondLinked : Linker.Linked :=
  .node ⟨"sys", "armv7m_sys", 0, [plainImport "g"], []⟩ []
    [(plainImport "g", some ⟨"a", plainExport "g"⟩)]
    [.node ⟨"a", "armv7m_mpu", 1024, [], [plainExport "f", plainExport "g"]⟩
      [plainExport "f", plainExport "g"] [] []]

/-- The number of the second function selects the first one. -/
theorem second_calls_first :
    secondOfTwo.link [] = .ok secondLinked ∧
      called "armv7m_mpu" secondLinked (callOp 0x2000
        (parentAddress 0x2000 1 0 1 (.ofImport (plainImport "g") ⟨"a", plainExport "g"⟩))) =
          some (.fn ⟨"a", plainExport "f"⟩) ∧
      ¬Agree "armv7m_mpu" secondLinked 0x2000 := by
  refine ⟨by rfl, by decide +kernel, ?_⟩
  intro hagree
  have hcalled := hagree.calls 0 _ rfl 1 _ ⟨"a", plainExport "g"⟩ rfl rfl
  exact absurd hcalled (by decide +kernel)

end BentoLinker.Mpu
