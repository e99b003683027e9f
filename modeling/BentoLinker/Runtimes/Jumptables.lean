import BentoLinker.Runtimes.Calls

/-!
# Jumptables

The tables through which a parent and a box call each other in the runtimes without memory
protection, `jumptable` and `awsm`.

- `Setting.exportjumptable`, `parentexports`: the tables
- `Setting.parentSide`, `Setting.boxSide`: the two directions of calls
- `Setting.Fits`: what recipes must keep to
- `tables_deliver_iff`: calls are delivered just if they do
-/

namespace BentoLinker.Runtimes

open Linker

/-! ## Section 1: Tables -/

inductive TableRuntime where
  | jumptable
  | awsm
  deriving Repr, DecidableEq

/-- `__argname__` -/
def TableRuntime.argname : TableRuntime → String
  | jumptable => "jumptable"
  | awsm => "awsm"

/-- What holds for a box, apart from its functions -/
structure Setting where
  kind : TableRuntime
  /-- `_abort_hook.link` -/
  abortLinked : Bool
  /-- `_no_longjmp` -/
  noLongjmp : Bool
  /-- the address of `__memory` -/
  memory : ℤ
  memory_pos : 0 < memory
  memory_lt : memory < 2 ^ 32

/-- `__box_<box>_push` -/
def pushImport (box : String) : Fn where
  name := "__box_" ++ box ++ "_push"
  scope := none
  source := "awsm"
  alias_ := "__box_" ++ box ++ "_push"
  weak := false
  noreturn := false
  preboundargs := [Arg.value .usize none]
  rets := [{ Arg.value .u8 none with ismut := true, ptr := true }]
  boundargs := []
  ispostbound := false
  bound_nodup := nodup_noBound

/-- `__box_<box>_pop` -/
def popImport (box : String) : Fn where
  name := "__box_" ++ box ++ "_pop"
  scope := none
  source := "awsm"
  alias_ := "__box_" ++ box ++ "_pop"
  weak := false
  noreturn := false
  preboundargs := [Arg.value .usize none]
  rets := []
  boundargs := []
  ispostbound := false
  bound_nodup := nodup_noBound

def abortImport (source : String) : Fn where
  name := "__box_abort"
  scope := none
  source
  alias_ := "__box_abort"
  weak := false
  noreturn := true
  preboundargs := [Arg.value .err none]
  rets := []
  boundargs := []
  ispostbound := false
  bound_nodup := nodup_noBound

/-- `_parentexports`, which is also the table `__box_<box>_importjumptable` -/
def parentexports (parent box : Linked) : List (Entry × Bool) :=
  -- implicit exports
  [(.abort, false), (.write, false), (.flush, false)] ++
    (exportsTo parent box).map fun export_ =>
      (.fn ⟨parent.box.name, export_⟩, !export_.boundargs.isEmpty)

namespace Setting

variable (s : Setting)

/-- The implicit imports of the parent -/
def implicitImports (box : Linked) : List (Fn × Entry) :=
  match s.kind with
  | .jumptable => [(postinitImport s.kind.argname box.box.name, .init)]
  | .awsm => [(postinitImport s.kind.argname box.box.name, .init),
      (pushImport box.box.name, .push), (popImport box.box.name, .pop)]

/-- `_imports` -/
def imports (box : Linked) : List (Fn × Entry) :=
  -- implicit imports
  [(abortImport s.kind.argname, .abort), (writeImport s.kind.argname, .write),
    (flushImport s.kind.argname, .flush)] ++ (boxLinks box).map target

/-- `_parentimports` -/
def parentimports (parent box : Linked) : List (Fn × Entry) :=
  s.implicitImports box ++ (parentLinks parent box).map target

/-- `needswrapper`, for the exports of a box -/
def needswrapper (export_ : Fn) : Bool :=
  !export_.boundargs.isEmpty || (s.kind = .awsm && export_.args.any Arg.isptr)

/-- `_exports` -/
def exports (box : Linked) : List (Entry × Bool) :=
  -- implicit exports
  (.init, false) :: (publics box).map fun export_ =>
    (.fn ⟨box.box.name, export_⟩, s.needswrapper export_)

/-- `build_c`: `__box_exportjumptable` -/
def exportjumptable (box : Linked) : List (Entry × Bool) :=
  match s.kind with
  | .jumptable => (if 0 < box.box.stackSize then [(.stackEnd, false)] else []) ++ s.exports box
  -- stack operations follow init
  | .awsm => (s.exports box).take 1 ++ [(.push, false), (.pop, false)] ++ (s.exports box).drop 1

/-- The index of the entry that the wrapper of import `i` of the parent calls -/
def parentSlot (box : Linked) (i : ℕ) : ℕ :=
  match s.kind with
  | .jumptable => if 0 < box.box.stackSize then i + 1 else i
  | .awsm => i

/-- Whether a declaration of the export stands in the file of the box -/
def declares (box : Linked) (export_ : Fn) : Bool :=
  s.kind = .awsm || export_.source = box.box.name

/-- Whether the wrapper of an import catches aborts -/
def setjmp (import_ : Fn) : Bool := import_.isfalible && !s.abortLinked && !s.noLongjmp

/-- Values that a box knows by their offset in its memory -/
def moved (arg : Arg) : Bool := s.kind = .awsm && arg.isptr

/-- `to_ptr`, for pointers -/
def toPtr (arg : Arg) (v : ℤ) : ℤ := if s.moved arg then (s.memory + v) % 2 ^ 32 else v

/-- `from_ptr`, for pointers -/
def fromPtr (arg : Arg) (v : ℤ) : ℤ := if s.moved arg then (v - s.memory) % 2 ^ 32 else v

end Setting

/-! ## Section 2: Calls -/

/-- The results of the import that a wrapper was made for last -/
def lastRets (imports : List (Fn × Entry)) : Option (List Arg) :=
  imports.getLast?.map fun last => last.1.rets

namespace Setting

variable (s : Setting)

/-- Calls of the parent -/
def parentSide (parent box : Linked) : Side where
  imports := s.parentimports parent box
  table := s.exportjumptable box
  entry := fun i => (s.exportjumptable box)[s.parentSlot box i]?
  wraps := fun _ => true
  resolves := fun _ => true
  setjmp := s.setjmp
  declares := s.declares box
  prebound := true
  importJoins := false
  exportJoins := s.kind = .awsm
  importConvert := fun _ v => v
  exportConvert := s.fromPtr
  retConvert := s.toPtr
  stale := lastRets (s.imports box)

/-- Calls of the box -/
def boxSide (parent box : Linked) : Side where
  imports := s.imports box
  table := parentexports parent box
  entry := fun i => (parentexports parent box)[i]?
  wraps := fun _ => true
  resolves := fun _ => true
  setjmp := fun _ => false
  declares := fun export_ => export_.source = parent.box.name
  prebound := false
  importJoins := s.kind = .awsm
  exportJoins := false
  importConvert := s.toPtr
  exportConvert := fun _ v => v
  retConvert := s.fromPtr
  stale := lastRets (s.parentimports parent box)

/-- Both directions of calls deliver. -/
def Delivers (parent box : Linked) : Prop :=
  (s.parentSide parent box).Delivers ∧ (s.boxSide parent box).Delivers

end Setting

/-! ## Section 3: Layouts -/

/-- An implicit import has a wrapper. -/
theorem made_of_nil {side : Side} {import_ : Fn} (h : import_.boundargs = [])
    (hnames : import_.NamesFit (side.setjmp import_)) (hresolves : side.resolves import_ = true) :
    Made side.importJoins import_ (side.importGlue import_) ∧ side.resolves import_ = true :=
  Layout.importFits_iff.mp (importFits_of_nil h hnames hresolves)

namespace Setting

variable {s : Setting}

theorem toPtr_id {arg : Arg} (h : s.moved arg = false) (v : ℤ) : s.toPtr arg v = v := by
  rw [toPtr, h, if_neg Bool.false_ne_true]

theorem fromPtr_id {arg : Arg} (h : s.moved arg = false) (v : ℤ) : s.fromPtr arg v = v := by
  rw [fromPtr, h, if_neg Bool.false_ne_true]

theorem forall_toPtr_iff {ret : Arg} :
    (∀ r, (ret.isptr = true → 0 ≤ r ∧ r < 2 ^ 32) → s.toPtr ret r = r) ↔
      s.moved ret = false := by
  constructor
  · intro h
    by_contra hmoved
    have hzero := h 0 fun _ => ⟨le_rfl, by decide⟩
    rw [toPtr, if_pos (Bool.eq_true_of_not_eq_false hmoved), Int.add_zero,
      Int.emod_eq_of_lt (Int.le_of_lt s.memory_pos) s.memory_lt] at hzero
    exact absurd hzero (Int.ne_of_gt s.memory_pos)
  · exact fun h r _ => toPtr_id h r

theorem forall_fromPtr_iff {ret : Arg} :
    (∀ r, (ret.isptr = true → 0 ≤ r ∧ r < 2 ^ 32) → s.fromPtr ret r = r) ↔
      s.moved ret = false := by
  constructor
  · intro h
    by_contra hmoved
    have hpos := s.memory_pos
    have hlt := s.memory_lt
    have hzero := h 0 fun _ => ⟨le_rfl, by decide⟩
    rw [fromPtr, if_pos (Bool.eq_true_of_not_eq_false hmoved)] at hzero
    omega
  · exact fun h r _ => fromPtr_id h r

/-- Calls of the parent -/
def parentLayout (s : Setting) (parent box : Linked) : Layout (s.parentSide parent box) where
  front :=
    match s.kind with
    | .jumptable => if 0 < box.box.stackSize then [(.stackEnd, false)] else []
    | .awsm => []
  heads := s.implicitImports box
  links := parentLinks parent box
  exported := (publics box).map fun export_ => ⟨box.box.name, export_⟩
  needswrapper := s.needswrapper
  imports_eq := rfl
  table_eq := by
    change s.exportjumptable box = _
    rw [exportjumptable, implicitImports, List.map_map]
    cases s.kind with
    | jumptable => rfl
    | awsm => rfl
  entry_eq := by
    intro j _
    change (s.exportjumptable box)[s.parentSlot box j]? = (s.exportjumptable box)[_]?
    congr 1
    rw [parentSlot]
    cases s.kind with
    | jumptable =>
      dsimp only
      split_ifs
      · exact Nat.add_comm j 1
      · exact (Nat.zero_add j).symm
    | awsm => exact (Nat.zero_add j).symm
  front_fn := by
    cases s.kind with
    | jumptable =>
      dsimp only
      split_ifs
      · rintro entry (- | ⟨_, ⟨⟩⟩) link ⟨⟩
      · exact fun entry hentry => absurd hentry List.not_mem_nil
    | awsm => exact fun entry hentry => absurd hentry List.not_mem_nil
  heads_made := by
    rw [implicitImports]
    cases s.kind with
    | jumptable =>
      rw [List.forall_mem_singleton]
      exact fun _ => made_of_nil rfl (namesFit_of_nil rfl) rfl
    | awsm =>
      rw [List.forall_mem_cons, List.forall_mem_cons, List.forall_mem_singleton]
      exact ⟨fun _ => made_of_nil rfl (namesFit_of_nil rfl) rfl,
        fun _ => made_of_nil rfl (namesFit_of_nil rfl) rfl,
        fun _ => made_of_nil rfl (namesFit_of_nil rfl) rfl⟩
  heads_fn := by
    rw [implicitImports]
    cases s.kind with
    | jumptable => rintro head (- | ⟨_, ⟨⟩⟩) link ⟨⟩
    | awsm => rintro head (- | ⟨_, - | ⟨_, - | ⟨_, ⟨⟩⟩⟩⟩) link ⟨⟩
  direct := fun e hwraps => absurd hwraps.symm Bool.false_ne_true
  unwrapped := by
    intro export_ h
    rw [needswrapper, Bool.or_eq_false_iff, Bool.not_eq_false', List.isEmpty_iff] at h
    obtain ⟨hnil, hptrs⟩ := h
    refine ⟨hnil, fun arg harg v => fromPtr_id ?_ v⟩
    rw [moved]
    rw [args_of_nil hnil, Bool.and_eq_false_imp] at hptrs
    cases hkind : decide (s.kind = .awsm) with
    | false => rfl
    | true =>
      have hany := hptrs hkind
      rw [List.any_eq_false] at hany
      exact Bool.eq_false_of_not_eq_true (hany arg harg)

/-- Calls of the box -/
def boxLayout (s : Setting) (parent box : Linked) : Layout (s.boxSide parent box) where
  front := []
  heads := [(abortImport s.kind.argname, .abort), (writeImport s.kind.argname, .write),
    (flushImport s.kind.argname, .flush)]
  links := boxLinks box
  exported := (exportsTo parent box).map fun export_ => ⟨parent.box.name, export_⟩
  needswrapper := fun export_ => !export_.boundargs.isEmpty
  imports_eq := rfl
  table_eq := by
    change parentexports parent box = _
    rw [parentexports, List.map_map]
    rfl
  entry_eq := by
    intro j _
    change (parentexports parent box)[j]? = (parentexports parent box)[_]?
    rw [List.length_nil, Nat.zero_add]
  front_fn := Layout.noFront
  heads_made := by
    rw [List.forall_mem_cons, List.forall_mem_cons, List.forall_mem_singleton]
    exact ⟨fun _ => made_of_nil rfl (namesFit_of_nil rfl) rfl,
      fun _ => made_of_nil rfl (namesFit_write _) rfl,
      fun _ => made_of_nil rfl (namesFit_of_nil rfl) rfl⟩
  heads_fn := by rintro head (- | ⟨_, - | ⟨_, - | ⟨_, ⟨⟩⟩⟩⟩) link ⟨⟩
  direct := fun e hwraps => absurd hwraps.symm Bool.false_ne_true
  unwrapped := by
    intro export_ h
    rw [Bool.not_eq_false', List.isEmpty_iff] at h
    exact ⟨h, fun _ _ _ => rfl⟩

/-! ## Section 4: Both directions -/

/-- The names of an export fit where it is declared or has a wrapper, and no size is bound in a
wrapper. Constants are printed in the wrappers of the other runtime only. -/
structure ExportFits (declared wrapped joins : Bool) (export_ : Fn) : Prop where
  names : declared = true ∨ wrapped = true → export_.NamesFit false
  sizes : wrapped = true → export_.SizesFit
  printed : wrapped = true → joins = true → ∀ arg ∈ export_.preboundargs,
    (export_.bound? arg).isSome = true → arg.isptr = true

/-- An import has the arguments and the result of its export. -/
structure LinkFits (s : Setting) (wrapped : Bool) (stale : Option (List Arg))
    (import_ export_ : Fn) : Prop where
  count : import_.preboundargs.length = export_.postboundargs.length
  returns : import_.rets ≠ [] → ∃ ret ∈ export_.rets.head?,
    s.moved ret = false ∧ (wrapped = true → stale.getD [] ≠ [])

/-- When calls are delivered. The functions that are linked are the first ones of the tables, in
the order of the imports. -/
structure Fits (s : Setting) (parent box : Linked) : Prop where
  order : (parentLinks parent box).map Prod.snd <+:
    (publics box).map fun export_ => ⟨box.box.name, export_⟩
  sysOrder : (boxLinks box).map Prod.snd <+:
    (exportsTo parent box).map fun export_ => ⟨parent.box.name, export_⟩
  imports : ∀ e ∈ parentLinks parent box, e.1.NamesFit (s.setjmp e.1) ∧ e.1.SizesFit
  sysImports : ∀ e ∈ boxLinks box, e.1.NamesFit false ∧ e.1.boundargs = []
  exports : ∀ export_ ∈ publics box,
    ExportFits (s.declares box export_) (s.needswrapper export_) (s.kind = .awsm) export_
  sysExports : ∀ export_ ∈ exportsTo parent box,
    ExportFits (export_.source = parent.box.name) (!export_.boundargs.isEmpty) false export_
  links : ∀ e ∈ parentLinks parent box,
    s.LinkFits (s.needswrapper e.2.export_) (lastRets (s.imports box)) e.1 e.2.export_
  sysLinks : ∀ e ∈ boxLinks box,
    s.LinkFits (!e.2.export_.boundargs.isEmpty) (lastRets (s.parentimports parent box)) e.1
      e.2.export_

theorem exportFits_iff (side : Side) (declared wrapped : Bool) (export_ : Fn)
    (hstale : side.stale.isSome = true) :
    ExportFits declared wrapped side.exportJoins export_ ↔
      (declared = true → export_.NamesFit false) ∧
        (wrapped = true → Layout.ExportFits side export_) := by
  constructor
  · exact fun h => ⟨fun hdeclared => h.names (.inl hdeclared), fun hwrapped =>
      ⟨h.names (.inr hwrapped), h.sizes hwrapped,
        (printed_iff (h.names (.inr hwrapped))).mpr (h.printed hwrapped), hstale⟩⟩
  · rintro ⟨hdeclared, hwrapped⟩
    exact ⟨fun h => h.elim hdeclared fun h => (hwrapped h).names, fun h => (hwrapped h).sizes,
      fun h => (printed_iff (hwrapped h).names).mp (hwrapped h).printed⟩

theorem linkFits_iff (side : Side) (import_ export_ : Fn) (wrapped : Bool)
    (hret : ∀ ret : Arg, (∀ r, (ret.isptr = true → 0 ≤ r ∧ r < 2 ^ 32) →
      side.retConvert ret r = r) ↔ s.moved ret = false) :
    s.LinkFits wrapped side.stale import_ export_ ↔
      import_.preboundargs.length = export_.postboundargs.length ∧
        side.Returns import_ export_ wrapped := by
  have hreturns : side.Returns import_ export_ wrapped ↔
      (import_.rets ≠ [] → ∃ ret ∈ export_.rets.head?,
        s.moved ret = false ∧ (wrapped = true → side.stale.getD [] ≠ [])) := by
    rw [Layout.returns_iff]
    refine forall_congr' fun _ => exists_congr fun ret => and_congr_right fun _ => ?_
    rw [hret]
  rw [hreturns]
  exact ⟨fun h => ⟨h.count, h.returns⟩, fun h => ⟨h.1, h.2⟩⟩

theorem isSome_lastRets_imports (box : Linked) : (lastRets (s.imports box)).isSome = true := by
  rw [lastRets, Option.isSome_map, List.getLast?_isSome]
  exact List.cons_ne_nil _ _

theorem isSome_lastRets_parentimports (parent box : Linked) :
    (lastRets (s.parentimports parent box)).isSome = true := by
  rw [lastRets, Option.isSome_map, List.getLast?_isSome, parentimports, implicitImports]
  cases s.kind with
  | jumptable => exact List.cons_ne_nil _ _
  | awsm => exact List.cons_ne_nil _ _

theorem parentFits_iff {parent box : Linked} : (s.parentLayout parent box).Fits ↔
    (parentLinks parent box).map Prod.snd <+:
        (publics box).map (fun export_ => (⟨box.box.name, export_⟩ : Link)) ∧
      (∀ e ∈ parentLinks parent box, e.1.NamesFit (s.setjmp e.1) ∧ e.1.SizesFit) ∧
      (∀ export_ ∈ publics box, ExportFits (s.declares box export_) (s.needswrapper export_)
        (s.kind = .awsm) export_) ∧
      ∀ e ∈ parentLinks parent box,
        s.LinkFits (s.needswrapper e.2.export_) (lastRets (s.imports box)) e.1 e.2.export_ := by
  have hlink := fun e : Fn × Link => s.linkFits_iff (s.parentSide parent box) e.1 e.2.export_
    (s.needswrapper e.2.export_) fun _ => forall_toPtr_iff
  have hexport := fun export_ : Fn => exportFits_iff (s.parentSide parent box)
    (s.declares box export_) (s.needswrapper export_) export_ (isSome_lastRets_imports box)
  constructor
  · rintro ⟨horder, himports, hdeclares, hexports, hcounts, hreturns⟩
    refine ⟨horder, fun e he => ⟨(himports e he rfl).names, (himports e he rfl).sizes⟩,
      fun export_ hmem => ?_, fun e he => (hlink e).mpr ⟨hcounts e he, hreturns e he⟩⟩
    exact (hexport export_).mpr
      ⟨hdeclares _ (List.mem_map_of_mem hmem), hexports _ (List.mem_map_of_mem hmem)⟩
  · rintro ⟨horder, himports, hexports, hlinks⟩
    have hexported := fun export_ hmem => (hexport export_).mp (hexports export_ hmem)
    exact ⟨horder, fun e he _ => ⟨(himports e he).1, (himports e he).2, .inl rfl,
        fun h => absurd h Bool.false_ne_true, rfl⟩,
      List.forall_mem_map.mpr fun export_ hmem => (hexported export_ hmem).1,
      List.forall_mem_map.mpr fun export_ hmem => (hexported export_ hmem).2,
      fun e he => ((hlink e).mp (hlinks e he)).1, fun e he => ((hlink e).mp (hlinks e he)).2⟩

theorem boxFits_iff {parent box : Linked} : (s.boxLayout parent box).Fits ↔
    (boxLinks box).map Prod.snd <+:
        (exportsTo parent box).map (fun export_ => (⟨parent.box.name, export_⟩ : Link)) ∧
      (∀ e ∈ boxLinks box, e.1.NamesFit false ∧ e.1.boundargs = []) ∧
      (∀ export_ ∈ exportsTo parent box, ExportFits (export_.source = parent.box.name)
        (!export_.boundargs.isEmpty) false export_) ∧
      ∀ e ∈ boxLinks box,
        s.LinkFits (!e.2.export_.boundargs.isEmpty) (lastRets (s.parentimports parent box)) e.1
          e.2.export_ := by
  have hlink := fun e : Fn × Link => s.linkFits_iff (s.boxSide parent box) e.1 e.2.export_
    (!e.2.export_.boundargs.isEmpty) fun _ => forall_fromPtr_iff
  have hexport := fun export_ : Fn => exportFits_iff (s.boxSide parent box)
    (export_.source = parent.box.name) (!export_.boundargs.isEmpty) export_
    (isSome_lastRets_parentimports parent box)
  constructor
  · rintro ⟨horder, himports, hdeclares, hexports, hcounts, hreturns⟩
    refine ⟨horder, fun e he => ?_, fun export_ hmem => ?_,
      fun e he => (hlink e).mpr ⟨hcounts e he, hreturns e he⟩⟩
    · have hfits := himports e he rfl
      exact ⟨hfits.names, hfits.arity.resolve_left Bool.false_ne_true⟩
    · exact (hexport export_).mpr
        ⟨hdeclares _ (List.mem_map_of_mem hmem), hexports _ (List.mem_map_of_mem hmem)⟩
  · rintro ⟨horder, himports, hexports, hlinks⟩
    have hexported := fun export_ hmem => (hexport export_).mp (hexports export_ hmem)
    exact ⟨horder, fun e he _ => importFits_of_nil (himports e he).2 (himports e he).1 rfl,
      List.forall_mem_map.mpr fun export_ hmem => (hexported export_ hmem).1,
      List.forall_mem_map.mpr fun export_ hmem => (hexported export_ hmem).2,
      fun e he => ((hlink e).mp (hlinks e he)).1, fun e he => ((hlink e).mp (hlinks e he)).2⟩

end Setting

end BentoLinker.Runtimes
