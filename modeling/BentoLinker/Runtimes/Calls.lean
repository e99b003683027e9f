import BentoLinker.Linker.Wrappers
import BentoLinker.Mpu.Numbering

/-!
# Calls across Boxes

How a call of an import gets to the function that it is linked to: through the wrapper of the
import, an entry of a table, and the wrapper of the export.

- `Side`: one direction of calls between a parent and a box
- `Side.Delivers`: every call gets to its function, with the arguments and the result that it
  should have
- `Layout`: how a direction is laid out, the implicit entries before the functions
- `Layout.delivers_iff`: when it delivers

Boxes are equal if their names are. Names of global symbols that a wrapper uses count as free.
-/

namespace BentoLinker.Runtimes

open Linker

/-! ## Section 1: Functions that need linking -/

/-- What an entry of a table points to -/
inductive Entry where
  | stackEnd
  | init
  | push
  | pop
  | abort
  | write
  | flush
  | fn (link : Link)
  deriving DecidableEq

/-- `__box_<box>_postinit` -/
def postinitImport (source box : String) : Fn where
  name := "__box_" ++ box ++ "_postinit"
  scope := none
  source
  alias_ := "__box_" ++ box ++ "_postinit"
  weak := false
  noreturn := false
  preboundargs := [{ Arg.value .u32 none with isconst := true, ptr := true }]
  rets := [Arg.value .err32 none]
  boundargs := []
  ispostbound := false
  bound_nodup := nodup_noBound

/-- `i32, const u8[size], usize size` -/
def writeArgs : List Arg :=
  [Arg.value .i32 none, { Arg.value .u8 none with isconst := true, asize := some (.arg "size") },
    Arg.value .usize (some "size")]

theorem errsize_asize : ∀ ret ∈ [Arg.value .errsize none], ret.asizeName = none := by decide

def writeImport (source : String) : Fn where
  name := "__box_write"
  scope := none
  source
  alias_ := "__box_write"
  weak := false
  noreturn := false
  preboundargs := writeArgs
  rets := [Arg.value .errsize none]
  boundargs := []
  ispostbound := false
  rets_asize := errsize_asize
  bound_nodup := nodup_noBound

def flushImport (source : String) : Fn where
  name := "__box_flush"
  scope := none
  source
  alias_ := "__box_flush"
  weak := false
  noreturn := false
  preboundargs := [Arg.value .i32 none]
  rets := [Arg.value .err none]
  boundargs := []
  ispostbound := true
  bound_nodup := nodup_noBound

/-- The imports of the parent that are linked to the box -/
def parentLinks (parent box : Linked) : List (Fn × Link) :=
  parent.imports.filterMap fun entry =>
    (entry.2.filter fun link => link.box = box.box.name).map fun link => (entry.1, link)

/-- The imports of the box that are linked to other boxes -/
def boxLinks (box : Linked) : List (Fn × Link) :=
  box.imports.filterMap fun entry =>
    (entry.2.filter fun link => link.box ≠ box.box.name).map fun link => (entry.1, link)

/-- A linked import, and what it should get to -/
def target (import_ : Fn × Link) : Fn × Entry := (import_.1, .fn import_.2)

/-- The exports of the parent that imports of the box are linked to -/
def exportsTo (parent box : Linked) : List Fn :=
  parent.exports.filter fun export_ => box.box.name ∈ Mpu.linkedBoxes parent export_

/-- The exports of the box that are not for the box alone -/
def publics (box : Linked) : List Fn :=
  box.exports.filter fun export_ => export_.scope ≠ some box.box.name

/-! ## Section 2: Calls -/

/-- One direction of calls: the imports on the one side, and the table on the other one -/
structure Side where
  imports : List (Fn × Entry)
  /-- the functions that can be called, and whether it is by a wrapper -/
  table : List (Entry × Bool)
  /-- the entry that import `j` calls -/
  entry : ℕ → Option (Entry × Bool)
  /-- whether an import has a wrapper -/
  wraps : Fn × Entry → Bool
  /-- whether the wrapper calls the symbol of the import -/
  resolves : Fn → Bool
  setjmp : Fn → Bool
  /-- whether an export has a declaration with all its arguments -/
  declares : Fn → Bool
  /-- the prototype of an import has its bound arguments -/
  prebound : Bool
  /-- constants are no text, and only those that are converted become part of one -/
  importJoins : Bool
  exportJoins : Bool
  /-- the conversions that the wrappers have for arguments -/
  importConvert : Arg → ℤ → ℤ
  exportConvert : Arg → ℤ → ℤ
  /-- the conversion that there should be for results -/
  retConvert : Arg → ℤ → ℤ
  /-- `import_.rets` where the wrappers of exports are made, if there is an `import_` -/
  stale : Option (List Arg)

/-- Every constant that is passed can be printed. -/
def Printed (joins : Bool) (fn : Fn) : Prop :=
  joins = true → ∀ arg c, (arg, Fn.Passed.const c) ∈ fn.zippedargsandbounds → arg.isptr = true

/-- A wrapper is printed, and compiles. -/
structure Made (joins : Bool) (fn : Fn) (g : Glue) : Prop where
  postbinds : fn.Postbinds
  printed : Printed joins fn
  compiles : g.Compiles

namespace Side

/-- The wrapper of an import -/
def importGlue (side : Side) (import_ : Fn) : Glue :=
  import_.glue (side.setjmp import_) side.prebound side.importConvert

/-- The wrapper of an export -/
def exportGlue (side : Side) (export_ : Fn) : Glue := export_.glue false true side.exportConvert

/-- The arguments with which an import calls its entry -/
def leave (side : Side) (import_ : Fn × Entry) (vals : List ℤ) : List ℤ :=
  if side.wraps import_ then (side.importGlue import_.1).call vals else vals

/-- The arguments of an exported function, where its entry of the table is called; with other
arguments than it has, there is nothing that it does. -/
def enter (side : Side) (export_ : Fn) (wrapped : Bool) (args : List ℤ) : Option (List ℤ) :=
  if args.length = export_.postboundargs.length then
    some (if wrapped then (side.exportGlue export_).call args else args)
  else none

/-- The result that comes back -/
def result (side : Side) (wrapped : Bool) (r : ℤ) : Option ℤ :=
  if wrapped && (side.stale.getD []).isEmpty then none else some r

/-- A call gets to a function with the arguments that it should have. -/
def Reaches (side : Side) (import_ : Fn) (link : Link) (wrapped : Bool) : Prop :=
  ∀ vals, vals.length = import_.postboundargs.length →
    ∃ args, (import_.fill side.importConvert vals).bind (link.export_.fill side.exportConvert) =
        some args ∧
      side.enter link.export_ wrapped (side.leave (import_, .fn link) vals) = some args

/-- The result that an import has comes back from the function. -/
def Returns (side : Side) (import_ export_ : Fn) (wrapped : Bool) : Prop :=
  import_.rets ≠ [] → ∃ ret ∈ export_.rets.head?,
    ∀ r, (ret.isptr = true → 0 ≤ r ∧ r < 2 ^ 32) →
      side.result wrapped r = some (side.retConvert ret r)

/-- The wrappers can be made, and calls get to their functions and back. -/
structure Delivers (side : Side) : Prop where
  imports : ∀ import_ ∈ side.imports, side.wraps import_ = true →
    Made side.importJoins import_.1 (side.importGlue import_.1) ∧
      side.resolves import_.1 = true
  declares : ∀ link wrapped, (Entry.fn link, wrapped) ∈ side.table →
    side.declares link.export_ = true → (link.export_.argnames true).Nodup
  exports : ∀ link, (Entry.fn link, true) ∈ side.table →
    Made side.exportJoins link.export_ (side.exportGlue link.export_) ∧ side.stale.isSome = true
  calls : ∀ j import_ entry, side.imports[j]? = some (import_, entry) →
    ∃ wrapped, side.entry j = some (entry, wrapped) ∧
      ∀ link, entry = .fn link →
        side.Reaches import_ link wrapped ∧ side.Returns import_ link.export_ wrapped

end Side

/-! ## Section 3: Numbers and names -/

section Numbers

variable {self : Fn} {convert : Arg → ℤ → ℤ}

theorem length_call (setjmp prebound : Bool) (vals : List ℤ) :
    ((self.glue setjmp prebound convert).call vals).length = self.preboundargs.length := by
  rw [Fn.call_eq, List.length_map, List.length_zipIdx]

/-- Where nothing is bound or converted, arguments are what they are. -/
theorem fillArgs_id {args : List Arg} (hbound : ∀ arg ∈ args, self.bound? arg = none)
    (hconvert : ∀ arg ∈ args, ∀ v, convert arg v = v) {vals : List ℤ}
    (hvals : vals.length = args.length) : self.fillArgs convert args vals = some vals := by
  induction args generalizing vals with
  | nil =>
    rw [List.length_eq_zero_iff.mp hvals]
    rfl
  | cons arg args ih =>
    cases vals with
    | nil => cases hvals
    | cons v vals =>
      rw [Fn.fillArgs_free (hbound arg List.mem_cons_self), hconvert arg List.mem_cons_self,
        ih (fun arg' harg' => hbound arg' (List.mem_cons_of_mem _ harg'))
          (fun arg' harg' => hconvert arg' (List.mem_cons_of_mem _ harg')) (Nat.succ.inj hvals)]
      rfl

theorem postboundargs_of_nil (h : self.boundargs = []) : self.postboundargs = self.preboundargs :=
  List.filter_eq_self.mpr fun _ _ => Option.isNone_iff_eq_none.mpr (Fn.bound?_of_nil h)

/-- Where names fit, just the bound arguments are passed as constants. -/
theorem printed_iff {joins : Bool} {setjmp : Bool} (h : self.NamesFit setjmp) :
    Printed joins self ↔
      (joins = true → ∀ arg ∈ self.preboundargs, (self.bound? arg).isSome = true →
        arg.isptr = true) := by
  refine forall_congr' fun _ => ?_
  rw [Fn.zippedargsandbounds_eq]
  constructor
  · intro hprinted arg harg hsome
    obtain ⟨c, hc⟩ := Option.isSome_iff_exists.mp hsome
    obtain ⟨i, hi⟩ := List.mem_iff_getElem?.mp harg
    have hentry : (arg, i) ∈ self.preboundargs.zipIdx := List.mem_zipIdx_iff_getElem?.mpr hi
    refine hprinted arg c (List.mem_map.mpr ⟨(arg, i), hentry, ?_⟩)
    rw [Fn.passed, Fn.boundarg?_argname h.bound hentry, hc]
  · intro hbound arg c hmem
    obtain ⟨entry, hentry, heq⟩ := List.mem_map.mp hmem
    cases heq' : self.bound? entry.1 with
    | none =>
      rw [Fn.passed, Fn.boundarg?_argname h.bound hentry, heq'] at heq
      cases heq
    | some c' =>
      rw [Fn.passed, Fn.boundarg?_argname h.bound hentry, heq'] at heq
      cases heq
      refine hbound entry.1 ?_ (by rw [heq']; rfl)
      exact List.mem_of_getElem? (List.mem_zipIdx_iff_getElem?.mp hentry)

end Numbers

/-! ## Section 4: Layouts -/

/-- How one direction of calls is laid out: what is behind the implicit entries are functions. -/
structure Layout (side : Side) where
  front : List (Entry × Bool)
  heads : List (Fn × Entry)
  links : List (Fn × Link)
  exported : List Link
  needswrapper : Fn → Bool
  imports_eq : side.imports = heads ++ links.map target
  table_eq : side.table = front ++ (heads.map (fun head => (head.2, false)) ++
    exported.map fun link => (.fn link, needswrapper link.export_))
  entry_eq : ∀ j < side.imports.length, side.entry j = side.table[front.length + j]?
  front_fn : ∀ entry ∈ front, ∀ link, entry.1 ≠ .fn link
  heads_made : ∀ head ∈ heads, side.wraps head = true →
    Made side.importJoins head.1 (side.importGlue head.1) ∧ side.resolves head.1 = true
  heads_fn : ∀ head ∈ heads, ∀ link, head.2 ≠ .fn link
  direct : ∀ e : Fn × Link, side.wraps (target e) = false → e.1.boundargs = [] ∧
    ∀ arg ∈ e.1.preboundargs, ∀ v, side.importConvert arg v = v
  unwrapped : ∀ export_, needswrapper export_ = false → export_.boundargs = [] ∧
    ∀ arg ∈ export_.preboundargs, ∀ v, side.exportConvert arg v = v

namespace Layout

variable {side : Side} (l : Layout side)

/-- No function is in front of the first entry that counts. -/
theorem noFront : ∀ entry ∈ ([] : List (Entry × Bool)), ∀ link, entry.1 ≠ .fn link :=
  fun _ hentry => absurd hentry List.not_mem_nil

/-- What is behind the front part of the table -/
def entries : List (Entry × Bool) :=
  l.heads.map (fun head => (head.2, false)) ++
    l.exported.map fun link => (.fn link, l.needswrapper link.export_)

theorem entry_entries {j : ℕ} (h : j < side.imports.length) :
    side.entry j = l.entries[j]? := by
  rw [l.entry_eq j h, l.table_eq, List.getElem?_append_right (Nat.le_add_right _ _),
    Nat.add_sub_cancel_left]
  rfl

theorem imports_link (k : ℕ) :
    side.imports[l.heads.length + k]? = (l.links[k]?).map target := by
  rw [l.imports_eq, List.getElem?_append_right (Nat.le_add_right _ _), Nat.add_sub_cancel_left,
    List.getElem?_map]

theorem entries_link (k : ℕ) : l.entries[l.heads.length + k]? =
    (l.exported[k]?).map fun link => (.fn link, l.needswrapper link.export_) := by
  rw [entries, List.getElem?_append_right (by rw [List.length_map]; exact Nat.le_add_right _ _),
    List.length_map, Nat.add_sub_cancel_left, List.getElem?_map]

/-- An import that is called is an implicit one or a linked one. -/
theorem import_cases {j : ℕ} {import_ : Fn} {entry : Entry}
    (h : side.imports[j]? = some (import_, entry)) :
    l.heads[j]? = some (import_, entry) ∨
      ∃ k link, j = l.heads.length + k ∧ l.links[k]? = some (import_, link) ∧
        entry = .fn link := by
  rw [l.imports_eq] at h
  rcases Nat.lt_or_ge j l.heads.length with hlt | hge
  · rw [List.getElem?_append_left hlt] at h
    exact .inl h
  · rw [List.getElem?_append_right hge, List.getElem?_map] at h
    obtain ⟨⟨fn, link⟩, hlink, heq⟩ := Option.map_eq_some_iff.mp h
    cases heq
    exact .inr ⟨j - l.heads.length, link, (Nat.add_sub_cancel' hge).symm, hlink, rfl⟩

/-- Imports get to what they are linked to just if the linked functions are the first ones of the
table. -/
theorem calls_iff {P : Fn → Link → Bool → Prop} :
    (∀ j import_ entry, side.imports[j]? = some (import_, entry) →
      ∃ wrapped, side.entry j = some (entry, wrapped) ∧
        ∀ link, entry = .fn link → P import_ link wrapped) ↔
      l.links.map Prod.snd <+: l.exported ∧
        ∀ e ∈ l.links, P e.1 e.2 (l.needswrapper e.2.export_) := by
  constructor
  · intro h
    have hlink : ∀ (k : ℕ) import_ link, l.links[k]? = some (import_, link) →
        l.exported[k]? = some link ∧ P import_ link (l.needswrapper link.export_) := by
      intro k import_ link hk
      have himport : side.imports[l.heads.length + k]? = some (import_, .fn link) := by
        rw [l.imports_link, hk]
        rfl
      obtain ⟨wrapped, hentry, hP⟩ := h _ import_ _ himport
      rw [l.entry_entries (List.getElem?_eq_some_iff.mp himport).1, l.entries_link] at hentry
      obtain ⟨link', hlink', heq⟩ := Option.map_eq_some_iff.mp hentry
      cases heq
      exact ⟨hlink', hP link rfl⟩
    constructor
    · rw [List.prefix_iff_getElem?]
      intro k hk
      rw [List.getElem_map]
      rw [List.length_map] at hk
      exact (hlink k _ _ (List.getElem?_eq_getElem hk)).1
    · intro e he
      obtain ⟨k, hk⟩ := List.mem_iff_getElem?.mp he
      exact (hlink k e.1 e.2 hk).2
  · rintro ⟨horder, hP⟩ j import_ entry himport
    rw [l.entry_entries (List.getElem?_eq_some_iff.mp himport).1]
    rcases l.import_cases himport with hhead | ⟨k, link, rfl, hk, rfl⟩
    · have hj : j < (l.heads.map fun head => (head.2, false)).length := by
        rw [List.length_map]
        exact (List.getElem?_eq_some_iff.mp hhead).1
      refine ⟨false, ?_, fun link hlink => ?_⟩
      · rw [entries, List.getElem?_append_left hj, List.getElem?_map, hhead]
        rfl
      · exact absurd hlink (l.heads_fn _ (List.mem_of_getElem? hhead) link)
    · rw [List.prefix_iff_getElem?] at horder
      have hlt : k < (l.links.map Prod.snd).length := by
        rw [List.length_map]
        exact (List.getElem?_eq_some_iff.mp hk).1
      have hexported := horder k hlt
      rw [List.getElem_map, (List.getElem?_eq_some_iff.mp hk).2] at hexported
      refine ⟨l.needswrapper link.export_, ?_, fun link' hlink' => ?_⟩
      · rw [l.entries_link, hexported]
        rfl
      · cases hlink'
        exact hP _ (List.mem_of_getElem? hk)

theorem mem_table_iff {link : Link} {wrapped : Bool} : (Entry.fn link, wrapped) ∈ side.table ↔
    link ∈ l.exported ∧ l.needswrapper link.export_ = wrapped := by
  rw [l.table_eq, List.mem_append, List.mem_append]
  constructor
  · rintro (h | h | h)
    · exact absurd rfl (l.front_fn _ h link)
    · obtain ⟨head, hhead, heq⟩ := List.mem_map.mp h
      exact absurd (congrArg Prod.fst heq) (l.heads_fn head hhead link)
    · obtain ⟨link', hlink', heq⟩ := List.mem_map.mp h
      cases congrArg Prod.fst heq
      exact ⟨hlink', congrArg Prod.snd heq⟩
  · rintro ⟨hlink, hwrapped⟩
    exact .inr (.inr (List.mem_map.mpr ⟨link, hlink, by rw [hwrapped]⟩))

/-- What an import passes is what it should, if names fit. -/
theorem fill_leave (l : Layout side) {e : Fn × Link}
    (himport : side.wraps (target e) = true → e.1.NamesFit (side.setjmp e.1)) {vals : List ℤ}
    (hvals : vals.length = e.1.postboundargs.length) :
    e.1.fill side.importConvert vals = some (side.leave (target e) vals) := by
  rw [Side.leave]
  cases hwraps : side.wraps (target e) with
  | false =>
    obtain ⟨hnil, hconvert⟩ := l.direct e hwraps
    rw [postboundargs_of_nil hnil] at hvals
    exact fillArgs_id (fun _ _ => Fn.bound?_of_nil hnil) hconvert hvals
  | true => exact Fn.call_of_namesFit (himport hwraps) hvals

theorem length_leave (l : Layout side) {e : Fn × Link} {vals : List ℤ}
    (hvals : vals.length = e.1.postboundargs.length) :
    (side.leave (target e) vals).length = e.1.preboundargs.length := by
  rw [Side.leave]
  cases hwraps : side.wraps (target e) with
  | false =>
    rw [if_neg Bool.false_ne_true, hvals, postboundargs_of_nil (l.direct e hwraps).1]
  | true => exact length_call _ _ vals

/-- Names that fit carry the arguments, so that only their number is left to agree. -/
theorem reaches_iff {e : Fn × Link}
    (himport : side.wraps (target e) = true → e.1.NamesFit (side.setjmp e.1))
    (hexport : l.needswrapper e.2.export_ = true → e.2.export_.NamesFit false) :
    side.Reaches e.1 e.2 (l.needswrapper e.2.export_) ↔
      e.1.preboundargs.length = e.2.export_.postboundargs.length := by
  constructor
  · intro h
    obtain ⟨args, -, henter⟩ :=
      h (List.replicate e.1.postboundargs.length 0) List.length_replicate
    change side.enter _ _ (side.leave (target e) _) = _ at henter
    rw [Side.enter, l.length_leave List.length_replicate] at henter
    by_contra hlen
    rw [if_neg hlen] at henter
    cases henter
  · intro hlen vals hvals
    have hcount := l.length_leave hvals
    rw [hlen] at hcount
    change ∃ args, _ ∧ side.enter _ _ (side.leave (target e) _) = _
    rw [Side.enter, if_pos hcount, l.fill_leave himport hvals, Option.bind_some]
    refine ⟨_, ?_, rfl⟩
    cases hwrapped : l.needswrapper e.2.export_ with
    | false =>
      obtain ⟨hnil, hconvert⟩ := l.unwrapped e.2.export_ hwrapped
      rw [postboundargs_of_nil hnil] at hcount
      exact fillArgs_id (fun _ _ => Fn.bound?_of_nil hnil) hconvert hcount
    | true => exact Fn.call_of_namesFit (hexport hwrapped) hcount

theorem returns_iff {import_ export_ : Fn} {wrapped : Bool} :
    side.Returns import_ export_ wrapped ↔ (import_.rets ≠ [] → ∃ ret ∈ export_.rets.head?,
      (∀ r, (ret.isptr = true → 0 ≤ r ∧ r < 2 ^ 32) → side.retConvert ret r = r) ∧
        (wrapped = true → side.stale.getD [] ≠ [])) := by
  refine forall_congr' fun _ => exists_congr fun ret => and_congr_right fun _ => ?_
  constructor
  · intro h
    have hstale : ¬(wrapped && (side.stale.getD []).isEmpty) = true := by
      intro htrue
      have hzero := h 0 fun _ => ⟨le_rfl, by decide⟩
      rw [Side.result, if_pos htrue] at hzero
      cases hzero
    constructor
    · intro r hr
      have hresult := h r hr
      rw [Side.result, if_neg hstale] at hresult
      exact (Option.some.inj hresult).symm
    · rintro rfl hnil
      rw [hnil] at hstale
      exact hstale rfl
  · rintro ⟨hconvert, hstale⟩ r hr
    rw [Side.result, hconvert r hr, if_neg]
    intro htrue
    obtain ⟨hwrapped, hempty⟩ := Bool.and_eq_true_iff.mp htrue
    exact hstale hwrapped (List.isEmpty_iff.mp hempty)

/-- When the wrapper of an import can be made -/
structure ImportFits (side : Side) (import_ : Fn) : Prop where
  names : import_.NamesFit (side.setjmp import_)
  sizes : import_.SizesFit
  arity : side.prebound = true ∨ import_.boundargs = []
  printed : Printed side.importJoins import_
  resolves : side.resolves import_ = true

/-- When the wrapper of an export can be made -/
structure ExportFits (side : Side) (export_ : Fn) : Prop where
  names : export_.NamesFit false
  sizes : export_.SizesFit
  printed : Printed side.exportJoins export_
  stale : side.stale.isSome = true

theorem importFits_iff {import_ : Fn} : ImportFits side import_ ↔
    Made side.importJoins import_ (side.importGlue import_) ∧ side.resolves import_ = true := by
  constructor
  · intro h
    exact ⟨⟨Fn.postbinds_iff.mpr h.sizes, h.printed, Fn.compiles_iff.mpr ⟨h.names, h.arity⟩⟩,
      h.resolves⟩
  · rintro ⟨hmade, hresolves⟩
    obtain ⟨hnames, harity⟩ := Fn.compiles_iff.mp hmade.compiles
    exact ⟨hnames, Fn.postbinds_iff.mp hmade.postbinds, harity, hmade.printed, hresolves⟩

theorem exportFits_iff {export_ : Fn} : ExportFits side export_ ↔
    Made side.exportJoins export_ (side.exportGlue export_) ∧ side.stale.isSome = true := by
  constructor
  · intro h
    exact ⟨⟨Fn.postbinds_iff.mpr h.sizes, h.printed, Fn.compiles_iff.mpr ⟨h.names, .inl rfl⟩⟩,
      h.stale⟩
  · rintro ⟨hmade, hstale⟩
    exact ⟨(Fn.compiles_iff.mp hmade.compiles).1, Fn.postbinds_iff.mp hmade.postbinds,
      hmade.printed, hstale⟩

/-- When one direction of calls delivers -/
structure Fits : Prop where
  order : l.links.map Prod.snd <+: l.exported
  imports : ∀ e ∈ l.links, side.wraps (target e) = true → ImportFits side e.1
  declares : ∀ link ∈ l.exported, side.declares link.export_ = true → link.export_.NamesFit false
  exports : ∀ link ∈ l.exported, l.needswrapper link.export_ = true →
    ExportFits side link.export_
  counts : ∀ e ∈ l.links, e.1.preboundargs.length = e.2.export_.postboundargs.length
  returns : ∀ e ∈ l.links, side.Returns e.1 e.2.export_ (l.needswrapper e.2.export_)

theorem delivers_iff : side.Delivers ↔ l.Fits := by
  constructor
  · rintro ⟨himports, hdeclares, hexports, hcalls⟩
    obtain ⟨horder, hlinks⟩ := l.calls_iff.mp hcalls
    have hdeclared : ∀ link ∈ l.exported, side.declares link.export_ = true →
        link.export_.NamesFit false := fun link hlink hdeclare =>
      Fn.namesFit_false_iff.mpr
        (hdeclares link _ (l.mem_table_iff.mpr ⟨hlink, rfl⟩) hdeclare)
    have hexported : ∀ link ∈ l.exported, l.needswrapper link.export_ = true →
        ExportFits side link.export_ := fun link hlink hwrapped =>
      exportFits_iff.mpr (hexports link (l.mem_table_iff.mpr ⟨hlink, hwrapped⟩))
    have himported : ∀ e ∈ l.links, side.wraps (target e) = true → ImportFits side e.1 := by
      intro e he hwraps
      refine importFits_iff.mpr (himports (target e) ?_ hwraps)
      rw [l.imports_eq]
      exact List.mem_append_right _ (List.mem_map_of_mem he)
    refine ⟨horder, himported, hdeclared, hexported, fun e he => ?_,
      fun e he => (hlinks e he).2⟩
    have hmem : e.2 ∈ l.exported := horder.subset (List.mem_map_of_mem he)
    exact (l.reaches_iff (fun hwraps => (himported e he hwraps).names) fun hwrapped =>
      (hexported e.2 hmem hwrapped).names).mp (hlinks e he).1
  · intro h
    refine ⟨fun import_ himport hwraps => ?_, fun link wrapped hlink hdeclare => ?_,
      fun link hlink => ?_, l.calls_iff.mpr ⟨h.order, fun e he => ?_⟩⟩
    · rw [l.imports_eq] at himport
      rcases List.mem_append.mp himport with himport | himport
      · exact l.heads_made import_ himport hwraps
      · obtain ⟨e, he, rfl⟩ := List.mem_map.mp himport
        exact importFits_iff.mp (h.imports e he hwraps)
    · exact Fn.namesFit_false_iff.mp (h.declares link (l.mem_table_iff.mp hlink).1 hdeclare)
    · obtain ⟨hmem, hwrapped⟩ := l.mem_table_iff.mp hlink
      exact exportFits_iff.mp (h.exports link hmem hwrapped)
    · have hmem : e.2 ∈ l.exported := h.order.subset (List.mem_map_of_mem he)
      exact ⟨(l.reaches_iff (fun hwraps => (h.imports e he hwraps).names) fun hwrapped =>
        (h.exports e.2 hmem hwrapped).names).mpr (h.counts e he), h.returns e he⟩

end Layout

/-! ## Section 5: Functions without bound arguments -/

theorem namesFit_of_nil {fn : Fn} {setjmp : Bool} (h : fn.names = []) : fn.NamesFit setjmp := by
  constructor
  · intro base _ hmem
    rw [h] at hmem
    cases hmem
  · intro i _ hmem
    rw [h] at hmem
    cases hmem

theorem namesFit_write (source : String) : (writeImport source).NamesFit false := by
  have hwrite : (writeImport "").NamesFit false := ⟨by decide +kernel, by decide +kernel⟩
  exact ⟨hwrite.declared, hwrite.bound⟩

theorem printed_of_nil {joins : Bool} {setjmp : Bool} {fn : Fn} (hnames : fn.NamesFit setjmp)
    (h : fn.boundargs = []) : Printed joins fn := by
  refine (printed_iff hnames).mpr fun _ arg _ hsome => ?_
  rw [Fn.bound?_of_nil h] at hsome
  cases hsome

theorem sizesFit_of_nil {fn : Fn} (h : fn.boundargs = []) : fn.SizesFit := by
  intro arg _ size _
  rw [h]
  exact List.not_mem_nil

theorem args_of_nil {fn : Fn} (h : fn.boundargs = []) : fn.args = fn.preboundargs := by
  rw [Fn.args, postboundargs_of_nil h, ite_self]

/-- Without bound arguments only names are left to fit. -/
theorem importFits_of_nil {side : Side} {import_ : Fn} (h : import_.boundargs = [])
    (hnames : import_.NamesFit (side.setjmp import_)) (hresolves : side.resolves import_ = true) :
    Layout.ImportFits side import_ :=
  ⟨hnames, sizesFit_of_nil h, .inr h, printed_of_nil hnames h, hresolves⟩

end BentoLinker.Runtimes
