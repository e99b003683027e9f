import BentoLinker.Runtimes.Calls

/-!
# Wrappers of Calls

What `build_parent_c` and `build_c` make around the numbers of calls: wrappers for imports and
exports with bound arguments, and for the imports of a box that is initialized lazily.

- `Site`: a box of a parent, with the region of its calls
- `Site.parentSide`, `Site.boxSide`: the two directions of calls, through their numbers
- `Site.Fits`: what recipes must keep to
- `Site.site_delivers_iff`: calls are delivered just if they do

Prototypes leave bound arguments out, the wrappers of a box call another symbol than the linker
script has, and those of exports look at the import that a wrapper was made for last.
-/

namespace BentoLinker.Mpu

open Linker
open Runtimes (Entry Side Layout target parentLinks boxLinks exportsTo publics)

/-! ## Section 1: The two directions -/

/-- A box of a parent -/
structure Site where
  runtime : String
  parent : Linker.Linked
  callregion : ℕ
  /-- the place of the box among those with the runtime -/
  i : ℕ
  box : Linker.Linked
  box_eq : (runtimeBoxes runtime parent)[i]? = some box
  /-- `box.init == 'lazy'` -/
  lazyInit : Bool

/-- An entry of a table, and whether it is a wrapper -/
def withWrapper : Callee → Entry × Bool
  | .stackEnd => (.stackEnd, false)
  | .init => (.init, false)
  | .write => (.write, false)
  | .flush => (.flush, false)
  | .fn link => (.fn link, !link.export_.boundargs.isEmpty)

/-- The symbol that the linker script has for an import with a wrapper -/
def linkedSymbol (import_ : Fn) : String := "__box_import_" ++ import_.alias_

/-- The symbol that `build_parent_c` calls -/
def parentSymbol (import_ : Fn) : String := "__box_import_" ++ import_.alias_

/-- The symbol that `build_c` calls -/
def boxSymbol (import_ : Fn) : String := "__box_export_" ++ import_.alias_

/-- `needswrapper`, for imports of a box -/
def wraps (import_ : Fn × Entry) : Bool :=
  match import_.2 with
  | .fn _ => !import_.1.boundargs.isEmpty
  | _ => false

/-- `import_.rets`, for the last import that has a wrapper -/
def wrappedRets (wraps : Fn × Entry → Bool) (imports : List (Fn × Entry)) : Option (List Arg) :=
  (imports.filter wraps).getLast?.map fun last => last.1.rets

namespace Site

variable (site : Site)

/-- `_parentimports` -/
def parentimports : List (Fn × Entry) :=
  -- implicit imports
  (Runtimes.postinitImport site.runtime site.box.box.name, .init) ::
    (parentLinks site.parent site.box).map target

/-- `_imports` -/
def imports : List (Fn × Entry) :=
  -- implicit imports
  [(Runtimes.writeImport site.runtime, .write), (Runtimes.flushImport site.runtime, .flush)] ++
    (boxLinks site.box).map target

/-- `needswrapper`, for imports of the parent -/
def parentWraps (import_ : Fn × Entry) : Bool :=
  match import_.2 with
  | .fn _ => !import_.1.boundargs.isEmpty || site.lazyInit
  | _ => false

/-- What the number of import `j` of the parent gets to -/
def parentEntry (j : ℕ) : Option (Entry × Bool) :=
  (Mpu.parentimports site.parent site.box)[j]?.bind fun call =>
    (called site.runtime site.parent (callOp site.callregion
      (parentAddress site.callregion (runtimeBoxes site.runtime site.parent).length site.i j
        call))).map withWrapper

/-- What the number of import `j` of the box gets to -/
def boxEntry (j : ℕ) : Option (Entry × Bool) :=
  (Mpu.imports site.box)[j]?.bind fun call =>
    (sysCalled site.runtime site.parent (site.i + 1) (callOp site.callregion
      (boxAddress site.callregion j call))).map withWrapper

/-- Calls of the parent -/
def parentSide : Side where
  imports := site.parentimports
  table := (jumptable site.box).map withWrapper
  entry := site.parentEntry
  wraps := site.parentWraps
  resolves := fun import_ => parentSymbol import_ = linkedSymbol import_
  setjmp := fun _ => false
  declares := fun export_ => export_.source = site.box.box.name
  prebound := false
  importJoins := false
  exportJoins := false
  importConvert := fun _ v => v
  exportConvert := fun _ v => v
  retConvert := fun _ v => v
  stale := wrappedRets wraps site.imports

/-- Calls of the box -/
def boxSide : Side where
  imports := site.imports
  table := (sysJumptable site.parent site.box).map withWrapper
  entry := site.boxEntry
  wraps := Mpu.wraps
  resolves := fun import_ => boxSymbol import_ = linkedSymbol import_
  setjmp := fun _ => false
  declares := fun export_ => export_.source = site.parent.box.name
  prebound := false
  importJoins := false
  exportJoins := false
  importConvert := fun _ v => v
  exportConvert := fun _ v => v
  retConvert := fun _ v => v
  stale := wrappedRets site.parentWraps site.parentimports

/-- Both directions of calls deliver. -/
def Delivers : Prop := site.parentSide.Delivers ∧ site.boxSide.Delivers

/-! ## Section 2: Layouts -/

theorem length_parentCalls (parent box : Linker.Linked) :
    (parentCalls parent box).length = (parentLinks parent box).length := by
  have hmap : parentCalls parent box =
      (parentLinks parent box).map fun e => Call.ofImport e.1 e.2 := by
    rw [parentCalls, parentLinks, List.map_filterMap]
    refine List.filterMap_congr fun entry _ => ?_
    rw [Option.map_map]
    rfl
  rw [hmap, List.length_map]

theorem length_boxCalls (box : Linker.Linked) :
    (boxCalls box).length = (boxLinks box).length := by
  have hmap : boxCalls box = (boxLinks box).map fun e => Call.ofImport e.1 e.2 := by
    rw [boxCalls, boxLinks, List.map_filterMap]
    refine List.filterMap_congr fun entry _ => ?_
    rw [Option.map_map]
    rfl
  rw [hmap, List.length_map]

/-- The numbers of the imports select the entries behind the first one. -/
theorem parentEntry_eq {j : ℕ} (h : j < site.parentimports.length) :
    site.parentEntry j = ((jumptable site.box).map withWrapper)[j + 1]? := by
  have hlen : j < (Mpu.parentimports site.parent site.box).length := by
    rw [parentimports, List.length_cons, List.length_map] at h
    rw [Mpu.parentimports, List.length_cons, length_parentCalls]
    exact h
  rw [parentEntry, List.getElem?_eq_getElem hlen, Option.bind_some,
    called_parentAddress site.box_eq, List.getElem?_map]

theorem boxEntry_eq {j : ℕ} (h : j < site.imports.length) :
    site.boxEntry j = ((sysJumptable site.parent site.box).map withWrapper)[j]? := by
  have hlen : j < (Mpu.imports site.box).length := by
    rw [imports, List.length_append, List.length_map] at h
    rw [Mpu.imports, List.length_cons, List.length_cons, length_boxCalls]
    change j < 2 + _ at h
    omega
  rw [boxEntry, List.getElem?_eq_getElem hlen, Option.bind_some,
    sysCalled_boxAddress site.box_eq, List.getElem?_map]

theorem isEmpty_of_not {fn : Fn} (h : (!fn.boundargs.isEmpty) = false) : fn.boundargs = [] := by
  rw [Bool.not_eq_false', List.isEmpty_iff] at h
  exact h

/-- Calls of the parent, for a box with a stack -/
def parentLayout (hstack : 0 < site.box.box.stackSize) : Layout site.parentSide where
  front := [(.stackEnd, false)]
  heads := [(Runtimes.postinitImport site.runtime site.box.box.name, .init)]
  links := parentLinks site.parent site.box
  exported := (publics site.box).map fun export_ => ⟨site.box.box.name, export_⟩
  needswrapper := fun export_ => !export_.boundargs.isEmpty
  imports_eq := rfl
  table_eq := by
    change (jumptable site.box).map withWrapper = _
    rw [jumptable, if_pos hstack, exports, List.map_cons, List.map_cons, publicExports,
      List.map_map, List.map_map]
    rfl
  entry_eq := by
    intro j hj
    change site.parentEntry j = ((jumptable site.box).map withWrapper)[_]?
    rw [site.parentEntry_eq hj, List.length_singleton, Nat.add_comm]
  front_fn := by rintro entry (- | ⟨_, ⟨⟩⟩) link ⟨⟩
  heads_made := by
    rw [List.forall_mem_singleton]
    exact fun hwraps => absurd hwraps Bool.false_ne_true
  heads_fn := by rintro head (- | ⟨_, ⟨⟩⟩) link ⟨⟩
  direct := by
    intro e hwraps
    exact ⟨isEmpty_of_not (Bool.or_eq_false_iff.mp hwraps).1, fun _ _ _ => rfl⟩
  unwrapped := fun export_ h => ⟨isEmpty_of_not h, fun _ _ _ => rfl⟩

/-- Calls of the box -/
def boxLayout : Layout site.boxSide where
  front := []
  heads := [(Runtimes.writeImport site.runtime, .write),
    (Runtimes.flushImport site.runtime, .flush)]
  links := boxLinks site.box
  exported := (exportsTo site.parent site.box).map fun export_ => ⟨site.parent.box.name, export_⟩
  needswrapper := fun export_ => !export_.boundargs.isEmpty
  imports_eq := rfl
  table_eq := by
    change (sysJumptable site.parent site.box).map withWrapper = _
    rw [sysJumptable, parentexports, List.map_cons, List.map_cons, linkedExports, List.map_map,
      List.map_map]
    rfl
  entry_eq := by
    intro j hj
    change site.boxEntry j = ((sysJumptable site.parent site.box).map withWrapper)[_]?
    rw [site.boxEntry_eq hj, List.length_nil, Nat.zero_add]
  front_fn := Layout.noFront
  heads_made := by
    rw [List.forall_mem_cons, List.forall_mem_singleton]
    exact ⟨fun hwraps => absurd hwraps Bool.false_ne_true,
      fun hwraps => absurd hwraps Bool.false_ne_true⟩
  heads_fn := by rintro head (- | ⟨_, - | ⟨_, ⟨⟩⟩⟩) link ⟨⟩
  direct := fun e hwraps => ⟨isEmpty_of_not hwraps, fun _ _ _ => rfl⟩
  unwrapped := fun export_ h => ⟨isEmpty_of_not h, fun _ _ _ => rfl⟩

/-! ## Section 3: What fits -/

/-- An export fits where it is declared or has a wrapper. -/
structure ExportFits (declared wrapped : Bool) (export_ : Fn) : Prop where
  names : declared = true ∨ wrapped = true → export_.NamesFit false
  sizes : wrapped = true → export_.SizesFit

/-- An import has the arguments and the result of its export. -/
structure LinkFits (import_ export_ : Fn) : Prop where
  count : import_.preboundargs.length = export_.postboundargs.length
  returns : import_.rets ≠ [] → export_.rets ≠ []

/-- When calls are delivered. Nothing is bound but by exports of the parent, and by these just if
the box is initialized lazily and the parent imports of it. -/
structure Fits (site : Site) : Prop where
  stack : 0 < site.box.box.stackSize
  order : (parentLinks site.parent site.box).map Prod.snd <+:
    (publics site.box).map fun export_ => ⟨site.box.box.name, export_⟩
  sysOrder : (boxLinks site.box).map Prod.snd <+:
    (exportsTo site.parent site.box).map fun export_ => ⟨site.parent.box.name, export_⟩
  imports : ∀ e ∈ parentLinks site.parent site.box,
    e.1.boundargs = [] ∧ (site.lazyInit = true → e.1.NamesFit false)
  sysImports : ∀ e ∈ boxLinks site.box, e.1.boundargs = []
  exports : ∀ export_ ∈ publics site.box, export_.boundargs = [] ∧
    (export_.source = site.box.box.name → export_.NamesFit false)
  sysExports : ∀ export_ ∈ exportsTo site.parent site.box,
    ExportFits (export_.source = site.parent.box.name) (!export_.boundargs.isEmpty) export_ ∧
      (export_.boundargs ≠ [] →
        site.lazyInit = true ∧ parentLinks site.parent site.box ≠ [])
  links : ∀ e ∈ parentLinks site.parent site.box, LinkFits e.1 e.2.export_
  sysLinks : ∀ e ∈ boxLinks site.box, LinkFits e.1 e.2.export_ ∧
    (e.1.rets ≠ [] → e.2.export_.boundargs ≠ [] →
      ∃ last ∈ (parentLinks site.parent site.box).getLast?, last.1.rets ≠ [])

variable {site : Site}

theorem not_isEmpty_iff {fn : Fn} : (!fn.boundargs.isEmpty) = true ↔ fn.boundargs ≠ [] := by
  rw [Bool.not_eq_true', ← Bool.not_eq_true, List.isEmpty_iff]

/-- Without a stack the first function is called instead of `__box_init`. -/
theorem stack_of_delivers (h : site.parentSide.Delivers) : 0 < site.box.box.stackSize := by
  by_contra hstack
  obtain ⟨wrapped, hentry, -⟩ := h.calls 0 _ _ rfl
  have hlen : 0 < site.parentimports.length := Nat.succ_pos _
  change site.parentEntry 0 = _ at hentry
  rw [site.parentEntry_eq hlen, jumptable, if_neg hstack, exports, List.map_cons,
    List.getElem?_cons_succ] at hentry
  have hmem := List.mem_of_getElem? hentry
  rw [publicExports, List.map_map] at hmem
  obtain ⟨export_, -, heq⟩ := List.mem_map.mp hmem
  cases congrArg Prod.fst heq

theorem filter_parentWraps (himports : ∀ e ∈ parentLinks site.parent site.box,
      e.1.boundargs = []) : site.parentimports.filter site.parentWraps =
    if site.lazyInit then (parentLinks site.parent site.box).map target else [] := by
  have hwraps : ∀ e ∈ (parentLinks site.parent site.box).map target,
      site.parentWraps e = site.lazyInit := by
    refine List.forall_mem_map.mpr fun e he => ?_
    change (!e.1.boundargs.isEmpty || site.lazyInit) = _
    rw [himports e he]
    rfl
  rw [parentimports, List.filter_cons_of_neg Bool.false_ne_true]
  cases hlazy : site.lazyInit with
  | false =>
    rw [if_neg Bool.false_ne_true, List.filter_eq_nil_iff]
    intro e he
    rw [hwraps e he, hlazy]
    exact Bool.false_ne_true
  | true =>
    rw [if_pos rfl, List.filter_eq_self]
    intro e he
    rw [hwraps e he, hlazy]

theorem filter_wraps (himports : ∀ e ∈ boxLinks site.box, e.1.boundargs = []) :
    site.imports.filter wraps = [] := by
  rw [List.filter_eq_nil_iff, imports, List.forall_mem_append]
  constructor
  · rw [List.forall_mem_cons, List.forall_mem_singleton]
    exact ⟨Bool.false_ne_true, Bool.false_ne_true⟩
  · refine List.forall_mem_map.mpr fun e he => ?_
    change ¬(!e.1.boundargs.isEmpty) = true
    rw [himports e he]
    exact Bool.false_ne_true

/-- The import that the wrappers of the parent's exports look at -/
theorem parentStale_eq (himports : ∀ e ∈ parentLinks site.parent site.box,
      e.1.boundargs = []) : site.boxSide.stale =
    if site.lazyInit then
      (parentLinks site.parent site.box).getLast?.map fun last => last.1.rets
    else none := by
  change wrappedRets site.parentWraps site.parentimports = _
  rw [wrappedRets, filter_parentWraps himports]
  cases site.lazyInit with
  | false => rfl
  | true =>
    rw [if_pos rfl, if_pos rfl, List.getLast?_map, Option.map_map]
    rfl

/-- There is none for the wrappers of the box. -/
theorem boxStale_eq (himports : ∀ e ∈ boxLinks site.box, e.1.boundargs = []) :
    site.parentSide.stale = none := by
  change wrappedRets wraps site.imports = none
  rw [wrappedRets, filter_wraps himports]
  rfl

theorem returns_iff {side : Side} (hret : side.retConvert = fun _ v => v) {import_ export_ : Fn}
    {wrapped : Bool} : side.Returns import_ export_ wrapped ↔
      (import_.rets ≠ [] → export_.rets ≠ [] ∧ (wrapped = true → side.stale.getD [] ≠ [])) := by
  rw [Layout.returns_iff]
  refine forall_congr' fun _ => ?_
  rw [hret]
  constructor
  · rintro ⟨ret, hmem, -, hstale⟩
    refine ⟨fun hnil => ?_, hstale⟩
    rw [hnil] at hmem
    cases hmem
  · rintro ⟨hne, hstale⟩
    obtain ⟨ret, rets, heq⟩ := List.exists_cons_of_ne_nil hne
    rw [heq]
    exact ⟨ret, rfl, fun _ _ => rfl, hstale⟩

/-- Wrappers of imports with bound arguments do not compile. -/
theorem unbound_of_fits {side : Side} {l : Layout side} (h : l.Fits)
    (hprebound : side.prebound = false)
    (hwraps : ∀ e : Fn × Link, e.1.boundargs ≠ [] → side.wraps (target e) = true) :
    ∀ e ∈ l.links, e.1.boundargs = [] := by
  intro e he
  by_contra hbound
  have harity := (h.imports e he (hwraps e hbound)).arity
  rw [hprebound] at harity
  exact hbound (harity.resolve_left Bool.false_ne_true)

theorem fits_of_delivers (h : site.Delivers) : site.Fits := by
  obtain ⟨hparent, hbox⟩ := h
  have hstack := stack_of_delivers hparent
  have hp := (site.parentLayout hstack).delivers_iff.mp hparent
  have hb := site.boxLayout.delivers_iff.mp hbox
  have himports : ∀ e ∈ parentLinks site.parent site.box, e.1.boundargs = [] :=
    unbound_of_fits hp rfl fun e hbound => by
      change (!e.1.boundargs.isEmpty || site.lazyInit) = true
      rw [not_isEmpty_iff.mpr hbound]
      rfl
  have hsysImports : ∀ e ∈ boxLinks site.box, e.1.boundargs = [] :=
    unbound_of_fits hb rfl fun e => not_isEmpty_iff.mpr
  refine ⟨hstack, hp.order, hb.order, fun e he => ⟨himports e he, fun hlazy => ?_⟩, hsysImports,
    fun export_ hmem => ⟨?_, fun hsource => ?_⟩, fun export_ hmem => ⟨⟨?_, fun hwrapped => ?_⟩,
      fun hbound => ?_⟩, fun e he => ⟨hp.counts e he, ?_⟩, fun e he => ⟨⟨hb.counts e he, ?_⟩, ?_⟩⟩
  · refine (hp.imports e he ?_).names
    change (!e.1.boundargs.isEmpty || site.lazyInit) = true
    rw [hlazy, Bool.or_true]
  · by_contra hbound
    have hstale := (hp.exports _ (List.mem_map_of_mem hmem) (not_isEmpty_iff.mpr hbound)).stale
    rw [boxStale_eq hsysImports] at hstale
    cases hstale
  · exact hp.declares _ (List.mem_map_of_mem hmem) (decide_eq_true hsource)
  · exact fun h => h.elim (hb.declares _ (List.mem_map_of_mem hmem)) fun hwrapped =>
      (hb.exports _ (List.mem_map_of_mem hmem) hwrapped).names
  · exact (hb.exports _ (List.mem_map_of_mem hmem) hwrapped).sizes
  · have hstale := (hb.exports _ (List.mem_map_of_mem hmem) (not_isEmpty_iff.mpr hbound)).stale
    rw [parentStale_eq himports] at hstale
    split_ifs at hstale with hlazy
    · refine ⟨hlazy, fun hnil => ?_⟩
      rw [hnil] at hstale
      cases hstale
    · cases hstale
  · exact fun hrets => ((returns_iff rfl).mp (hp.returns e he) hrets).1
  · exact fun hrets => ((returns_iff rfl).mp (hb.returns e he) hrets).1
  · intro hrets hbound
    have hstale := ((returns_iff rfl).mp (hb.returns e he) hrets).2 (not_isEmpty_iff.mpr hbound)
    rw [parentStale_eq himports] at hstale
    split_ifs at hstale with hlazy
    · cases hlast : (parentLinks site.parent site.box).getLast? with
      | none =>
        rw [hlast] at hstale
        exact absurd rfl hstale
      | some last =>
        rw [hlast] at hstale
        exact ⟨last, rfl, hstale⟩
    · exact absurd rfl hstale

theorem delivers_of_fits (h : site.Fits) : site.Delivers := by
  have himports : ∀ e ∈ parentLinks site.parent site.box, e.1.boundargs = [] :=
    fun e he => (h.imports e he).1
  constructor
  · refine (site.parentLayout h.stack).delivers_iff.mpr ⟨h.order, fun e he hwraps => ?_,
      List.forall_mem_map.mpr fun export_ hmem hdeclares => ?_,
      List.forall_mem_map.mpr fun export_ hmem hwrapped => ?_,
      fun e he => (h.links e he).count, fun e he => (returns_iff rfl).mpr fun hrets =>
        ⟨(h.links e he).returns hrets, fun hwrapped => ?_⟩⟩
    · change (!e.1.boundargs.isEmpty || site.lazyInit) = true at hwraps
      rw [himports e he] at hwraps
      exact Runtimes.importFits_of_nil (himports e he) ((h.imports e he).2 hwraps)
        (decide_eq_true rfl)
    · exact (h.exports export_ hmem).2 (of_decide_eq_true hdeclares)
    · exact absurd (h.exports export_ hmem).1 (not_isEmpty_iff.mp hwrapped)
    · obtain ⟨export_, hmem, heq⟩ := List.mem_map.mp (h.order.subset (List.mem_map_of_mem he))
      change (!e.2.export_.boundargs.isEmpty) = true at hwrapped
      rw [← heq] at hwrapped
      exact absurd (h.exports export_ hmem).1 (not_isEmpty_iff.mp hwrapped)
  · refine site.boxLayout.delivers_iff.mpr ⟨h.sysOrder, fun e he hwraps => ?_,
      List.forall_mem_map.mpr fun export_ hmem hdeclares => ?_,
      List.forall_mem_map.mpr fun export_ hmem hwrapped => ?_,
      fun e he => (h.sysLinks e he).1.count, fun e he => (returns_iff rfl).mpr fun hrets =>
        ⟨(h.sysLinks e he).1.returns hrets, fun hwrapped => ?_⟩⟩
    · exact absurd (h.sysImports e he) (not_isEmpty_iff.mp hwraps)
    · exact (h.sysExports export_ hmem).1.names (.inl hdeclares)
    · obtain ⟨hfits, hlazy⟩ := h.sysExports export_ hmem
      obtain ⟨hlazy, hne⟩ := hlazy (not_isEmpty_iff.mp hwrapped)
      have hnames := hfits.names (.inr hwrapped)
      refine ⟨hnames, hfits.sizes hwrapped, fun hjoins => absurd hjoins Bool.false_ne_true, ?_⟩
      rw [parentStale_eq himports, if_pos hlazy, Option.isSome_map, List.getLast?_isSome]
      exact hne
    · obtain ⟨export_, hmem, heq⟩ :=
        List.mem_map.mp (h.sysOrder.subset (List.mem_map_of_mem he))
      have hbound := not_isEmpty_iff.mp hwrapped
      obtain ⟨last, hlast, hstale⟩ := (h.sysLinks e he).2 hrets hbound
      have hexport : export_ = e.2.export_ := congrArg Link.export_ heq
      obtain ⟨hlazy, -⟩ := (h.sysExports export_ hmem).2 (hexport ▸ hbound)
      rw [parentStale_eq himports, if_pos hlazy, hlast]
      exact hstale

end Site

end BentoLinker.Mpu
