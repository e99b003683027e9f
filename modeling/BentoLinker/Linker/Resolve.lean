import BentoLinker.Lib.FallibleFold
import BentoLinker.Lib.Overriding
import BentoLinker.Linker.Signature
import Mathlib.Data.List.Sort
import Mathlib.Order.Basic

/-!
# Linking of Imports and Exports

`Box.link`: every import of a tree of boxes is linked to an export of the box itself, of its
parent or of one of its boxes.

- `sealExports`: one export for each scope and name
- `Family.targets`, `removeWeaks`: what an import can be linked to
- `Family.linkBox`, `Tree.link`: one box, and all boxes of a tree
- `settled_sealExports`: what is left of the exports of a box
- `Family.linkBox_eq_ok`: what the imports of a box are linked to

Boxes are equal if their names are, so that a link has the name of its box.
-/

namespace BentoLinker.Linker

open FallibleFold Overriding

/-- `Box`, as far as its functions and the numbers of its calls depend on it -/
structure Box where
  name : String
  runtime : String
  /-- `stack.size` -/
  stackSize : ℕ
  imports : List Fn
  exports : List Fn
  deriving DecidableEq

/-- A box with the boxes below it -/
inductive Tree where
  | node (box : Box) (boxes : List Tree)

def Tree.root : Tree → Box
  | .node box _ => box

/-- The assertions of `Box.link`, with the function they name -/
inductive LinkError where
  /-- `Incompatible imports for` -/
  | incompatibleImports (name : String)
  /-- `Conflicting exports for` -/
  | conflictingExports (name : String)
  /-- `Incompatible exports for` -/
  | incompatibleExports (name : String)
  /-- `No scope found for export` -/
  | noScope (name : String)
  /-- `No export found for` -/
  | noExport (name : String)
  /-- `Ambiguous import/export for` -/
  | ambiguous (name : String)
  /-- `Incompatible import/export for` -/
  | incompatible (name : String)
  /-- the size of an array is not an argument, a `KeyError` of `iscompatible` -/
  | noSize (name : String)
  deriving Repr, DecidableEq

/-- The export of a `Link`, with the box that has it -/
structure Link where
  box : String
  export_ : Fn
  deriving DecidableEq

/-- A box with the boxes around it -/
structure Family where
  /-- `parent`, the parent of the parent, and so on -/
  above : List Box
  box : Box
  /-- `boxes` -/
  boxes : List Box
  deriving DecidableEq

/-! ## Section 1: One box -/

/-- `assert self.iscompatible(other)` -/
def checkCompatible (self other : Fn) (error : LinkError) : Except LinkError Unit :=
  match self.iscompatible other with
  | some true => .ok ()
  | some false => .error error
  | none => .error (.noSize self.name)

/-- An import goes into `importset`. -/
def insertImport (box : String) (import_ : Fn) : List Fn → Except LinkError (List Fn)
  | [] => .ok [import_]
  | conflict :: importset =>
    if conflict.key = import_.key then do
      checkCompatible conflict import_ (.incompatibleImports import_.name)
      -- prioritize our own imports
      return (if import_.source = box then import_ else conflict) :: importset
    else do
      return conflict :: (← insertImport box import_ importset)

/-- An export goes into `exportset`. -/
def insertExport (export_ : Fn) : List Fn → Except LinkError (List Fn)
  | [] => .ok [export_]
  | conflict :: exportset =>
    if conflict.key = export_.key then
      if export_.weak || conflict.weak then do
        checkCompatible conflict export_ (.incompatibleExports export_.name)
        return (if conflict.weak then export_ else conflict) :: exportset
      else .error (.conflictingExports export_.name)
    else do
      return conflict :: (← insertExport export_ exportset)

/-- `sorted`, of functions -/
def sorted (fns : List Fn) : List Fn := fns.insertionSort fun fn fn' => fn.name ≤ fn'.name

/-- The imports stay as they are, but those of one name have to be compatible. -/
def checkImports (box : Box) : Except LinkError (List Fn) :=
  box.imports.foldlM (fun importset import_ => insertImport box.name import_ importset) []

/-- `exportset`, with all exports of a box -/
def exportset (box : Box) : Except LinkError (List Fn) :=
  box.exports.foldlM (fun exportset export_ => insertExport export_ exportset) []

/-- The exports of a box after conflicts have been settled -/
def sealExports (box : Box) : Except LinkError (List Fn) := do
  return sorted (← exportset box)

/-- One round drops all weak exports, so that there is no second one. -/
def removeWeaks (targets : List Link) : List Link :=
  if 1 < targets.length ∧ targets.any fun link => link.export_.weak then
    targets.filter fun link => !link.export_.weak
  else targets

namespace Family

/-- Where the exports of an import are looked for -/
def scopes (family : Family) : List Box :=
  family.box :: (family.above.head?.toList ++ family.boxes)

/-- `targets` -/
def targets (family : Family) (import_ : Fn) : List Link :=
  family.scopes.flatMap fun scope =>
    (scope.exports.filter fun export_ =>
      import_.islinkable export_ scope.name family.box.name).map (Link.mk scope.name)

/-- The scope of every export is a box. -/
def checkScopes (family : Family) : Except LinkError Unit :=
  match family.box.exports.find? fun export_ =>
    export_.scope.any fun scope => family.scopes.all fun box => box.name ≠ scope with
  | none => .ok ()
  | some export_ => .error (.noScope export_.name)

/-- An import with its link -/
def linkImport (family : Family) (import_ : Fn) : Except LinkError (Fn × Option Link) :=
  let targets := family.targets import_
  if targets = [] ∧ import_.weak = false then .error (.noExport import_.name)
  else
    match removeWeaks targets with
    | [] => .ok (import_, none)
    | [link] => do
      checkCompatible link.export_ import_ (.incompatible import_.name)
      return (import_, some link)
    | _ => .error (.ambiguous import_.name)

/-- The exports of a box, and its imports with their links -/
def linkBox (family : Family) : Except LinkError (List Fn × List (Fn × Option Link)) := do
  let _ ← checkImports family.box
  let exports ← sealExports family.box
  let family := { family with box := { family.box with exports } }
  -- now create linkages
  family.checkScopes
  return (exports, ← (sorted family.box.imports).mapM family.linkImport)

end Family

/-! ## Section 2: Trees -/

/-- A tree that has been linked: boxes as they have been declared, their exports, and their
imports with the links -/
inductive Linked where
  | node (box : Box) (exports : List Fn) (imports : List (Fn × Option Link))
      (boxes : List Linked)

def Linked.box : Linked → Box
  | .node box _ _ _ => box

/-- `exports`, after linking -/
def Linked.exports : Linked → List Fn
  | .node _ exports _ _ => exports

/-- `imports`, after linking -/
def Linked.imports : Linked → List (Fn × Option Link)
  | .node _ _ imports _ => imports

def Linked.boxes : Linked → List Linked
  | .node _ _ _ boxes => boxes

mutual

/-- `Box.link`, for a box that its parent has got to -/
def Tree.link (above : List Box) : Tree → Except LinkError Linked
  | .node box trees => do
    let (exports, imports) ← Family.linkBox ⟨above, box, trees.map Tree.root⟩
    return .node box exports imports (← linkTrees ({ box with exports } :: above) trees)

/-- `link children` -/
def linkTrees (above : List Box) : List Tree → Except LinkError (List Linked)
  | [] => return []
  | tree :: trees => do
    return (← tree.link above) :: (← linkTrees above trees)

end

mutual

/-- Every box of a tree, with the boxes around it -/
def Tree.families (above : List Box) : Tree → List Family
  | .node box trees =>
    ⟨above, box, trees.map Tree.root⟩ :: familiesOfTrees (box :: above) trees

def familiesOfTrees (above : List Box) : List Tree → List Family
  | [] => []
  | tree :: trees => tree.families above ++ familiesOfTrees above trees

end

/-- A box of a linked tree -/
structure Node where
  family : Family
  exports : List Fn
  imports : List (Fn × Option Link)
  deriving DecidableEq

mutual

def Linked.nodes (above : List Box) : Linked → List Node
  | .node box exports imports boxes =>
    ⟨⟨above, box, boxes.map Linked.box⟩, exports, imports⟩ :: nodesOfAll (box :: above) boxes

def nodesOfAll (above : List Box) : List Linked → List Node
  | [] => []
  | linked :: boxes => linked.nodes above ++ nodesOfAll above boxes

end

/-! ## Section 3: Exports -/

theorem checkCompatible_eq_ok {self other : Fn} {error : LinkError} {u : Unit}
    (h : checkCompatible self other error = .ok u) : self.iscompatible other = some true := by
  unfold checkCompatible at h
  split at h
  · assumption
  · cases h
  · cases h

/-- An export is new, replaces a weak one, or is weak and left out. -/
theorem insertExport_cases {export_ : Fn} {exportset exportset' : List Fn}
    (h : insertExport export_ exportset = .ok exportset') :
    (export_.key ∉ exportset.map Fn.key ∧ exportset' = exportset ++ [export_]) ∨
      (∃ front conflict back, exportset = front ++ conflict :: back ∧
        conflict.key = export_.key ∧ conflict.weak ∧ exportset' = front ++ export_ :: back) ∨
      (export_.key ∈ exportset.map Fn.key ∧ export_.weak ∧ exportset' = exportset) := by
  induction exportset generalizing exportset' with
  | nil =>
    cases h
    exact .inl ⟨List.not_mem_nil, rfl⟩
  | cons conflict exportset ih =>
    unfold insertExport at h
    split at h
    · next hkey =>
      split at h
      · next hweak =>
        rw [bind_ok] at h
        obtain ⟨_, -, h⟩ := h
        cases h
        cases hconflict : conflict.weak with
        | true => exact .inr (.inl ⟨[], conflict, exportset, rfl, hkey, hconflict, rfl⟩)
        | false =>
          rw [hconflict, Bool.or_false] at hweak
          exact .inr (.inr ⟨hkey ▸ List.mem_cons_self, hweak, rfl⟩)
      · cases h
    · next hkey =>
      rw [bind_ok] at h
      obtain ⟨rest, hrest, h⟩ := h
      cases h
      rcases ih hrest with ⟨hnew, rfl⟩ | ⟨front, old, back, rfl, hold, hweak, rfl⟩ |
        ⟨hmem, hweak, rfl⟩
      · refine .inl ⟨?_, rfl⟩
        rw [List.map_cons, List.mem_cons, not_or]
        exact ⟨fun heq => hkey heq.symm, hnew⟩
      · exact .inr (.inl ⟨conflict :: front, old, back, rfl, hold, hweak, rfl⟩)
      · exact .inr (.inr ⟨List.mem_cons_of_mem _ hmem, hweak, rfl⟩)

/-- `raw` are the exports that have been gone through. -/
theorem settled_insertExport {export_ : Fn} {raw exportset exportset' : List Fn}
    (hsettled : Settled Fn.weak Fn.key raw exportset)
    (h : insertExport export_ exportset = .ok exportset') :
    Settled Fn.weak Fn.key (raw ++ [export_]) exportset' := by
  rcases insertExport_cases h with ⟨hnew, rfl⟩ | ⟨front, conflict, back, rfl, hkey, hweak, rfl⟩ |
    ⟨hmem, hweak, rfl⟩
  · exact hsettled.add hnew
  · exact hsettled.replace hkey hweak
  · exact hsettled.keep hmem hweak

theorem perm_sorted (fns : List Fn) : (sorted fns).Perm fns := List.perm_insertionSort _ fns

/-- What is left of the exports of a box -/
theorem settled_sealExports {box : Box} {exports : List Fn}
    (h : sealExports box = .ok exports) : Settled Fn.weak Fn.key box.exports exports := by
  unfold sealExports at h
  rw [bind_ok] at h
  obtain ⟨exportset, hset, h⟩ := h
  cases h
  refine .perm ?_ (perm_sorted exportset)
  have hloop : ∀ (rest raw exportset exportset' : List Fn),
      Settled Fn.weak Fn.key raw exportset →
      rest.foldlM (fun exportset export_ => insertExport export_ exportset) exportset =
        .ok exportset' →
      Settled Fn.weak Fn.key (raw ++ rest) exportset' := by
    intro rest
    induction rest with
    | nil =>
      intro raw exportset exportset' hsettled h
      cases h
      rwa [List.append_nil]
    | cons export_ rest ih =>
      intro raw exportset exportset' hsettled h
      rw [List.foldlM_cons, bind_ok] at h
      obtain ⟨next, hnext, h⟩ := h
      have hrest := ih _ _ _ (settled_insertExport hsettled hnext) h
      rwa [List.append_assoc, List.singleton_append] at hrest
  exact hloop box.exports [] [] exportset .nil hset

/-! ## Section 4: Links of a box -/

/-- The strength of a link is the one of its export. -/
def Link.weak (link : Link) : Bool := link.export_.weak

/-- The exports of a box have been settled. -/
def Box.SealedAs (box box' : Box) : Prop :=
  ∃ exports, sealExports box = .ok exports ∧ box' = { box with exports }

theorem removeWeaks_eq_dropWeak (targets : List Link) :
    removeWeaks targets = dropWeak Link.weak targets := rfl

/-- What an import can be linked to in one box -/
def Box.targets (scope : Box) (import_ : Fn) (importbox : String) : List Link :=
  (scope.exports.filter fun export_ => import_.islinkable export_ scope.name importbox).map
    (Link.mk scope.name)

theorem Box.thins_targets {scope scope' : Box} (h : scope.SealedAs scope') (import_ : Fn)
    (importbox : String) :
    Thins Link.weak (scope.targets import_ importbox) (scope'.targets import_ importbox) := by
  obtain ⟨exports, hexports, rfl⟩ := h
  refine Thins.map (fun _ => rfl) ((settled_sealExports hexports).filter ?_)
  intro export_ export' hkey
  exact import_.islinkable_of_key_eq hkey scope.name importbox

namespace Family

theorem targets_eq (family : Family) (import_ : Fn) :
    family.targets import_ =
      family.box.targets import_ family.box.name ++
        (family.above.head?.toList.flatMap fun scope =>
          scope.targets import_ family.box.name) ++
        family.boxes.flatMap fun scope => scope.targets import_ family.box.name := by
  unfold targets scopes
  rw [List.flatMap_cons, List.flatMap_append, List.append_assoc]
  rfl

/-- Box and parent have settled their exports, when the box is linked. -/
theorem thins_targets {family : Family} {above : List Box} {box : Box}
    (habove : List.Forall₂ Box.SealedAs family.above above) (hbox : family.box.SealedAs box)
    (import_ : Fn) :
    Thins Link.weak (family.targets import_)
      (targets { family with above, box } import_) := by
  have hname : box.name = family.box.name := by
    obtain ⟨exports, -, rfl⟩ := hbox
    rfl
  rw [targets_eq, targets_eq, hname]
  refine ((Box.thins_targets hbox _ _).append ?_).append (.refl _)
  generalize family.above = above₀ at habove ⊢
  cases habove with
  | nil => exact .refl _
  | cons hparent _ =>
    rw [List.head?_cons, List.head?_cons, Option.toList_some, Option.toList_some,
      List.flatMap_singleton, List.flatMap_singleton]
    exact Box.thins_targets hparent _ _

/-- An import has the link that is left, if there is one. -/
theorem linkImport_eq_ok {family : Family} {import_ : Fn} {entry : Fn × Option Link}
    (h : family.linkImport import_ = .ok entry) :
    entry.1 = import_ ∧ removeWeaks (family.targets import_) = entry.2.toList ∧
      ∀ link ∈ entry.2, link.export_.iscompatible import_ = some true := by
  unfold linkImport at h
  dsimp only at h
  split at h
  · cases h
  · split at h
    · next hnil =>
      cases h
      refine ⟨rfl, hnil, ?_⟩
      intro link hlink
      cases hlink
    · next link hlink =>
      rw [bind_ok] at h
      obtain ⟨_, hcompatible, h⟩ := h
      cases h
      refine ⟨rfl, hlink, ?_⟩
      intro link' hlink'
      cases hlink'
      exact checkCompatible_eq_ok hcompatible
    · cases h

/-- What a box is linked to -/
theorem linkBox_eq_ok {family : Family} {exports : List Fn} {imports : List (Fn × Option Link)}
    (h : family.linkBox = .ok (exports, imports)) :
    sealExports family.box = .ok exports ∧
      (imports.map Prod.fst).Perm family.box.imports ∧
      ∀ entry ∈ imports,
        linkImport { family with box := { family.box with exports } } entry.1 = .ok entry := by
  unfold linkBox at h
  rw [bind_ok] at h
  obtain ⟨_, -, h⟩ := h
  rw [bind_ok] at h
  obtain ⟨exports', hexports, h⟩ := h
  rw [bind_ok] at h
  obtain ⟨_, -, h⟩ := h
  rw [bind_ok] at h
  obtain ⟨imports', himports, h⟩ := h
  cases h
  have hforall := forall₂_of_mapM himports
  refine ⟨hexports, ?_, ?_⟩
  · have hmap : imports.map Prod.fst = sorted family.box.imports := by
      clear himports
      dsimp only at hforall
      generalize sorted family.box.imports = l at hforall ⊢
      induction hforall with
      | nil => rfl
      | cons hentry _ ih => rw [List.map_cons, ih, (linkImport_eq_ok hentry).1]
    rw [hmap]
    exact perm_sorted _
  · intro entry hentry
    obtain ⟨import_, -, hlink⟩ := exists_left_of_mem hforall hentry
    rwa [(linkImport_eq_ok hlink).1]

end Family

end BentoLinker.Linker
