import BentoLinker.Linker.Resolve
import Mathlib.Data.Multiset.Bind

/-!
# Completeness of Linking

Every import that can be linked is linked, to the only strongest export.

- `Node.Complete`: the imports of a box are linked to the strongest exports
- `Tree.Reordered`: boxes and functions are declared in another order
- `WellLinked`: all boxes of a tree are complete, and the order makes no difference
- `linked_iff`: they are if and only if no import has several weak exports and no strong one
-/

namespace BentoLinker.Linker

open FallibleFold Overriding

/-! ## Section 1: What should hold -/

/-- All imports of a box are linked, each to the only export of greatest strength among those it
can be linked to, with a compatible signature. -/
structure Node.Complete (node : Node) : Prop where
  imports : (node.imports.map Prod.fst).Perm node.family.box.imports
  chosen : ∀ entry ∈ node.imports, entry.2.toList = best Link.weak (node.family.targets entry.1)
  compatible : ∀ entry ∈ node.imports, ∀ link ∈ entry.2,
    link.export_.iscompatible entry.1 = some true

/-- The names of the boxes from the root to a box -/
def Family.path (family : Family) : List String := (family.box :: family.above).map Box.name

/-- The imports of a box with their links -/
def Node.links (node : Node) : List (List String × Fn × Option Link) :=
  node.imports.map fun entry => (node.family.path, entry)

/-- All imports of a tree with their links -/
def Linked.links (linked : Linked) : List (List String × Fn × Option Link) :=
  (linked.nodes []).flatMap Node.links

/-- The same box, with its functions declared in another order -/
structure Box.Reordered (box box' : Box) : Prop where
  name : box.name = box'.name
  runtime : box.runtime = box'.runtime
  stackSize : box.stackSize = box'.stackSize
  imports : box.imports.Perm box'.imports
  exports : box.exports.Perm box'.exports

mutual

/-- The same tree, with boxes and functions declared in another order -/
def Tree.Reordered : Tree → Tree → Prop
  | .node box trees, .node box' trees' => box.Reordered box' ∧ TreesReordered trees trees'

def TreesReordered : List Tree → List Tree → Prop
  | [], trees' => trees' = []
  | tree :: trees, trees' =>
    ∃ tree' rest, trees'.Perm (tree' :: rest) ∧ tree.Reordered tree' ∧ TreesReordered trees rest

end

/-- Every import of a tree is linked to the strongest export it can be linked to, and the order
of declarations makes no difference. -/
structure WellLinked (tree : Tree) (linked : Linked) : Prop where
  families : (linked.nodes []).map Node.family = tree.families []
  complete : ∀ node ∈ linked.nodes [], node.Complete
  orderFree : ∀ tree' linked', tree.Reordered tree' → tree'.link [] = .ok linked' →
    linked'.links.Perm linked.links

/-! ## Section 2: The boxes of a tree -/

/-- Where a node of the linked tree comes from: its box has been linked, when the boxes above it
had settled their exports. -/
structure LinkedFrom (family : Family) (node : Node) : Prop where
  family_eq : node.family = family
  linkBox : ∃ above, List.Forall₂ Box.SealedAs family.above above ∧
    Family.linkBox { family with above } = .ok (node.exports, node.imports)

theorem map_box_of_linkTrees {above : List Box} {trees : List Tree} {boxes : List Linked}
    (h : linkTrees above trees = .ok boxes) : boxes.map Linked.box = trees.map Tree.root := by
  induction trees generalizing boxes with
  | nil =>
    unfold linkTrees at h
    cases h
    rfl
  | cons tree trees ih =>
    unfold linkTrees at h
    rw [bind_ok] at h
    obtain ⟨linked, hlinked, h⟩ := h
    rw [bind_ok] at h
    obtain ⟨rest, hrest, h⟩ := h
    cases h
    rw [List.map_cons, List.map_cons, ih hrest]
    congr 1
    cases tree with
    | node box trees =>
      unfold Tree.link at hlinked
      rw [bind_ok] at hlinked
      obtain ⟨_, -, hlinked⟩ := hlinked
      rw [bind_ok] at hlinked
      obtain ⟨_, -, hlinked⟩ := hlinked
      cases hlinked
      rfl

mutual

/-- Every box of an accepted tree has been linked. -/
theorem forall₂_of_link {above above' : List Box} {tree : Tree} {linked : Linked}
    (habove : List.Forall₂ Box.SealedAs above above') (h : tree.link above' = .ok linked) :
    List.Forall₂ LinkedFrom (tree.families above) (linked.nodes above) := by
  cases tree with
  | node box trees =>
    unfold Tree.link at h
    rw [bind_ok] at h
    obtain ⟨⟨exports, imports⟩, hbox, h⟩ := h
    rw [bind_ok] at h
    obtain ⟨boxes, hboxes, h⟩ := h
    cases h
    unfold Tree.families Linked.nodes
    refine .cons ⟨?_, above', habove, hbox⟩ ?_
    · rw [map_box_of_linkTrees hboxes]
    · exact forall₂_of_linkTrees (.cons ⟨exports, (Family.linkBox_eq_ok hbox).1, rfl⟩ habove)
        hboxes

theorem forall₂_of_linkTrees {above above' : List Box} {trees : List Tree}
    {boxes : List Linked} (habove : List.Forall₂ Box.SealedAs above above')
    (h : linkTrees above' trees = .ok boxes) :
    List.Forall₂ LinkedFrom (familiesOfTrees above trees) (nodesOfAll above boxes) := by
  cases trees with
  | nil =>
    unfold linkTrees at h
    cases h
    unfold familiesOfTrees nodesOfAll
    exact .nil
  | cons tree trees =>
    unfold linkTrees at h
    rw [bind_ok] at h
    obtain ⟨linked, hlinked, h⟩ := h
    rw [bind_ok] at h
    obtain ⟨rest, hrest, h⟩ := h
    cases h
    unfold familiesOfTrees nodesOfAll
    exact List.rel_append (forall₂_of_link habove hlinked) (forall₂_of_linkTrees habove hrest)

end

/-- Linking keeps the boxes of a tree, with the boxes around them. -/
theorem map_family_nodes {tree : Tree} {linked : Linked} (h : tree.link [] = .ok linked) :
    (linked.nodes []).map Node.family = tree.families [] := by
  have hforall := forall₂_of_link .nil h
  generalize tree.families [] = families at hforall ⊢
  generalize linked.nodes [] = nodes at hforall
  induction hforall with
  | nil => rfl
  | cons hnode _ ih => rw [List.map_cons, ih, hnode.family_eq]

/-- An import of a box that has no weak rivals to choose from has the strongest link. -/
theorem toList_eq_best {family : Family} {node : Node} (h : LinkedFrom family node)
    {entry : Fn × Option Link} (hentry : entry ∈ node.imports)
    (hrivals : ¬WeakRivals Link.weak (family.targets entry.1)) :
    entry.2.toList = best Link.weak (family.targets entry.1) := by
  obtain ⟨above, habove, hbox⟩ := h.linkBox
  obtain ⟨hexports, -, himports⟩ := Family.linkBox_eq_ok hbox
  obtain ⟨-, hweaks, -⟩ := Family.linkImport_eq_ok (himports entry hentry)
  rw [removeWeaks_eq_dropWeak] at hweaks
  rw [← hweaks]
  refine dropWeak_eq_best ?_ hrivals ?_
  · exact Family.thins_targets habove ⟨node.exports, hexports, rfl⟩ entry.1
  · rw [hweaks]
    exact Option.length_toList_le

theorem compatible_of_linkedFrom {family : Family} {node : Node} (h : LinkedFrom family node)
    {entry : Fn × Option Link} (hentry : entry ∈ node.imports) :
    ∀ link ∈ entry.2, link.export_.iscompatible entry.1 = some true := by
  obtain ⟨above, -, hbox⟩ := h.linkBox
  obtain ⟨-, -, himports⟩ := Family.linkBox_eq_ok hbox
  exact (Family.linkImport_eq_ok (himports entry hentry)).2.2

theorem imports_of_linkedFrom {family : Family} {node : Node} (h : LinkedFrom family node) :
    (node.imports.map Prod.fst).Perm family.box.imports := by
  obtain ⟨above, -, hbox⟩ := h.linkBox
  exact (Family.linkBox_eq_ok hbox).2.1

/-- The imports of a box have a strongest export each, or none at all. -/
def Family.Decided (family : Family) : Prop :=
  ∀ import_ ∈ family.box.imports, ¬WeakRivals Link.weak (family.targets import_)

instance (family : Family) : Decidable family.Decided := by
  unfold Family.Decided
  infer_instance

theorem complete_iff {family : Family} {node : Node} (h : LinkedFrom family node) :
    node.Complete ↔ family.Decided := by
  constructor
  · intro hcomplete import_ himport hrivals
    rw [← (imports_of_linkedFrom h).mem_iff] at himport
    obtain ⟨entry, hentry, rfl⟩ := List.mem_map.mp himport
    have hlength := best_length_of_weakRivals hrivals
    rw [← h.family_eq, ← hcomplete.chosen entry hentry] at hlength
    exact absurd hlength (Nat.not_lt.mpr Option.length_toList_le)
  · intro hdecided
    constructor
    · rw [h.family_eq]
      exact imports_of_linkedFrom h
    · intro entry hentry
      rw [h.family_eq]
      apply toList_eq_best h hentry
      apply hdecided
      rw [← (imports_of_linkedFrom h).mem_iff]
      exact List.mem_map_of_mem hentry
    · intro entry hentry
      exact compatible_of_linkedFrom h hentry

/-! ## Section 3: The order of declarations -/

/-- The boxes around a box are the same, declared in another order. -/
structure Family.Reordered (family family' : Family) : Prop where
  above : List.Forall₂ Box.Reordered family.above family'.above
  box : family.box.Reordered family'.box
  boxes : Multiset.Rel Box.Reordered family.boxes family'.boxes

theorem root_reordered {tree tree' : Tree} (h : tree.Reordered tree') :
    tree.root.Reordered tree'.root := by
  cases tree with
  | node box trees =>
    cases tree' with
    | node box' trees' =>
      unfold Tree.Reordered at h
      exact h.1

theorem rel_roots {trees trees' : List Tree} (h : TreesReordered trees trees') :
    Multiset.Rel Box.Reordered (trees.map Tree.root) (trees'.map Tree.root) := by
  induction trees generalizing trees' with
  | nil =>
    unfold TreesReordered at h
    subst h
    exact .zero
  | cons tree trees ih =>
    unfold TreesReordered at h
    obtain ⟨tree', rest, hperm, htree, hrest⟩ := h
    rw [Multiset.coe_eq_coe.mpr (hperm.map Tree.root)]
    exact .cons (root_reordered htree) (ih hrest)

theorem familiesOfTrees_eq (above : List Box) (trees : List Tree) :
    familiesOfTrees above trees = trees.flatMap (Tree.families above) := by
  induction trees with
  | nil =>
    unfold familiesOfTrees
    rfl
  | cons tree trees ih =>
    unfold familiesOfTrees
    rw [ih, List.flatMap_cons]

mutual

/-- The boxes of a tree keep the boxes around them. -/
theorem rel_families {above above' : List Box} {tree tree' : Tree}
    (habove : List.Forall₂ Box.Reordered above above') (h : tree.Reordered tree') :
    Multiset.Rel Family.Reordered (tree.families above) (tree'.families above') := by
  cases tree with
  | node box trees =>
    cases tree' with
    | node box' trees' =>
      unfold Tree.Reordered at h
      obtain ⟨hbox, htrees⟩ := h
      unfold Tree.families
      exact .cons ⟨habove, hbox, rel_roots htrees⟩
        (rel_familiesOfTrees (.cons hbox habove) htrees)

theorem rel_familiesOfTrees {above above' : List Box} {trees trees' : List Tree}
    (habove : List.Forall₂ Box.Reordered above above') (h : TreesReordered trees trees') :
    Multiset.Rel Family.Reordered (familiesOfTrees above trees)
      (familiesOfTrees above' trees') := by
  cases trees with
  | nil =>
    unfold TreesReordered at h
    subst h
    unfold familiesOfTrees
    exact .zero
  | cons tree trees =>
    unfold TreesReordered at h
    obtain ⟨tree', rest, hperm, htree, hrest⟩ := h
    have hfamilies : (familiesOfTrees above' trees').Perm
        (tree'.families above' ++ familiesOfTrees above' rest) := by
      rw [familiesOfTrees_eq, familiesOfTrees_eq, ← List.flatMap_cons]
      exact hperm.flatMap_right _
    rw [Multiset.coe_eq_coe.mpr hfamilies, familiesOfTrees_eq above (tree :: trees),
      List.flatMap_cons, ← familiesOfTrees_eq, ← Multiset.coe_add, ← Multiset.coe_add]
    exact (rel_families habove htree).add (rel_familiesOfTrees habove hrest)

end

theorem targets_perm_of_reordered {scope scope' : Box} (h : scope.Reordered scope') (import_ : Fn)
    (importbox : String) :
    (scope.targets import_ importbox).Perm (scope'.targets import_ importbox) := by
  unfold Box.targets
  rw [h.name]
  exact (h.exports.filter _).map _

theorem flatMap_targets_perm {boxes boxes' : List Box}
    (h : Multiset.Rel Box.Reordered boxes boxes') (import_ : Fn) (importbox : String) :
    (boxes.flatMap fun scope => scope.targets import_ importbox).Perm
      (boxes'.flatMap fun scope => scope.targets import_ importbox) := by
  rw [← Multiset.coe_eq_coe, ← Multiset.coe_bind, ← Multiset.coe_bind, ← Multiset.rel_eq]
  refine Multiset.rel_bind ?_ h
  intro scope scope' hscope
  rw [Multiset.rel_eq, Multiset.coe_eq_coe]
  exact targets_perm_of_reordered hscope import_ importbox

namespace Family

variable {family family' : Family}

/-- What an import can be linked to does not depend on the order. -/
theorem Reordered.targets (h : family.Reordered family') (import_ : Fn) :
    (family.targets import_).Perm (family'.targets import_) := by
  rw [targets_eq, targets_eq, h.box.name]
  refine ((targets_perm_of_reordered h.box _ _).append ?_).append
    (flatMap_targets_perm h.boxes _ _)
  have habove := h.above
  generalize family.above = above at habove ⊢
  generalize family'.above = above' at habove ⊢
  cases habove with
  | nil => exact .refl _
  | cons hparent _ =>
    rw [List.head?_cons, List.head?_cons, Option.toList_some, Option.toList_some,
      List.flatMap_singleton, List.flatMap_singleton]
    exact targets_perm_of_reordered hparent _ _

theorem Reordered.decided (h : family.Reordered family') (hdecided : family.Decided) :
    family'.Decided := by
  intro import_ himport
  rw [← weakRivals_perm (h.targets import_)]
  exact hdecided import_ (h.box.imports.mem_iff.mpr himport)

theorem Reordered.path (h : family.Reordered family') : family.path = family'.path := by
  unfold Family.path
  have hforall : List.Forall₂ Box.Reordered (family.box :: family.above)
      (family'.box :: family'.above) := .cons h.box h.above
  generalize family.box :: family.above = boxes at hforall ⊢
  generalize family'.box :: family'.above = boxes' at hforall ⊢
  induction hforall with
  | nil => rfl
  | cons hbox _ ih => rw [List.map_cons, List.map_cons, ih, hbox.name]

/-- The link an import should get -/
def choice (family : Family) (import_ : Fn) : Option Link :=
  (best Link.weak (family.targets import_)).head?

/-- The links the imports of a box should get -/
def choices (family : Family) : List (List String × Fn × Option Link) :=
  family.box.imports.map fun import_ => (family.path, import_, family.choice import_)

theorem Reordered.choice (h : family.Reordered family') {import_ : Fn}
    (hlength : (best Link.weak (family.targets import_)).length ≤ 1) :
    family.choice import_ = family'.choice import_ := by
  have hperm : (best Link.weak (family.targets import_)).Perm
      (best Link.weak (family'.targets import_)) := best_perm (h.targets import_)
  unfold Family.choice
  match hbest : best Link.weak (family.targets import_), hlength with
  | [], _ =>
    rw [hbest] at hperm
    rw [List.nil_perm.mp hperm]
  | [link], _ =>
    rw [hbest] at hperm
    rw [← List.singleton_perm.mp hperm]

theorem Reordered.choices (h : family.Reordered family')
    (hlength : ∀ import_ ∈ family.box.imports,
      (best Link.weak (family.targets import_)).length ≤ 1) :
    family.choices.Perm family'.choices := by
  have heq : family.choices =
      family.box.imports.map fun import_ =>
        (family'.path, import_, family'.choice import_) := by
    apply List.map_congr_left
    intro import_ himport
    rw [h.path, h.choice (hlength import_ himport)]
  rw [heq]
  exact h.box.imports.map _

end Family

/-- The imports of a box get the links they should. -/
theorem links_perm_choices {family : Family} {node : Node} (h : LinkedFrom family node)
    (hdecided : family.Decided) : node.links.Perm family.choices := by
  have hcomplete := (complete_iff h).mpr hdecided
  have heq : node.links = (node.imports.map Prod.fst).map fun import_ =>
      (family.path, import_, family.choice import_) := by
    unfold Node.links
    rw [List.map_map]
    apply List.map_congr_left
    intro entry hentry
    have hchosen := hcomplete.chosen entry hentry
    rw [h.family_eq] at hchosen ⊢
    rw [Function.comp_apply]
    unfold Family.choice
    rw [← hchosen, Option.head?_toList]
  rw [heq]
  exact (imports_of_linkedFrom h).map _

/-- The imports of a tree get the links they should. -/
theorem flatMap_links_perm {families : List Family} {nodes : List Node}
    (h : List.Forall₂ LinkedFrom families nodes) (hdecided : ∀ family ∈ families, family.Decided) :
    (nodes.flatMap Node.links).Perm (families.flatMap Family.choices) := by
  induction h with
  | nil => exact .refl _
  | cons hnode _ ih =>
    rw [List.flatMap_cons, List.flatMap_cons]
    exact (links_perm_choices hnode (hdecided _ (.head _))).append
      (ih fun family hfamily => hdecided family (.tail _ hfamily))

/-! ## Section 4: Completeness -/

/-- Nothing but the strongest export is left for an import of an accepted tree. -/
theorem best_length_le {family : Family} {node : Node} (h : LinkedFrom family node)
    (hdecided : family.Decided) {import_ : Fn} (himport : import_ ∈ family.box.imports) :
    (best Link.weak (family.targets import_)).length ≤ 1 := by
  rw [← (imports_of_linkedFrom h).mem_iff] at himport
  obtain ⟨entry, hentry, rfl⟩ := List.mem_map.mp himport
  have hchosen := ((complete_iff h).mpr hdecided).chosen entry hentry
  rw [h.family_eq] at hchosen
  rw [← hchosen]
  exact Option.length_toList_le

/-- Trees that differ in the order of declarations only have the same links. -/
theorem links_perm_of_reordered {tree tree' : Tree} {linked linked' : Linked}
    (hdecided : ∀ family ∈ tree.families [], family.Decided) (htree : tree.Reordered tree')
    (h : tree.link [] = .ok linked) (h' : tree'.link [] = .ok linked') :
    linked'.links.Perm linked.links := by
  have hrel := rel_families .nil htree
  have hdecided' : ∀ family' ∈ tree'.families [], family'.Decided := by
    intro family' hfamily'
    obtain ⟨family, hfamily, hreordered⟩ :=
      Multiset.exists_mem_of_rel_of_mem (Multiset.rel_flip.mpr hrel) hfamily'
    exact Family.Reordered.decided hreordered (hdecided family hfamily)
  have hforall := forall₂_of_link .nil h
  have hchoices : ((tree.families []).flatMap Family.choices).Perm
      ((tree'.families []).flatMap Family.choices) := by
    rw [← Multiset.coe_eq_coe, ← Multiset.coe_bind, ← Multiset.coe_bind, ← Multiset.rel_eq]
    refine Multiset.rel_bind (r := fun family family' =>
      family.choices.Perm family'.choices) ?_ (hrel.mono ?_)
    · intro family family' hperm
      rw [Multiset.rel_eq, Multiset.coe_eq_coe]
      exact hperm
    · intro family hfamily family' _ hreordered
      obtain ⟨node, -, hnode⟩ := exists_right_of_mem hforall hfamily
      apply hreordered.choices
      intro import_ himport
      exact best_length_le hnode (hdecided family hfamily) himport
  have hlinks := flatMap_links_perm hforall hdecided
  have hlinks' := flatMap_links_perm (forall₂_of_link .nil h') hdecided'
  exact (hlinks'.trans hchoices.symm).trans hlinks.symm

/-- All imports of an accepted tree are linked as they should if and only if no import has
several weak exports to choose from, and no strong one. -/
theorem linked_iff {tree : Tree} {linked : Linked} (h : tree.link [] = .ok linked) :
    WellLinked tree linked ↔ ∀ family ∈ tree.families [], family.Decided := by
  have hforall := forall₂_of_link .nil h
  constructor
  · intro hwell family hfamily
    obtain ⟨node, hnode, hfrom⟩ := exists_right_of_mem hforall hfamily
    exact (complete_iff hfrom).mp (hwell.complete node hnode)
  · intro hdecided
    constructor
    · exact map_family_nodes h
    · intro node hnode
      obtain ⟨family, hfamily, hfrom⟩ := exists_left_of_mem hforall hnode
      exact (complete_iff hfrom).mpr (hdecided family hfamily)
    · intro tree' linked' htree h'
      exact links_perm_of_reordered hdecided htree h h'

/-- The plug that a runtime adds to its box for `__box_write` -/
def writePlug : Fn where
  name := "__box_write"
  scope := some "a"
  source := "jumptable"
  alias_ := "__box_write"
  weak := true
  noreturn := false
  preboundargs := [Arg.value .i32 none,
    { Arg.value .u8 none with isconst := true, asize := some (.arg "size") },
    Arg.value .usize (some "size")]
  rets := [Arg.value .errsize none]
  boundargs := []
  ispostbound := true
  bound_nodup := nodup_noBound

/-- The import of the plug -/
def writeHook : Fn := { writePlug with source := "write_glue", ispostbound := false }

/-- A box with the plug and its import -/
def pluggedBox : Box := ⟨"a", "jumptable", 0, [writeHook], [writePlug]⟩

/-- The box has a box of the same name. -/
def nestedTree : Tree :=
  .node ⟨"sys", "armv7m_sys", 0, [], []⟩ [.node pluggedBox [.node pluggedBox []]]

/-- Its imports are not linked. -/
def nestedLinked : Linked :=
  .node ⟨"sys", "armv7m_sys", 0, [], []⟩ [] []
    [.node pluggedBox [writePlug] [(writeHook, none)]
      [.node pluggedBox [writePlug] [(writeHook, none)] []]]

/-- The plugs of both boxes are linkable, and both are dropped. -/
theorem nested_unlinked :
    nestedTree.link [] = .ok nestedLinked ∧ ¬WellLinked nestedTree nestedLinked := by
  refine ⟨by rfl, ?_⟩
  intro hwell
  have hcomplete := hwell.complete
    ⟨⟨[⟨"sys", "armv7m_sys", 0, [], []⟩], pluggedBox, [pluggedBox]⟩, [writePlug],
      [(writeHook, none)]⟩ (.tail _ (.head _))
  exact absurd (hcomplete.chosen (writeHook, none) (.head _)) (by decide +kernel)

/-- A box and its function -/
theorem linked_literal :
    let export_ : Fn := { writePlug with scope := none, weak := false }
    let import_ : Fn := { export_ with ispostbound := false }
    let tree : Tree := .node ⟨"sys", "armv7m_sys", 0, [], [export_]⟩
      [.node ⟨"a", "armv7m_mpu", 1024, [import_], []⟩ []]
    let imports := [(import_, some ⟨"sys", export_⟩)]
    let linked : Linked := .node ⟨"sys", "armv7m_sys", 0, [], [export_]⟩ [export_] []
      [.node ⟨"a", "armv7m_mpu", 1024, [import_], []⟩ [] imports []]
    WellLinked tree linked := by
  intro export_ import_ tree imports linked
  exact (linked_iff (by rfl)).mpr (by decide +kernel)

end BentoLinker.Linker
