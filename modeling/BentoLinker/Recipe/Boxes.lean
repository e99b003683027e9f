import BentoLinker.Lib.FallibleFold
import BentoLinker.Recipe.Memory

/-!
# Boxes of a Parent

The stage `boxes` of `Box.box`: the explicit roommates of the boxes of a parent, and their
memories, one after the other.

- `checkRoommates`: roommates that two boxes have declared
- `Stage.place`: one memory of one box, with the roommates that overlap it
- `Stage.placeBox`, `boxes`: the loops over the memories of a box and over the boxes
- `Tree.box`: the stage for every box of a tree
- `Stage.place_cases`: all that can happen when a memory is placed

Boxes are equal if their names are, so that roommates are kept as names. `placed` is a history
variable: what the slices have been cut by so far. Nothing reads it.
-/

namespace BentoLinker.Recipe

open FallibleFold

/-- `Box`, as far as the stage needs it -/
structure Box where
  name : String
  loader : Loader
  idempotent : Bool
  explicitRoommates : List String
  memories : List Memory
  roommates : List String
  deriving Repr, DecidableEq

/-- The assertions of the stage, with the boxes and memories they name -/
inductive BoxError where
  /-- `Memory insufficiently specified for box` -/
  | insufficient (box : String)
  /-- `Box declares roommate, but is not idempotent` -/
  | notIdempotent (box roommate : String)
  /-- `box does not have roommate` -/
  | oneSided (box roommate : String)
  /-- `there is no box`, which fails in the formatting of its message -/
  | noBox (box roommate : String)
  /-- `Not enough memory found that satisfies`, or an alignment that is asked for -/
  | notEnough (box memory : String)
  /-- `Overlapping memory for non-idempotent boxes` -/
  | overlapping (box memory box' memory' : String)
  /-- `not aligned to memory alignment`, of a slice -/
  | unaligned (slice : String)
  deriving Repr, DecidableEq

/-- A memory that has been placed, for the box with a number -/
structure Placement where
  box : ℕ
  region : Region
  /-- the recipe gives no address -/
  auto : Bool
  deriving Repr, DecidableEq

/-- The parent while its boxes are placed -/
structure Stage where
  /-- `memoryslices` -/
  slices : List Slice
  boxes : List Box
  placed : List Placement
  deriving Repr, DecidableEq

/-- The addresses of the memories of a box, as far as they are known -/
def Box.regions (child : Box) : List Region := child.memories.filterMap Memory.region?

/-! ## Section 1: Roommates -/

/-- `if box not in roommates: roommates.append(box)` -/
def addRoommate (roommates : List String) (name : String) : List String :=
  if name ∈ roommates then roommates else roommates ++ [name]

/-- One roommate that a box declares -/
def checkRoommate (boxes : List Box) (child : Box) (roommates : List String)
    (roommate : String) : Except BoxError (List String) :=
  if !child.idempotent then .error (.notIdempotent child.name roommate)
  else
    match boxes.find? fun child2 => child2.name = roommate with
    | none => .error (.noBox child.name roommate)
    | some child2 =>
      if child.name ∈ child2.explicitRoommates then .ok (addRoommate roommates child2.name)
      else .error (.oneSided child.name child2.name)

/-- The loop over explicit roommates -/
def checkRoommates (boxes : List Box) : Except BoxError (List Box) :=
  boxes.mapM fun child => do
    let roommates ← child.explicitRoommates.foldlM (checkRoommate boxes child) child.roommates
    return { child with roommates }

/-- One memory of another box, in the check for overlaps -/
def checkOverlap (child : Box) (memory : Memory) (region : Region) (child2 : Box)
    (roommates : List String) (memory2 : Memory) : Except BoxError (List String) :=
  match memory2.region? with
  | none => .ok roommates
  | some region2 =>
    if region2.overlaps region then
      if child.idempotent && child2.idempotent then .ok (addRoommate roommates child2.name)
      else .error (.overlapping child.name memory.name child2.name memory2.name)
    else .ok roommates

/-- The check for overlaps of a memory -/
def checkOverlaps (boxes : List Box) (child : Box) (memory : Memory) (region : Region) :
    Except BoxError (List String) :=
  boxes.foldlM (fun roommates child2 =>
    if child2.name = child.name then .ok roommates
    else child2.memories.foldlM (checkOverlap child memory region child2) roommates)
    child.roommates

/-! ## Section 2: Placement -/

/-- Where a memory goes, and whether the recipe leaves it to the parent -/
def request (loader : Loader) (slices : List Slice) (child : Box) (memory : Memory) :
    Except BoxError (Region × Bool) :=
  match memory.region? with
  | some region => .ok (region, false)
  | none =>
    match consume loader slices memory with
    | some region => .ok (region, true)
    | none => .error (.notEnough child.name memory.name)

/-- `slice - memory for slice in self.memoryslices` -/
def subtractAll (slices : List Slice) (region : Region) : Except BoxError (List Slice) := do
  let parts ← slices.mapM fun slice =>
    match slice.sub region with
    | some parts => .ok parts
    | none => .error (.unaligned slice.name)
  return parts.flatten

/-- `sorted(child.memories)`, by address and name -/
def Box.sorted (child : Box) : Box :=
  { child with
    memories := child.memories.mergeSort fun memory memory' =>
      toLex (memory.addr.getD 0, memory.name) ≤ toLex (memory'.addr.getD 0, memory'.name) }

namespace Stage

/-- Memory `j` of box `i` -/
def place (loader : Loader) (i : ℕ) (stage : Stage) (j : ℕ) : Except BoxError Stage := do
  let some child := stage.boxes[i]? | return stage
  let some memory := child.memories[j]? | return stage
  let (region, auto) ← request loader stage.slices child memory
  let memory := { memory with addr := some region.addr }
  -- check for overlaps
  let roommates ← checkOverlaps stage.boxes child memory region
  let slices ← subtractAll stage.slices region
  let child := { child with memories := child.memories.set j memory, roommates }
  return {
    slices
    boxes := stage.boxes.set i child
    placed := stage.placed ++ [⟨i, region, auto⟩] }

/-- The sorting of the memories of box `i` -/
def sortMemories (i : ℕ) (stage : Stage) : Stage :=
  { stage with boxes := stage.boxes.modify i Box.sorted }

/-- The number of memories of box `i` -/
def memoryCount (stage : Stage) (i : ℕ) : ℕ :=
  (stage.boxes[i]?.elim 0 fun child => child.memories.length)

/-- The memories of box `i` in front of memory `j` -/
def placeMemories (loader : Loader) (stage : Stage) (i j : ℕ) : Except BoxError Stage :=
  (List.range j).foldlM (place loader i) stage

/-- Box `i` -/
def placeBox (loader : Loader) (stage : Stage) (i : ℕ) : Except BoxError Stage := do
  let stage ← stage.placeMemories loader i (stage.memoryCount i)
  -- sort again in case new addresses changed order
  return stage.sortMemories i

/-- The boxes in front of box `i` -/
def placeBoxes (loader : Loader) (stage : Stage) (i : ℕ) : Except BoxError Stage :=
  (List.range i).foldlM (placeBox loader) stage

/-- The parent when memory `j` of box `i` is next -/
def before (loader : Loader) (stage : Stage) (i j : ℕ) : Except BoxError Stage := do
  let stage ← stage.placeBoxes loader i
  stage.placeMemories loader i j

end Stage

/-- The parent before its boxes are placed -/
def start (parent : Box) (boxes : List Box) : Except BoxError Stage := do
  let some slices := parent.memories.mapM Memory.slice? | .error (.insufficient parent.name)
  return { slices, boxes := ← checkRoommates boxes, placed := [] }

/-- Slices with one name get a number each. -/
def renameSlices (slices : List Slice) (name : String) : List Slice :=
  (slices.foldl (fun (acc : List Slice × ℕ) slice =>
    if slice.name = name then
      (acc.1 ++ [{ slice with name := name ++ toString (acc.2 + 1) }], acc.2 + 1)
    else (acc.1 ++ [slice], acc.2)) ([], 0)).1

/-- `make slice names unique` -/
def uniqueNames (slices : List Slice) : List Slice :=
  let names := slices.map Slice.name
  (names.eraseDups.filter fun name => 1 < names.count name).foldl renameSlices slices

/-- The stage `boxes`, for the boxes of one parent -/
def boxes (parent : Box) (children : List Box) : Except BoxError Stage := do
  let stage ← start parent children
  let stage ← stage.placeBoxes parent.loader children.length
  return { stage with slices := uniqueNames stage.slices }

/-! ## Section 3: Trees -/

/-- A box with the boxes below it -/
inductive Tree where
  | node (box : Box) (boxes : List Tree)

def Tree.root : Tree → Box
  | .node box _ => box

/-- What the stage makes of a tree -/
inductive Layout where
  | node (parent : Box) (children : List Box) (stage : Stage) (layouts : List Layout)

mutual

/-- `Box.box` with the stage `boxes`, for a box that its parent has placed -/
def Tree.box (parent : Box) : Tree → Except BoxError Layout
  | .node _ trees => do
    let stage ← boxes parent (trees.map Tree.root)
    return .node parent (trees.map Tree.root) stage (← boxTrees stage.boxes trees)

/-- The recursion into the boxes -/
def boxTrees : List Box → List Tree → Except BoxError (List Layout)
  | child :: children, tree :: trees => do
    return (← Tree.box child tree) :: (← boxTrees children trees)
  | _, _ => return []

end

mutual

/-- Every box of the tree as a parent: itself, its boxes, and the stage it ends in -/
def Layout.nodes : Layout → List (Box × List Box × Stage)
  | .node parent children stage layouts => (parent, children, stage) :: allNodes layouts

def allNodes : List Layout → List (Box × List Box × Stage)
  | [] => []
  | layout :: layouts => layout.nodes ++ allNodes layouts

end

mutual

/-- Every box of an accepted tree has been through the stage with its boxes. -/
theorem boxes_of_mem_nodes {parent : Box} {tree : Tree} {layout : Layout}
    (h : tree.box parent = .ok layout) :
    ∀ node ∈ layout.nodes, boxes node.1 node.2.1 = .ok node.2.2 := by
  cases tree with
  | node box trees =>
    unfold Tree.box at h
    rw [bind_ok] at h
    obtain ⟨stage, hstage, h⟩ := h
    rw [bind_ok] at h
    obtain ⟨layouts, hlayouts, h⟩ := h
    cases h
    intro node hnode
    unfold Layout.nodes at hnode
    rcases List.mem_cons.mp hnode with rfl | hnode
    · exact hstage
    · exact boxes_of_mem_allNodes hlayouts node hnode

theorem boxes_of_mem_allNodes {children : List Box} {trees : List Tree} {layouts : List Layout}
    (h : boxTrees children trees = .ok layouts) :
    ∀ node ∈ allNodes layouts, boxes node.1 node.2.1 = .ok node.2.2 := by
  cases children with
  | nil =>
    unfold boxTrees at h
    cases h
    intro node hnode
    cases hnode
  | cons child children =>
    cases trees with
    | nil =>
      unfold boxTrees at h
      cases h
      intro node hnode
      cases hnode
    | cons tree trees =>
      unfold boxTrees at h
      rw [bind_ok] at h
      obtain ⟨layout, hlayout, h⟩ := h
      rw [bind_ok] at h
      obtain ⟨layouts, hlayouts, h⟩ := h
      cases h
      intro node hnode
      unfold allNodes at hnode
      rcases List.mem_append.mp hnode with hnode | hnode
      · exact boxes_of_mem_nodes hlayout node hnode
      · exact boxes_of_mem_allNodes hlayouts node hnode

end

/-! ## Section 4: What one placement does -/

/-- A memory goes where the recipe says, or to the end of a slice. -/
theorem request_cases {loader : Loader} {slices : List Slice} {child : Box} {memory : Memory}
    {region : Region} {auto : Bool} (h : request loader slices child memory = .ok (region, auto)) :
    (auto = false ∧ memory.region? = some region) ∨
      (auto = true ∧ memory.addr = none ∧ consume loader slices memory = some region) := by
  unfold request at h
  split at h
  · next heq =>
    cases h
    exact .inl ⟨rfl, heq⟩
  · next hnone =>
    split at h
    · next heq =>
      cases h
      exact .inr ⟨rfl, Option.map_eq_none_iff.mp hnone, heq⟩
    · cases h

theorem size_of_request {loader : Loader} {slices : List Slice} {child : Box} {memory : Memory}
    {region : Region} {auto : Bool} (h : request loader slices child memory = .ok (region, auto)) :
    region.size = memory.size := by
  rcases request_cases h with ⟨-, hregion⟩ | ⟨-, -, hconsume⟩
  · obtain ⟨addr, -, rfl⟩ := Option.map_eq_some_iff.mp hregion
    rfl
  · exact (consume_spec hconsume).1

theorem map_toRegion_subtractAll {slices slices' : List Slice} {region : Region}
    (h : subtractAll slices region = .ok slices') :
    slices'.map Slice.toRegion =
      (slices.map Slice.toRegion).flatMap fun slice => slice.sub [region] := by
  unfold subtractAll at h
  rw [bind_ok] at h
  obtain ⟨parts, hparts, h⟩ := h
  cases h
  have hforall := forall₂_of_mapM hparts
  clear hparts
  induction hforall with
  | nil => rfl
  | @cons slice first slices parts hfirst _ ih =>
    rw [List.flatten_cons, List.map_append, ih, List.map_cons, List.flatMap_cons]
    congr 1
    split at hfirst
    · next heq =>
      cases hfirst
      exact map_toRegion_sub heq
    · cases hfirst

/-- The parent and its boxes at the start -/
theorem start_spec {parent : Box} {children : List Box} {stage : Stage}
    (h : start parent children = .ok stage) :
    stage.slices.map Slice.toRegion = parent.regions ∧ stage.placed = [] ∧
      checkRoommates children = .ok stage.boxes := by
  unfold start at h
  cases hslices : parent.memories.mapM Memory.slice? with
  | none =>
    rw [hslices] at h
    cases h
  | some slices =>
    rw [hslices] at h
    dsimp only at h
    rw [bind_ok] at h
    obtain ⟨boxes, hboxes, h⟩ := h
    cases h
    refine ⟨?_, rfl, hboxes⟩
    unfold Box.regions
    clear hboxes
    generalize parent.memories = memories at hslices
    induction memories generalizing slices with
    | nil =>
      cases hslices
      rfl
    | cons memory memories ih =>
      rw [List.mapM_cons] at hslices
      obtain ⟨slice, hslice, hslices⟩ := Option.bind_eq_some_iff.mp hslices
      obtain ⟨rest, hrest, hslices⟩ := Option.bind_eq_some_iff.mp hslices
      cases hslices
      obtain ⟨region, hregion, rfl⟩ := Option.map_eq_some_iff.mp hslice
      rw [List.map_cons, ih rest hrest, List.filterMap_cons_some hregion]

/-- Only roommates have been added. -/
theorem forall₂_checkRoommates {children boxes : List Box}
    (h : checkRoommates children = .ok boxes) :
    List.Forall₂ (fun child child' => ∃ roommates, child' = { child with roommates } ∧
      child.explicitRoommates.foldlM (checkRoommate children child) child.roommates =
        .ok roommates) children boxes := by
  refine (forall₂_of_mapM h).imp fun child child' hchild => ?_
  rw [bind_ok] at hchild
  obtain ⟨roommates, hroommates, hchild⟩ := hchild
  cases hchild
  exact ⟨roommates, rfl, hroommates⟩

theorem map_toRegion_renameSlices (slices : List Slice) (name : String) :
    (renameSlices slices name).map Slice.toRegion = slices.map Slice.toRegion := by
  have hfold : ∀ (slices : List Slice) (acc : List Slice × ℕ),
      (slices.foldl (fun (acc : List Slice × ℕ) slice =>
        if slice.name = name then
          (acc.1 ++ [{ slice with name := name ++ toString (acc.2 + 1) }], acc.2 + 1)
        else (acc.1 ++ [slice], acc.2)) acc).1.map Slice.toRegion =
      acc.1.map Slice.toRegion ++ slices.map Slice.toRegion := by
    intro slices
    induction slices with
    | nil =>
      intro acc
      simp
    | cons slice slices ih =>
      intro acc
      rw [List.foldl_cons, ih]
      split <;> simp
  exact hfold slices ([], 0)

/-- New names keep the slices where they are. -/
theorem map_toRegion_uniqueNames (slices : List Slice) :
    (uniqueNames slices).map Slice.toRegion = slices.map Slice.toRegion := by
  unfold uniqueNames
  dsimp only
  generalize (slices.map Slice.name).eraseDups.filter _ = names
  induction names generalizing slices with
  | nil => rfl
  | cons name names ih => rw [List.foldl_cons, ih, map_toRegion_renameSlices]

/-- Box `i` after its memory `j` has been placed -/
def Box.settled (child : Box) (j : ℕ) (memory : Memory) (region : Region)
    (roommates : List String) : Box :=
  { child with
    memories := child.memories.set j { memory with addr := some region.addr }
    roommates := roommates }

theorem mem_addRoommate {roommates : List String} {name name' : String} :
    name' ∈ addRoommate roommates name ↔ name' ∈ roommates ∨ name' = name := by
  unfold addRoommate
  split
  · next hmem =>
    constructor
    · exact .inl
    · rintro (h | rfl)
      · exact h
      · exact hmem
  · rw [List.mem_append, List.mem_singleton]

/-- One box becomes a roommate if one of its memories overlaps. -/
theorem mem_checkOverlap {child child2 : Box} {memory : Memory} {region : Region}
    {memories : List Memory} {roommates roommates' : List String}
    (h : memories.foldlM (checkOverlap child memory region child2) roommates = .ok roommates') :
    (∀ name, name ∈ roommates' ↔ name ∈ roommates ∨ name = child2.name ∧
      ∃ memory2 ∈ memories, ∃ region2, memory2.region? = some region2 ∧
        region2.overlaps region = true) ∧
    ∀ memory2 ∈ memories, ∀ region2, memory2.region? = some region2 →
      region2.overlaps region = true → child.idempotent = true ∧ child2.idempotent = true := by
  induction memories generalizing roommates with
  | nil =>
    cases h
    simp
  | cons memory2 memories ih =>
    rw [List.foldlM_cons, bind_ok] at h
    obtain ⟨roommates1, hfirst, h⟩ := h
    obtain ⟨hmem, hidempotent⟩ := ih h
    unfold checkOverlap at hfirst
    cases hregion : memory2.region? with
    | none =>
      rw [hregion] at hfirst
      cases hfirst
      constructor
      · intro name
        rw [hmem]
        simp [hregion]
      · intro memory2' hmem2 region2 hregion2
        rcases List.mem_cons.mp hmem2 with rfl | hmem2
        · rw [hregion] at hregion2
          cases hregion2
        · exact hidempotent memory2' hmem2 region2 hregion2
    | some region2 =>
      simp only [hregion] at hfirst
      split at hfirst
      · next hoverlaps =>
        split at hfirst
        · next hboth =>
          cases hfirst
          rw [Bool.and_eq_true] at hboth
          constructor
          · intro name
            rw [hmem, mem_addRoommate]
            simp only [List.mem_cons, exists_eq_or_imp, hregion, Option.some.injEq,
              exists_eq_left', hoverlaps]
            tauto
          · intro memory2' hmem2 region2' hregion2 hoverlaps'
            exact hboth
        · cases hfirst
      · next hoverlaps =>
        cases hfirst
        constructor
        · intro name
          rw [hmem]
          simp only [List.mem_cons, exists_eq_or_imp, hregion, Option.some.injEq,
            exists_eq_left', hoverlaps]
          tauto
        · intro memory2' hmem2 region2' hregion2 hoverlaps'
          rcases List.mem_cons.mp hmem2 with rfl | hmem2
          · rw [hregion] at hregion2
            cases hregion2
            exact absurd hoverlaps' hoverlaps
          · exact hidempotent memory2' hmem2 region2' hregion2 hoverlaps'

/-- The boxes with a memory that overlaps become roommates. -/
theorem mem_checkOverlaps {boxes : List Box} {child : Box} {memory : Memory} {region : Region}
    {roommates : List String}
    (h : checkOverlaps boxes child memory region = .ok roommates) :
    (∀ name, name ∈ roommates ↔ name ∈ child.roommates ∨ ∃ child2 ∈ boxes,
      child2.name ≠ child.name ∧ name = child2.name ∧
        ∃ region2 ∈ child2.regions, region2.overlaps region = true) ∧
    ∀ child2 ∈ boxes, child2.name ≠ child.name → ∀ region2 ∈ child2.regions,
      region2.overlaps region = true → child.idempotent = true ∧ child2.idempotent = true := by
  unfold checkOverlaps at h
  generalize child.roommates = start at h ⊢
  induction boxes generalizing start with
  | nil =>
    cases h
    simp
  | cons child2 boxes ih =>
    rw [List.foldlM_cons, bind_ok] at h
    obtain ⟨roommates1, hfirst, h⟩ := h
    obtain ⟨hmem, hidempotent⟩ := ih roommates1 h
    split at hfirst
    · next hname =>
      cases hfirst
      constructor
      · intro name
        rw [hmem]
        simp [hname]
      · intro child2' hmem2 hne
        rcases List.mem_cons.mp hmem2 with rfl | hmem2
        · exact absurd hname hne
        · exact hidempotent child2' hmem2 hne
    · next hname =>
      obtain ⟨hmem1, hidempotent1⟩ := mem_checkOverlap hfirst
      have hregions : (∃ memory2 ∈ child2.memories, ∃ region2, memory2.region? = some region2 ∧
          region2.overlaps region = true) ↔
          ∃ region2 ∈ child2.regions, region2.overlaps region = true := by
        unfold Box.regions
        simp only [List.mem_filterMap]
        constructor
        · rintro ⟨memory2, hmem2, region2, hregion2, hoverlaps⟩
          exact ⟨region2, ⟨memory2, hmem2, hregion2⟩, hoverlaps⟩
        · rintro ⟨region2, ⟨memory2, hmem2, hregion2⟩, hoverlaps⟩
          exact ⟨memory2, hmem2, region2, hregion2, hoverlaps⟩
      constructor
      · intro name
        rw [hmem, hmem1, hregions]
        simp only [List.mem_cons, exists_eq_or_imp, ne_eq, hname, not_false_eq_true, true_and]
        exact or_assoc
      · intro child2' hmem2 hne region2 hregion2 hoverlaps
        rcases List.mem_cons.mp hmem2 with rfl | hmem2
        · obtain ⟨memory2, hmemory2, hknown⟩ := List.mem_filterMap.mp hregion2
          exact hidempotent1 memory2 hmemory2 region2 hknown hoverlaps
        · exact hidempotent child2' hmem2 hne region2 hregion2 hoverlaps

namespace Stage

/-- There is no such memory, or it is placed. -/
theorem place_cases {loader : Loader} {i j : ℕ} {stage stage' : Stage}
    (h : stage.place loader i j = .ok stage') :
    (stage' = stage ∧ stage.memoryCount i ≤ j) ∨
    ∃ child memory region auto roommates slices, stage.boxes[i]? = some child ∧
      child.memories[j]? = some memory ∧
      request loader stage.slices child memory = .ok (region, auto) ∧
      checkOverlaps stage.boxes child { memory with addr := some region.addr } region =
        .ok roommates ∧
      subtractAll stage.slices region = .ok slices ∧
      stage' = {
        slices
        boxes := stage.boxes.set i (child.settled j memory region roommates)
        placed := stage.placed ++ [⟨i, region, auto⟩] } := by
  unfold place at h
  cases hchild : stage.boxes[i]? with
  | none =>
    rw [hchild] at h
    cases h
    refine .inl ⟨rfl, ?_⟩
    unfold memoryCount
    rw [hchild]
    exact Nat.zero_le _
  | some child =>
    cases hmemory : child.memories[j]? with
    | none =>
      simp only [hchild, hmemory] at h
      cases h
      refine .inl ⟨rfl, ?_⟩
      unfold memoryCount
      rw [hchild]
      exact List.getElem?_eq_none_iff.mp hmemory
    | some memory =>
      simp only [hchild, hmemory] at h
      rw [bind_ok] at h
      obtain ⟨⟨region, auto⟩, hrequest, h⟩ := h
      rw [bind_ok] at h
      obtain ⟨roommates, hroommates, h⟩ := h
      rw [bind_ok] at h
      obtain ⟨slices, hslices, h⟩ := h
      cases h
      exact .inr ⟨child, memory, region, auto, roommates, slices, rfl, hmemory, hrequest,
        hroommates, hslices, rfl⟩

end Stage

end BentoLinker.Recipe
