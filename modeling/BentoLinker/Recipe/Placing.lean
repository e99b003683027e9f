import BentoLinker.Recipe.Boxes
import Mathlib.Data.List.Forall2

/-!
# What the Loops of the Stage Do

The loop over the memories of a box, and the loop over the boxes.

- `Settled`: a memory of a box before and after
- `Placing`: a box while its memories are placed
- `Placed`: a box whose memories have been placed, and the roommates it has found
- `placed_placeBoxes`: every box in front is placed, the others are as they were
-/

namespace BentoLinker.Recipe

open FallibleFold

namespace Stage

/-! ## Section 1: The memories of one box -/

/-- A memory of box `i` as it was and as it has been placed -/
def Settled (stage : Stage) (i : ℕ) (memory memory' : Memory) : Prop :=
  ∃ region auto, ⟨i, region, auto⟩ ∈ stage.placed ∧ region.size = memory.size ∧
    memory' = { memory with addr := some region.addr } ∧
    ((auto = false ∧ memory.region? = some region) ∨ (auto = true ∧ memory.addr = none))

theorem Settled.mono {stage stage' : Stage} {i : ℕ} {memory memory' : Memory}
    (hplaced : stage.placed ⊆ stage'.placed) (h : stage.Settled i memory memory') :
    stage'.Settled i memory memory' := by
  obtain ⟨region, auto, hmem, hrest⟩ := h
  exact ⟨region, auto, hplaced hmem, hrest⟩

/-- A box has found the boxes whose memories, as it has seen them, overlap one of its own. -/
def Found (seen : Box → Prop) (child : Box) (memories : List Memory)
    (roommates : List String) : Prop :=
  (∀ name, name ∈ roommates ↔ name ∈ child.roommates ∨ ∃ child2, seen child2 ∧
    child2.name ≠ child.name ∧ name = child2.name ∧ ∃ region2 ∈ child2.regions,
      ∃ memory ∈ memories, ∃ region, memory.region? = some region ∧
        region2.overlaps region = true) ∧
  ∀ child2, seen child2 → child2.name ≠ child.name → ∀ region2 ∈ child2.regions,
    ∀ memory ∈ memories, ∀ region, memory.region? = some region →
      region2.overlaps region = true → child.idempotent = true ∧ child2.idempotent = true

/-- Box `i` of a stage with its first `k` memories placed -/
structure Placing (start : Stage) (i k : ℕ) (stage : Stage) : Prop where
  others : ∀ m, m ≠ i → stage.boxes[m]? = start.boxes[m]?
  placed : start.placed ⊆ stage.placed
  child : ∀ child, start.boxes[i]? = some child → ∃ memories roommates,
    stage.boxes[i]? =
      some { child with memories := memories ++ child.memories.drop k, roommates } ∧
    List.Forall₂ (stage.Settled i) (child.memories.take k) memories ∧
    Found (· ∈ start.boxes) child memories roommates

theorem region?_of_addr (memory : Memory) {region : Region} (hsize : region.size = memory.size) :
    ({ memory with addr := some region.addr } : Memory).region? = some region := by
  unfold Memory.region?
  cases region
  simp only [Option.map_some, ← hsize]

/-- Boxes of another name are the same before and after. -/
theorem mem_boxes_of_others {start stage : Stage} {i : ℕ} {child child' child2 : Box}
    (hothers : ∀ m, m ≠ i → stage.boxes[m]? = start.boxes[m]?)
    (hchild : start.boxes[i]? = some child) (hchild' : stage.boxes[i]? = some child')
    (hname : child'.name = child.name) (hne : child2.name ≠ child.name) :
    child2 ∈ stage.boxes ↔ child2 ∈ start.boxes := by
  simp only [List.mem_iff_getElem?]
  constructor
  · rintro ⟨m, hm⟩
    refine ⟨m, ?_⟩
    rw [← hothers m, hm]
    rintro rfl
    rw [hchild'] at hm
    cases hm
    exact hne hname
  · rintro ⟨m, hm⟩
    refine ⟨m, ?_⟩
    rw [hothers m, hm]
    rintro rfl
    rw [hchild] at hm
    cases hm
    exact hne rfl

theorem placing_step {loader : Loader} {start stage stage' : Stage} {i k : ℕ}
    (hk : k < start.memoryCount i) (h : Placing start i k stage)
    (hplace : stage.place loader i k = .ok stage') : Placing start i (k + 1) stage' := by
  obtain ⟨child, hchild⟩ : ∃ child, start.boxes[i]? = some child := by
    unfold memoryCount at hk
    cases hchild : start.boxes[i]? with
    | none =>
      rw [hchild] at hk
      exact absurd hk (Nat.not_lt_zero k)
    | some child => exact ⟨child, rfl⟩
  have hcount : k < child.memories.length := by
    unfold memoryCount at hk
    rwa [hchild] at hk
  obtain ⟨memories, roommates, hnow, hsettled, hfound⟩ := h.child child hchild
  have hlen : memories.length = k := by
    rw [← hsettled.length_eq, List.length_take]
    omega
  rcases place_cases hplace with ⟨-, hle⟩ | ⟨child', memory, region, auto, roommates', slices,
    hchild', hmemory, hrequest, hoverlaps, -, rfl⟩
  · -- the loop ends before
    unfold memoryCount at hle
    rw [hnow] at hle
    simp only [Option.elim_some, List.length_append, List.length_drop] at hle
    omega
  · rw [hnow, Option.some.injEq] at hchild'
    subst hchild'
    have hget : child.memories[k]? = some memory := by
      rw [← hmemory, List.getElem?_append_right (by omega), List.getElem?_drop, hlen]
      congr 1
      omega
    have hdrop : child.memories.drop k = memory :: child.memories.drop (k + 1) := by
      obtain ⟨hlt, hget⟩ := List.getElem?_eq_some_iff.mp hget
      rw [List.drop_eq_getElem_cons hlt, hget]
    have hsize := size_of_request hrequest
    obtain ⟨hmem, hidempotent⟩ := mem_checkOverlaps hoverlaps
    -- the boxes that have been placed do not change
    have hsame : ∀ child2 : Box, child2.name ≠ child.name →
        (child2 ∈ stage.boxes ↔ child2 ∈ start.boxes) := fun child2 hne =>
      mem_boxes_of_others h.others hchild hnow rfl hne
    have hlt : i < stage.boxes.length := (List.getElem?_eq_some_iff.mp hnow).1
    refine ⟨fun m hm => ?_, ?_, fun child' hchild' => ?_⟩
    · rw [List.getElem?_set_ne (Ne.symm hm)]
      exact h.others m hm
    · exact List.Subset.trans h.placed (List.subset_append_left _ _)
    rw [hchild, Option.some.injEq] at hchild'
    subst hchild'
    refine ⟨memories ++ [{ memory with addr := some region.addr }], roommates', ?_, ?_, ?_⟩
    · rw [List.getElem?_set_self hlt]
      unfold Box.settled
      simp only [hdrop, List.set_append_right _ _ (Nat.le_of_eq hlen), hlen, Nat.sub_self,
        List.set_cons_zero, List.append_assoc, List.singleton_append]
    · rw [List.take_add_one, hget]
      refine List.rel_append ?_ ?_
      · exact hsettled.imp fun _ _ hs => hs.mono (List.subset_append_left _ _)
      · refine .cons ⟨region, auto, List.mem_append_right _ (List.mem_singleton_self _), hsize,
          rfl, ?_⟩ .nil
        rcases request_cases hrequest with hfixed | ⟨hauto, hnone, -⟩
        · exact .inl hfixed
        · exact .inr ⟨hauto, hnone⟩
    · constructor
      · intro name
        rw [hmem name, hfound.1 name, or_assoc]
        refine or_congr_right ?_
        constructor
        · rintro (⟨child2, hseen, hne, hname, region2, hregion2, memory', hmem', hrest⟩ |
            ⟨child2, hseen, hne, hname, region2, hregion2, hover⟩)
          · exact ⟨child2, hseen, hne, hname, region2, hregion2, memory',
              List.mem_append_left _ hmem', hrest⟩
          · exact ⟨child2, (hsame child2 hne).mp hseen, hne, hname, region2, hregion2, _,
              List.mem_append_right _ (List.mem_singleton_self _), region,
              region?_of_addr memory hsize, hover⟩
        · rintro ⟨child2, hseen, hne, hname, region2, hregion2, memory', hmem', region', hknown,
            hover⟩
          -- a memory placed before, or this one
          rcases List.mem_append.mp hmem' with hmem' | hmem'
          · exact .inl ⟨child2, hseen, hne, hname, region2, hregion2, memory', hmem', region',
              hknown, hover⟩
          · obtain rfl := List.mem_singleton.mp hmem'
            rw [region?_of_addr memory hsize] at hknown
            cases hknown
            exact .inr ⟨child2, (hsame child2 hne).mpr hseen, hne, hname, region2, hregion2,
              hover⟩
      · intro child2 hseen hne region2 hregion2 memory' hmem' region' hknown hover
        rcases List.mem_append.mp hmem' with hmem' | hmem'
        · exact hfound.2 child2 hseen hne region2 hregion2 memory' hmem' region' hknown hover
        · obtain rfl := List.mem_singleton.mp hmem'
          rw [region?_of_addr memory hsize] at hknown
          cases hknown
          exact hidempotent child2 ((hsame child2 hne).mpr hseen) hne region2 hregion2 hover

/-- No box and no memory is added. -/
theorem place_counts {loader : Loader} {stage stage' : Stage} {i j : ℕ}
    (h : stage.place loader i j = .ok stage') :
    stage'.boxes.length = stage.boxes.length ∧ stage'.memoryCount i = stage.memoryCount i := by
  rcases place_cases h with ⟨rfl, -⟩ | ⟨child, memory, region, auto, roommates, slices, hchild,
    -, -, -, -, rfl⟩
  · exact ⟨rfl, rfl⟩
  · refine ⟨List.length_set, ?_⟩
    unfold memoryCount
    rw [List.getElem?_set_self (List.getElem?_eq_some_iff.mp hchild).1, hchild]
    exact List.length_set

theorem placeMemories_counts {loader : Loader} {stage stage' : Stage} {i j : ℕ}
    (h : stage.placeMemories loader i j = .ok stage') :
    stage'.boxes.length = stage.boxes.length ∧ stage'.memoryCount i = stage.memoryCount i := by
  refine foldlM_invariant (fun u => u.boxes.length = stage.boxes.length ∧
    u.memoryCount i = stage.memoryCount i) ?_ ⟨rfl, rfl⟩ h
  intro u j u' hu hplace
  obtain ⟨hlength, hcount⟩ := place_counts hplace
  exact ⟨hlength.trans hu.1, hcount.trans hu.2⟩

theorem placeBoxes_length {loader : Loader} {stage stage' : Stage} {i : ℕ}
    (h : stage.placeBoxes loader i = .ok stage') : stage'.boxes.length = stage.boxes.length := by
  refine foldlM_invariant (fun u => u.boxes.length = stage.boxes.length) ?_ rfl h
  intro u i u' hu hplace
  unfold placeBox at hplace
  rw [bind_ok] at hplace
  obtain ⟨v, hv, hplace⟩ := hplace
  cases hplace
  exact (List.length_modify _ _ _).trans ((placeMemories_counts hv).1.trans hu)

theorem placing_placeMemories {loader : Loader} {start stage : Stage} {i k : ℕ}
    (hk : k ≤ start.memoryCount i) (h : start.placeMemories loader i k = .ok stage) :
    Placing start i k stage := by
  refine foldlM_range_invariant (Placing start i) ?_ ?_ h
  · refine ⟨fun m _ => rfl, List.Subset.refl _, fun child hchild => ?_⟩
    refine ⟨[], child.roommates, hchild, .nil, ?_, ?_⟩
    · simp
    · simp
  · intro j hj u u' _ hplacing hplace
    exact placing_step (by omega) hplacing hplace

/-! ## Section 2: The boxes in turn -/

/-- Box `m` as box `i` sees it: boxes in front of it have been placed. -/
def Seen (start stage : Stage) (i : ℕ) (child2 : Box) : Prop :=
  ∃ m, (if m < i then stage.boxes[m]? else start.boxes[m]?) = some child2

/-- Box `i` as it was and as it has been placed -/
structure Placed (start stage : Stage) (i : ℕ) (child child' : Box) : Prop where
  same : child' = { child with memories := child'.memories, roommates := child'.roommates }
  memories : ∃ memories, List.Forall₂ (stage.Settled i) child.memories memories ∧
    child'.memories.Perm memories
  found : Found (Seen start stage i) child child'.memories child'.roommates

/-- The boxes in front of box `i` have been placed, the others not. -/
structure PlacedUpTo (start : Stage) (i : ℕ) (stage : Stage) : Prop where
  rest : ∀ m, i ≤ m → stage.boxes[m]? = start.boxes[m]?
  done : ∀ m < i, ∀ child, start.boxes[m]? = some child → ∃ child',
    stage.boxes[m]? = some child' ∧ Placed start stage m child child'

theorem Found.congr {seen seen' : Box → Prop} {child : Box} {memories memories' : List Memory}
    {roommates : List String} (hseen : ∀ child2, seen child2 ↔ seen' child2)
    (hperm : ∀ memory, memory ∈ memories ↔ memory ∈ memories')
    (h : Found seen child memories roommates) : Found seen' child memories' roommates := by
  obtain rfl : seen = seen' := funext fun child2 => propext (hseen child2)
  unfold Found at h ⊢
  simp only [← hperm]
  exact h

theorem Placed.mono {start stage stage' : Stage} {i : ℕ} {child child' : Box}
    (hplaced : stage.placed ⊆ stage'.placed)
    (hboxes : ∀ m < i, stage'.boxes[m]? = stage.boxes[m]?)
    (h : Placed start stage i child child') : Placed start stage' i child child' := by
  refine ⟨h.same, ?_, h.found.congr (fun child2 => ?_) fun _ => Iff.rfl⟩
  · obtain ⟨memories, hsettled, hperm⟩ := h.memories
    exact ⟨memories, hsettled.imp fun _ _ hs => hs.mono hplaced, hperm⟩
  · unfold Seen
    refine exists_congr fun m => ?_
    split
    · next hm => rw [hboxes m hm]
    · exact Iff.rfl

/-- Sorting the memories of a box changes no other box, and nothing else of the box. -/
theorem sortMemories_boxes (stage : Stage) (i : ℕ) :
    (∀ m, m ≠ i → (stage.sortMemories i).boxes[m]? = stage.boxes[m]?) ∧
    ∀ child, stage.boxes[i]? = some child → ∃ memories, memories.Perm child.memories ∧
      (stage.sortMemories i).boxes[i]? = some { child with memories } := by
  unfold sortMemories
  constructor
  · intro m hm
    rw [List.getElem?_modify]
    simp only [if_neg (Ne.symm hm)]
    exact Option.map_id'
  · intro child hchild
    refine ⟨child.sorted.memories, List.mergeSort_perm _ _, ?_⟩
    rw [List.getElem?_modify, hchild]
    simp only [if_pos]
    rfl

theorem placeBox_others {loader : Loader} {stage stage' : Stage} {i m : ℕ}
    (h : stage.placeBox loader i = .ok stage') (hm : m ≠ i) :
    stage'.boxes[m]? = stage.boxes[m]? := by
  unfold placeBox at h
  rw [bind_ok] at h
  obtain ⟨u, hu, h⟩ := h
  cases h
  rw [(sortMemories_boxes u i).1 m hm]
  exact (placing_placeMemories le_rfl hu).others m hm

/-- A box after the sorting is the box before, but for the order of its memories. -/
theorem getElem?_sortMemories {stage : Stage} {i m : ℕ} {child : Box}
    (h : (stage.sortMemories i).boxes[m]? = some child) :
    ∃ child0, stage.boxes[m]? = some child0 ∧ child.name = child0.name ∧
      child.explicitRoommates = child0.explicitRoommates ∧
      ∀ memory, memory ∈ child.memories ↔ memory ∈ child0.memories := by
  obtain ⟨hothers, hsorted⟩ := sortMemories_boxes stage i
  by_cases hm : m = i
  · subst hm
    have hlt := (List.getElem?_eq_some_iff.mp h).1
    unfold sortMemories at hlt
    rw [List.length_modify] at hlt
    obtain ⟨memories, hperm, hbox⟩ := hsorted _ (List.getElem?_eq_getElem hlt)
    rw [h, Option.some.injEq] at hbox
    subst hbox
    exact ⟨_, List.getElem?_eq_getElem hlt, rfl, rfl, fun memory => hperm.mem_iff⟩
  · rw [hothers m hm] at h
    exact ⟨child, h, rfl, rfl, fun _ => Iff.rfl⟩

/-- The loop over the memories of box `i`, and the sorting after it -/
theorem placed_placeBox {loader : Loader} {stage stage' : Stage} {i : ℕ} {child : Box}
    (hchild : stage.boxes[i]? = some child) (h : stage.placeBox loader i = .ok stage') :
    (∀ m, m ≠ i → stage'.boxes[m]? = stage.boxes[m]?) ∧ stage.placed ⊆ stage'.placed ∧
      ∃ child', stage'.boxes[i]? = some child' ∧
        child' = { child with memories := child'.memories, roommates := child'.roommates } ∧
        (∃ memories, List.Forall₂ (stage'.Settled i) child.memories memories ∧
          child'.memories.Perm memories) ∧
        Found (· ∈ stage.boxes) child child'.memories child'.roommates := by
  unfold placeBox at h
  rw [bind_ok] at h
  obtain ⟨u, hu, h⟩ := h
  cases h
  have hplacing := placing_placeMemories le_rfl hu
  obtain ⟨hothers, hsorted⟩ := sortMemories_boxes u i
  obtain ⟨memories, roommates, hnow, hsettled, hfound⟩ := hplacing.child child hchild
  have hcount : stage.memoryCount i = child.memories.length := by
    unfold memoryCount
    rw [hchild]
    rfl
  rw [hcount, List.drop_length, List.append_nil] at hnow
  rw [hcount, List.take_length] at hsettled
  obtain ⟨memories', hperm, hbox⟩ := hsorted _ hnow
  refine ⟨fun m hm => ?_, hplacing.placed, _, hbox, rfl, ⟨memories, hsettled, hperm⟩, ?_⟩
  · rw [hothers m hm]
    exact hplacing.others m hm
  · exact hfound.congr (fun _ => Iff.rfl) fun _ => hperm.mem_iff.symm

theorem placedUpTo_placeBoxes {loader : Loader} {start stage : Stage} {n : ℕ}
    (h : start.placeBoxes loader n = .ok stage) : PlacedUpTo start n stage := by
  refine foldlM_range_invariant (PlacedUpTo start) ?_ ?_ h
  · exact ⟨fun _ _ => rfl, fun m hm => absurd hm (Nat.not_lt_zero m)⟩
  · intro i _ u u' _ hupto hplace
    rcases hchild : start.boxes[i]? with _ | child
    · -- there is no box `i`, and nothing happens
      have hnone : u.boxes[i]? = none := by rw [hupto.rest i le_rfl, hchild]
      have hcount : u.memoryCount i = 0 := by
        unfold memoryCount
        rw [hnone]
        rfl
      have hsame : u'.boxes = u.boxes ∧ u'.placed = u.placed := by
        unfold placeBox placeMemories at hplace
        rw [hcount, bind_ok] at hplace
        obtain ⟨v, hv, hplace⟩ := hplace
        cases hv
        cases hplace
        unfold sortMemories
        refine ⟨?_, rfl⟩
        rw [List.modify_eq_self]
        exact List.getElem?_eq_none_iff.mp hnone
      refine ⟨fun m hm => ?_, fun m hm child' hchild' => ?_⟩
      · rw [hsame.1]
        exact hupto.rest m (by omega)
      · have hlt : m < i := by
          rcases Nat.lt_succ_iff_lt_or_eq.mp hm with hlt | rfl
          · exact hlt
          · rw [hchild] at hchild'
            cases hchild'
        obtain ⟨child'', hbox, hplaced⟩ := hupto.done m hlt child' hchild'
        refine ⟨child'', by rw [hsame.1, hbox], hplaced.mono ?_ fun _ _ => by rw [hsame.1]⟩
        rw [hsame.2]
        exact List.Subset.refl _
    · have hnow : u.boxes[i]? = some child := by rw [hupto.rest i le_rfl, hchild]
      obtain ⟨hothers, hsubset, child', hbox, hsame, hmemories, hfound⟩ :=
        placed_placeBox hnow hplace
      refine ⟨fun m hm => ?_, fun m hm childm hchildm => ?_⟩
      · rw [hothers m (by omega)]
        exact hupto.rest m (by omega)
      · rcases Nat.lt_succ_iff_lt_or_eq.mp hm with hlt | rfl
        · obtain ⟨child'', hboxm, hplaced⟩ := hupto.done m hlt childm hchildm
          refine ⟨child'', by rw [hothers m (by omega), hboxm], hplaced.mono hsubset ?_⟩
          intro m' hm'
          exact hothers m' (by omega)
        · rw [hchild, Option.some.injEq] at hchildm
          subst hchildm
          refine ⟨child', hbox, hsame, hmemories, hfound.congr (fun child2 => ?_) fun _ =>
            Iff.rfl⟩
          -- boxes in front are as they have been placed, the others as they were
          rw [List.mem_iff_getElem?]
          refine exists_congr fun m' => ?_
          split
          · next hm' => rw [hothers m' (by omega)]
          · next hm' => rw [hupto.rest m' (by omega)]

end Stage

end BentoLinker.Recipe
