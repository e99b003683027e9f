import BentoLinker.Recipe.Placing
import Mathlib.Data.List.Pairwise

/-!
# Memory Layout

What the stage leaves of the memories of a parent, next to the memories of its boxes.

- `Tiles`: slices and placed regions divide the memories of the parent
- `LaidOut`: this, and memories that the parent has placed are its own to give
- `Allowed`: no slice is cut in its middle, and no memory is placed where a box has asked for
  an address
- `layout_iff`: the layout is right after every memory if and only if each is allowed
-/

namespace BentoLinker.Recipe

open FallibleFold

/-! ## Section 1: Slices of memories -/

/-- Slices and placed regions divide the memories of the parent. -/
structure Tiles (parents slices placed : List Region) : Prop where
  disjoint : slices.Pairwise Region.Apart
  inside : ∀ slice ∈ slices, ∃ m ∈ parents, slice.Within m
  apart : ∀ slice ∈ slices, ∀ region ∈ placed, slice.Apart region
  cover : ∀ m ∈ parents, ∀ a, m.Contains a →
    (∃ slice ∈ slices, slice.Contains a) ∨ ∃ region ∈ placed, region.Contains a

namespace Region

theorem sub_singleton (m region : Region) :
    m.sub [region] = if m.size = 0 then [] else subtract region m := by
  unfold sub
  split
  · rfl
  · exact List.flatMap_singleton _ _

theorem mem_sub_singleton {m region part : Region} (h : part ∈ m.sub [region]) :
    part ∈ subtract region m := by
  rw [sub_singleton] at h
  split at h
  · cases h
  · exact h

/-- An address of a slice is in a part of it, or taken. -/
theorem exists_mem_sub {slice region : Region} {a : ℕ} (ha : slice.Contains a)
    (hr : ¬ region.Contains a) : ∃ part ∈ slice.sub [region], part.Contains a := by
  rw [sub_singleton, if_neg]
  · exact exists_mem_subtract ha hr
  · intro hsize
    unfold Contains at ha
    omega

end Region

section Tiles

variable {parents slices placed : List Region} {region : Region}

/-- The memories of the parent are its slices at first. -/
theorem tiles_start (hparents : parents.Pairwise Region.Apart) : Tiles parents parents [] where
  disjoint := hparents
  inside slice hslice := ⟨slice, hslice, .refl slice⟩
  apart slice _ region hregion := by cases hregion
  cover m hm a ha := .inl ⟨m, hm, ha⟩

theorem Tiles.subtract (h : Tiles parents slices placed)
    (hspills : ∀ slice ∈ slices, ¬ region.Spills slice) :
    Tiles parents (slices.flatMap fun slice => slice.sub [region]) (placed ++ [region]) := by
  have hpart : ∀ slice ∈ slices, ∀ part ∈ slice.sub [region],
      part.Within slice ∧ part.Apart region := fun slice hslice part hpart =>
    Region.within_of_mem_subtract (hspills slice hslice) (Region.mem_sub_singleton hpart)
  constructor
  · rw [List.pairwise_flatMap]
    constructor
    · intro slice _
      rw [Region.sub_singleton]
      split
      · exact .nil
      · exact Region.pairwise_subtract region slice
    · -- parts of two slices are apart as the slices are
      refine h.disjoint.imp_of_mem fun hslice hslice' hapart part hp part' hp' a ha ha' => ?_
      exact hapart a ((hpart _ hslice part hp).1.contains ha)
        ((hpart _ hslice' part' hp').1.contains ha')
  · intro part hp
    obtain ⟨slice, hslice, hp⟩ := List.mem_flatMap.mp hp
    obtain ⟨m, hm, hwithin⟩ := h.inside slice hslice
    exact ⟨m, hm, (hpart slice hslice part hp).1.trans hwithin⟩
  · intro part hp region' hregion' a ha
    obtain ⟨slice, hslice, hp⟩ := List.mem_flatMap.mp hp
    rcases List.mem_append.mp hregion' with hregion' | hregion'
    · exact h.apart slice hslice region' hregion' a ((hpart slice hslice part hp).1.contains ha)
    · obtain rfl := List.mem_singleton.mp hregion'
      exact (hpart slice hslice part hp).2 a ha
  · intro m hm a ha
    by_cases hr : region.Contains a
    · exact .inr ⟨region, List.mem_append_right _ (List.mem_singleton_self _), hr⟩
    · rcases h.cover m hm a ha with ⟨slice, hslice, hcontains⟩ | ⟨region', hregion', hcontains⟩
      · obtain ⟨part, hp, hpa⟩ := Region.exists_mem_sub hcontains hr
        exact .inl ⟨part, List.mem_flatMap.mpr ⟨slice, hslice, hp⟩, hpa⟩
      · exact .inr ⟨region', List.mem_append_left _ hregion', hcontains⟩

/-- A slice that is cut in its middle gets an address behind its end, which belongs to another
slice, to a box, or to no memory of the parent at all. -/
theorem Tiles.not_spills (hparents : parents.Pairwise Region.Apart)
    (h : Tiles parents slices placed)
    (h' : Tiles parents (slices.flatMap fun slice => slice.sub [region]) (placed ++ [region])) :
    ∀ slice ∈ slices, ¬ region.Spills slice := by
  rintro slice hslice ⟨hsize, hlow, hhigh⟩
  obtain ⟨part, hpart, hfirst, hend⟩ : ∃ part ∈ slice.sub [region],
      part.Contains (region.addr + region.size) ∧ part.Contains (slice.addr + slice.size) := by
    rw [Region.sub_singleton, if_neg (by omega)]
    unfold Region.subtract
    rw [if_neg (by rw [Bool.or_eq_true, decide_eq_true_eq, decide_eq_true_eq]; omega)]
    refine ⟨_, List.mem_append_right _ (by rw [if_pos (by omega)]; exact .head _), ?_, ?_⟩
    · exact ⟨le_rfl, by simp only; omega⟩
    · exact ⟨by simp only; omega, by simp only; omega⟩
  have hmem : part ∈ slices.flatMap fun slice => slice.sub [region] :=
    List.mem_flatMap.mpr ⟨slice, hslice, hpart⟩
  -- the memory that the slice is from would have the address
  obtain ⟨m, hm, hwithin⟩ := h.inside slice hslice
  obtain ⟨m', hm', hwithin'⟩ := h'.inside part hmem
  have heq : m' = m := by
    by_contra hne
    refine hparents.forall hm' hm hne (region.addr + region.size)
      (hwithin'.contains hfirst) (hwithin.contains ?_)
    unfold Region.Contains
    omega
  subst heq
  rcases h.cover m' hm' _ (hwithin'.contains hend) with
    ⟨slice', hslice', hcontains⟩ | ⟨region', hregion', hcontains⟩
  · have hne : slice ≠ slice' := by
      rintro rfl
      unfold Region.Contains at hcontains
      omega
    have hfree : ¬ region.Contains (slice.addr + slice.size) := by
      unfold Region.Contains
      omega
    obtain ⟨part', hpart', hcontains'⟩ := Region.exists_mem_sub hcontains hfree
    have hsymm : Std.Symm fun x y : Region =>
        ∀ p ∈ x.sub [region], ∀ q ∈ y.sub [region], p.Apart q :=
      ⟨fun _ _ hxy p hp q hq => (hxy q hq p hp).symm⟩
    exact (List.pairwise_flatMap.mp h'.disjoint).2.forall hslice hslice' hne part hpart part'
      hpart' _ hend hcontains'
  · exact h'.apart part hmem region' (List.mem_append_left _ hregion') _ hend hcontains

end Tiles

/-! ## Section 2: One memory -/

/-- A region has no address that another box has, but for declared roommates. -/
def Stage.Spares (stage : Stage) (child : Box) (region : Region) : Prop :=
  ∀ child2 ∈ stage.boxes, child2.name ≠ child.name → child2.name ∉ child.explicitRoommates →
    ∀ region2 ∈ child2.regions, region.Apart region2

/-- The memories of the parent are divided, and what it has placed lies within them, away from
the memories of other boxes. -/
structure LaidOut (parents : List Region) (stage : Stage) : Prop where
  tiles : Tiles parents (stage.slices.map Slice.toRegion) (stage.placed.map Placement.region)
  inside : ∀ p ∈ stage.placed, p.auto = true → ∃ m ∈ parents, p.region.Within m
  apart : ∀ p ∈ stage.placed, p.auto = true → ∀ child, stage.boxes[p.box]? = some child →
    stage.Spares child p.region

/-- Memory `j` of box `i` with an address cuts no slice in its middle. Without one, it is not
placed where a box that is no declared roommate has a memory. -/
def Allowed (loader : Loader) (stage : Stage) (i j : ℕ) : Prop :=
  ∀ child memory, stage.boxes[i]? = some child → child.memories[j]? = some memory →
    (∀ region, memory.region? = some region → ∀ slice ∈ stage.slices,
      ¬ region.Spills slice.toRegion) ∧
    (memory.addr = none → ∀ region, consume loader stage.slices memory = some region →
      stage.Spares child region)

theorem mem_regions {child : Box} {region : Region} :
    region ∈ child.regions ↔ ∃ memory ∈ child.memories, memory.region? = some region :=
  List.mem_filterMap

/-- Placing a memory makes no other region known. -/
theorem mem_regions_settled {child : Box} {j : ℕ} {memory : Memory} {region region2 : Region}
    {roommates : List String} (hsize : region.size = memory.size)
    (h : region2 ∈ (child.settled j memory region roommates).regions) :
    region2 ∈ child.regions ∨ region2 = region := by
  obtain ⟨memory2, hmemory2, hknown⟩ := mem_regions.mp h
  rcases List.mem_or_eq_of_mem_set hmemory2 with hmem | rfl
  · exact .inl (mem_regions.mpr ⟨memory2, hmem, hknown⟩)
  · rw [Stage.region?_of_addr memory hsize, Option.some.injEq] at hknown
    exact .inr hknown.symm

/-- The end of a slice does not cut a slice in its middle. -/
theorem Tiles.not_spills_of_consume {parents placed : List Region} {slices : List Slice}
    {loader : Loader} {memory : Memory} {region : Region}
    (h : Tiles parents (slices.map Slice.toRegion) placed)
    (hconsume : consume loader slices memory = some region) :
    ∀ slice ∈ slices.map Slice.toRegion, ¬ region.Spills slice := by
  rintro slice hslice ⟨hsize, hlow, hhigh⟩
  obtain ⟨-, best, hbest, hwithin, hend⟩ := consume_spec hconsume
  have hne : slice ≠ best.toRegion := by
    rintro rfl
    omega
  refine h.disjoint.forall hslice (List.mem_map_of_mem hbest) hne
    (region.addr + region.size - 1) ?_ ?_
  · unfold Region.Contains
    omega
  · unfold Region.Within at hwithin
    unfold Region.Contains
    omega

theorem laidOut_place {parents : List Region} {loader : Loader} {stage stage' : Stage}
    {i j : ℕ} (h : LaidOut parents stage) (hallowed : Allowed loader stage i j)
    (hplace : stage.place loader i j = .ok stage') : LaidOut parents stage' := by
  rcases Stage.place_cases hplace with ⟨rfl, -⟩ | ⟨child, memory, region, auto, roommates,
    slices, hchild, hmemory, hrequest, -, hslices, rfl⟩
  · exact h
  obtain ⟨hcut, hspares⟩ := hallowed child memory hchild hmemory
  have hsize := size_of_request hrequest
  have hspills : ∀ slice ∈ stage.slices.map Slice.toRegion, ¬ region.Spills slice := by
    rcases request_cases hrequest with ⟨-, hregion⟩ | ⟨-, -, hconsume⟩
    · intro slice hslice
      obtain ⟨slice', hslice', rfl⟩ := List.mem_map.mp hslice
      exact hcut region hregion slice' hslice'
    · exact h.tiles.not_spills_of_consume hconsume
  refine ⟨?_, ?_, ?_⟩
  · rw [map_toRegion_subtractAll hslices, List.map_append]
    exact h.tiles.subtract hspills
  · intro p hp hauto
    rcases List.mem_append.mp hp with hp | hp
    · exact h.inside p hp hauto
    · obtain rfl := List.mem_singleton.mp hp
      rcases request_cases hrequest with ⟨rfl, -⟩ | ⟨-, -, hconsume⟩
      · cases hauto
      · obtain ⟨-, best, hbest, hwithin, -⟩ := consume_spec hconsume
        obtain ⟨m, hm, hinside⟩ := h.tiles.inside _ (List.mem_map_of_mem hbest)
        exact ⟨m, hm, hwithin.trans hinside⟩
  · intro p hp hauto child1 hchild1 child2 hchild2 hne hdeclared region2 hregion2
    rcases List.mem_append.mp hp with hbefore | hnow
    · -- placed before: the box it is in has kept its name and its roommates
      obtain ⟨child0, hchild0, hname, hexplicit⟩ : ∃ child0, stage.boxes[p.box]? = some child0 ∧
          child1.name = child0.name ∧ child1.explicitRoommates = child0.explicitRoommates := by
        by_cases hbox : p.box = i
        · refine ⟨child, by rw [hbox, hchild], ?_⟩
          rw [hbox, List.getElem?_set_self (List.getElem?_eq_some_iff.mp hchild).1] at hchild1
          cases hchild1
          exact ⟨rfl, rfl⟩
        · rw [List.getElem?_set_ne (Ne.symm hbox)] at hchild1
          exact ⟨child1, hchild1, rfl, rfl⟩
      rw [hname] at hne
      rw [hexplicit] at hdeclared
      have hspared := h.apart p hbefore hauto child0 hchild0
      rcases List.mem_or_eq_of_mem_set hchild2 with hmem | rfl
      · exact hspared child2 hmem hne hdeclared region2 hregion2
      · have hknown : ∀ r ∈ child.regions, p.region.Apart r :=
          hspared child (List.mem_of_getElem? hchild) hne hdeclared
        rcases mem_regions_settled hsize hregion2 with hold | rfl
        · exact hknown region2 hold
        · rcases request_cases hrequest with ⟨-, hregion⟩ | ⟨-, -, hconsume⟩
          · exact hknown region2 (mem_regions.mpr ⟨memory, List.mem_of_getElem? hmemory, hregion⟩)
          · obtain ⟨-, best, hbest, hwithin, -⟩ := consume_spec hconsume
            intro a ha ha2
            exact h.tiles.apart _ (List.mem_map_of_mem hbest) p.region (List.mem_map_of_mem hbefore)
              a (hwithin.contains ha2) ha
    · obtain rfl := List.mem_singleton.mp hnow
      rcases request_cases hrequest with ⟨rfl, -⟩ | ⟨-, hnone, hconsume⟩
      · cases hauto
      · rw [List.getElem?_set_self (List.getElem?_eq_some_iff.mp hchild).1] at hchild1
        cases hchild1
        refine hspares hnone region hconsume child2 ?_ hne hdeclared region2 hregion2
        rcases List.mem_or_eq_of_mem_set hchild2 with hmem | rfl
        · exact hmem
        · exact absurd rfl hne

/-- A memory that leaves the layout right was allowed. -/
theorem allowed_of_laidOut {parents : List Region} {loader : Loader} {stage stage' : Stage}
    {i j : ℕ} (hparents : parents.Pairwise Region.Apart) (h : LaidOut parents stage)
    (hplace : stage.place loader i j = .ok stage') (h' : LaidOut parents stage') :
    Allowed loader stage i j := by
  intro child memory hchild hmemory
  rcases Stage.place_cases hplace with ⟨-, hle⟩ | ⟨child', memory', region, auto, roommates,
    slices, hchild', hmemory', hrequest, -, hslices, rfl⟩
  · unfold Stage.memoryCount at hle
    rw [hchild] at hle
    have hlt := (List.getElem?_eq_some_iff.mp hmemory).1
    exact absurd hlt (Nat.not_lt.mpr hle)
  rw [hchild, Option.some.injEq] at hchild'
  subst hchild'
  rw [hmemory, Option.some.injEq] at hmemory'
  subst hmemory'
  constructor
  · intro region' hregion' slice hslice
    rcases request_cases hrequest with ⟨-, hregion⟩ | ⟨-, hnone, -⟩
    · rw [hregion, Option.some.injEq] at hregion'
      subst hregion'
      have htiles := h'.tiles
      rw [map_toRegion_subtractAll hslices, List.map_append] at htiles
      exact h.tiles.not_spills hparents htiles _ (List.mem_map_of_mem hslice)
    · unfold Memory.region? at hregion'
      rw [hnone] at hregion'
      cases hregion'
  · intro hnone region' hconsume' child2 hchild2 hne hdeclared
    rcases request_cases hrequest with ⟨-, hregion⟩ | ⟨rfl, -, hconsume⟩
    · unfold Memory.region? at hregion
      rw [hnone] at hregion
      cases hregion
    rw [hconsume, Option.some.injEq] at hconsume'
    subst hconsume'
    refine h'.apart _ (List.mem_append_right _ (List.mem_singleton_self _)) rfl _
      (List.getElem?_set_self (List.getElem?_eq_some_iff.mp hchild).1) child2 ?_ hne hdeclared
    -- the other box is still there
    obtain ⟨m, hm⟩ := List.mem_iff_getElem?.mp hchild2
    refine List.mem_iff_getElem?.mpr ⟨m, ?_⟩
    rw [List.getElem?_set_ne, hm]
    rintro rfl
    rw [hchild, Option.some.injEq] at hm
    exact hne (by rw [hm])

/-! ## Section 3: The loops -/

theorem laidOut_sortMemories {parents : List Region} {stage : Stage} {i : ℕ}
    (h : LaidOut parents stage) : LaidOut parents (stage.sortMemories i) := by
  refine ⟨h.tiles, h.inside, fun p hp hauto child hchild child2 hchild2 hne hdeclared region2
    hregion2 => ?_⟩
  obtain ⟨child0, hchild0, hname, hexplicit, -⟩ := Stage.getElem?_sortMemories hchild
  obtain ⟨m, hm⟩ := List.mem_iff_getElem?.mp hchild2
  obtain ⟨child1, hchild1, hname1, -, hmemories⟩ := Stage.getElem?_sortMemories hm
  rw [hname, hname1] at hne
  rw [hexplicit, hname1] at hdeclared
  refine h.apart p hp hauto child0 hchild0 child1 (List.mem_of_getElem? hchild1) hne hdeclared
    region2 ?_
  obtain ⟨memory, hmemory, hknown⟩ := mem_regions.mp hregion2
  exact mem_regions.mpr ⟨memory, (hmemories memory).mp hmemory, hknown⟩

section Runs

variable {parents : List Region} {loader : Loader} {start : Stage}

theorem before_zero (i : ℕ) : start.before loader i 0 = start.placeBoxes loader i := by
  unfold Stage.before Stage.placeMemories
  exact bind_pure _

theorem before_succ (i j : ℕ) : start.before loader i (j + 1) =
    start.before loader i j >>= fun stage => stage.place loader i j := by
  unfold Stage.before Stage.placeMemories
  simp only [foldlM_range_succ, bind_assoc]

/-- The layout is right after every memory if every memory is allowed. -/
theorem laidOut_before (hstart : LaidOut parents start)
    (hallowed : ∀ i j stage, start.before loader i j = .ok stage → Allowed loader stage i j)
    (i j : ℕ) (stage : Stage) (h : start.before loader i j = .ok stage) :
    LaidOut parents stage := by
  have hmemories : ∀ i, (∀ stage, start.placeBoxes loader i = .ok stage → LaidOut parents stage) →
      ∀ j stage, start.before loader i j = .ok stage → LaidOut parents stage := by
    intro i hi j
    induction j with
    | zero =>
      intro stage h
      rw [before_zero] at h
      exact hi stage h
    | succ j ih =>
      intro stage h
      rw [before_succ, bind_ok] at h
      obtain ⟨u, hu, h⟩ := h
      exact laidOut_place (ih u hu) (hallowed i j u hu) h
  have hboxes : ∀ i stage, start.placeBoxes loader i = .ok stage → LaidOut parents stage := by
    intro i
    induction i with
    | zero =>
      intro stage h
      cases h
      exact hstart
    | succ i ih =>
      intro stage h
      unfold Stage.placeBoxes at h
      rw [foldlM_range_succ, bind_ok] at h
      obtain ⟨u, hu, h⟩ := h
      unfold Stage.placeBox at h
      rw [bind_ok] at h
      obtain ⟨v, hv, h⟩ := h
      cases h
      apply laidOut_sortMemories
      refine hmemories i ih (u.memoryCount i) v ?_
      unfold Stage.before
      exact bind_ok.mpr ⟨u, hu, hv⟩
  exact hmemories i (hboxes i) j stage h

/-- In a stage that succeeds, the placement that is next succeeds. -/
theorem before_succ_ok {final stage : Stage} {n i j : ℕ} {child : Box} {memory : Memory}
    (hn : n = start.boxes.length) (hfinal : start.placeBoxes loader n = .ok final)
    (h : start.before loader i j = .ok stage) (hchild : stage.boxes[i]? = some child)
    (hmemory : child.memories[j]? = some memory) :
    i < n ∧ j < stage.memoryCount i ∧ ∃ stage', start.before loader i (j + 1) = .ok stage' ∧
      stage.place loader i j = .ok stage' := by
  obtain ⟨u, hu, hplaces⟩ := bind_ok.mp h
  obtain ⟨hlength, hcount⟩ := Stage.placeMemories_counts hplaces
  have hi : i < n := by
    rw [hn, ← Stage.placeBoxes_length hu, ← hlength]
    exact (List.getElem?_eq_some_iff.mp hchild).1
  have hj : j < stage.memoryCount i := by
    unfold Stage.memoryCount
    rw [hchild]
    exact (List.getElem?_eq_some_iff.mp hmemory).1
  obtain ⟨u', hu'⟩ := foldlM_range_prefix hi hfinal
  rw [foldlM_range_succ, bind_ok] at hu'
  obtain ⟨v, hv, hbox⟩ := hu'
  obtain rfl : u = v := Except.ok.inj (hu.symm.trans hv)
  unfold Stage.placeBox at hbox
  rw [bind_ok] at hbox
  obtain ⟨w, hw, -⟩ := hbox
  obtain ⟨stage', hstage'⟩ := foldlM_range_prefix (hcount ▸ hj) hw
  have hnext : start.before loader i (j + 1) = .ok stage' := bind_ok.mpr ⟨u, hu, hstage'⟩
  have hplace := hnext
  rw [before_succ, h] at hplace
  exact ⟨hi, hj, stage', hnext, hplace⟩

/-- If the layout is right after every memory, every memory was allowed. -/
theorem allowed_before {final : Stage} {n : ℕ} (hparents : parents.Pairwise Region.Apart)
    (hn : n = start.boxes.length) (hfinal : start.placeBoxes loader n = .ok final)
    (hlaid : ∀ i j stage, start.before loader i j = .ok stage → LaidOut parents stage)
    (i j : ℕ) (stage : Stage) (h : start.before loader i j = .ok stage) :
    Allowed loader stage i j := by
  intro child memory hchild hmemory
  obtain ⟨-, -, stage', hnext, hplace⟩ := before_succ_ok hn hfinal h hchild hmemory
  exact allowed_of_laidOut hparents (hlaid i j stage h) hplace (hlaid i (j + 1) stage' hnext)
    child memory hchild hmemory

end Runs

/-! ## Section 4: The layout in the end -/

/-- The slices and boxes that a parent ends with -/
structure RightLayout (parents : List Region) (children : List Box) (final : Stage) : Prop where
  disjoint : (final.slices.map Slice.toRegion).Pairwise Region.Apart
  inside : ∀ slice ∈ final.slices, ∃ m ∈ parents, slice.Within m
  apart : ∀ slice ∈ final.slices, ∀ child ∈ final.boxes, ∀ region ∈ child.regions,
    slice.Apart region
  cover : ∀ m ∈ parents, ∀ a, m.Contains a → (∃ slice ∈ final.slices, slice.Contains a) ∨
    ∃ child ∈ final.boxes, ∃ region ∈ child.regions, region.Contains a
  placed : ∀ child ∈ final.boxes, ∀ memory ∈ child.memories, memory.addr ≠ none
  auto : ∀ (i : ℕ) child child', children[i]? = some child → final.boxes[i]? = some child' →
    ∀ memory ∈ child.memories, memory.addr = none → ∃ region, region.size = memory.size ∧
      { memory with addr := some region.addr } ∈ child'.memories ∧
      (∃ m ∈ parents, region.Within m) ∧ final.Spares child' region

/-- Everything that has been placed is a memory of its box. -/
def Known (stage : Stage) : Prop :=
  ∀ p ∈ stage.placed, ∃ child, stage.boxes[p.box]? = some child ∧ p.region ∈ child.regions

theorem known_place {loader : Loader} {stage stage' : Stage} {i j : ℕ} (h : Known stage)
    (hplace : stage.place loader i j = .ok stage') : Known stage' := by
  rcases Stage.place_cases hplace with ⟨rfl, -⟩ | ⟨child, memory, region, auto, roommates,
    slices, hchild, hmemory, hrequest, -, -, rfl⟩
  · exact h
  have hlt : i < stage.boxes.length := (List.getElem?_eq_some_iff.mp hchild).1
  obtain ⟨hjlt, hget⟩ := List.getElem?_eq_some_iff.mp hmemory
  have hnew : region ∈ (child.settled j memory region roommates).regions :=
    mem_regions.mpr ⟨_, List.mem_set hjlt _, Stage.region?_of_addr memory
      (size_of_request hrequest)⟩
  intro p hp
  rcases List.mem_append.mp hp with hbefore | hnow
  · obtain ⟨childp, hchildp, hregion⟩ := h p hbefore
    by_cases hbox : p.box = i
    · rw [hbox, hchild, Option.some.injEq] at hchildp
      subst hchildp
      refine ⟨_, by rw [hbox]; exact List.getElem?_set_self hlt, ?_⟩
      obtain ⟨memory', hmemory', hknown⟩ := mem_regions.mp hregion
      obtain ⟨k, hk⟩ := List.mem_iff_getElem?.mp hmemory'
      by_cases hkj : k = j
      · -- a memory that had an address has kept it
        subst hkj
        rw [hmemory, Option.some.injEq] at hk
        subst hk
        rcases request_cases hrequest with ⟨-, hsame⟩ | ⟨-, hnone, -⟩
        · rw [hsame, Option.some.injEq] at hknown
          rw [← hknown]
          exact hnew
        · unfold Memory.region? at hknown
          rw [hnone] at hknown
          cases hknown
      · refine mem_regions.mpr ⟨memory', List.mem_iff_getElem?.mpr ⟨k, ?_⟩, hknown⟩
        exact (List.getElem?_set_ne (Ne.symm hkj)).trans hk
    · exact ⟨childp, (List.getElem?_set_ne (Ne.symm hbox)).trans hchildp, hregion⟩
  · obtain rfl := List.mem_singleton.mp hnow
    exact ⟨_, List.getElem?_set_self hlt, hnew⟩

theorem known_placeBoxes {loader : Loader} {stage stage' : Stage} {n : ℕ} (h : Known stage)
    (hplace : stage.placeBoxes loader n = .ok stage') : Known stage' := by
  refine foldlM_invariant Known (fun u i u' hu hbox => ?_) h hplace
  unfold Stage.placeBox at hbox
  rw [bind_ok] at hbox
  obtain ⟨v, hv, hbox⟩ := hbox
  cases hbox
  have hknown : Known v :=
    foldlM_invariant Known (fun _ _ _ hw hstep => known_place hw hstep) hu hv
  intro p hp
  obtain ⟨child, hchild, hregion⟩ := hknown p hp
  obtain ⟨hothers, hsorted⟩ := Stage.sortMemories_boxes v i
  by_cases hbox : p.box = i
  · rw [hbox] at hchild
    obtain ⟨memories, hperm, hnow⟩ := hsorted child hchild
    refine ⟨_, by rw [hbox]; exact hnow, ?_⟩
    obtain ⟨memory, hmemory, hknown⟩ := mem_regions.mp hregion
    exact mem_regions.mpr ⟨memory, hperm.mem_iff.mpr hmemory, hknown⟩
  · exact ⟨child, (hothers _ hbox).trans hchild, hregion⟩

/-- Every memory of a box in the end, and the memory it was at the start -/
theorem settled_of_final {loader : Loader} {children : List Box} {start final : Stage}
    (hstart : List.Forall₂ (fun child child' => ∃ roommates, child' = { child with roommates } ∧
      child.explicitRoommates.foldlM (checkRoommate children child) child.roommates =
        .ok roommates) children start.boxes)
    (hfinal : start.placeBoxes loader children.length = .ok final) {i : ℕ} {child' : Box}
    (hchild' : final.boxes[i]? = some child') : ∃ child, children[i]? = some child ∧
      (∀ memory' ∈ child'.memories, ∃ memory ∈ child.memories, final.Settled i memory memory') ∧
      ∀ memory ∈ child.memories, ∃ memory' ∈ child'.memories,
        final.Settled i memory memory' := by
  have hi : i < children.length := by
    rw [hstart.length_eq, ← Stage.placeBoxes_length hfinal]
    exact (List.getElem?_eq_some_iff.mp hchild').1
  have hget := List.getElem?_eq_getElem hi
  obtain ⟨child0, hchild0, roommates, rfl, -⟩ := exists_right_of_getElem? hstart hget
  obtain ⟨child'', hchild'', hplaced⟩ :=
    (Stage.placedUpTo_placeBoxes hfinal).done i hi _ hchild0
  rw [hchild', Option.some.injEq] at hchild''
  subst hchild''
  obtain ⟨memories, hsettled, hperm⟩ := hplaced.memories
  refine ⟨_, hget, fun memory' hmemory' => ?_, fun memory hmemory => ?_⟩
  · exact exists_left_of_mem hsettled (hperm.mem_iff.mp hmemory')
  · obtain ⟨memory', hmemory', hs⟩ := exists_right_of_mem hsettled hmemory
    exact ⟨memory', hperm.mem_iff.mpr hmemory', hs⟩

/-- The layout after the last memory, in terms of the slices and the boxes -/
theorem rightLayout_of_laidOut {parents : List Region} {loader : Loader} {children : List Box}
    {start final : Stage}
    (hstart : List.Forall₂ (fun child child' => ∃ roommates, child' = { child with roommates } ∧
      child.explicitRoommates.foldlM (checkRoommate children child) child.roommates =
        .ok roommates) children start.boxes)
    (hplaced : start.placed = [])
    (hfinal : start.placeBoxes loader children.length = .ok final)
    (h : LaidOut parents final) : RightLayout parents children final := by
  have hknown : Known final := by
    refine known_placeBoxes (fun p hp => ?_) hfinal
    rw [hplaced] at hp
    cases hp
  constructor
  · exact h.tiles.disjoint
  · intro slice hslice
    exact h.tiles.inside _ (List.mem_map_of_mem hslice)
  · intro slice hslice child' hchild' region hregion
    obtain ⟨i, hi⟩ := List.mem_iff_getElem?.mp hchild'
    obtain ⟨child, -, hbefore, -⟩ := settled_of_final hstart hfinal hi
    obtain ⟨memory', hmemory', hregion'⟩ := mem_regions.mp hregion
    obtain ⟨memory, -, region', auto, hmem, hsize, rfl, -⟩ := hbefore memory' hmemory'
    rw [Stage.region?_of_addr memory hsize, Option.some.injEq] at hregion'
    subst hregion'
    exact h.tiles.apart _ (List.mem_map_of_mem hslice) _ (List.mem_map_of_mem hmem)
  · intro m hm a ha
    rcases h.tiles.cover m hm a ha with ⟨slice, hslice, hcontains⟩ | ⟨region, hregion, hcontains⟩
    · obtain ⟨slice', hslice', rfl⟩ := List.mem_map.mp hslice
      exact .inl ⟨slice', hslice', hcontains⟩
    · obtain ⟨p, hp, rfl⟩ := List.mem_map.mp hregion
      obtain ⟨child, hchild, hregion'⟩ := hknown p hp
      exact .inr ⟨child, List.mem_of_getElem? hchild, _, hregion', hcontains⟩
  · intro child' hchild' memory' hmemory'
    obtain ⟨i, hi⟩ := List.mem_iff_getElem?.mp hchild'
    obtain ⟨child, -, hbefore, -⟩ := settled_of_final hstart hfinal hi
    obtain ⟨memory, -, region', auto, -, -, rfl, -⟩ := hbefore memory' hmemory'
    simp
  · intro i child child' hchild hchild' memory hmemory hnone
    obtain ⟨child0, hchild0, -, hafter⟩ := settled_of_final hstart hfinal hchild'
    rw [hchild, Option.some.injEq] at hchild0
    subst hchild0
    obtain ⟨memory', hmemory', region, auto, hmem, hsize, rfl, hauto⟩ := hafter memory hmemory
    have hauto : auto = true := by
      rcases hauto with ⟨-, hregion⟩ | ⟨hauto, -⟩
      · unfold Memory.region? at hregion
        rw [hnone] at hregion
        cases hregion
      · exact hauto
    subst hauto
    exact ⟨region, hsize, hmemory', h.inside _ hmem rfl, h.apart _ hmem rfl child' hchild'⟩

/-- New names for the slices keep the layout. -/
theorem RightLayout.uniqueNames {parents : List Region} {children : List Box} {final : Stage}
    (h : RightLayout parents children final) :
    RightLayout parents children { final with slices := uniqueNames final.slices } := by
  have hmap := map_toRegion_uniqueNames final.slices
  have hslice : ∀ slice ∈ Recipe.uniqueNames final.slices, ∃ slice' ∈ final.slices,
      slice'.toRegion = slice.toRegion := by
    intro slice hslice
    have hmem := List.mem_map_of_mem (f := Slice.toRegion) hslice
    rw [hmap] at hmem
    exact List.mem_map.mp hmem
  refine ⟨by rw [hmap]; exact h.disjoint, fun slice hmem => ?_, fun slice hmem => ?_,
    fun m hm a ha => ?_, h.placed, h.auto⟩
  · obtain ⟨slice', hslice', heq⟩ := hslice slice hmem
    rw [← heq]
    exact h.inside slice' hslice'
  · obtain ⟨slice', hslice', heq⟩ := hslice slice hmem
    rw [← heq]
    exact h.apart slice' hslice'
  · rcases h.cover m hm a ha with ⟨slice, hmem, hcontains⟩ | hchild
    · have hmem' := List.mem_map_of_mem (f := Slice.toRegion) hmem
      rw [← hmap] at hmem'
      obtain ⟨slice', hslice', heq⟩ := List.mem_map.mp hmem'
      exact .inl ⟨slice', hslice', by rw [heq]; exact hcontains⟩
    · exact .inr hchild

/-- Throughout the stage, the layout is right if and only if every memory is allowed: then it is
right in the end. -/
theorem layout_iff {root : Box} {tree : Tree} {layout : Layout}
    (haccepted : tree.box root = .ok layout) {parent : Box} {children : List Box} {final : Stage}
    (hnode : (parent, children, final) ∈ layout.nodes)
    (hdisjoint : parent.regions.Pairwise Region.Apart) :
    ∃ first, start parent children = .ok first ∧
      ((∀ i j stage, first.before parent.loader i j = .ok stage →
          LaidOut parent.regions stage) ↔
        ∀ i j stage, first.before parent.loader i j = .ok stage →
          Allowed parent.loader stage i j) ∧
      ((∀ i j stage, first.before parent.loader i j = .ok stage →
          Allowed parent.loader stage i j) → RightLayout parent.regions children final) := by
  have hboxes := boxes_of_mem_nodes haccepted _ hnode
  unfold boxes at hboxes
  rw [bind_ok] at hboxes
  obtain ⟨first, hfirst, hboxes⟩ := hboxes
  rw [bind_ok] at hboxes
  obtain ⟨last, hlast, hboxes⟩ := hboxes
  cases hboxes
  obtain ⟨hslices, hplaced, hroommates⟩ := start_spec hfirst
  have hstart := forall₂_checkRoommates hroommates
  have hlaid : LaidOut parent.regions first := by
    refine ⟨?_, ?_, ?_⟩
    · rw [hslices, hplaced]
      exact tiles_start hdisjoint
    · intro p hp
      rw [hplaced] at hp
      cases hp
    · intro p hp
      rw [hplaced] at hp
      cases hp
  refine ⟨first, hfirst, ⟨allowed_before hdisjoint hstart.length_eq hlast,
    laidOut_before hlaid⟩, fun hallowed => ?_⟩
  apply RightLayout.uniqueNames
  refine rightLayout_of_laidOut hstart hplaced hlast ?_
  refine laidOut_before hlaid hallowed children.length 0 last ?_
  rw [before_zero]
  exact hlast

/-! ## Section 5: A box at the front of a RAM -/

/-- A parent with one RAM -/
def ramParent : Box :=
  ⟨"sys", .noop, false, [], [⟨"ram", ⟨true, true, false, false⟩, some 0x20000000, 0x1000, none⟩],
    []⟩

/-- A box that wants 256 bytes of RAM -/
def ramBox (name : String) (addr : Option ℕ) : Box :=
  ⟨name, .noop, false, [], [⟨"ram", ⟨true, true, false, false⟩, addr, 0x100, none⟩], []⟩

/-- One box at the front of the RAM, and one that the parent places -/
def frontTree : Tree :=
  .node ramParent [.node (ramBox "a" (some 0x20000000)) [], .node (ramBox "b" none) []]

/-- The slice behind the first box ends 512 bytes behind the RAM, and the second box is put
there. -/
def frontStage : Stage where
  slices := [⟨⟨0x20000100, 0x1000⟩, "ram", ⟨true, true, false, false⟩, none,
    ⟨0x20000000, 0x1000⟩⟩]
  boxes := [ramBox "a" (some 0x20000000), ramBox "b" (some 0x20001100)]
  placed := [⟨0, ⟨0x20000000, 0x100⟩, false⟩, ⟨1, ⟨0x20001100, 0x100⟩, true⟩]

/-- A box without boxes -/
def leafStage (addr : ℕ) : Stage where
  slices := [⟨⟨addr, 0x100⟩, "ram", ⟨true, true, false, false⟩, none, ⟨addr, 0x100⟩⟩]
  boxes := []
  placed := []

def frontLayout : Layout :=
  .node ramParent [ramBox "a" (some 0x20000000), ramBox "b" none] frontStage
    [.node (ramBox "a" (some 0x20000000)) [] (leafStage 0x20000000) [],
      .node (ramBox "b" (some 0x20001100)) [] (leafStage 0x20001100) []]

theorem box_frontTree : frontTree.box ramParent = .ok frontLayout := by
  have hfront : boxes ramParent [ramBox "a" (some 0x20000000), ramBox "b" none] =
      .ok frontStage := by decide +kernel
  have hleaf : ∀ name addr, boxes (ramBox name (some addr)) [] = .ok (leafStage addr) :=
    fun _ _ => rfl
  unfold frontTree Tree.box
  refine bind_ok.mpr ⟨frontStage, hfront, ?_⟩
  refine bind_ok.mpr ⟨_, ?_, rfl⟩
  unfold frontStage boxTrees
  refine bind_ok.mpr ⟨_, by unfold Tree.box; exact bind_ok.mpr ⟨_, hleaf _ _, rfl⟩, ?_⟩
  refine bind_ok.mpr ⟨_, ?_, rfl⟩
  unfold boxTrees
  refine bind_ok.mpr ⟨_, by unfold Tree.box; exact bind_ok.mpr ⟨_, hleaf _ _, rfl⟩, ?_⟩
  rfl

theorem layout_frontTree :
    ∃ first, start ramParent [ramBox "a" (some 0x20000000), ramBox "b" none] = .ok first ∧
      ((∀ i j stage, first.before .noop i j = .ok stage → LaidOut ramParent.regions stage) ↔
        ∀ i j stage, first.before .noop i j = .ok stage → Allowed .noop stage i j) ∧
      ((∀ i j stage, first.before .noop i j = .ok stage → Allowed .noop stage i j) →
        RightLayout ramParent.regions [ramBox "a" (some 0x20000000), ramBox "b" none]
          frontStage) :=
  layout_iff box_frontTree (.head _) (List.pairwise_singleton _ _)

/-- The tree is accepted, and the second box lies behind the memory of its parent. -/
theorem not_rightLayout_front :
    ¬ ∀ (root : Box) (tree : Tree) (layout : Layout), tree.box root = .ok layout →
      ∀ (parent : Box) (children : List Box) (final : Stage),
        (parent, children, final) ∈ layout.nodes → parent.regions.Pairwise Region.Apart →
          RightLayout parent.regions children final := by
  intro h
  have hlayout := h ramParent frontTree frontLayout box_frontTree ramParent _ frontStage
    (.head _) (List.pairwise_singleton _ _)
  obtain ⟨m, hm, hwithin⟩ := hlayout.inside _ (.head _)
  obtain rfl : m = ⟨0x20000000, 0x1000⟩ := List.mem_singleton.mp hm
  exact absurd hwithin.2 (by decide)

end BentoLinker.Recipe
