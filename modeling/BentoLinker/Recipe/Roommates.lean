import BentoLinker.Recipe.Layout

/-!
# Roommates

The boxes that a parent clobbers when it initializes a box: the ones that share memory with it,
and the ones that both declare each other.

- `RoommatesRight`: what the lists of roommates should say
- `Noticed`: a memory that the parent places overlaps no box in front of it, unless that box
  has the other one as a roommate already
- `roommates_iff`: the lists are right if and only if every placement is noticed

A box looks at the memories of all other boxes when its own are placed. What it overlaps then,
it finds; a box in front of it that has no address for it yet does not find it later.
-/

namespace BentoLinker.Recipe

open FallibleFold

/-! ## Section 1: Declared roommates -/

theorem mem_foldlM_checkRoommate {boxes : List Box} {child : Box} {names roommates
    roommates' : List String}
    (h : names.foldlM (checkRoommate boxes child) roommates = .ok roommates') :
    (∀ name, name ∈ roommates' ↔ name ∈ roommates ∨ name ∈ names) ∧
      ∀ name ∈ names, child.idempotent = true ∧ ∃ child2 ∈ boxes, child2.name = name ∧
        child.name ∈ child2.explicitRoommates := by
  induction names generalizing roommates with
  | nil =>
    cases h
    simp
  | cons roommate names ih =>
    rw [List.foldlM_cons, bind_ok] at h
    obtain ⟨roommates1, hfirst, h⟩ := h
    obtain ⟨hmem, hdeclared⟩ := ih h
    unfold checkRoommate at hfirst
    split at hfirst
    · cases hfirst
    · next hidempotent =>
      split at hfirst
      · cases hfirst
      · next child2 hfind =>
        split at hfirst
        · next hboth =>
          cases hfirst
          have hname : child2.name = roommate := by
            simpa using List.find?_some hfind
          constructor
          · intro name
            rw [hmem, mem_addRoommate, List.mem_cons, or_assoc, hname]
          · intro name hname'
            rcases List.mem_cons.mp hname' with rfl | hname'
            · refine ⟨by simpa using hidempotent, child2, List.mem_of_find?_eq_some hfind, hname,
                hboth⟩
            · exact hdeclared name hname'
        · cases hfirst

/-! ## Section 2: Where a placement comes from -/

/-- The step that has placed a memory -/
def Origin (loader : Loader) (first : Stage) (p : Placement) : Prop :=
  ∃ j stage child memory, first.before loader p.box j = .ok stage ∧
    stage.boxes[p.box]? = some child ∧ child.memories[j]? = some memory ∧
    request loader stage.slices child memory = .ok (p.region, p.auto)

theorem origin_place {loader : Loader} {first stage stage' : Stage} {i j : ℕ}
    (hbefore : first.before loader i j = .ok stage)
    (h : ∀ p ∈ stage.placed, p ∈ first.placed ∨ Origin loader first p)
    (hplace : stage.place loader i j = .ok stage') :
    ∀ p ∈ stage'.placed, p ∈ first.placed ∨ Origin loader first p := by
  rcases Stage.place_cases hplace with ⟨rfl, -⟩ | ⟨child, memory, region, auto, roommates,
    slices, hchild, hmemory, hrequest, -, -, rfl⟩
  · exact h
  · intro p hp
    rcases List.mem_append.mp hp with hp | hp
    · exact h p hp
    · obtain rfl := List.mem_singleton.mp hp
      exact .inr ⟨j, stage, child, memory, hbefore, hchild, hmemory, hrequest⟩

/-- Everything that has been placed has been placed by a step. -/
theorem origin_placeBoxes {loader : Loader} {first final : Stage} {n : ℕ}
    (h : first.placeBoxes loader n = .ok final) :
    ∀ p ∈ final.placed, p ∈ first.placed ∨ Origin loader first p := by
  refine foldlM_range_invariant (fun _ u => ∀ p ∈ u.placed, p ∈ first.placed ∨
    Origin loader first p) (fun p hp => .inl hp) (fun i _ u u' hu hinv hbox => ?_) h
  unfold Stage.placeBox at hbox
  rw [bind_ok] at hbox
  obtain ⟨v, hv, hbox⟩ := hbox
  cases hbox
  refine foldlM_range_invariant (fun _ w => ∀ p ∈ w.placed, p ∈ first.placed ∨
    Origin loader first p) hinv (fun j _ w w' hw hinv' hplace => ?_) hv
  exact origin_place (bind_ok.mpr ⟨u, hu, hw⟩) hinv' hplace

/-- What is placed stays placed, and boxes stay as they are once it is their turn to be seen. -/
theorem final_of_before {loader : Loader} {first final stage : Stage} {i j n : ℕ} (hi : i < n)
    (hfinal : first.placeBoxes loader n = .ok final) (h : first.before loader i j = .ok stage)
    (hj : j ≤ stage.memoryCount i) :
    stage.placed ⊆ final.placed ∧ ∀ m < i, final.boxes[m]? = stage.boxes[m]? := by
  obtain ⟨u, hu, hplaces⟩ := bind_ok.mp h
  obtain ⟨u', hu'⟩ := foldlM_range_prefix (Nat.succ_le_of_lt hi) hfinal
  have hsucc := hu'
  rw [foldlM_range_succ, bind_ok] at hsucc
  obtain ⟨v, hv, hbox⟩ := hsucc
  obtain rfl : u = v := Except.ok.inj (hu.symm.trans hv)
  have hcount : stage.memoryCount i = u.memoryCount i := (Stage.placeMemories_counts hplaces).2
  rw [hcount] at hj
  have hothers : ∀ m, m ≠ i → stage.boxes[m]? = u.boxes[m]? :=
    (Stage.placing_placeMemories hj hplaces).others
  -- the rest of the memories of the box
  have hrest : stage.placed ⊆ u'.placed := by
    unfold Stage.placeBox at hbox
    rw [bind_ok] at hbox
    obtain ⟨w, hw, hbox⟩ := hbox
    cases hbox
    change stage.placed ⊆ w.placed
    refine foldlM_range_suffix (fun x : Stage => stage.placed ⊆ x.placed) hj hplaces
      (List.Subset.refl _) (fun k _ _ x x' hx hplace => ?_) hw
    rcases Stage.place_cases hplace with ⟨rfl, -⟩ | ⟨_, _, _, _, _, _, -, -, -, -, -, rfl⟩
    · exact hx
    · exact List.Subset.trans hx (List.subset_append_left _ _)
  have hlater : ∀ k, i + 1 ≤ k → k < n → ∀ x x' : Stage, x.placeBox loader k = .ok x' →
      x.placed ⊆ x'.placed ∧ ∀ m < i, x'.boxes[m]? = x.boxes[m]? := by
    intro k hk _ x x' hx
    refine ⟨?_, fun m hm => Stage.placeBox_others hx (by omega)⟩
    unfold Stage.placeBox at hx
    rw [bind_ok] at hx
    obtain ⟨w, hw, hx⟩ := hx
    cases hx
    exact (Stage.placing_placeMemories le_rfl hw).placed
  refine foldlM_range_suffix (fun x : Stage => stage.placed ⊆ x.placed ∧
    ∀ m < i, x.boxes[m]? = stage.boxes[m]?) (Nat.succ_le_of_lt hi) hu' ⟨hrest, fun m hm => ?_⟩
    (fun k hk hkn x x' hx hplace => ?_) hfinal
  · rw [Stage.placeBox_others hbox (by omega), hothers m (by omega)]
  · obtain ⟨hplaced, hboxes⟩ := hlater k hk hkn x x' hplace
    exact ⟨List.Subset.trans hx.1 hplaced, fun m hm => (hboxes m hm).trans (hx.2 m hm)⟩

/-! ## Section 3: Lists of roommates -/

/-- Two boxes share memory. -/
def Box.Overlaps (a b : Box) : Prop :=
  ∃ region ∈ a.regions, ∃ region2 ∈ b.regions, region.overlaps region2 = true

theorem Box.Overlaps.symm {a b : Box} (h : a.Overlaps b) : b.Overlaps a := by
  obtain ⟨region, hregion, region2, hregion2, hover⟩ := h
  exact ⟨region2, hregion2, region, hregion, by rw [Region.overlaps_comm]; exact hover⟩

/-- Roommates are the boxes that share memory, and the ones that declare each other. -/
structure RoommatesRight (final : Stage) : Prop where
  overlapping : ∀ a ∈ final.boxes, ∀ b ∈ final.boxes, a.name ≠ b.name → a.Overlaps b →
    b.name ∈ a.roommates
  symmetric : ∀ a ∈ final.boxes, ∀ b ∈ final.boxes, a.name ≠ b.name → b.name ∈ a.roommates →
    a.name ∈ b.roommates
  reason : ∀ a ∈ final.boxes, ∀ b ∈ final.boxes, a.name ≠ b.name → b.name ∈ a.roommates →
    a.Overlaps b ∨ (b.name ∈ a.explicitRoommates ∧ a.name ∈ b.explicitRoommates)
  idempotent : ∀ a ∈ final.boxes, ∀ b ∈ final.boxes, a.name ≠ b.name → a.Overlaps b →
    b.name ∈ a.roommates → a.idempotent = true

/-- Every box has found the boxes behind it that overlap. -/
def FoundBehind (final : Stage) : Prop :=
  ∀ (i k : ℕ) (a b : Box), i < k → final.boxes[i]? = some a → final.boxes[k]? = some b →
    a.Overlaps b → b.name ∈ a.roommates

/-- A memory that is served from a slice overlaps no box in front of its own, or that box has
its own as a roommate. -/
def Noticed (loader : Loader) (stage : Stage) (i j : ℕ) : Prop :=
  ∀ child memory, stage.boxes[i]? = some child → child.memories[j]? = some memory →
    memory.addr = none → ∀ region, consume loader stage.slices memory = some region →
      ∀ m < i, ∀ other, stage.boxes[m]? = some other →
        (∃ region2 ∈ other.regions, region2.overlaps region = true) → child.name ∈ other.roommates

section Lists

variable {loader : Loader} {children : List Box} {first final : Stage}

/-- Box `i` in the end, and the box it was -/
theorem box_of_final (hstart : checkRoommates children = .ok first.boxes)
    (hfresh : ∀ child ∈ children, child.roommates = [])
    (hfinal : first.placeBoxes loader children.length = .ok final) {i : ℕ} {a : Box}
    (ha : final.boxes[i]? = some a) : i < children.length ∧ ∃ child, children[i]? = some child ∧
      a.name = child.name ∧ a.explicitRoommates = child.explicitRoommates ∧
      ∃ child', first.boxes[i]? = some child' ∧ child'.name = child.name ∧
        child'.idempotent = a.idempotent ∧ Stage.Placed first final i child' a ∧
        (∀ name, name ∈ child'.roommates ↔ name ∈ child.explicitRoommates) ∧
        ∀ name ∈ child.explicitRoommates, ∃ child2 ∈ children, child2.name = name ∧
          child.name ∈ child2.explicitRoommates := by
  have hforall := forall₂_checkRoommates hstart
  have hi : i < children.length := by
    rw [hforall.length_eq, ← Stage.placeBoxes_length hfinal]
    exact (List.getElem?_eq_some_iff.mp ha).1
  have hget := List.getElem?_eq_getElem hi
  obtain ⟨child', hchild', roommates, rfl, hfold⟩ := exists_right_of_getElem? hforall hget
  obtain ⟨a', ha', hplaced⟩ := (Stage.placedUpTo_placeBoxes hfinal).done i hi _ hchild'
  rw [ha, Option.some.injEq] at ha'
  subst ha'
  obtain ⟨hmem, hdeclared⟩ := mem_foldlM_checkRoommate hfold
  refine ⟨hi, _, hget, ?_, ?_, _, hchild', rfl, ?_, hplaced, ?_, ?_⟩
  · rw [hplaced.same]
  · rw [hplaced.same]
  · rw [hplaced.same]
  · intro name
    rw [hmem, hfresh _ (List.getElem_mem hi)]
    simp
  · exact fun name hname => (hdeclared name hname).2

/-- Boxes of different numbers have different names. -/
theorem index_eq_of_name (hstart : checkRoommates children = .ok first.boxes)
    (hfresh : ∀ child ∈ children, child.roommates = [])
    (hnames : (children.map Box.name).Nodup)
    (hfinal : first.placeBoxes loader children.length = .ok final) {i k : ℕ} {a b : Box}
    (ha : final.boxes[i]? = some a) (hb : final.boxes[k]? = some b) (hname : a.name = b.name) :
    i = k := by
  obtain ⟨hi, child, hchild, hnamea, -⟩ := box_of_final hstart hfresh hfinal ha
  obtain ⟨hk, child', hchild', hnameb, -⟩ := box_of_final hstart hfresh hfinal hb
  refine (List.getElem?_inj (by rw [List.length_map]; exact hi) hnames).mp ?_
  rw [List.getElem?_map, List.getElem?_map, hchild, hchild', Option.map_some, Option.map_some,
    ← hnamea, ← hnameb, hname]

/-- Memories with an address keep it. -/
theorem regions_subset_final {i : ℕ} {child a : Box} (h : Stage.Placed first final i child a) :
    ∀ region ∈ child.regions, region ∈ a.regions := by
  intro region hregion
  obtain ⟨memory, hmemory, hknown⟩ := mem_regions.mp hregion
  obtain ⟨memories, hsettled, hperm⟩ := h.memories
  obtain ⟨memory', hmemory', region', auto, -, hsize, rfl, hwhere⟩ :=
    exists_right_of_mem hsettled hmemory
  rcases hwhere with ⟨-, hsame⟩ | ⟨-, hnone⟩
  · rw [hknown, Option.some.injEq] at hsame
    subst hsame
    exact mem_regions.mpr ⟨_, hperm.mem_iff.mpr hmemory', Stage.region?_of_addr memory hsize⟩
  · unfold Memory.region? at hknown
    rw [hnone] at hknown
    cases hknown

/-- What a box has found: everything in front of it that overlaps, and everything behind it
that overlaps and had an address. -/
theorem mem_roommates_iff (hstart : checkRoommates children = .ok first.boxes)
    (hfresh : ∀ child ∈ children, child.roommates = [])
    (hnames : (children.map Box.name).Nodup)
    (hfinal : first.placeBoxes loader children.length = .ok final) {i k : ℕ} {a b : Box}
    (ha : final.boxes[i]? = some a) (hb : final.boxes[k]? = some b) (hne : b.name ≠ a.name) :
    (b.name ∈ a.roommates ↔ b.name ∈ a.explicitRoommates ∨ (k < i ∧ b.Overlaps a) ∨
      (i < k ∧ ∃ child, first.boxes[k]? = some child ∧ child.Overlaps a)) ∧
    (k < i → b.Overlaps a → a.idempotent = true ∧ b.idempotent = true) := by
  obtain ⟨-, childa, -, hnamea, hexplicit, childa', hchilda', hnamea', hidem, hplaced, hroommates,
    -⟩ := box_of_final hstart hfresh hfinal ha
  obtain ⟨-, childb, -, hnameb, -, childb', hchildb', hnameb', -⟩ :=
    box_of_final hstart hfresh hfinal hb
  obtain ⟨hfound, hidempotent⟩ := hplaced.found
  have hik : i ≠ k := by
    rintro rfl
    rw [ha, Option.some.injEq] at hb
    exact hne (by rw [hb])
  have hregions : ∀ child2 : Box, (∃ region2 ∈ child2.regions, ∃ memory ∈ a.memories, ∃ region,
      memory.region? = some region ∧ region2.overlaps region = true) ↔ child2.Overlaps a := by
    intro child2
    refine exists_congr fun region2 => and_congr_right fun _ => ?_
    constructor
    · rintro ⟨memory, hmemory, region, hregion, hover⟩
      exact ⟨region, mem_regions.mpr ⟨memory, hmemory, hregion⟩, hover⟩
    · rintro ⟨region, hregion, hover⟩
      obtain ⟨memory, hmemory, hregion⟩ := mem_regions.mp hregion
      exact ⟨memory, hmemory, region, hregion, hover⟩
  constructor
  · rw [hfound b.name, hroommates, hexplicit]
    refine or_congr_right ?_
    simp only [hregions]
    constructor
    · rintro ⟨child2, ⟨m, hseen⟩, -, hname, hover⟩
      split at hseen
      · next hm =>
        -- the box as it has been placed
        obtain rfl := index_eq_of_name hstart hfresh hnames hfinal hb hseen hname
        rw [hb, Option.some.injEq] at hseen
        subst hseen
        exact .inl ⟨hm, hover⟩
      · next hm =>
        have hmk : m = k := by
          have hmlt : m < children.length := by
            rw [(forall₂_checkRoommates hstart).length_eq]
            exact (List.getElem?_eq_some_iff.mp hseen).1
          obtain ⟨c, hc, hplacedc⟩ :=
            (Stage.placedUpTo_placeBoxes hfinal).done m hmlt child2 hseen
          refine index_eq_of_name hstart hfresh hnames hfinal hc hb ?_
          rw [hplacedc.same, hname]
        subst hmk
        exact .inr ⟨by omega, child2, hseen, hover⟩
    · rintro (⟨hlt, hover⟩ | ⟨hlt, child, hchild, hover⟩)
      · refine ⟨b, ⟨k, by rw [if_pos hlt, hb]⟩, ?_, rfl, hover⟩
        rw [hnamea', ← hnamea]
        exact hne
      · rw [hchildb', Option.some.injEq] at hchild
        subst hchild
        refine ⟨childb', ⟨k, by rw [if_neg (by omega), hchildb']⟩, ?_, ?_, hover⟩
        · rw [hnameb', ← hnameb, hnamea', ← hnamea]
          exact hne
        · rw [hnameb', hnameb]
  · intro hlt hover
    obtain ⟨region2, hregion2, memory, hmemory, region, hregion, hover⟩ := (hregions b).mpr hover
    have hboth := hidempotent b ⟨k, by rw [if_pos hlt, hb]⟩
      (by rw [hnamea', ← hnamea]; exact hne) region2 hregion2 memory hmemory region hregion hover
    exact ⟨by rw [← hidem]; exact hboth.1, hboth.2⟩

/-- Declared roommates declare each other. -/
theorem explicit_symm (hstart : checkRoommates children = .ok first.boxes)
    (hfresh : ∀ child ∈ children, child.roommates = [])
    (hnames : (children.map Box.name).Nodup)
    (hfinal : first.placeBoxes loader children.length = .ok final) {i k : ℕ} {a b : Box}
    (ha : final.boxes[i]? = some a) (hb : final.boxes[k]? = some b)
    (h : b.name ∈ a.explicitRoommates) : a.name ∈ b.explicitRoommates := by
  obtain ⟨-, childa, -, hnamea, hexplicita, -, -, -, -, -, -, hdeclared⟩ :=
    box_of_final hstart hfresh hfinal ha
  obtain ⟨hk, childb, hchildb, hnameb, hexplicitb, -⟩ := box_of_final hstart hfresh hfinal hb
  rw [hexplicita] at h
  obtain ⟨child2, hchild2, hname, hboth⟩ := hdeclared _ h
  obtain ⟨m, hm⟩ := List.mem_iff_getElem?.mp hchild2
  have hmk : m = k := by
    have hmlt : m < (children.map Box.name).length := by
      rw [List.length_map]
      exact (List.getElem?_eq_some_iff.mp hm).1
    refine (List.getElem?_inj hmlt hnames).mp ?_
    rw [List.getElem?_map, List.getElem?_map, hm, hchildb, Option.map_some, Option.map_some,
      hname, hnameb]
  subst hmk
  rw [hm, Option.some.injEq] at hchildb
  rw [hexplicitb, ← hchildb, hnamea]
  exact hboth

/-- Only boxes in front can miss a roommate. -/
theorem roommatesRight_iff_forward (hstart : checkRoommates children = .ok first.boxes)
    (hfresh : ∀ child ∈ children, child.roommates = [])
    (hnames : (children.map Box.name).Nodup)
    (hfinal : first.placeBoxes loader children.length = .ok final) :
    RoommatesRight final ↔ FoundBehind final := by
  have hindex : ∀ {i k : ℕ} {a b : Box}, final.boxes[i]? = some a → final.boxes[k]? = some b →
      a.name = b.name → i = k := fun ha hb hname =>
    index_eq_of_name hstart hfresh hnames hfinal ha hb hname
  constructor
  · intro h i k a b hlt ha hb hover
    refine h.overlapping a (List.mem_of_getElem? ha) b (List.mem_of_getElem? hb) ?_ hover
    intro hname
    have := hindex ha hb hname
    omega
  · intro hforward
    -- the reason for a roommate, and what follows from an overlap
    have hreason : ∀ (i k : ℕ) (a b : Box), final.boxes[i]? = some a → final.boxes[k]? = some b →
        a.name ≠ b.name → b.name ∈ a.roommates → a.Overlaps b ∨ b.name ∈ a.explicitRoommates := by
      intro i k a b ha hb hne hmem
      rcases (mem_roommates_iff hstart hfresh hnames hfinal ha hb hne.symm).1.mp hmem with
        hexplicit | ⟨-, hover⟩ | ⟨-, child, hchild, hover⟩
      · exact .inr hexplicit
      · exact .inl hover.symm
      · left
        obtain ⟨-, -, -, -, -, child', hchild', -, -, hplaced, -⟩ :=
          box_of_final hstart hfresh hfinal hb
        rw [hchild, Option.some.injEq] at hchild'
        subst hchild'
        obtain ⟨region, hregion, hrest⟩ := hover
        exact Box.Overlaps.symm ⟨region, regions_subset_final hplaced region hregion, hrest⟩
    have hoverlap : ∀ (i k : ℕ) (a b : Box), final.boxes[i]? = some a → final.boxes[k]? = some b →
        a.name ≠ b.name → a.Overlaps b → b.name ∈ a.roommates ∧ a.idempotent = true := by
      intro i k a b ha hb hne hover
      rcases Nat.lt_trichotomy i k with hlt | rfl | hgt
      · exact ⟨hforward i k a b hlt ha hb hover,
          ((mem_roommates_iff hstart hfresh hnames hfinal hb ha hne).2 hlt hover).2⟩
      · rw [ha, Option.some.injEq] at hb
        exact absurd (by rw [hb]) hne
      · obtain ⟨hiff, hidem⟩ := mem_roommates_iff hstart hfresh hnames hfinal ha hb hne.symm
        exact ⟨hiff.mpr (.inr (.inl ⟨hgt, hover.symm⟩)), (hidem hgt hover.symm).1⟩
    refine ⟨?_, ?_, ?_, ?_⟩ <;> intro a hmema b hmemb hne <;>
      obtain ⟨i, ha⟩ := List.mem_iff_getElem?.mp hmema <;>
      obtain ⟨k, hb⟩ := List.mem_iff_getElem?.mp hmemb
    · intro hover
      exact (hoverlap i k a b ha hb hne hover).1
    · intro hmem
      rcases hreason i k a b ha hb hne hmem with hover | hexplicit
      · exact (hoverlap k i b a hb ha hne.symm hover.symm).1
      · refine (mem_roommates_iff hstart hfresh hnames hfinal hb ha hne).1.mpr (.inl ?_)
        exact explicit_symm hstart hfresh hnames hfinal ha hb hexplicit
    · intro hmem
      rcases hreason i k a b ha hb hne hmem with hover | hexplicit
      · exact .inl hover
      · exact .inr ⟨hexplicit, explicit_symm hstart hfresh hnames hfinal ha hb hexplicit⟩
    · intro hover _
      exact (hoverlap i k a b ha hb hne hover).2

/-- A box under placement has the name it has in the end. -/
theorem name_of_before (hstart : checkRoommates children = .ok first.boxes)
    (hfresh : ∀ child ∈ children, child.roommates = [])
    (hfinal : first.placeBoxes loader children.length = .ok final) {i j : ℕ} {stage : Stage}
    {child a : Box} (h : first.before loader i j = .ok stage) (hj : j ≤ stage.memoryCount i)
    (hchild : stage.boxes[i]? = some child) (ha : final.boxes[i]? = some a) :
    child.name = a.name := by
  obtain ⟨-, child0, -, hname, -, child', hchild', hname', -⟩ :=
    box_of_final hstart hfresh hfinal ha
  obtain ⟨u, hu, hplaces⟩ := bind_ok.mp h
  have hsame : u.boxes[i]? = some child' := by
    rw [(Stage.placedUpTo_placeBoxes hu).rest i le_rfl, hchild']
  rw [(Stage.placeMemories_counts hplaces).2] at hj
  obtain ⟨memories, roommates, hnow, -⟩ :=
    (Stage.placing_placeMemories hj hplaces).child child' hsame
  rw [hchild, Option.some.injEq] at hnow
  rw [hnow, hname, hname']

/-- A box in front misses a roommate exactly when a placement is not noticed. -/
theorem forward_iff_noticed (hstart : checkRoommates children = .ok first.boxes)
    (hplaced : first.placed = []) (hfresh : ∀ child ∈ children, child.roommates = [])
    (hnames : (children.map Box.name).Nodup)
    (hfinal : first.placeBoxes loader children.length = .ok final) :
    FoundBehind final ↔
      ∀ i j stage, first.before loader i j = .ok stage → Noticed loader stage i j := by
  have hlength := (forall₂_checkRoommates hstart).length_eq
  constructor
  · intro hforward k j stage h child memory hchild hmemory hnone region hconsume i hi other hother
      ⟨region2, hregion2, hover⟩
    obtain ⟨hk, hj, stage', hnext, hplace⟩ := before_succ_ok hlength hfinal h hchild hmemory
    obtain ⟨-, hboxes⟩ := final_of_before hk hfinal h hj.le
    -- the memory stays where it is placed
    have hmem : ⟨k, region, true⟩ ∈ final.placed := by
      have hcount := (Stage.place_counts hplace).2
      refine (final_of_before hk hfinal hnext (by omega)).1 ?_
      rcases Stage.place_cases hplace with ⟨-, hle⟩ | ⟨child', memory', region', auto, roommates,
        slices, hchild', hmemory', hrequest, -, -, rfl⟩
      · omega
      · rw [hchild, Option.some.injEq] at hchild'
        subst hchild'
        rw [hmemory, Option.some.injEq] at hmemory'
        subst hmemory'
        rcases request_cases hrequest with ⟨-, hregion⟩ | ⟨rfl, -, hconsume'⟩
        · unfold Memory.region? at hregion
          rw [hnone] at hregion
          cases hregion
        · rw [hconsume, Option.some.injEq] at hconsume'
          subst hconsume'
          exact List.mem_append_right _ (List.mem_singleton_self _)
    have hknown : Known final := by
      refine known_placeBoxes (fun p hp => ?_) hfinal
      rw [hplaced] at hp
      cases hp
    obtain ⟨b, hb, hregion⟩ := hknown _ hmem
    rw [name_of_before hstart hfresh hfinal h hj.le hchild hb]
    exact hforward i k other b hi ((hboxes i hi).trans hother) hb
      ⟨region2, hregion2, region, hregion, hover⟩
  · intro hnoticed i k a b hlt ha hb ⟨region2, hregion2, region, hregion, hover⟩
    have hne : b.name ≠ a.name := by
      intro hname
      have := index_eq_of_name hstart hfresh hnames hfinal hb ha hname
      omega
    obtain ⟨hk, -, -, -, -, child', hchild', -, -, hplacedb, -⟩ :=
      box_of_final hstart hfresh hfinal hb
    obtain ⟨memory', hmemory', hknown⟩ := mem_regions.mp hregion
    obtain ⟨memories, hsettled, hperm⟩ := hplacedb.memories
    obtain ⟨memory, hmemory, region', auto, hmem, hsize, rfl, hwhere⟩ :=
      exists_left_of_mem hsettled (hperm.mem_iff.mp hmemory')
    rw [Stage.region?_of_addr memory hsize, Option.some.injEq] at hknown
    subst hknown
    rcases hwhere with ⟨-, hsame⟩ | ⟨rfl, -⟩
    · -- it had the address when the box in front was placed
      refine (mem_roommates_iff hstart hfresh hnames hfinal ha hb hne).1.mpr
        (.inr (.inr ⟨hlt, child', hchild', ?_⟩))
      exact Box.Overlaps.symm ⟨region2, hregion2, region',
        mem_regions.mpr ⟨memory, hmemory, hsame⟩, hover⟩
    · rcases origin_placeBoxes hfinal _ hmem with hfirst | ⟨j, stage, child, memory0, h, hchild,
        hmemory0, hrequest⟩
      · rw [hplaced] at hfirst
        cases hfirst
      obtain ⟨-, hj, -⟩ := before_succ_ok hlength hfinal h hchild hmemory0
      rcases request_cases hrequest with ⟨hauto, -⟩ | ⟨-, hnone, hconsume⟩
      · cases hauto
      rw [← name_of_before hstart hfresh hfinal h hj.le hchild hb]
      refine hnoticed k j stage h child memory0 hchild hmemory0 hnone region' hconsume i hlt a ?_
        ⟨region2, hregion2, hover⟩
      rw [← (final_of_before hk hfinal h hj.le).2 i hlt]
      exact ha

end Lists

/-- The lists of roommates are right if and only if no memory is placed by the parent where a
box in front does not have its box as a roommate. -/
theorem roommates_iff {root : Box} {tree : Tree} {layout : Layout}
    (haccepted : tree.box root = .ok layout) {parent : Box} {children : List Box} {final : Stage}
    (hnode : (parent, children, final) ∈ layout.nodes)
    (hfresh : ∀ child ∈ children, child.roommates = [])
    (hnames : (children.map Box.name).Nodup) :
    ∃ first, start parent children = .ok first ∧
      (RoommatesRight final ↔ ∀ i j stage, first.before parent.loader i j = .ok stage →
        Noticed parent.loader stage i j) := by
  have hboxes := boxes_of_mem_nodes haccepted _ hnode
  unfold boxes at hboxes
  rw [bind_ok] at hboxes
  obtain ⟨first, hfirst, hboxes⟩ := hboxes
  rw [bind_ok] at hboxes
  obtain ⟨last, hlast, hboxes⟩ := hboxes
  cases hboxes
  obtain ⟨-, hplaced, hstart⟩ := start_spec hfirst
  refine ⟨first, hfirst, ?_⟩
  rw [← forward_iff_noticed hstart hplaced hfresh hnames hlast,
    ← roommatesRight_iff_forward hstart hfresh hnames hlast]
  exact ⟨fun h => ⟨h.overlapping, h.symmetric, h.reason, h.idempotent⟩,
    fun h => ⟨h.overlapping, h.symmetric, h.reason, h.idempotent⟩⟩

/-! ## Section 4: A box that is placed over another -/

/-- A parent with a RAM, and a flash right behind it -/
def ramThenFlash : Box :=
  ⟨"sys", .noop, false, [], [⟨"lo", ⟨true, true, false, false⟩, some 0x20000000, 0x1000, none⟩,
    ⟨"hi", ⟨true, false, true, false⟩, some 0x20001000, 0x1000, none⟩], []⟩

/-- A box that can lose its state -/
def idempotentBox (name : String) (addr : Option ℕ) (size : ℕ) (roommates : List String) : Box :=
  ⟨name, .noop, true, [], [⟨"ram", ⟨true, true, false, false⟩, addr, size, none⟩], roommates⟩

def overTree : Tree :=
  .node ramThenFlash [.node (idempotentBox "a" (some 0x20001000) 0x200 []) [],
    .node (idempotentBox "b" (some 0x20000000) 0x100 []) [],
    .node (idempotentBox "c" none 0x100 []) []]

/-- The third box is put where the first one is, which does not find it. -/
def overStage : Stage where
  slices := [⟨⟨0x20000100, 0x1000⟩, "lo", ⟨true, true, false, false⟩, none, ⟨0x20000000, 0x1000⟩⟩,
    ⟨⟨0x20001200, 0x1200⟩, "hi", ⟨true, false, true, false⟩, none, ⟨0x20001000, 0x1000⟩⟩]
  boxes := [idempotentBox "a" (some 0x20001000) 0x200 [],
    idempotentBox "b" (some 0x20000000) 0x100 [], idempotentBox "c" (some 0x20001100) 0x100 ["a"]]
  placed := [⟨0, ⟨0x20001000, 0x200⟩, false⟩, ⟨1, ⟨0x20000000, 0x100⟩, false⟩,
    ⟨2, ⟨0x20001100, 0x100⟩, true⟩]

theorem box_overTree : ∃ layout, overTree.box ramThenFlash = .ok layout ∧
    (ramThenFlash, [idempotentBox "a" (some 0x20001000) 0x200 [],
      idempotentBox "b" (some 0x20000000) 0x100 [], idempotentBox "c" none 0x100 []],
      overStage) ∈ layout.nodes := by
  have hover : boxes ramThenFlash [idempotentBox "a" (some 0x20001000) 0x200 [],
      idempotentBox "b" (some 0x20000000) 0x100 [], idempotentBox "c" none 0x100 []] =
      .ok overStage := by decide +kernel
  have hleaf : ∀ name addr size roommates, ∃ layout,
      Tree.box (idempotentBox name (some addr) size roommates)
        (.node (idempotentBox name (some addr) size roommates) []) = .ok layout :=
    fun _ _ _ _ => ⟨_, rfl⟩
  refine ⟨_, bind_ok.mpr ⟨overStage, hover, bind_ok.mpr ⟨_, rfl, rfl⟩⟩, .head _⟩

theorem roommates_overTree :
    ∃ first, start ramThenFlash [idempotentBox "a" (some 0x20001000) 0x200 [],
        idempotentBox "b" (some 0x20000000) 0x100 [], idempotentBox "c" none 0x100 []] =
          .ok first ∧
      (RoommatesRight overStage ↔ ∀ i j stage, first.before .noop i j = .ok stage →
        Noticed .noop stage i j) := by
  obtain ⟨layout, haccepted, hnode⟩ := box_overTree
  exact roommates_iff haccepted hnode (by decide) (by decide)

/-- The tree is accepted, and only one of two boxes that overlap has the other one as a
roommate. -/
theorem not_roommatesRight_over :
    ¬ ∀ (root : Box) (tree : Tree) (layout : Layout), tree.box root = .ok layout →
      ∀ (parent : Box) (children : List Box) (final : Stage),
        (parent, children, final) ∈ layout.nodes →
          (∀ child ∈ children, child.roommates = []) → (children.map Box.name).Nodup →
            RoommatesRight final := by
  intro h
  obtain ⟨layout, haccepted, hnode⟩ := box_overTree
  have hright := h ramThenFlash overTree layout haccepted ramThenFlash _ overStage hnode (by decide)
    (by decide)
  have hmem := hright.symmetric (idempotentBox "c" (some 0x20001100) 0x100 ["a"])
    (.tail _ (.tail _ (.head _))) (idempotentBox "a" (some 0x20001000) 0x200 []) (.head _)
    (by decide) (.head _)
  cases hmem

end BentoLinker.Recipe
