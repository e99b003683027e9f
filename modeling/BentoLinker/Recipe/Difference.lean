import BentoLinker.Recipe.Memory

/-!
# Subtraction of a List of Regions

`Region.__sub__` folds over the regions that are taken away. Right is what leaves every address
of the difference in one piece, and every other address in none.

- `Region.IsDifference`: what a list of pieces has to be
- `Region.Spilled`: the addresses behind a slice that a cut in its middle adds to it
- `Region.hits_foldl`: in how many pieces an address is found in the end
- `Region.difference_iff`: the pieces are the difference if and only if every address that was
  added is taken by a later region

An address that is added twice counts twice, so the pieces are counted and not only looked up:
an added address may well be one of the difference, and then two pieces share it.
-/

namespace BentoLinker.Recipe

namespace Region

/-- The address is one of the region, and of none of the others. -/
def Remains (m : Region) (regions : List Region) (a : ℕ) : Prop :=
  m.Contains a ∧ ∀ region ∈ regions, ¬ region.Contains a

instance (m : Region) (regions : List Region) (a : ℕ) : Decidable (m.Remains regions a) :=
  inferInstanceAs (Decidable (_ ∧ _))

/-- Set difference, as a list of pieces -/
structure IsDifference (m : Region) (regions parts : List Region) : Prop where
  nonempty : ∀ part ∈ parts, part.size ≠ 0
  disjoint : parts.Pairwise Apart
  exact_ : ∀ a, (∃ part ∈ parts, part.Contains a) ↔ m.Remains regions a

/-- The address lies behind the slice, and the piece that the region leaves at the right of
itself reaches it. -/
def Spilled (region slice : Region) (a : ℕ) : Prop :=
  Spills region slice ∧ slice.addr + slice.size ≤ a ∧
    a < slice.addr + slice.size + 2 * region.size

instance (region slice : Region) (a : ℕ) : Decidable (Spilled region slice a) :=
  inferInstanceAs (Decidable ((_ ∧ _ ∧ _) ∧ _ ∧ _))

/-- Whatever the iteration for a region adds to one of the slices before it, some region that
comes later in the list takes away. -/
def Retaken (m : Region) (regions : List Region) : Prop :=
  ∀ earlier region later, regions = earlier ++ region :: later →
    ∀ slice ∈ m.sub earlier, ∀ a, Spilled region slice a → ∃ other ∈ later, other.Contains a

/-! ## Section 1: Counting pieces -/

/-- The number of pieces with the address -/
def hits (parts : List Region) (a : ℕ) : ℕ := parts.countP fun part => part.Contains a

theorem hits_pos {parts : List Region} {a : ℕ} :
    0 < hits parts a ↔ ∃ part ∈ parts, part.Contains a := by
  unfold hits
  rw [List.countP_pos_iff]
  simp only [decide_eq_true_eq]

/-- Pieces are disjoint if no address is in two of them. -/
theorem pairwise_apart_iff {parts : List Region} :
    parts.Pairwise Apart ↔ ∀ a, hits parts a ≤ 1 := by
  induction parts with
  | nil => exact ⟨fun _ _ => Nat.zero_le _, fun _ => .nil⟩
  | cons part parts ih =>
    have hcons : ∀ a, hits (part :: parts) a = hits parts a + if part.Contains a then 1 else 0 := by
      intro a
      unfold hits
      rw [List.countP_cons]
      simp only [decide_eq_true_eq]
    rw [List.pairwise_cons, ih]
    constructor
    · rintro ⟨hhead, htail⟩ a
      rw [hcons]
      split
      · next hpart =>
        -- an address of the head is in no piece of the tail
        have hnone : ¬ 0 < hits parts a := by
          intro hsome
          obtain ⟨other, hother, ha⟩ := hits_pos.mp hsome
          exact hhead other hother a hpart ha
        omega
      · exact htail a
    · intro h
      refine ⟨fun other hother a hpart ha => ?_, fun a => ?_⟩
      · have hsome := hits_pos.mpr ⟨other, hother, ha⟩
        have hone := h a
        rw [hcons, if_pos hpart] at hone
        omega
      · exact (Nat.le_add_right _ _).trans ((hcons a).symm.le.trans (h a))

/-- A difference, by counting -/
theorem isDifference_iff {m : Region} {regions parts : List Region}
    (hnonempty : ∀ part ∈ parts, part.size ≠ 0) :
    m.IsDifference regions parts ↔
      ∀ a, (m.Remains regions a → hits parts a = 1) ∧ (¬ m.Remains regions a → hits parts a = 0) := by
  constructor
  · rintro ⟨-, hdisjoint, hexact⟩ a
    refine ⟨fun ha => ?_, fun ha => ?_⟩
    · exact Nat.le_antisymm (pairwise_apart_iff.mp hdisjoint a) (hits_pos.mpr ((hexact a).mpr ha))
    · by_contra hsome
      exact ha ((hexact a).mp (hits_pos.mp (Nat.pos_of_ne_zero hsome)))
  · intro h
    refine ⟨hnonempty, pairwise_apart_iff.mpr fun a => ?_, fun a => ?_⟩
    · by_cases ha : m.Remains regions a
      · exact ((h a).1 ha).le
      · exact ((h a).2 ha).le.trans (Nat.zero_le 1)
    · rw [← hits_pos]
      refine ⟨fun hsome => ?_, fun ha => ?_⟩
      · by_contra ha
        exact absurd ((h a).2 ha) (Nat.ne_of_gt hsome)
      · rw [(h a).1 ha]
        exact Nat.one_pos

/-! ## Section 2: One iteration -/

/-- The pieces that are left of one slice -/
theorem hits_subtract (region slice : Region) (a : ℕ) :
    hits (subtract region slice) a = if region.Contains a then 0 else
      (if slice.Contains a then 1 else 0) + if Spilled region slice a then 1 else 0 := by
  unfold subtract hits Spilled Spills Contains
  split
  · next hapart =>
    rw [Bool.or_eq_true, decide_eq_true_eq, decide_eq_true_eq] at hapart
    simp only [List.countP_singleton]
    grind
  · next hmeet =>
    rw [Bool.or_eq_true, decide_eq_true_eq, decide_eq_true_eq, not_or] at hmeet
    rw [List.countP_append]
    split <;> split <;>
      simp only [List.countP_singleton, List.countP_nil] <;>
      grind

/-- An iteration adds nothing that it has just taken. -/
theorem not_spilled_of_contains {region slice : Region} {a : ℕ} (h : region.Contains a) :
    ¬ Spilled region slice a := by
  unfold Spilled Spills
  unfold Contains at h
  omega

theorem hits_flatMap (region : Region) (slices : List Region) (a : ℕ) :
    hits (slices.flatMap region.subtract) a = if region.Contains a then 0 else
      hits slices a + slices.countP fun slice => Spilled region slice a := by
  induction slices with
  | nil =>
    change 0 = _
    split <;> rfl
  | cons slice slices ih =>
    have happend : hits ((slice :: slices).flatMap region.subtract) a =
        hits (subtract region slice) a + hits (slices.flatMap region.subtract) a := by
      unfold hits
      rw [List.flatMap_cons, List.countP_append]
    rw [happend, ih, hits_subtract]
    split
    · rfl
    · unfold hits
      rw [List.countP_cons, List.countP_cons]
      simp only [decide_eq_true_eq]
      omega

theorem nonempty_of_mem_subtract {region slice part : Region} (hslice : slice.size ≠ 0)
    (h : part ∈ subtract region slice) : part.size ≠ 0 := by
  rcases mem_subtract h with ⟨rfl, -⟩ | ⟨hlow, -, rfl⟩ | ⟨-, hhigh, rfl⟩
  · exact hslice
  · exact Nat.sub_ne_zero_of_lt hlow
  · simp only
    omega

/-! ## Section 3: The whole list -/

/-- The slices after a list of regions -/
def slicesAfter (slices regions : List Region) : List Region :=
  regions.foldl (fun slices region => slices.flatMap region.subtract) slices

@[simp] theorem slicesAfter_nil (slices : List Region) : slicesAfter slices [] = slices := rfl

@[simp] theorem slicesAfter_cons (slices regions : List Region) (region : Region) :
    slicesAfter slices (region :: regions) =
      slicesAfter (slices.flatMap region.subtract) regions := rfl

theorem nonempty_slicesAfter (regions : List Region) {slices : List Region}
    (h : ∀ slice ∈ slices, slice.size ≠ 0) : ∀ part ∈ slicesAfter slices regions, part.size ≠ 0 := by
  induction regions generalizing slices with
  | nil => exact h
  | cons region regions ih =>
    apply ih
    intro part hpart
    obtain ⟨slice, hslice, hmem⟩ := List.mem_flatMap.mp hpart
    exact nonempty_of_mem_subtract (h slice hslice) hmem

/-- How often the address is added and not taken again -/
def lateSpills (a : ℕ) : List Region → List Region → ℕ
  | _, [] => 0
  | slices, region :: regions =>
    (if ∃ other ∈ regions, other.Contains a then 0
      else slices.countP fun slice => Spilled region slice a) +
    lateSpills a (slices.flatMap region.subtract) regions

theorem lateSpills_cons (a : ℕ) (slices regions : List Region) (region : Region) :
    lateSpills a slices (region :: regions) =
      (if ∃ other ∈ regions, other.Contains a then 0
        else slices.countP fun slice => Spilled region slice a) +
      lateSpills a (slices.flatMap region.subtract) regions := rfl

/-- The last region with an address clears it. What is added later stays. -/
theorem hits_foldl (a : ℕ) (regions slices : List Region) :
    hits (slicesAfter slices regions) a =
      (if ∃ region ∈ regions, region.Contains a then 0 else hits slices a) +
        lateSpills a slices regions := by
  induction regions generalizing slices with
  | nil =>
    rw [if_neg (by rintro ⟨region, hregion, -⟩; cases hregion)]
    rfl
  | cons region regions ih =>
    rw [slicesAfter_cons, ih, hits_flatMap, lateSpills_cons]
    by_cases hlater : ∃ other ∈ regions, other.Contains a
    · have hsome : ∃ other ∈ region :: regions, other.Contains a := by
        obtain ⟨other, hother, ha⟩ := hlater
        exact ⟨other, List.mem_cons_of_mem _ hother, ha⟩
      rw [if_pos hsome, if_pos hlater, if_pos hlater]
      exact (Nat.zero_add _).symm
    · rw [if_neg hlater, if_neg hlater]
      by_cases hnow : region.Contains a
      · have hsome : ∃ other ∈ region :: regions, other.Contains a := ⟨region, .head _, hnow⟩
        have hnone : (slices.countP fun slice => Spilled region slice a) = 0 := by
          rw [List.countP_eq_zero]
          intro slice _
          rw [decide_eq_true_eq]
          exact not_spilled_of_contains hnow
        rw [if_pos hnow, if_pos hsome, hnone]
        exact (Nat.zero_add _).symm
      · have hnone : ¬ ∃ other ∈ region :: regions, other.Contains a := by
          rintro ⟨other, hother, ha⟩
          rcases List.mem_cons.mp hother with rfl | hother
          · exact hnow ha
          · exact hlater ⟨other, hother, ha⟩
        rw [if_neg hnow, if_neg hnone, Nat.add_assoc]

/-- Nothing is added for good, iteration by iteration. -/
theorem lateSpills_eq_zero {a : ℕ} {regions slices : List Region} :
    lateSpills a slices regions = 0 ↔
      ∀ earlier region later, regions = earlier ++ region :: later →
        ∀ slice ∈ slicesAfter slices earlier, Spilled region slice a →
          ∃ other ∈ later, other.Contains a := by
  induction regions generalizing slices with
  | nil =>
    refine ⟨fun _ earlier region later h => ?_, fun _ => rfl⟩
    exact absurd h.symm (List.append_ne_nil_of_right_ne_nil _ (List.cons_ne_nil _ _))
  | cons first regions ih =>
    rw [lateSpills_cons, Nat.add_eq_zero_iff, ih]
    constructor
    · rintro ⟨hfirst, hrest⟩ earlier region later heq slice hslice hspilled
      cases earlier with
      | nil =>
        rw [List.nil_append, List.cons.injEq] at heq
        obtain ⟨rfl, rfl⟩ := heq
        by_contra hlater
        rw [if_neg hlater, List.countP_eq_zero] at hfirst
        exact hfirst slice hslice (decide_eq_true hspilled)
      | cons other earlier =>
        rw [List.cons_append, List.cons.injEq] at heq
        obtain ⟨rfl, rfl⟩ := heq
        exact hrest earlier region later rfl slice hslice hspilled
    · intro h
      refine ⟨?_, fun earlier region later heq slice hslice hspilled => ?_⟩
      · split
        · rfl
        · next hlater =>
          rw [List.countP_eq_zero]
          intro slice hslice hspilled
          exact hlater (h [] first regions rfl slice hslice (of_decide_eq_true hspilled))
      · exact h (first :: earlier) region later (by rw [heq, List.cons_append]) slice hslice
          hspilled

theorem sub_eq_slicesAfter {m : Region} (h : m.size ≠ 0) (regions : List Region) :
    m.sub regions = slicesAfter [m] regions := if_neg h

end Region

/-- `Memory.__sub__` of a list of regions: the parts, if they are as aligned as the slice -/
def Slice.subs (slice : Slice) (regions : List Region) : Option (List Slice) :=
  let parts := (slice.toRegion.sub regions).map fun part => { slice with toRegion := part }
  if parts.all Slice.aligned then some parts else none

theorem Slice.sub_eq_subs (slice : Slice) (region : Region) :
    slice.sub region = slice.subs [region] := rfl

theorem Slice.map_toRegion_subs {slice : Slice} {regions : List Region} {parts : List Slice}
    (h : slice.subs regions = some parts) :
    parts.map Slice.toRegion = slice.toRegion.sub regions := by
  unfold Slice.subs at h
  dsimp only at h
  split at h
  · cases h
    rw [List.map_map]
    exact List.map_id _
  · cases h

namespace Region

/-- Subtraction is set difference if and only if every address that a cut adds is taken later,
for regions and for memories. -/
theorem difference_iff (m : Region) (regions : List Region) :
    (m.IsDifference regions (m.sub regions) ↔ m.Retaken regions) ∧
    ∀ slice : Slice, slice.toRegion = m → ∀ parts, slice.subs regions = some parts →
      (m.IsDifference regions (parts.map Slice.toRegion) ↔ m.Retaken regions) := by
  have hregion : m.IsDifference regions (m.sub regions) ↔ m.Retaken regions := by
    by_cases hsize : m.size = 0
    · -- no address, no piece and no slice
      have hsub : ∀ regions, m.sub regions = [] := fun regions => if_pos hsize
      constructor
      · intro _ earlier region later _ slice hslice
        rw [hsub] at hslice
        cases hslice
      · intro _
        rw [hsub, isDifference_iff (by intro part hpart; cases hpart)]
        refine fun a => ⟨fun ha => ?_, fun _ => rfl⟩
        have hcontains := ha.1
        unfold Contains at hcontains
        omega
    · have hone : ∀ slice ∈ [m], slice.size ≠ 0 := by
        intro slice hslice
        rw [List.mem_singleton.mp hslice]
        exact hsize
      have hcount : ∀ a, hits (m.sub regions) a =
          (if m.Remains regions a then 1 else 0) + lateSpills a [m] regions := by
        intro a
        rw [sub_eq_slicesAfter hsize, hits_foldl]
        congr 1
        by_cases htaken : ∃ region ∈ regions, region.Contains a
        · rw [if_pos htaken, if_neg]
          rintro ⟨-, hnone⟩
          obtain ⟨region, hregion, ha⟩ := htaken
          exact hnone region hregion ha
        · have hremains : m.Remains regions a ↔ m.Contains a :=
            and_iff_left fun region hregion ha => htaken ⟨region, hregion, ha⟩
          rw [if_neg htaken, if_congr hremains rfl rfl]
          unfold hits
          rw [List.countP_singleton]
          simp only [decide_eq_true_eq]
      rw [isDifference_iff (by
        rw [sub_eq_slicesAfter hsize]
        exact nonempty_slicesAfter regions hone)]
      calc (∀ a, (m.Remains regions a → hits (m.sub regions) a = 1) ∧
              (¬ m.Remains regions a → hits (m.sub regions) a = 0))
          ↔ ∀ a, lateSpills a [m] regions = 0 := by
            refine forall_congr' fun a => ?_
            rw [hcount]
            by_cases ha : m.Remains regions a
            · simp [ha]
            · simp [ha]
        _ ↔ m.Retaken regions := by
            simp only [lateSpills_eq_zero]
            unfold Retaken
            simp only [sub_eq_slicesAfter hsize]
            exact ⟨fun h earlier region later heq slice hslice a => h a _ _ _ heq slice hslice,
              fun h a earlier region later heq slice hslice => h _ _ _ heq slice hslice a⟩
  refine ⟨hregion, ?_⟩
  rintro slice rfl parts hparts
  rw [Slice.map_toRegion_subs hparts]
  exact hregion

/-- A RAM whose upper half is taken -/
theorem difference_upper_half :
    (⟨0, 16⟩ : Region).IsDifference [⟨8, 8⟩] [⟨0, 8⟩] ↔ (⟨0, 16⟩ : Region).Retaken [⟨8, 8⟩] :=
  (difference_iff ⟨0, 16⟩ [⟨8, 8⟩]).2 ⟨⟨0, 16⟩, "ram", ⟨true, true, false, false⟩, some 4, ⟨0, 16⟩⟩
    rfl [⟨⟨0, 8⟩, "ram", ⟨true, true, false, false⟩, some 4, ⟨0, 16⟩⟩] rfl

/-- Two bytes are taken from the middle of sixteen: four bytes too many are left. -/
theorem middle_not_difference :
    ¬ (⟨0, 16⟩ : Region).IsDifference [⟨4, 2⟩] ((⟨0, 16⟩ : Region).sub [⟨4, 2⟩]) := by
  intro h
  have hmem : (⟨6, 14⟩ : Region) ∈ (⟨0, 16⟩ : Region).sub [⟨4, 2⟩] := by decide
  have hremains := (h.exact_ 16).mp ⟨⟨6, 14⟩, hmem, by decide⟩
  exact absurd hremains.1 (by decide)

end Region

end BentoLinker.Recipe
