import BentoLinker.Mpu.Handlers
import BentoLinker.Mpu.Protection
import BentoLinker.Recipe.Memory

/-!
# The Call Region

Calls across boxes are branches into a region that cannot be executed. The region is put behind
a memory of the parent; its constants go to the linker scripts, to `__box_mpu_init` and to
`__box_mpu_handler`.

- `CallConfig`: what the region and the addresses of calls are computed from
- `boxCallRegion7`, `boxCallRegion8`: where the region is, and how large
- `emitted`: the addresses of all calls
- `Covers`: region, addresses, MPU and range test agree
- `callRegion_iff`: they do if and only if the region is as large as its address, and large
  enough for the calls of the parent
-/

namespace BentoLinker.Mpu

open Pmsa

/-! ## Section 1: Addresses of calls -/

/-- What the calls of one box depend on -/
structure CallBox where
  /-- `len(box.exports)` -/
  exports : ℕ
  /-- `box.imports`: is it falible, if it is linked to a function of another box? -/
  imports : List (Option Bool)
  /-- the imports of the parent that are linked to the box: are they falible? -/
  parentImports : List Bool
  memories : List Recipe.Region
  deriving DecidableEq

/-- A parent and its boxes with the MPU runtime -/
structure CallConfig where
  loader : Recipe.Loader
  /-- `memoryslices` of the parent -/
  slices : List Recipe.Slice
  memories : List Recipe.Region
  boxes : List CallBox
  deriving DecidableEq

/-- `_parentimports`: the hook after init, which is falible, and the linked imports -/
def CallBox.parentLinked (box : CallBox) : List Bool := true :: box.parentImports

/-- `_imports`: write and flush, which are falible, and the linked imports -/
def CallBox.linked (box : CallBox) : List Bool := [true, true] ++ box.imports.filterMap id

/-- An entry of the linker script -/
def callAddress (callregion slot : ℕ) (falible : Bool) : ℕ :=
  callregion + 4 * slot + 2 * falible.toNat + 1

/-- `build_ld`: abort and the imports of a box -/
def CallBox.calls (callregion : ℕ) (box : CallBox) : List ℕ :=
  callAddress callregion 1 false ::
    box.linked.mapIdx fun i falible => callAddress callregion (2 + i) falible

namespace CallConfig

variable (c : CallConfig)

/-- `build_parent_ld_epilogue`: the calls of box `i` -/
def parentCalls (callregion i : ℕ) (box : CallBox) : List ℕ :=
  box.parentLinked.mapIdx fun j falible =>
    callAddress callregion (2 + c.boxes.length * j + i) falible

/-- The address of a return, and of all calls -/
def emitted (callregion : ℕ) : List ℕ :=
  callregion :: ((c.boxes.mapIdx fun i box => c.parentCalls callregion i box).flatten ++
    c.boxes.flatMap (CallBox.calls callregion))

/-- The `importcount` of `_box_call_region` -/
def importcount : ℕ :=
  (c.boxes.map fun box => 4 + box.imports.length).foldl max
    (3 + (c.boxes.map CallBox.exports).sum)

/-- The end of the memory that the region is put behind -/
def callEnd : Option ℕ :=
  (Recipe.bestmemory c.loader c.slices ⟨true, false, true, false⟩ 0 true).map fun best =>
    best.orig.addr + best.orig.size

end CallConfig

/-- The size of `_box_call_region`, ARMv7-M -/
def callsize7 (importcount : ℕ) : ℕ := max (2 ^ Nat.clog 2 (4 * importcount)) 32

/-- The size of `_box_call_region`, ARMv8-M -/
def callsize8 (importcount : ℕ) : ℕ := (4 * importcount + 31) / 32 * 32

/-- `_box_call_region`, ARMv7-M -/
def CallConfig.boxCallRegion7 (c : CallConfig) : Option Recipe.Region :=
  c.callEnd.map fun addr => ⟨addr, callsize7 c.importcount⟩

/-- `_box_call_region`, ARMv8-M -/
def CallConfig.boxCallRegion8 (c : CallConfig) : Option Recipe.Region :=
  c.callEnd.map fun addr => ⟨addr, callsize8 c.importcount⟩

/-- The attributes that `box_parent_prologue` hands to the outputs -/
structure CallConstants where
  callregion : ℕ
  callsize : ℕ
  calllog2 : ℕ

/-- `box_parent_prologue`; `callsize` is the address of the region. -/
def callConstants (region : Recipe.Region) : CallConstants where
  callregion := region.addr
  callsize := region.addr
  calllog2 := Nat.log 2 region.size

/-! ## Section 2: What should agree -/

/-- The handler takes exactly the addresses of the region for returns, aborts and calls. -/
def RangeTested (region : Recipe.Region) : Prop :=
  ∀ c : Config Unit, c.callregion = BitVec.ofNat 32 (callConstants region).callregion →
    c.callsize = BitVec.ofNat 32 (callConstants region).callsize →
    ∀ a, region.Contains a ↔ ∃ pc : Word, pc.toNat = a ∧ branchOf c pc ≠ .fault

/-- The region that `__box_mpu_init` sets up has exactly the addresses of the region, and denies
execution, ARMv7-M. -/
def Protected7 (region : Recipe.Region) : Prop :=
  ∀ m : V7.Mpu, m.ctrl &&& 1 = 0 →
    let part := (mpuInit7 (BitVec.ofNat 32 (callConstants region).callregion)
      (callConstants region).calllog2 m).region 0
    part.grants .execute = false ∧
      ∀ a, region.Contains a ↔ ∃ pc : Word, pc.toNat = a ∧ part.Hit pc

/-- The same, ARMv8-M -/
def Protected8 (region : Recipe.Region) : Prop :=
  ∀ m : V8.Mpu, m.ctrl &&& 1 = 0 →
    let part := (mpuInit8 (BitVec.ofNat 32 (callConstants region).callregion)
      (BitVec.ofNat 32 (callConstants region).callsize) m).region 0
    part.grants .execute = false ∧
      ∀ a, region.Contains a ↔ ∃ pc : Word, pc.toNat = a ∧ part.Hit pc

/-- The region covers every call, nothing else is in it, and it is what the MPU protects and what
the handler tests for. -/
structure Covers (c : CallConfig) (isProtected : Recipe.Region → Prop) (region : Recipe.Region) :
    Prop where
  calls : ∀ a ∈ c.emitted region.addr, region.Contains a
  apart : ∀ m ∈ c.memories ++ c.boxes.flatMap CallBox.memories, m.Apart region
  mpu : isProtected region
  test : RangeTested region

/-- The memory that the region is put behind ends at `addr`, the size of the region, so that the
constant `callsize` is the size after all; the addresses of the region exist, no memory has them,
and they are enough for the last import that is linked to each box. -/
structure FitsBehind (c : CallConfig) (callsize : ℕ → ℕ) (addr : ℕ) : Prop where
  size : addr = callsize c.importcount
  exist : 2 * addr ≤ 2 ^ 32
  calls : ∀ i box, c.boxes[i]? = some box →
    4 * (2 + c.boxes.length * box.parentImports.length + i) < addr
  apart : ∀ m ∈ c.memories ++ c.boxes.flatMap CallBox.memories, m.Apart ⟨addr, addr⟩

/-! ## Section 3: The range test -/

theorem branchOf_ne_fault {μ : Type} {c : Config μ} {pc : Word} :
    branchOf c pc ≠ .fault ↔ pc - c.callregion = 0 ∨ pc - c.callregion = 4 ∨
      pc - c.callregion < c.callsize := by
  unfold branchOf
  dsimp only
  split
  · next h => simp [h]
  · next h0 =>
    split
    · next h => simp [h]
    · next h4 =>
      split
      · next h => simp [h]
      · next hl =>
        constructor
        · exact fun hne => absurd rfl hne
        · rintro (h | h | h)
          · exact absurd h h0
          · exact absurd h h4
          · exact absurd h hl

/-- The limit of the test is the address, so it is right only for a region of that size. -/
theorem rangeTested_iff {addr size : ℕ} (hsize : 32 ≤ size) (haddr : addr % 32 = 0) :
    RangeTested ⟨addr, size⟩ ↔ addr = size ∧ 2 * addr ≤ 2 ^ 32 := by
  have hlt : ∀ {a : ℕ}, a < 2 ^ 32 → (BitVec.ofNat 32 a).toNat = a := fun h => by
    rw [BitVec.toNat_ofNat, Nat.mod_eq_of_lt h]
  constructor
  · intro h
    let c : Config Unit := {
      count := 1
      count_pos := by decide
      callregion := BitVec.ofNat 32 addr
      callsize := BitVec.ofNat 32 addr
      jumptables := fun _ => 0
      sysJumptables := fun _ => 0
      aborts := fun _ => false
      mpuSwitch := fun _ => id }
    have hc : ∀ a, (addr ≤ a ∧ a < addr + size) ↔
        ∃ pc : Word, pc.toNat = a ∧ branchOf c pc ≠ .fault := h c rfl rfl
    -- the last address of the region exists
    have hexist : addr + size ≤ 2 ^ 32 := by
      obtain ⟨pc, hpc, -⟩ := (hc (addr + size - 1)).mp ⟨by omega, by omega⟩
      have hpc' := pc.isLt
      omega
    have hregion : (BitVec.ofNat 32 addr).toNat = addr := hlt (by omega)
    have hop : ∀ pc : Word, addr ≤ pc.toNat →
        (pc - BitVec.ofNat 32 addr).toNat = pc.toNat - addr := by
      intro pc hpc
      rw [BitVec.toNat_sub_of_le (by rw [BitVec.le_def, hregion]; exact hpc), hregion]
    have heq : addr = size := by
      rcases Nat.lt_trichotomy addr size with hless | heq | hmore
      · -- the address as an offset is refused, or there is no offset but 0 and 4
        exfalso
        by_cases hzero : addr = 0
        · subst hzero
          obtain ⟨pc, hpc, hbranch⟩ := (hc 8).mp ⟨by omega, by omega⟩
          obtain rfl : pc = 8 := BitVec.eq_of_toNat_eq hpc
          have hfault : branchOf c 8 = .fault := by
            have hoffset : ¬ ((8 : Word) - 0 = 0 ∨ (8 : Word) - 0 = 4 ∨ (8 : Word) - 0 < 0) := by
              decide
            exact Classical.not_not.mp fun hne => hoffset (branchOf_ne_fault.mp hne)
          exact hbranch hfault
        · obtain ⟨pc, hpc, hbranch⟩ := (hc (addr + addr)).mp ⟨by omega, by omega⟩
          have hoff := hop pc (by omega)
          rcases branchOf_ne_fault.mp hbranch with h0 | h4 | hl
          · have := congrArg BitVec.toNat h0
            change (pc - BitVec.ofNat 32 addr).toNat = 0 at this
            omega
          · have := congrArg BitVec.toNat h4
            change (pc - BitVec.ofNat 32 addr).toNat = 4 at this
            omega
          · rw [BitVec.lt_def] at hl
            change (pc - BitVec.ofNat 32 addr).toNat < (BitVec.ofNat 32 addr).toNat at hl
            omega
      · exact heq
      · -- the first address behind the region is let through
        exfalso
        have hsub : BitVec.ofNat 32 addr + BitVec.ofNat 32 size - BitVec.ofNat 32 addr =
            BitVec.ofNat 32 size := by
          rw [BitVec.add_comm, BitVec.add_sub_cancel]
        have hpass : branchOf c (BitVec.ofNat 32 addr + BitVec.ofNat 32 size) ≠ .fault := by
          apply branchOf_ne_fault.mpr
          right
          right
          change BitVec.ofNat 32 addr + BitVec.ofNat 32 size - BitVec.ofNat 32 addr <
            BitVec.ofNat 32 addr
          rw [hsub, BitVec.lt_def, hlt (by omega), hregion]
          exact hmore
        have hin := (hc _).mpr ⟨_, rfl, hpass⟩
        rw [BitVec.toNat_add, hregion, hlt (by omega)] at hin
        omega
    exact ⟨heq, by omega⟩
  · rintro ⟨rfl, hexist⟩ c hregion hcallsize a
    change c.callregion = BitVec.ofNat 32 addr at hregion
    change c.callsize = BitVec.ofNat 32 addr at hcallsize
    have haddr' : (BitVec.ofNat 32 addr).toNat = addr := hlt (by omega)
    change (addr ≤ a ∧ a < addr + addr) ↔ _
    simp only [branchOf_ne_fault, hregion, hcallsize]
    constructor
    · rintro ⟨hlow, hhigh⟩
      have ha : (BitVec.ofNat 32 a).toNat = a := hlt (by omega)
      have hle : BitVec.ofNat 32 addr ≤ BitVec.ofNat 32 a := by
        rw [BitVec.le_def, haddr', ha]
        exact hlow
      refine ⟨BitVec.ofNat 32 a, ha, .inr (.inr ?_)⟩
      rw [BitVec.lt_def, BitVec.toNat_sub_of_le hle, haddr', ha]
      omega
    · rintro ⟨pc, rfl, h⟩
      have hback : ∀ off : ℕ, off < addr → (pc - BitVec.ofNat 32 addr).toNat = off →
          pc.toNat = addr + off := by
        intro off hoff heq
        have hpc : pc = pc - BitVec.ofNat 32 addr + BitVec.ofNat 32 addr :=
          (BitVec.sub_add_cancel _ _).symm
        rw [hpc, BitVec.toNat_add, heq, haddr', Nat.mod_eq_of_lt (by omega), Nat.add_comm]
      rcases h with h0 | h4 | hl
      · rw [hback 0 (by omega) (congrArg BitVec.toNat h0)]
        omega
      · rw [hback 4 (by omega) (congrArg BitVec.toNat h4)]
        omega
      · rw [BitVec.lt_def, haddr'] at hl
        rw [hback _ hl rfl]
        omega

/-! ## Section 4: The MPU -/

/-- The addresses of a region as words -/
theorem contains_iff_exists {region : Recipe.Region} (hfits : region.addr + region.size ≤ 2 ^ 32)
    {hit : Word → Prop} (hhit : ∀ pc, hit pc ↔ region.Contains pc.toNat) (a : ℕ) :
    region.Contains a ↔ ∃ pc : Word, pc.toNat = a ∧ hit pc := by
  constructor
  · intro ha
    have hlt : a < 2 ^ 32 := by
      unfold Recipe.Region.Contains at ha
      omega
    have hnat : (BitVec.ofNat 32 a).toNat = a := by rw [BitVec.toNat_ofNat, Nat.mod_eq_of_lt hlt]
    exact ⟨BitVec.ofNat 32 a, hnat, (hhit _).mpr (by rw [hnat]; exact ha)⟩
  · rintro ⟨pc, rfl, hpc⟩
    exact (hhit pc).mp hpc

/-- The fields of the `rasr` that `__box_mpu_init` writes -/
theorem callRasr7_fields : ∀ k : Fin 32,
    let rasr : Word := 0x10000001 ||| BitVec.ofNat 32 k <<< 1
    rasr &&& 1 = 1 ∧ ((rasr >>> 1) &&& 0x1f).toNat = k ∧ (rasr >>> 8) &&& 0xff = 0 ∧
      (rasr >>> 24) &&& 7 = 0 := by
  decide +kernel

theorem protected7_of_check {region : Region} (hcheck : checkCallRegion7 region.range = true) :
    Protected7 region.range := by
  obtain ⟨k, hsize, hlow, hhigh, halign, hlog⟩ := checkRegion7_spec hcheck
  have hfits := region.fits
  have hpos : 0 < region.size := by rw [hsize]; exact Nat.two_pow_pos k
  have haddr : (BitVec.ofNat 32 region.addr).toNat = region.addr := by
    rw [BitVec.toNat_ofNat]
    exact Nat.mod_eq_of_lt (by omega)
  have hdvd : 32 ∣ region.addr :=
    (Nat.pow_dvd_pow 2 hlow).trans (Nat.dvd_of_mod_eq_zero halign)
  intro m hm
  have hwrite := writeRbar_valid m (BitVec.ofNat 32 region.addr) (n := 0)
    (by rw [haddr]; omega) (by decide) (0x10000001 ||| BitVec.ofNat 32 (k - 1) <<< 1)
  rw [BitVec.or_zero] at hwrite
  have hpart : (mpuInit7 (BitVec.ofNat 32 region.addr) (Nat.log 2 region.size) m).region 0 =
      ⟨BitVec.ofNat 32 region.addr, 0x10000001 ||| BitVec.ofNat 32 (k - 1) <<< 1⟩ := by
    unfold mpuInit7
    rw [if_pos hm, hlog]
    simp only [V7.Mpu.writeCtrl, hwrite]
    exact Function.update_self _ _ _
  have hfields := callRasr7_fields ⟨k - 1, by omega⟩
  dsimp only [callConstants] at hfields ⊢
  rw [hpart]
  clear hpart hwrite
  generalize (0x10000001 ||| BitVec.ofNat 32 (k - 1) <<< 1 : Word) = rasr at hfields ⊢
  obtain ⟨henabled, hfield, hsrd, hap⟩ := hfields
  constructor
  · -- `AP` is for privileged accesses only
    unfold V7.Region.grants V7.Region.ap
    rw [hap]
    rfl
  · refine contains_iff_exists hfits fun pc => ?_
    have hlog2 : V7.Region.sizeLog ⟨BitVec.ofNat 32 region.addr, rasr⟩ = k := by
      unfold V7.Region.sizeLog
      rw [hfield]
      omega
    have halign' : (BitVec.ofNat 32 region.addr).toNat % 2 ^ k = 0 := by
      rw [haddr]
      exact halign
    rw [V7.hit_iff (decide_eq_true henabled) hlog2 halign' hsrd, haddr, ← hsize]
    rfl

/-- The limit is computed from the address as well. -/
theorem protected8_of_size {region : Region} (hcheck : checkCallRegion8 region.range = true)
    (hsize : region.addr = region.size) : Protected8 region.range := by
  obtain ⟨haddr, -, hsmall, hnat⟩ := checkRegion8_spec hcheck
  have hfits := region.fits
  intro m hm
  have hpart : (mpuInit8 (BitVec.ofNat 32 region.addr) (BitVec.ofNat 32 region.addr) m).region 0 =
      ⟨BitVec.ofNat 32 region.addr ||| 0x1, (0xffffffe0 &&&
        (BitVec.ofNat 32 region.addr + BitVec.ofNat 32 region.addr - 1)) ||| 0x1⟩ := by
    unfold mpuInit8
    rw [if_pos hm]
    simp only [V8.Mpu.writeCtrl, V8.Mpu.writeRlar, V8.Mpu.writeRbar, V8.Mpu.writeMair0,
      V8.Mpu.writeRnr, Function.update_self, Function.update_idem]
    exact Function.update_self _ _ _
  have hrbar : (BitVec.ofNat 32 region.addr ||| 0x1 : Word).toNat = region.addr + 1 := by
    rw [AlignedWord.toNat_or (k := 5) (by decide) (by rw [hnat]; exact haddr) (by decide), hnat]
    rfl
  have hlast : (BitVec.ofNat 32 region.addr + BitVec.ofNat 32 region.addr - 1).toNat =
      region.addr + region.addr - 1 := by
    rw [BitVec.toNat_sub, BitVec.toNat_add, hnat]
    change (2 ^ 32 - 1 + (region.addr + region.addr) % 2 ^ 32) % 2 ^ 32 = _
    omega
  have hrlar : ((0xffffffe0 &&& (BitVec.ofNat 32 region.addr + BitVec.ofNat 32 region.addr - 1))
      ||| 0x1 : Word).toNat = (region.addr + region.addr - 1) / 32 * 32 + 1 := by
    rw [BitVec.and_comm, AlignedWord.toNat_or (k := 5) (by decide)
      (by rw [AlignedWord.toNat_clear5]; omega) (by decide), AlignedWord.toNat_clear5, hlast]
    rfl
  dsimp only [callConstants]
  rw [hpart]
  clear hpart
  generalize (BitVec.ofNat 32 region.addr ||| 0x1 : Word) = rbar at hrbar ⊢
  generalize ((0xffffffe0 &&& (BitVec.ofNat 32 region.addr + BitVec.ofNat 32 region.addr - 1)) |||
    0x1 : Word) = rlar at hrlar ⊢
  constructor
  · have hap : V8.Region.ap ⟨rbar, rlar⟩ = 0 := by
      apply BitVec.eq_of_toNat_eq
      refine (AlignedWord.toNat_field (n := 2) (by decide)).trans ?_
      change rbar.toNat / 2 ^ 1 % 2 ^ 2 = 0
      rw [hrbar]
      omega
    unfold V8.Region.grants
    rw [hap]
    rfl
  · refine contains_iff_exists hfits fun pc => ?_
    have henabled : V8.Region.enabled ⟨rbar, rlar⟩ = true := by
      apply decide_eq_true
      apply BitVec.eq_of_toNat_eq
      rw [BitVec.toNat_and]
      change rlar.toNat &&& (2 ^ 1 - 1) = 1
      rw [Nat.and_two_pow_sub_one_eq_mod, hrlar]
      omega
    rw [V8.hit_iff henabled]
    dsimp only
    rw [hrbar, hrlar]
    change _ ↔ region.addr ≤ pc.toNat ∧ pc.toNat < region.addr + region.size
    omega

/-! ## Section 5: The calls -/

theorem le_foldl_max (l : List ℕ) (n : ℕ) : n ≤ l.foldl max n ∧ ∀ m ∈ l, m ≤ l.foldl max n := by
  induction l generalizing n with
  | nil => exact ⟨le_rfl, fun m hm => by cases hm⟩
  | cons k l ih =>
    obtain ⟨hn, hl⟩ := ih (max n k)
    refine ⟨le_trans (le_max_left n k) hn, fun m hm => ?_⟩
    rcases List.mem_cons.mp hm with rfl | hm
    · exact le_trans (le_max_right n _) hn
    · exact hl m hm

/-- The calls of the boxes always fit. -/
theorem linked_le_importcount {c : CallConfig} {box : CallBox} (hbox : box ∈ c.boxes) :
    2 + box.linked.length ≤ c.importcount := by
  refine le_trans ?_ ((le_foldl_max _ _).2 _ (List.mem_map_of_mem hbox))
  unfold CallBox.linked
  rw [List.length_append]
  have hfilter := List.length_filterMap_le id box.imports
  simp only [List.length_cons, List.length_nil]
  omega

theorem falible_le (falible : Bool) : 2 * falible.toNat + 1 ≤ 3 := by
  cases falible <;> decide

/-- The calls are in a region of four bytes for each slot if and only if the last slot of the
parent for each box is. -/
theorem emitted_iff {c : CallConfig} {addr size : ℕ} (hcount : 4 * c.importcount ≤ size)
    (hsize : size % 4 = 0) (hpos : 0 < size) :
    (∀ a ∈ c.emitted addr, Recipe.Region.Contains ⟨addr, size⟩ a) ↔
      ∀ i box, c.boxes[i]? = some box →
        4 * (2 + c.boxes.length * box.parentImports.length + i) < size := by
  constructor
  · intro h i box hbox
    have hlast : ∃ falible, callAddress addr (2 + c.boxes.length * box.parentImports.length + i)
        falible ∈ c.parentCalls addr i box := by
      have hlen : box.parentImports.length < box.parentLinked.length := Nat.lt_succ_self _
      refine ⟨box.parentLinked[box.parentImports.length], ?_⟩
      unfold CallConfig.parentCalls
      rw [List.mem_mapIdx]
      exact ⟨_, hlen, rfl⟩
    obtain ⟨falible, hmem⟩ := hlast
    have hin := h _ (List.mem_cons_of_mem _ (List.mem_append_left _ (List.mem_flatten.mpr
      ⟨c.parentCalls addr i box, ?_, hmem⟩)))
    · unfold Recipe.Region.Contains callAddress at hin
      dsimp only at hin
      omega
    · rw [List.mem_mapIdx]
      obtain ⟨hi, rfl⟩ := List.getElem?_eq_some_iff.mp hbox
      exact ⟨i, hi, rfl⟩
  · intro h a ha
    unfold Recipe.Region.Contains
    dsimp only
    rcases List.mem_cons.mp ha with rfl | ha
    · omega
    rcases List.mem_append.mp ha with hparent | hbox
    · obtain ⟨l, hl, ha⟩ := List.mem_flatten.mp hparent
      rw [List.mem_mapIdx] at hl
      obtain ⟨i, hi, rfl⟩ := hl
      unfold CallConfig.parentCalls at ha
      rw [List.mem_mapIdx] at ha
      obtain ⟨j, hj, rfl⟩ := ha
      have hslot := h i _ (List.getElem?_eq_getElem hi)
      have hlej : j ≤ c.boxes[i].parentImports.length := Nat.lt_succ_iff.mp hj
      have hmul := Nat.mul_le_mul_left c.boxes.length hlej
      have hfalible := falible_le c.boxes[i].parentLinked[j]
      unfold callAddress
      omega
    · obtain ⟨box, hmem, ha⟩ := List.mem_flatMap.mp hbox
      have hlinked := linked_le_importcount hmem
      rcases List.mem_cons.mp ha with rfl | ha
      · have hfalible := falible_le false
        have hlen : 2 ≤ box.linked.length := by
          unfold CallBox.linked
          simp
        unfold callAddress
        omega
      · rw [List.mem_mapIdx] at ha
        obtain ⟨i, hi, rfl⟩ := ha
        have hfalible := falible_le box.linked[i]
        unfold callAddress
        omega

/-! ## Section 6: Region, calls, MPU and range test -/

theorem callsize7_spec (n : ℕ) :
    4 * n ≤ callsize7 n ∧ callsize7 n % 32 = 0 ∧ 32 ≤ callsize7 n := by
  have hpow : callsize7 n = 2 ^ max (Nat.clog 2 (4 * n)) 5 := by
    unfold callsize7
    rcases le_total (Nat.clog 2 (4 * n)) 5 with h | h
    · rw [max_eq_right h, max_eq_right (Nat.pow_le_pow_right (by decide) h)]
    · rw [max_eq_left h, max_eq_left (Nat.pow_le_pow_right (by decide) h)]
  refine ⟨?_, ?_, le_max_right _ _⟩
  · exact le_trans (Nat.le_pow_clog (by decide) _) (le_max_left _ _)
  · rw [hpow]
    exact Nat.mod_eq_zero_of_dvd (Nat.pow_dvd_pow 2 (le_max_right _ 5))

theorem covers_iff {c : CallConfig} {isProtected : Recipe.Region → Prop} {callsize : ℕ → ℕ}
    {region : Recipe.Region} (hregion : region.size = callsize c.importcount)
    (hcount : 4 * c.importcount ≤ region.size) (hsize : region.size % 32 = 0)
    (hsmall : 32 ≤ region.size) (haddr : region.addr % 32 = 0)
    (hprotected : region.addr = region.size → 2 * region.addr ≤ 2 ^ 32 → isProtected region) :
    Covers c isProtected region ↔ FitsBehind c callsize region.addr := by
  obtain ⟨addr, size⟩ := region
  dsimp only at hregion hcount hsize hsmall haddr hprotected
  have hcalls := @emitted_iff c addr size hcount (by omega) (by omega)
  constructor
  · intro h
    obtain ⟨heq, hexist⟩ := (rangeTested_iff hsmall haddr).mp h.test
    subst heq
    exact ⟨hregion, hexist, hcalls.mp h.calls, h.apart⟩
  · intro h
    obtain rfl : addr = size := h.size.trans hregion.symm
    exact ⟨hcalls.mpr h.calls, h.apart, hprotected rfl h.exist,
      (rangeTested_iff hsmall haddr).mpr ⟨rfl, h.exist⟩⟩

/-- The region that is chosen covers every call and nothing else, and is what the MPU protects
and the handler tests for, if and only if it fits behind its memory. -/
theorem callRegion_iff (c : CallConfig) (region : Recipe.Region) :
    (c.boxCallRegion7 = some region → checkCallRegion7 region = true →
      (Covers c Protected7 region ↔ FitsBehind c callsize7 region.addr)) ∧
    (c.boxCallRegion8 = some region → checkCallRegion8 region = true →
      (Covers c Protected8 region ↔ FitsBehind c callsize8 region.addr)) := by
  constructor
  · intro hregion hcheck
    obtain ⟨addr, -, rfl⟩ := Option.map_eq_some_iff.mp hregion
    obtain ⟨hcount, hsize, hsmall⟩ := callsize7_spec c.importcount
    refine covers_iff rfl hcount hsize hsmall ?_ fun heq hexist => ?_
    · unfold checkCallRegion7 checkRegion7 at hcheck
      rw [Bool.and_eq_true, Bool.and_eq_true, decide_eq_true_eq] at hcheck
      exact Nat.mod_eq_zero_of_dvd ((Nat.dvd_of_mod_eq_zero hsize).trans
        (Nat.dvd_of_mod_eq_zero hcheck.1.2))
    · have hfits : addr + callsize7 c.importcount ≤ 2 ^ 32 := by
        dsimp only at heq hexist
        omega
      have hprotected : Protected7 (⟨⟨addr, callsize7 c.importcount⟩, hfits⟩ : Region).range :=
        protected7_of_check hcheck
      exact hprotected
  · intro hregion hcheck
    obtain ⟨addr, -, rfl⟩ := Option.map_eq_some_iff.mp hregion
    have hcheck' := hcheck
    unfold checkCallRegion8 checkRegion8 at hcheck'
    rw [Bool.and_eq_true, Bool.and_eq_true, decide_eq_true_eq, decide_eq_true_eq,
      decide_eq_true_eq] at hcheck'
    obtain ⟨⟨haddr, hsize⟩, hsmall⟩ := hcheck'
    refine covers_iff rfl ?_ hsize hsmall haddr fun heq hexist => ?_
    · dsimp only
      unfold callsize8
      omega
    · have hfits : addr + callsize8 c.importcount ≤ 2 ^ 32 := by
        dsimp only at heq hexist
        omega
      have hprotected : Protected8 (⟨⟨addr, callsize8 c.importcount⟩, hfits⟩ : Region).range :=
        protected8_of_size hcheck heq
      exact hprotected

/-! ## Section 7: A parent with a flash -/

/-- A parent with a flash and one box -/
def flashParent (addr size : ℕ) : CallConfig where
  loader := .noop
  slices := [⟨⟨addr, size⟩, "flash", ⟨true, false, true, true⟩, none, ⟨addr, size⟩⟩]
  memories := [⟨addr, size⟩]
  boxes := [⟨1, [some true], [true], [⟨0x20000000, 0x1000⟩]⟩]

/-- A flash that is as small as the region for the calls -/
theorem covers_smallFlash : Covers (flashParent 0 0x20) Protected7 ⟨0x20, 0x20⟩ := by
  refine ((callRegion_iff (flashParent 0 0x20) ⟨0x20, 0x20⟩).1 (by decide +kernel)
    (by decide)).mpr ⟨by decide, by decide, ?_, ?_⟩
  · intro i box hbox
    obtain ⟨hi, rfl⟩ := List.getElem?_eq_some_iff.mp hbox
    obtain rfl : i = 0 := Nat.lt_one_iff.mp hi
    change 4 * (2 + 1 * 1 + 0) < 0x20
    decide
  · intro m hm
    unfold flashParent at hm
    rcases List.mem_cons.mp hm with rfl | hm
    · exact Recipe.Region.apart_of_overlaps (by decide)
    · obtain rfl := List.mem_singleton.mp hm
      exact Recipe.Region.apart_of_overlaps (by decide)

/-- Behind a flash of 4096 bytes at 0x8000, the handler would take 0x9000 bytes for calls. -/
theorem not_covers_flash :
    ¬ ∀ (c : CallConfig) (region : Recipe.Region), c.boxCallRegion7 = some region →
      checkCallRegion7 region = true → Covers c Protected7 region := by
  intro h
  have hcovers := h (flashParent 0x8000 0x1000) ⟨0x9000, 0x20⟩ (by decide +kernel) (by decide)
  obtain ⟨heq, -⟩ := (rangeTested_iff (by decide) (by decide)).mp hcovers.test
  exact absurd heq (by decide)

end BentoLinker.Mpu
