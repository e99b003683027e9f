import BentoLinker.Lib.GuardedRun
import BentoLinker.Mpu.Memories

/-!
# MPU Protection

What unprivileged code can do after `__box_mpu_switch`, whatever was programmed before.

- `region_mpuSwitch7`, `region_mpuSwitch8`: the regions after a switch
- `contains_iff_hit7`, `contains_iff_hit8`: the region of a memory has its addresses
- `Programmed7`, `Programmed8`: registers that init and switches have left
- `protection_matches`: a box with at most `mpu_regions` memories can access these and
  nothing else, each by its mode

A region number has four bits in `MPU_RBAR` and eight in `MPU_RNR`; `mpu_regions` counts
without the call region.
-/

namespace BentoLinker.Mpu

open Pmsa

/-! ## Section 1: Regions after a switch, ARMv7-M -/

/-- What the loop of `__box_mpu_switch` leaves in region `i + 1` -/
def entry7 (regions : List (Word × Word)) (i : ℕ) : V7.Region :=
  match regions[i]? with
  | some (rbar, rasr) => ⟨rbar, rasr⟩
  | none => ⟨0, 0⟩

/-- Addresses of regions are aligned to 32 bytes. -/
def Aligned (regions : List (Word × Word)) : Prop := ∀ r ∈ regions, r.1.toNat % 32 = 0

/-- Writing a region by its number in `MPU_RBAR` -/
theorem writeRbar_valid (m : V7.Mpu) (addr : Word) {n : ℕ} (haddr : addr.toNat % 32 = 0)
    (hn : n < 16) (rasr : Word) :
    (m.writeRbar (addr ||| 0x10 ||| BitVec.ofNat 32 n)).writeRasr rasr =
      { m with
        rnr := BitVec.ofNat 4 n
        region := Function.update m.region (BitVec.ofNat 4 n) ⟨addr, rasr⟩ } := by
  have hnum : (BitVec.ofNat 32 n).toNat = n := by
    rw [BitVec.toNat_ofNat]
    omega
  have hflags : (0x10 ||| BitVec.ofNat 32 n : Word).toNat = 16 + n := by
    rw [AlignedWord.toNat_or (k := 4) (by decide) (by decide) (by rw [hnum]; exact hn), hnum]
    rfl
  have hnat : (addr ||| 0x10 ||| BitVec.ofNat 32 n).toNat = addr.toNat + (16 + n) := by
    rw [BitVec.or_assoc, AlignedWord.toNat_or (k := 5) (by decide) haddr
      (by rw [hflags]; omega), hflags]
  have hvalid : (addr ||| 0x10 ||| BitVec.ofNat 32 n) &&& 0x10 = 0x10 := by
    rw [BitVec.or_assoc, BitVec.or_comm 0x10, ← BitVec.or_assoc]
    ext i hi
    simp only [BitVec.getElem_and, BitVec.getElem_or]
    generalize (16#32)[i] = b
    cases b <;> simp
  have hrnr : BitVec.ofNat 4 (addr ||| 0x10 ||| BitVec.ofNat 32 n).toNat = BitVec.ofNat 4 n := by
    apply BitVec.eq_of_toNat_eq
    rw [hnat, BitVec.toNat_ofNat, BitVec.toNat_ofNat]
    omega
  have hrbar : (addr ||| 0x10 ||| BitVec.ofNat 32 n) &&& 0xffffffe0 = addr := by
    apply BitVec.eq_of_toNat_eq
    rw [AlignedWord.toNat_clear5, hnat]
    omega
  unfold V7.Mpu.writeRbar V7.Mpu.writeRasr
  simp only [hvalid, if_true, hrnr, hrbar, Function.update_self, Function.update_idem]

theorem switchRegion7_eq {regions : List (Word × Word)} (haligned : Aligned regions)
    (m : V7.Mpu) {i : ℕ} (hi : i + 1 < 16) :
    switchRegion7 regions m i =
      { m with
        rnr := BitVec.ofNat 4 (i + 1)
        region := Function.update m.region (BitVec.ofNat 4 (i + 1)) (entry7 regions i) } := by
  unfold switchRegion7 entry7
  cases hregion : regions[i]? with
  | some r =>
    have hmem : r ∈ regions := List.mem_of_getElem? hregion
    exact writeRbar_valid m r.1 (haligned r hmem) hi r.2
  | none =>
    have hzero := writeRbar_valid m 0#32 (by decide) hi 0
    rw [BitVec.zero_or] at hzero
    exact hzero

theorem region_mpuSwitch7 {regions : List (Word × Word)} (haligned : Aligned regions)
    (m : V7.Mpu) {mpuregions : ℕ} (hcount : mpuregions < 16) (n : BitVec 4) :
    (mpuSwitch7 mpuregions regions m).region n =
      if n ≠ 0 ∧ n.toNat ≤ mpuregions then entry7 regions (n.toNat - 1) else m.region n := by
  refine loop_region V7.Mpu.region (switchRegion7 regions) (entry7 regions) ?_
    (m.writeCtrl 0) hcount n
  intro m i hi
  rw [switchRegion7_eq haligned m hi]

/-- The fields of an `rasr` as `_build_mpu_regions` puts it together -/
theorem rasr7_fields : ∀ (k : Fin 32) (r w x : Bool),
    let rasr : Word := (if !x then 0x10000000 else 0 : Word) |||
      (if r && w then 0x03000000 else if r then 0x02000000 else 0 : Word) |||
      BitVec.ofNat 32 k <<< 1 ||| 1
    rasr &&& 1 = 1 ∧ ((rasr >>> 1) &&& 0x1f).toNat = k ∧ (rasr >>> 8) &&& 0xff = 0 ∧
      (rasr >>> 24) &&& 7 = (if r && w then 3 else if r then 2 else 0) ∧
      ((rasr >>> 28) &&& 1 = 1 ↔ x = false) := by
  decide +kernel

/-- What `_check_mpu_region` has made sure of -/
theorem checkRegion7_spec {region : Region} (h : checkRegion7 region.range = true) :
    ∃ k, region.size = 2 ^ k ∧ 5 ≤ k ∧ k ≤ 32 ∧ region.addr % 2 ^ k = 0 ∧
      Nat.log 2 region.size = k := by
  unfold checkRegion7 isPowerOfTwo at h
  rw [Bool.and_eq_true, Bool.and_eq_true, decide_eq_true_eq, decide_eq_true_eq,
    decide_eq_true_eq] at h
  obtain ⟨⟨hpow, halign⟩, hsize⟩ := h
  have hfits := region.fits
  refine ⟨Nat.log 2 region.size, hpow.symm, ?_, ?_, ?_, rfl⟩
  · rw [← Nat.pow_le_pow_iff_right (a := 2) (by decide), hpow]
    exact hsize
  · rw [← Nat.pow_le_pow_iff_right (a := 2) (by decide), hpow]
    omega
  · rw [hpow]
    exact halign

/-- The region of a memory covers the memory. -/
theorem hit_iff_contains7 {memory : Memory} (hcheck : checkMpuRegion7 memory = true) (a : Word) :
    (⟨BitVec.ofNat 32 memory.addr, rasr7 memory⟩ : V7.Region).Hit a ↔
      memory.Contains a.toNat := by
  obtain ⟨k, hsize, hlow, hhigh, halign, hlog⟩ := checkRegion7_spec hcheck
  have hlt : Nat.log 2 memory.size - 1 < 32 := by omega
  obtain ⟨henabled, hfield, hsrd, -⟩ := rasr7_fields ⟨Nat.log 2 memory.size - 1, hlt⟩
    memory.mode.r memory.mode.w memory.mode.x
  have hfits := memory.fits
  have haddr : (BitVec.ofNat 32 memory.addr).toNat = memory.addr := by
    have hpos : 0 < memory.size := by rw [hsize]; exact Nat.two_pow_pos k
    rw [BitVec.toNat_ofNat]
    exact Nat.mod_eq_of_lt (by omega)
  have hregion := V7.hit_iff (r := ⟨BitVec.ofNat 32 memory.addr, rasr7 memory⟩) (s := k) (a := a)
    (decide_eq_true henabled) ?_ (by rw [haddr]; exact halign) hsrd
  · rw [hregion, haddr, ← hsize]
    rfl
  · unfold V7.Region.sizeLog
    rw [show ((rasr7 memory >>> 1) &&& 0x1f).toNat = _ from hfield]
    change Nat.log 2 memory.size - 1 + 1 = k
    omega

/-- A memory that can be read is granted by its mode. -/
theorem grants_rasr7 (memory : Memory) (hcheck : checkMpuRegion7 memory = true)
    (hr : memory.mode.r = true) (k : Access) :
    (⟨BitVec.ofNat 32 memory.addr, rasr7 memory⟩ : V7.Region).grants k = memory.mode.has k := by
  obtain ⟨n, -, hlow, hhigh, -, hlog⟩ := checkRegion7_spec hcheck
  have hlt : Nat.log 2 memory.size - 1 < 32 := by omega
  obtain ⟨-, -, -, hap, hxn⟩ := rasr7_fields ⟨Nat.log 2 memory.size - 1, hlt⟩ memory.mode.r
    memory.mode.w memory.mode.x
  have hap' : V7.Region.ap ⟨BitVec.ofNat 32 memory.addr, rasr7 memory⟩ =
      if memory.mode.w then 3 else 2 := by
    refine hap.trans ?_
    simp [hr]
  have hxn' : V7.Region.xn ⟨BitVec.ofNat 32 memory.addr, rasr7 memory⟩ = !memory.mode.x := by
    have hiff : V7.Region.xn ⟨BitVec.ofNat 32 memory.addr, rasr7 memory⟩ = true ↔
        memory.mode.x = false := decide_eq_true_iff.trans hxn
    rw [Bool.eq_iff_iff, hiff, Bool.not_eq_true']
  unfold V7.Region.grants
  rw [hap', hxn']
  cases k <;> cases hw : memory.mode.w <;> cases hx : memory.mode.x <;>
    simp [grantsOf, Recipe.Mode.has, hr, hw, hx]

/-! ## Section 2: Regions after a switch, ARMv8-M -/

/-- What the loop of `__box_mpu_switch` leaves in region `i + 1` -/
def entry8 (regions : List (Word × Word)) (i : ℕ) : V8.Region :=
  match regions[i]? with
  | some (rbar, rlar) => ⟨rbar, rlar⟩
  | none => ⟨0, 0⟩

theorem switchRegion8_eq (regions : List (Word × Word)) (m : V8.Mpu) (i : ℕ) :
    switchRegion8 regions m i =
      { m with
        rnr := BitVec.ofNat 8 (i + 1)
        region := Function.update m.region (BitVec.ofNat 8 (i + 1)) (entry8 regions i) } := by
  have hrnr : BitVec.ofNat 8 (BitVec.ofNat 32 (i + 1)).toNat = BitVec.ofNat 8 (i + 1) := by
    apply BitVec.eq_of_toNat_eq
    rw [BitVec.toNat_ofNat, BitVec.toNat_ofNat, BitVec.toNat_ofNat]
    omega
  unfold switchRegion8 entry8 V8.Mpu.writeRnr V8.Mpu.writeRbar V8.Mpu.writeRlar
  rw [hrnr]
  cases regions[i]? with
  | some r => simp only [Function.update_self, Function.update_idem]
  | none => simp only [Function.update_self, Function.update_idem]

theorem region_mpuSwitch8 (regions : List (Word × Word)) (m : V8.Mpu) {mpuregions : ℕ}
    (hcount : mpuregions < 256) (n : BitVec 8) :
    (mpuSwitch8 mpuregions regions m).region n =
      if n ≠ 0 ∧ n.toNat ≤ mpuregions then entry8 regions (n.toNat - 1) else m.region n := by
  refine loop_region V8.Mpu.region (switchRegion8 regions) (entry8 regions) ?_
    (m.writeCtrl 0) hcount n
  intro m i _
  rw [switchRegion8_eq regions m i]

/-- The flags below the base of an `rbar` -/
theorem rbar8_flags : ∀ r w x : Bool,
    let flags : Word := (if !x then 0x1 else 0x0 : Word) |||
      (if r && w then 0x2 else if r then 0x6 else 0x4 : Word)
    flags.toNat < 8 ∧ flags.toNat / 2 = (if r && w then 1 else if r then 3 else 2) ∧
      (flags.toNat % 2 = 1 ↔ x = false) := by
  decide

theorem checkRegion8_spec {region : Region} (h : checkRegion8 region.range = true) :
    region.addr % 32 = 0 ∧ region.size % 32 = 0 ∧ 32 ≤ region.size ∧
      (BitVec.ofNat 32 region.addr).toNat = region.addr := by
  unfold checkRegion8 at h
  rw [Bool.and_eq_true, Bool.and_eq_true, decide_eq_true_eq, decide_eq_true_eq,
    decide_eq_true_eq] at h
  obtain ⟨⟨haddr, hsize⟩, hsmall⟩ := h
  have hfits := region.fits
  refine ⟨haddr, hsize, hsmall, ?_⟩
  rw [BitVec.toNat_ofNat]
  exact Nat.mod_eq_of_lt (by omega)

theorem toNat_rbar8 {memory : Memory} (hcheck : checkMpuRegion8 memory = true) :
    ∃ flags, (rbar8 memory).toNat = memory.addr + flags ∧ flags < 8 ∧
      flags / 2 = (if memory.mode.r && memory.mode.w then 1 else if memory.mode.r then 3 else 2) ∧
      (flags % 2 = 1 ↔ memory.mode.x = false) := by
  obtain ⟨haddr, -, -, hnat⟩ := checkRegion8_spec hcheck
  obtain ⟨hlt, hap, hxn⟩ := rbar8_flags memory.mode.r memory.mode.w memory.mode.x
  refine ⟨_, ?_, hlt, hap, hxn⟩
  unfold rbar8
  rw [BitVec.or_assoc, AlignedWord.toNat_or (k := 5) (by decide) (by rw [hnat]; exact haddr)
    (by omega), hnat]

theorem hit_iff_contains8 {memory : Memory} (hcheck : checkMpuRegion8 memory = true) (a : Word) :
    (⟨rbar8 memory, rlar8 memory⟩ : V8.Region).Hit a ↔ memory.Contains a.toNat := by
  obtain ⟨haddr, hsize, hsmall, -⟩ := checkRegion8_spec hcheck
  obtain ⟨flags, hrbar, hflags, -⟩ := toNat_rbar8 hcheck
  have hfits := memory.fits
  have hlast : (BitVec.ofNat 32 (memory.addr + memory.size - 1)).toNat =
      memory.addr + memory.size - 1 := by
    rw [BitVec.toNat_ofNat]
    exact Nat.mod_eq_of_lt (by omega)
  have hrlar : (rlar8 memory).toNat = (memory.addr + memory.size - 1) / 32 * 32 + 1 := by
    unfold rlar8
    rw [BitVec.and_comm, AlignedWord.toNat_or (k := 5) (by decide)
      (by rw [AlignedWord.toNat_clear5]; omega) (by decide), AlignedWord.toNat_clear5, hlast]
    rfl
  have henabled : (⟨rbar8 memory, rlar8 memory⟩ : V8.Region).enabled = true := by
    apply decide_eq_true
    apply BitVec.eq_of_toNat_eq
    rw [BitVec.toNat_and]
    change (rlar8 memory).toNat &&& (2 ^ 1 - 1) = 1
    rw [Nat.and_two_pow_sub_one_eq_mod, hrlar]
    omega
  rw [V8.hit_iff henabled]
  change (rbar8 memory).toNat / 32 * 32 ≤ _ ∧ _ < (rlar8 memory).toNat / 32 * 32 + 32 ↔ _
  rw [hrbar, hrlar]
  unfold Recipe.Region.Contains
  omega

theorem grants_rbar8 (memory : Memory) (hcheck : checkMpuRegion8 memory = true)
    (hr : memory.mode.r = true) (k : Access) :
    (⟨rbar8 memory, rlar8 memory⟩ : V8.Region).grants k = memory.mode.has k := by
  obtain ⟨haddr, -⟩ := checkRegion8_spec hcheck
  obtain ⟨flags, hrbar, hlt, hap, hxn⟩ := toNat_rbar8 hcheck
  have hap' : V8.Region.ap ⟨rbar8 memory, rlar8 memory⟩ = if memory.mode.w then 1 else 3 := by
    apply BitVec.eq_of_toNat_eq
    refine (AlignedWord.toNat_field (n := 2) (by decide)).trans ?_
    change (rbar8 memory).toNat / 2 ^ 1 % 2 ^ 2 = _
    rw [hr] at hap
    rw [hrbar]
    cases hw : memory.mode.w <;> rw [hw] at hap <;> simp at hap ⊢ <;> omega
  have hxn' : V8.Region.xn ⟨rbar8 memory, rlar8 memory⟩ = !memory.mode.x := by
    have hbit : (rbar8 memory &&& 1).toNat = flags % 2 := by
      rw [BitVec.toNat_and]
      change (rbar8 memory).toNat &&& (2 ^ 1 - 1) = _
      rw [Nat.and_two_pow_sub_one_eq_mod, hrbar]
      omega
    have hiff : rbar8 memory &&& 1 = 1 ↔ memory.mode.x = false := by
      rw [← BitVec.toNat_inj, hbit]
      exact hxn
    rw [Bool.eq_iff_iff, Bool.not_eq_true', ← hiff]
    exact decide_eq_true_iff
  unfold V8.Region.grants
  rw [hap', hxn']
  cases k <;> cases hw : memory.mode.w <;> cases hx : memory.mode.x <;>
    simp [grantsOf, Recipe.Mode.has, hr, hw, hx]

/-! ## Section 3: Registers that init and switches leave -/

/-- What writes the registers of the MPU -/
inductive MpuEvent where
  | init
  /-- to a box with these memories, or with none to sys -/
  | switch (memories : List Memory)

/-- `__box_mpu_init` or `__box_mpu_switch`, ARMv7-M -/
def step7 (mpuregions : ℕ) (callRegion : Region) : MpuEvent → V7.Mpu → V7.Mpu → Prop
  | .init, m, m' =>
    m' = mpuInit7 (BitVec.ofNat 32 callRegion.addr) (Nat.log 2 callRegion.size) m
  | .switch memories, m, m' => m' = mpuSwitch7 mpuregions (buildMpuRegions7 memories) m

/-- `__box_mpu_init` or `__box_mpu_switch`, ARMv8-M -/
def step8 (mpuregions : ℕ) (callRegion : Region) (callsize : Word) :
    MpuEvent → V8.Mpu → V8.Mpu → Prop
  | .init, m, m' => m' = mpuInit8 (BitVec.ofNat 32 callRegion.addr) callsize m
  | .switch memories, m, m' => m' = mpuSwitch8 mpuregions (buildMpuRegions8 memories) m

/-- The memories of the boxes have passed `_check_mpu_region`. -/
def Checked (check : Memory → Bool) : MpuEvent → Prop
  | .init => True
  | .switch memories => ∀ memory ∈ memories, check memory = true

/-- Registers after any inits and switches from reset -/
def Programmed7 (mpuregions : ℕ) (callRegion : Region) (m : V7.Mpu) : Prop :=
  GuardedRun (fun m : V7.Mpu => m.ctrl = 0 ∧ ∀ n, (m.region n).rasr = 0)
    (step7 mpuregions callRegion) (fun e _ => Checked checkMpuRegion7 e) m

/-- Registers after any inits and switches from reset -/
def Programmed8 (mpuregions : ℕ) (callRegion : Region) (callsize : Word) (m : V8.Mpu) : Prop :=
  GuardedRun (fun m : V8.Mpu => m.ctrl = 0 ∧ ∀ n, (m.region n).rlar = 0)
    (step8 mpuregions callRegion callsize) (fun e _ => Checked checkMpuRegion8 e) m

/-- The region that `__box_mpu_init` sets up for calls, ARMv8-M -/
def callPart8 (callRegion : Region) (callsize : Word) : V8.Region where
  rbar := BitVec.ofNat 32 callRegion.addr ||| 0x1
  rlar := (0xffffffe0 &&& (BitVec.ofNat 32 callRegion.addr + callsize - 1)) ||| 0x1

theorem aligned_buildMpuRegions7 {memories : List Memory}
    (hcheck : ∀ memory ∈ memories, checkMpuRegion7 memory = true) :
    Aligned (buildMpuRegions7 memories) := by
  intro r hr
  obtain ⟨memory, hmem, rfl⟩ := List.mem_map.mp hr
  obtain ⟨k, -, hlow, -, halign, -⟩ := checkRegion7_spec (hcheck memory hmem)
  have hdvd : 32 ∣ memory.addr :=
    (Nat.pow_dvd_pow 2 hlow).trans (Nat.dvd_of_mod_eq_zero halign)
  change (BitVec.ofNat 32 memory.addr).toNat % 32 = 0
  rw [BitVec.toNat_ofNat]
  omega

/-- Regions that no switch programs are disabled, and the call region denies everything. -/
theorem programmed7_rest {mpuregions : ℕ} {callRegion : Region} {m : V7.Mpu}
    (hcount : mpuregions < 16) (hcall : checkCallRegion7 callRegion.range = true)
    (h : Programmed7 mpuregions callRegion m) :
    (∀ n, mpuregions < n.toNat → (m.region n).rasr = 0) ∧ (m.region 0).ap = 0 := by
  refine GuardedRun.invariant (fun m : V7.Mpu =>
    (∀ n, mpuregions < n.toNat → (m.region n).rasr = 0) ∧ (m.region 0).ap = 0) ?_ ?_ h
  · rintro m ⟨-, hreset⟩
    refine ⟨fun n _ => hreset n, ?_⟩
    unfold V7.Region.ap
    rw [hreset 0]
    decide
  · rintro e m m' ⟨hrest, hap⟩ hchecked hstep
    cases e with
    | init =>
      cases hstep
      obtain ⟨k, -, hlow, hhigh, halign, hlog⟩ := checkRegion7_spec hcall
      unfold mpuInit7
      split
      · have haddr : (BitVec.ofNat 32 callRegion.addr).toNat % 32 = 0 := by
          have hdvd : 32 ∣ callRegion.addr :=
            (Nat.pow_dvd_pow 2 hlow).trans (Nat.dvd_of_mod_eq_zero halign)
          rw [BitVec.toNat_ofNat]
          omega
        have hwrite := writeRbar_valid m _ haddr (n := 0) (by decide)
          (0x10000001 ||| BitVec.ofNat 32 (Nat.log 2 callRegion.size - 1) <<< 1)
        rw [BitVec.or_zero] at hwrite
        simp only [V7.Mpu.writeCtrl, hwrite]
        constructor
        · intro n hn
          rw [Function.update_of_ne]
          · exact hrest n hn
          · rintro rfl
            simp at hn
        · rw [show (0 : BitVec 4) = BitVec.ofNat 4 0 from rfl, Function.update_self]
          have hfields : ∀ k : Fin 32,
              ((0x10000001 ||| BitVec.ofNat 32 k <<< 1 : Word) >>> 24) &&& 7 = 0 := by decide
          exact hfields ⟨Nat.log 2 callRegion.size - 1, by omega⟩
      · exact ⟨hrest, hap⟩
    | switch memories =>
      cases hstep
      have hregion := region_mpuSwitch7 (aligned_buildMpuRegions7 hchecked) m hcount
      constructor
      · intro n hn
        rw [hregion, if_neg (by omega)]
        exact hrest n hn
      · rw [hregion, if_neg (by simp)]
        exact hap

theorem programmed8_rest {mpuregions : ℕ} {callRegion : Region} {callsize : Word} {m : V8.Mpu}
    (hcount : mpuregions < 256) (h : Programmed8 mpuregions callRegion callsize m) :
    (∀ n, mpuregions < n.toNat → (m.region n).rlar = 0) ∧
      ((m.region 0).rlar = 0 ∨ m.region 0 = callPart8 callRegion callsize) := by
  refine GuardedRun.invariant (fun m : V8.Mpu =>
    (∀ n, mpuregions < n.toNat → (m.region n).rlar = 0) ∧
      ((m.region 0).rlar = 0 ∨ m.region 0 = callPart8 callRegion callsize)) ?_ ?_ h
  · rintro m ⟨-, hreset⟩
    exact ⟨fun n _ => hreset n, .inl (hreset 0)⟩
  · rintro e m m' ⟨hrest, hzero⟩ hchecked hstep
    cases e with
    | init =>
      cases hstep
      unfold mpuInit8
      split
      · simp only [V8.Mpu.writeCtrl, V8.Mpu.writeRlar, V8.Mpu.writeRbar, V8.Mpu.writeMair0,
          V8.Mpu.writeRnr, Function.update_self, Function.update_idem]
        constructor
        · intro n hn
          rw [Function.update_of_ne]
          · exact hrest n hn
          · rintro rfl
            simp at hn
        · right
          rw [show (0 : BitVec 8) = BitVec.ofNat 8 (0 : Word).toNat from rfl,
            Function.update_self]
          rfl
      · exact ⟨hrest, hzero⟩
    | switch memories =>
      cases hstep
      have hregion := region_mpuSwitch8 (buildMpuRegions8 memories) m hcount
      constructor
      · intro n hn
        rw [hregion, if_neg (by omega)]
        exact hrest n hn
      · rw [hregion, if_neg (by simp)]
        exact hzero

/-! ## Section 4: What a switch grants -/

theorem not_hit_of_rasr {r : V7.Region} (h : r.rasr = 0) (a : Word) : ¬ r.Hit a := by
  rintro ⟨henabled, -⟩
  unfold V7.Region.enabled at henabled
  rw [h] at henabled
  exact absurd henabled (by decide)

theorem not_hit_of_rlar {r : V8.Region} (h : r.rlar = 0) (a : Word) : ¬ r.Hit a := by
  rintro ⟨henabled, -⟩
  unfold V8.Region.enabled at henabled
  rw [h] at henabled
  exact absurd henabled (by decide)

theorem programs7 {memories : List Memory} {mpuregions : ℕ} {m : V7.Mpu}
    (hcheck : ∀ memory ∈ memories, checkMpuRegion7 memory = true) (hcount : mpuregions < 16)
    (hrest : ∀ n, mpuregions < n.toNat → (m.region n).rasr = 0) (a : Word) :
    Programs (memories.take mpuregions)
      (fun memory => (⟨BitVec.ofNat 32 memory.addr, rasr7 memory⟩ : V7.Region)) (·.Hit a)
      (mpuSwitch7 mpuregions (buildMpuRegions7 memories) m).region := by
  intro n hn
  have hpos : n.toNat ≠ 0 := fun h0 => hn (BitVec.eq_of_toNat_eq (by simpa using h0))
  rw [region_mpuSwitch7 (aligned_buildMpuRegions7 hcheck) m hcount, List.getElem?_take]
  unfold entry7 buildMpuRegions7
  rw [List.getElem?_map]
  constructor
  · intro memory hmemory
    split at hmemory
    · rw [if_pos ⟨hn, by omega⟩, hmemory]
      rfl
    · cases hmemory
  · intro hnone
    split at hnone
    · rw [if_pos ⟨hn, by omega⟩, hnone]
      exact not_hit_of_rasr rfl a
    · rw [if_neg (by omega)]
      exact not_hit_of_rasr (hrest n (by omega)) a

theorem programs8 {memories : List Memory} {mpuregions : ℕ} {m : V8.Mpu}
    (hcount : mpuregions < 256) (hrest : ∀ n, mpuregions < n.toNat → (m.region n).rlar = 0)
    (a : Word) :
    Programs (memories.take mpuregions)
      (fun memory => (⟨rbar8 memory, rlar8 memory⟩ : V8.Region)) (·.Hit a)
      (mpuSwitch8 mpuregions (buildMpuRegions8 memories) m).region := by
  intro n hn
  have hpos : n.toNat ≠ 0 := fun h0 => hn (BitVec.eq_of_toNat_eq (by simpa using h0))
  rw [region_mpuSwitch8 _ m hcount, List.getElem?_take]
  unfold entry8 buildMpuRegions8
  rw [List.getElem?_map]
  constructor
  · intro memory hmemory
    split at hmemory
    · rw [if_pos ⟨hn, by omega⟩, hmemory]
      rfl
    · cases hmemory
  · intro hnone
    split at hnone
    · rw [if_pos ⟨hn, by omega⟩, hnone]
      exact not_hit_of_rlar rfl a
    · rw [if_neg (by omega)]
      exact not_hit_of_rlar (hrest n (by omega)) a

/-- Memories that do not overlap, with no address in common -/
theorem pairwise_not_contains {memories : List Memory} (a : ℕ) (n : ℕ)
    (h : memories.Pairwise fun memory other => memory.overlaps other.range = false) :
    (memories.take n).Pairwise fun memory other => memory.Contains a → ¬ other.Contains a :=
  (h.sublist (List.take_sublist n memories)).imp fun hoverlaps hcontains =>
    Recipe.Region.apart_of_overlaps hoverlaps a hcontains

/-- A switch grants the first `mpu_regions` memories of a box, ARMv7-M. -/
theorem grants_mpuSwitch7 {memories : List Memory} {mpuregions : ℕ} {callRegion : Region}
    {m : V7.Mpu} (hreadable : ∀ memory ∈ memories, memory.mode.r = true)
    (hdisjoint : memories.Pairwise fun memory other => memory.overlaps other.range = false)
    (hcheck : ∀ memory ∈ memories, checkMpuRegion7 memory = true) (hcount : mpuregions < 16)
    (hcall : checkCallRegion7 callRegion.range = true) (hm : Programmed7 mpuregions callRegion m)
    (k : Access) (a : Word) :
    (mpuSwitch7 mpuregions (buildMpuRegions7 memories) m).Grants k a ↔
      ∃ memory ∈ memories.take mpuregions, memory.mode.has k = true ∧
        memory.Contains a.toNat := by
  obtain ⟨hrest, hap⟩ := programmed7_rest hcount hcall hm
  have hprograms := programs7 hcheck hcount hrest a
  have hcheck' : ∀ memory ∈ memories.take mpuregions, checkMpuRegion7 memory = true :=
    fun memory hmem => hcheck memory (List.mem_of_mem_take hmem)
  have hpair : (memories.take mpuregions).Pairwise fun memory other =>
      (⟨BitVec.ofNat 32 memory.addr, rasr7 memory⟩ : V7.Region).Hit a →
        ¬ (⟨BitVec.ofNat 32 other.addr, rasr7 other⟩ : V7.Region).Hit a := by
    refine (pairwise_not_contains a.toNat mpuregions hdisjoint).imp_of_mem ?_
    intro memory other hmem hother hnot
    rw [hit_iff_contains7 (hcheck' memory hmem), hit_iff_contains7 (hcheck' other hother)]
    exact hnot
  have hdeny : ((mpuSwitch7 mpuregions (buildMpuRegions7 memories) m).region 0).grants k =
      false := by
    rw [region_mpuSwitch7 (aligned_buildMpuRegions7 hcheck) m hcount, if_neg (by simp)]
    unfold V7.Region.grants
    rw [hap]
    cases k <;> rfl
  have hctrl : (mpuSwitch7 mpuregions (buildMpuRegions7 memories) m).ctrl &&& 1 ≠ 0 := by
    change (5 : Word) &&& 1 ≠ 0
    decide
  rw [V7.grants_iff hctrl (fun n n' hn hn' => hprograms.eq_of_hit hpair hn hn') hdeny,
    hprograms.exists_iff ((List.length_take_le _ _).trans_lt hcount)
      fun r => r.grants k = true]
  refine exists_congr fun memory => and_congr_right fun hmem => ?_
  rw [hit_iff_contains7 (hcheck' memory hmem), grants_rasr7 memory (hcheck' memory hmem)
    (hreadable memory (List.mem_of_mem_take hmem)), and_comm]

/-- A switch grants the first `mpu_regions` memories of a box, ARMv8-M. -/
theorem grants_mpuSwitch8 {memories : List Memory} {mpuregions : ℕ} {callRegion : Region}
    {callsize : Word} {m : V8.Mpu} (hreadable : ∀ memory ∈ memories, memory.mode.r = true)
    (hdisjoint : memories.Pairwise fun memory other => memory.overlaps other.range = false)
    (hcheck : ∀ memory ∈ memories, checkMpuRegion8 memory = true) (hcount : mpuregions < 256)
    (hcall : checkCallRegion8 callRegion.range = true)
    (hapart : ∀ memory ∈ memories, ∀ a : Word, memory.Contains a.toNat →
      ¬ (callPart8 callRegion callsize).Hit a)
    (hm : Programmed8 mpuregions callRegion callsize m) (k : Access) (a : Word) :
    (mpuSwitch8 mpuregions (buildMpuRegions8 memories) m).Grants k a ↔
      ∃ memory ∈ memories.take mpuregions, memory.mode.has k = true ∧
        memory.Contains a.toNat := by
  obtain ⟨hrest, hzero⟩ := programmed8_rest hcount hm
  have hprograms : Programs (memories.take mpuregions)
      (fun memory => (⟨rbar8 memory, rlar8 memory⟩ : V8.Region)) (·.Hit a)
      (mpuSwitch8 mpuregions (buildMpuRegions8 memories) m).region := programs8 hcount hrest a
  have hcheck' : ∀ memory ∈ memories.take mpuregions, checkMpuRegion8 memory = true :=
    fun memory hmem => hcheck memory (List.mem_of_mem_take hmem)
  -- at most one of the programmed regions is hit
  have hpair : (memories.take mpuregions).Pairwise fun memory other =>
      (⟨rbar8 memory, rlar8 memory⟩ : V8.Region).Hit a →
        ¬ (⟨rbar8 other, rlar8 other⟩ : V8.Region).Hit a := by
    refine (pairwise_not_contains a.toNat mpuregions hdisjoint).imp_of_mem ?_
    intro memory other hmem hother hnot
    rw [hit_iff_contains8 (hcheck' memory hmem), hit_iff_contains8 (hcheck' other hother)]
    exact hnot
  have hregion : (mpuSwitch8 mpuregions (buildMpuRegions8 memories) m).region 0 = m.region 0 := by
    rw [region_mpuSwitch8 _ m hcount, if_neg (by simp)]
  -- the region for calls grants nothing to code of a box
  have hcallhit : (m.region 0).Hit a →
      (callPart8 callRegion callsize).Hit a ∧ (m.region 0).grants k = false := by
    intro hhit
    rcases hzero with hoff | hpart
    · exact absurd hhit (not_hit_of_rlar hoff a)
    · rw [hpart] at hhit ⊢
      refine ⟨hhit, ?_⟩
      -- `AP` is for privileged accesses only
      obtain ⟨haddr, -, -, hnat⟩ := checkRegion8_spec hcall
      have hap : (callPart8 callRegion callsize).ap = 0 := by
        apply BitVec.eq_of_toNat_eq
        refine (AlignedWord.toNat_field (n := 2) (by decide)).trans ?_
        change (BitVec.ofNat 32 callRegion.addr ||| 0x1).toNat / 2 ^ 1 % 2 ^ 2 = 0
        rw [AlignedWord.toNat_or (k := 5) (by decide) (by rw [hnat]; exact haddr) (by decide),
          hnat]
        change (callRegion.addr + 1) / 2 ^ 1 % 2 ^ 2 = 0
        omega
      unfold V8.Region.grants
      rw [hap]
      cases k <;> rfl
  have hmemory : ∀ n, n ≠ 0 → ((mpuSwitch8 mpuregions (buildMpuRegions8 memories) m).region n).Hit
      a → ¬ (m.region 0).Hit a := by
    intro n hn hhit hcallHit
    obtain ⟨memory, hentry, heq⟩ := hprograms.entry_of_hit hn hhit
    have hmem := List.mem_of_getElem? hentry
    rw [heq, hit_iff_contains8 (hcheck' memory hmem)] at hhit
    exact hapart memory (List.mem_of_mem_take hmem) a hhit (hcallhit hcallHit).1
  -- with two hits the access would fault
  have hunique : ∀ n n', ((mpuSwitch8 mpuregions (buildMpuRegions8 memories) m).region n).Hit a →
      ((mpuSwitch8 mpuregions (buildMpuRegions8 memories) m).region n').Hit a → n = n' := by
    intro n n' hhit hhit'
    by_cases hn : n = 0
    · by_cases hn' : n' = 0
      · rw [hn, hn']
      · rw [hn, hregion] at hhit
        exact absurd hhit (hmemory n' hn' hhit')
    · by_cases hn' : n' = 0
      · rw [hn', hregion] at hhit'
        exact absurd hhit' (hmemory n hn hhit)
      · exact hprograms.eq_of_hit hpair hn hn' hhit hhit'
  have hlist := hprograms.exists_iff ((List.length_take_le _ _).trans_lt hcount)
    fun r => r.grants k = true
  have hctrl : (mpuSwitch8 mpuregions (buildMpuRegions8 memories) m).ctrl &&& 1 ≠ 0 := by
    change (5 : Word) &&& 1 ≠ 0
    decide
  rw [V8.grants_iff hctrl hunique]
  constructor
  · rintro ⟨n, hhit, hgrants⟩
    have hn : n ≠ 0 := by
      rintro rfl
      rw [hregion] at hhit hgrants
      rw [(hcallhit hhit).2] at hgrants
      cases hgrants
    obtain ⟨memory, hmem, hhit', hgrants'⟩ := hlist.mp ⟨n, hn, hhit, hgrants⟩
    rw [hit_iff_contains8 (hcheck' memory hmem)] at hhit'
    rw [grants_rbar8 memory (hcheck' memory hmem)
      (hreadable memory (List.mem_of_mem_take hmem))] at hgrants'
    exact ⟨memory, hmem, hgrants', hhit'⟩
  · rintro ⟨memory, hmem, hhas, hcontains⟩
    rw [← hit_iff_contains8 (hcheck' memory hmem)] at hcontains
    rw [← grants_rbar8 memory (hcheck' memory hmem)
      (hreadable memory (List.mem_of_mem_take hmem))] at hhas
    obtain ⟨n, -, hhit, hgrants⟩ := hlist.mpr ⟨memory, hmem, hcontains, hhas⟩
    exact ⟨n, hhit, hgrants⟩

/-- After a switch to a box with at most `mpu_regions` memories, unprivileged code can access
the memories of the box, each by its mode, and nothing else. -/
theorem protection_matches (memories : List Memory)
    (hreadable : ∀ memory ∈ memories, memory.mode.r = true)
    (hdisjoint : memories.Pairwise fun memory other => memory.overlaps other.range = false)
    (mpuregions : ℕ) (hcount : memories.length ≤ mpuregions) (callRegion : Region) :
    ((∀ memory ∈ memories, checkMpuRegion7 memory = true) → mpuregions < 16 →
      checkCallRegion7 callRegion.range = true →
      ∀ m, Programmed7 mpuregions callRegion m → ∀ (k : Access) (a : Word),
        (mpuSwitch7 mpuregions (buildMpuRegions7 memories) m).Grants k a ↔
          ∃ memory ∈ memories, memory.mode.has k = true ∧ memory.Contains a.toNat) ∧
    ((∀ memory ∈ memories, checkMpuRegion8 memory = true) → mpuregions < 256 →
      checkCallRegion8 callRegion.range = true →
      ∀ callsize, (∀ memory ∈ memories, ∀ a : Word, memory.Contains a.toNat →
        ¬ (callPart8 callRegion callsize).Hit a) →
      ∀ m, Programmed8 mpuregions callRegion callsize m → ∀ (k : Access) (a : Word),
        (mpuSwitch8 mpuregions (buildMpuRegions8 memories) m).Grants k a ↔
          ∃ memory ∈ memories, memory.mode.has k = true ∧ memory.Contains a.toNat) := by
  have htake : memories.take mpuregions = memories := List.take_of_length_le hcount
  constructor
  · intro hcheck hregions hcall m hm k a
    rw [grants_mpuSwitch7 hreadable hdisjoint hcheck hregions hcall hm k a, htake]
  · intro hcheck hregions hcall callsize hapart m hm k a
    rw [grants_mpuSwitch8 hreadable hdisjoint hcheck hregions hcall hapart hm k a, htake]

/-! ## Section 5: A box with flash and RAM -/

/-- Flash and RAM of a box -/
def flashAndRam : List Memory :=
  [⟨⟨⟨0x8000, 0x1000⟩, by decide⟩, ⟨true, false, true, true⟩⟩,
   ⟨⟨⟨0x20000000, 0x1000⟩, by decide⟩, ⟨true, true, false, false⟩⟩]

/-- A region for calls behind the flash -/
def callsBehindFlash : Region := ⟨⟨0x9000, 0x40⟩, by decide⟩

/-- Registers out of reset -/
def reset7 : V7.Mpu := ⟨0, 0, fun _ => ⟨0, 0⟩⟩

/-- Registers out of reset -/
def reset8 : V8.Mpu := ⟨0, 0, 0, fun _ => ⟨0, 0⟩⟩

/-- The call region has no address of the flash and of the RAM. -/
theorem apart_flashAndRam : ∀ memory ∈ flashAndRam, ∀ a : Word, memory.Contains a.toNat →
    ¬ (callPart8 callsBehindFlash 0x40).Hit a := by
  intro memory hmem a hcontains hhit
  have hcalls : 0x9000 ≤ a.toNat ∧ a.toNat < 0x9040 := (V8.hit_iff (by decide)).mp hhit
  unfold flashAndRam at hmem
  unfold Recipe.Region.Contains at hcontains
  rcases List.mem_cons.mp hmem with rfl | hmem
  · simp only at hcontains
    omega
  · obtain rfl := List.mem_singleton.mp hmem
    simp only at hcontains
    omega

theorem flashAndRam_granted :
    (mpuSwitch7 4 (buildMpuRegions7 flashAndRam) reset7).Grants .write 0x20000ffc ∧
      (mpuSwitch8 4 (buildMpuRegions8 flashAndRam) reset8).Grants .execute 0x8000 := by
  obtain ⟨h7, h8⟩ := protection_matches flashAndRam (by decide) (by decide) 4 (by decide)
    callsBehindFlash
  constructor
  · refine (h7 (by decide) (by decide) (by decide) reset7 (.start ⟨rfl, fun _ => rfl⟩) .write
      0x20000ffc).mpr ⟨_, .tail _ (.head _), rfl, by decide, by decide⟩
  · refine (h8 (by decide) (by decide) (by decide) 0x40 apart_flashAndRam reset8
      (.start ⟨rfl, fun _ => rfl⟩) .execute 0x8000).mpr ⟨_, .head _, rfl, by decide, by decide⟩

/-- With one region to manage, the RAM of the box is left out. -/
theorem not_protection_matches_one :
    ¬ ∀ (memories : List Memory), (∀ memory ∈ memories, memory.mode.r = true) →
      (memories.Pairwise fun memory other => memory.overlaps other.range = false) →
      (∀ memory ∈ memories, checkMpuRegion7 memory = true) →
      ∀ (mpuregions : ℕ) (callRegion : Region), checkCallRegion7 callRegion.range = true →
      ∀ m, Programmed7 mpuregions callRegion m → ∀ (k : Access) (a : Word),
        (mpuSwitch7 mpuregions (buildMpuRegions7 memories) m).Grants k a ↔
          ∃ memory ∈ memories, memory.mode.has k = true ∧ memory.Contains a.toNat := by
  intro h
  have hcall : checkCallRegion7 callsBehindFlash.range = true := by decide
  have hram := (h flashAndRam (by decide) (by decide) (by decide) 1 callsBehindFlash hcall
    reset7 (.start ⟨rfl, fun _ => rfl⟩) .read 0x20000000).mpr
      ⟨_, .tail _ (.head _), rfl, by decide, by decide⟩
  rw [grants_mpuSwitch7 (by decide) (by decide) (by decide) (by decide) hcall
    (.start ⟨rfl, fun _ => rfl⟩)] at hram
  obtain ⟨memory, hmem, -, hcontains⟩ := hram
  obtain rfl := List.mem_singleton.mp hmem
  exact absurd hcontains.2 (by decide)

end BentoLinker.Mpu
