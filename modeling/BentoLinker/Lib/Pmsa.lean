import BentoLinker.Lib.AlignedWord

/-!
# Protected Memory Architectures

The memory protection units of ARMv7-M and ARMv8-M, as their registers define them, for
unprivileged accesses to memory.

- `V7.Mpu`: `MPU_RBAR` and `MPU_RASR`. A region is a power of two in size, and the highest
  region that contains an address decides
- `V8.Mpu`: `MPU_RBAR` and `MPU_RLAR`. A region ends at a limit, and an address that is in
  two regions faults
- `V7.hit_iff`, `V8.hit_iff`: the addresses of a region
- `loop_region`: regions that a loop programs
- `V7.grants_iff`, `V8.grants_iff`: what the unit grants, for regions that are disjoint but
  for one that denies everything

System registers, which no region covers, are left out.
-/

namespace Pmsa

/-- Addresses, and values of registers -/
abbrev Value := BitVec 32

/-- What an access does -/
inductive Access where
  | read
  | write
  | execute
  deriving Repr, DecidableEq

/-- What a region allows, from its access permission and its execute-never bit -/
def grantsOf (canRead canWrite xn : Bool) : Access → Bool
  | .read => canRead
  | .write => canWrite
  | .execute => canRead && !xn

/-! ## Section 1: ARMv7-M -/

namespace V7

structure Region where
  rbar : Value
  rasr : Value

/-- The MPU with the 16 regions that `MPU_RBAR` can name -/
structure Mpu where
  ctrl : Value
  rnr : BitVec 4
  region : BitVec 4 → Region

namespace Region

variable (r : Region)

/-- `MPU_RASR.ENABLE` -/
def enabled : Bool := r.rasr &&& 1 = 1

/-- `MPU_RASR.SIZE` is one less than the logarithm of the size. -/
def sizeLog : ℕ := ((r.rasr >>> 1) &&& 0x1f).toNat + 1

/-- `MPU_RASR.SRD`, for regions of 256 bytes and more -/
def disabled (a : Value) : Prop :=
  8 ≤ r.sizeLog ∧ (r.rasr >>> 8).getLsbD ((a >>> (r.sizeLog - 3)) &&& 7).toNat = true

def Hit (a : Value) : Prop :=
  r.enabled = true ∧ a >>> r.sizeLog = r.rbar >>> r.sizeLog ∧ ¬ r.disabled a

/-- `MPU_RASR.AP` -/
def ap : Value := (r.rasr >>> 24) &&& 7

/-- `MPU_RASR.XN` -/
def xn : Bool := (r.rasr >>> 28) &&& 1 = 1

def grants (k : Access) : Bool :=
  grantsOf (r.ap = 2 || r.ap = 3 || r.ap = 6 || r.ap = 7) (r.ap = 3) r.xn k

end Region

namespace Mpu

variable (m : Mpu)

def writeCtrl (v : Value) : Mpu := { m with ctrl := v }

/-- `MPU_RBAR`, which selects a region if `VALID` is set -/
def writeRbar (v : Value) : Mpu :=
  let rnr := if v &&& 0x10 = 0x10 then BitVec.ofNat 4 v.toNat else m.rnr
  { m with
    rnr := rnr
    region := Function.update m.region rnr { m.region rnr with rbar := v &&& 0xffffffe0 } }

def writeRasr (v : Value) : Mpu :=
  { m with region := Function.update m.region m.rnr { m.region m.rnr with rasr := v } }

/-- Is an unprivileged access granted? -/
def Grants (k : Access) (a : Value) : Prop :=
  m.ctrl &&& 1 = 0 ∨
    ∃ n, (m.region n).Hit a ∧ (∀ n', n < n' → ¬ (m.region n').Hit a) ∧
      (m.region n).grants k = true

end Mpu

/-- The addresses of a region that is aligned to its size -/
theorem hit_iff {r : Region} {s : ℕ} {a : Value} (henabled : r.enabled = true)
    (hsize : r.sizeLog = s) (halign : r.rbar.toNat % 2 ^ s = 0) (hsrd : (r.rasr >>> 8) &&& 0xff = 0) :
    r.Hit a ↔ r.rbar.toNat ≤ a.toNat ∧ a.toNat < r.rbar.toNat + 2 ^ s := by
  have hnot : ¬ r.disabled a := by
    rintro ⟨-, hbit⟩
    generalize hi : ((a >>> (r.sizeLog - 3)) &&& 7).toNat = i at hbit
    have hlt : i < 8 := by
      rw [← hi, BitVec.toNat_and]
      exact Nat.and_lt_two_pow (n := 3) _ (by decide)
    have hzero := congrArg (BitVec.getLsbD · i) hsrd
    simp only [BitVec.getLsbD_and, hbit, Bool.true_and] at hzero
    have hmask : ∀ i < 8, BitVec.getLsbD (255 : Value) i ≠ BitVec.getLsbD (0 : Value) i := by
      decide
    exact hmask i hlt hzero
  have hpos : 0 < 2 ^ s := Nat.two_pow_pos s
  obtain ⟨d, hd⟩ := Nat.dvd_of_mod_eq_zero halign
  have hshift : a >>> s = r.rbar >>> s ↔ a.toNat / 2 ^ s = d := by
    rw [← BitVec.toNat_inj, BitVec.toNat_ushiftRight, BitVec.toNat_ushiftRight,
      Nat.shiftRight_eq_div_pow, Nat.shiftRight_eq_div_pow, hd, Nat.mul_div_cancel_left _ hpos]
  have hquot : a.toNat / 2 ^ s = d ↔ 2 ^ s * d ≤ a.toNat ∧ a.toNat < 2 ^ s * d + 2 ^ s := by
    rw [Nat.div_eq_iff hpos, Nat.mul_comm d]
    omega
  unfold Region.Hit
  rw [hsize, hshift, hquot, hd]
  exact ⟨fun h => h.2.1, fun h => ⟨henabled, h, hnot⟩⟩

theorem grants_iff {m : Mpu} {k : Access} {a : Value} (hctrl : m.ctrl &&& 1 ≠ 0)
    (hdisjoint : ∀ n n', n ≠ 0 → n' ≠ 0 → (m.region n).Hit a → (m.region n').Hit a → n = n')
    (hdeny : (m.region 0).grants k = false) :
    m.Grants k a ↔ ∃ n, n ≠ 0 ∧ (m.region n).Hit a ∧ (m.region n).grants k = true := by
  constructor
  · rintro (hoff | ⟨n, hhit, -, hgrants⟩)
    · exact absurd hoff hctrl
    · refine ⟨n, ?_, hhit, hgrants⟩
      rintro rfl
      rw [hdeny] at hgrants
      cases hgrants
  · rintro ⟨n, hn, hhit, hgrants⟩
    refine .inr ⟨n, hhit, fun n' hlt hhit' => ?_, hgrants⟩
    -- a higher region is not the lowest one, so it would be the same
    have hn' : n' ≠ 0 := by
      rintro rfl
      simp [BitVec.lt_def] at hlt
    rw [hdisjoint n n' hn hn' hhit hhit', BitVec.lt_def] at hlt
    exact lt_irrefl _ hlt

end V7

/-! ## Section 2: ARMv8-M -/

namespace V8

structure Region where
  rbar : Value
  rlar : Value

/-- The MPU with the 256 regions that `MPU_RNR` can name -/
structure Mpu where
  ctrl : Value
  mair0 : Value
  rnr : BitVec 8
  region : BitVec 8 → Region

namespace Region

variable (r : Region)

/-- `MPU_RLAR.EN` -/
def enabled : Bool := r.rlar &&& 1 = 1

def Hit (a : Value) : Prop :=
  r.enabled = true ∧ r.rbar &&& 0xffffffe0 ≤ a ∧ a ≤ (r.rlar &&& 0xffffffe0) ||| 0x1f

/-- `MPU_RBAR.AP` -/
def ap : Value := (r.rbar >>> 1) &&& 3

/-- `MPU_RBAR.XN` -/
def xn : Bool := r.rbar &&& 1 = 1

def grants (k : Access) : Bool := grantsOf (r.ap = 1 || r.ap = 3) (r.ap = 1) r.xn k

end Region

namespace Mpu

variable (m : Mpu)

def writeCtrl (v : Value) : Mpu := { m with ctrl := v }

def writeMair0 (v : Value) : Mpu := { m with mair0 := v }

/-- `MPU_RNR.REGION` -/
def writeRnr (v : Value) : Mpu := { m with rnr := BitVec.ofNat 8 v.toNat }

def writeRbar (v : Value) : Mpu :=
  { m with region := Function.update m.region m.rnr { m.region m.rnr with rbar := v } }

def writeRlar (v : Value) : Mpu :=
  { m with region := Function.update m.region m.rnr { m.region m.rnr with rlar := v } }

/-- Is an unprivileged access granted? -/
def Grants (k : Access) (a : Value) : Prop :=
  m.ctrl &&& 1 = 0 ∨
    ∃ n, (m.region n).Hit a ∧ (∀ n', n' ≠ n → ¬ (m.region n').Hit a) ∧
      (m.region n).grants k = true

end Mpu

/-- The addresses of a region with flags below its base and its limit -/
theorem hit_iff {r : Region} {a : Value} (henabled : r.enabled = true) :
    r.Hit a ↔ r.rbar.toNat / 32 * 32 ≤ a.toNat ∧ a.toNat < r.rlar.toNat / 32 * 32 + 32 := by
  have hlimit : ((r.rlar &&& 0xffffffe0) ||| 0x1f).toNat = r.rlar.toNat / 32 * 32 + 31 := by
    rw [AlignedWord.toNat_or (k := 5) (by decide) (by rw [AlignedWord.toNat_clear5]; omega)
      (by decide), AlignedWord.toNat_clear5]
    rfl
  unfold Region.Hit
  rw [BitVec.le_def, BitVec.le_def, AlignedWord.toNat_clear5, hlimit, and_iff_right henabled]
  omega

theorem grants_iff {m : Mpu} {k : Access} {a : Value} (hctrl : m.ctrl &&& 1 ≠ 0)
    (hdisjoint : ∀ n n', (m.region n).Hit a → (m.region n').Hit a → n = n') :
    m.Grants k a ↔ ∃ n, (m.region n).Hit a ∧ (m.region n).grants k = true := by
  constructor
  · rintro (hoff | ⟨n, hhit, -, hgrants⟩)
    · exact absurd hoff hctrl
    · exact ⟨n, hhit, hgrants⟩
  · rintro ⟨n, hhit, hgrants⟩
    exact .inr ⟨n, hhit, fun n' hne hhit' => hne (hdisjoint n' n hhit' hhit), hgrants⟩

end V8

/-! ## Section 3: Programming regions in a loop -/

/-- A loop that programs region `i + 1` in iteration `i` programs the regions from 1 on, and
leaves the others. -/
theorem loop_region {σ ρ : Type*} {w : ℕ} (region : σ → BitVec w → ρ) (step : σ → ℕ → σ)
    (entry : ℕ → ρ) (hstep : ∀ m i, i + 1 < 2 ^ w →
      region (step m i) = Function.update (region m) (BitVec.ofNat w (i + 1)) (entry i))
    (m : σ) {k : ℕ} (hk : k < 2 ^ w) (n : BitVec w) :
    region ((List.range k).foldl step m) n =
      if n ≠ 0 ∧ n.toNat ≤ k then entry (n.toNat - 1) else region m n := by
  induction k with
  | zero =>
    rw [if_neg]
    · rfl
    · rintro ⟨hn, hle⟩
      apply hn
      apply BitVec.eq_of_toNat_eq
      rw [Nat.le_zero.mp hle]
      simp
  | succ k ih =>
    rw [List.range_succ, List.foldl_append, List.foldl_cons, List.foldl_nil, hstep _ k hk]
    have hnum : (BitVec.ofNat w (k + 1)).toNat = k + 1 := by
      rw [BitVec.toNat_ofNat, Nat.mod_eq_of_lt hk]
    by_cases hn : n = BitVec.ofNat w (k + 1)
    · -- the region that the last iteration has written
      have hnat : n.toNat = k + 1 := by rw [hn, hnum]
      have hne : n ≠ 0 := by
        rintro rfl
        simp at hnat
      rw [if_pos ⟨hne, hnat.le⟩, hnat, hn, Function.update_self]
      rfl
    · have hnat : n.toNat ≠ k + 1 := by
        intro heq
        exact hn (BitVec.eq_of_toNat_eq (heq.trans hnum.symm))
      rw [Function.update_of_ne hn, ih (by omega)]
      congr 1
      rw [eq_iff_iff]
      constructor <;> rintro ⟨h0, hle⟩ <;> exact ⟨h0, by omega⟩

/-- The regions from 1 on are those of a list, the rest of them have no address. -/
def Programs {w : ℕ} {M ρ : Type*} (l : List M) (f : M → ρ) (hit : ρ → Prop)
    (region : BitVec w → ρ) : Prop :=
  ∀ n, n ≠ 0 → (∀ x, l[n.toNat - 1]? = some x → region n = f x) ∧
    (l[n.toNat - 1]? = none → ¬ hit (region n))

section Programs

variable {w : ℕ} {M ρ : Type*} {l : List M} {f : M → ρ} {hit : ρ → Prop}
  {region : BitVec w → ρ}

theorem Programs.entry_of_hit (h : Programs l f hit region) {n : BitVec w} (hn : n ≠ 0)
    (hhit : hit (region n)) : ∃ x, l[n.toNat - 1]? = some x ∧ region n = f x := by
  obtain ⟨hentry, hoff⟩ := h n hn
  cases hx : l[n.toNat - 1]? with
  | none => exact absurd hhit (hoff hx)
  | some x => exact ⟨x, rfl, hentry x hx⟩

/-- Entries of the list that have an address in common are one entry, so the regions are
disjoint. -/
theorem Programs.eq_of_hit (h : Programs l f hit region)
    (hdisjoint : l.Pairwise fun x y => hit (f x) → ¬ hit (f y)) {n n' : BitVec w}
    (hn : n ≠ 0) (hn' : n' ≠ 0) (hhit : hit (region n)) (hhit' : hit (region n')) : n = n' := by
  obtain ⟨x, hx, hregion⟩ := h.entry_of_hit hn hhit
  obtain ⟨y, hy, hregion'⟩ := h.entry_of_hit hn' hhit'
  rw [hregion] at hhit
  rw [hregion'] at hhit'
  obtain ⟨hi, hxi⟩ := List.getElem?_eq_some_iff.mp hx
  obtain ⟨hj, hyj⟩ := List.getElem?_eq_some_iff.mp hy
  have hpos : n.toNat ≠ 0 := fun h0 => hn (BitVec.eq_of_toNat_eq (by simpa using h0))
  have hpos' : n'.toNat ≠ 0 := fun h0 => hn' (BitVec.eq_of_toNat_eq (by simpa using h0))
  rw [List.pairwise_iff_getElem] at hdisjoint
  apply BitVec.eq_of_toNat_eq
  rcases Nat.lt_trichotomy (n.toNat - 1) (n'.toNat - 1) with hlt | heq | hgt
  · rw [← hxi] at hhit
    rw [← hyj] at hhit'
    exact absurd hhit' (hdisjoint _ _ hi hj hlt hhit)
  · omega
  · rw [← hxi] at hhit
    rw [← hyj] at hhit'
    exact absurd hhit (hdisjoint _ _ hj hi hgt hhit')

/-- What holds of a region with an address holds of an entry of the list. -/
theorem Programs.exists_iff (h : Programs l f hit region) (hlen : l.length < 2 ^ w)
    (P : ρ → Prop) : (∃ n, n ≠ 0 ∧ hit (region n) ∧ P (region n)) ↔
      ∃ x ∈ l, hit (f x) ∧ P (f x) := by
  constructor
  · rintro ⟨n, hn, hhit, hP⟩
    obtain ⟨x, hx, hregion⟩ := h.entry_of_hit hn hhit
    rw [hregion] at hhit hP
    exact ⟨x, List.mem_of_getElem? hx, hhit, hP⟩
  · rintro ⟨x, hx, hhit, hP⟩
    obtain ⟨i, hi, rfl⟩ := List.getElem_of_mem hx
    have hnum : (BitVec.ofNat w (i + 1)).toNat = i + 1 := by
      rw [BitVec.toNat_ofNat, Nat.mod_eq_of_lt (by omega)]
    have hne : BitVec.ofNat w (i + 1) ≠ 0 := by
      intro h0
      rw [h0] at hnum
      simp at hnum
    have hregion : region (BitVec.ofNat w (i + 1)) = f l[i] := by
      apply (h _ hne).1
      rw [hnum, Nat.add_sub_cancel, List.getElem?_eq_getElem hi]
    exact ⟨_, hne, by rwa [hregion], by rwa [hregion]⟩

end Programs

end Pmsa
