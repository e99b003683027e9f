import BentoLinker.Glz.Errors
import BentoLinker.Lib.BitCode

/-!
# GLZ Bit Operations

Model of `bits.rs`: symbol types and fixed-width symbols.

- `Sym U`: the symbol types `u8`, `u16`, `u32`, all of which expand to `u32`
- `encodeSym` / `decodeSym`: a symbol of a given width, big endian
- `encodeSyms`: the blanket `Encode` of a symbol encoder
-/

namespace BentoLinker.Glz

open BitCode

/-! ## Symbol types -/

/-- `trait Sym`: `TryFrom<u32> + Into<u32>`, with the laws the integer types satisfy. -/
class Sym (U : Type) where
  /-- `8 * mem::size_of::<U>()` -/
  size : ℕ
  toU32 : U → ℕ
  tryFrom : ℕ → Option U
  size_le : size ≤ 32
  toU32_lt : ∀ x, toU32 x < 2 ^ size
  tryFrom_toU32 : ∀ x, tryFrom (toU32 x) = some x
  toU32_of_tryFrom : ∀ n x, tryFrom n = some x → toU32 x = n

instance : Sym UInt8 where
  size := 8
  toU32 := UInt8.toNat
  tryFrom n := if n < 2 ^ 8 then some (UInt8.ofNat n) else none
  size_le := by decide
  toU32_lt := UInt8.toNat_lt
  tryFrom_toU32 x := by simpa using UInt8.toNat_lt x
  toU32_of_tryFrom n x h := by
    split at h
    · cases h
      simp only [UInt8.toNat_ofNat']
      omega
    · cases h

instance : Sym UInt16 where
  size := 16
  toU32 := UInt16.toNat
  tryFrom n := if n < 2 ^ 16 then some (UInt16.ofNat n) else none
  size_le := by decide
  toU32_lt := UInt16.toNat_lt
  tryFrom_toU32 x := by simpa using UInt16.toNat_lt x
  toU32_of_tryFrom n x h := by
    split at h
    · cases h
      simp only [UInt16.toNat_ofNat']
      omega
    · cases h

instance : Sym UInt32 where
  size := 32
  toU32 := UInt32.toNat
  tryFrom n := if n < 2 ^ 32 then some (UInt32.ofNat n) else none
  size_le := by decide
  toU32_lt := UInt32.toNat_lt
  tryFrom_toU32 x := by simpa using UInt32.toNat_lt x
  toU32_of_tryFrom n x h := by
    split at h
    · cases h
      simp only [UInt32.toNat_ofNat']
      omega
    · cases h

/-- `U::cast(n)` for a `u32` value `n` -/
def cast (U : Type) [Sym U] (n : ℕ) : Res U :=
  match Sym.tryFrom n with
  | some x => pure x
  | none => throwErr .tryFromInt

theorem cast_toU32 {U : Type} [Sym U] (x : U) : cast U (Sym.toU32 x) = .ok x := by
  simp [cast, Sym.tryFrom_toU32, pure, Except.pure]

theorem toU32_of_cast {U : Type} [Sym U] {n : ℕ} {x : U} (h : cast U n = .ok x) :
    Sym.toU32 x = n := by
  unfold cast at h
  split at h
  · next y hy =>
    cases h
    exact Sym.toU32_of_tryFrom n _ hy
  · cases h

/-! ## Fixed-width symbols -/

/-- `&bits[off..]` -/
def sliceFrom (bits : Bits) (off : ℕ) : Res Bits :=
  if off ≤ bits.length then pure (bits.drop off) else panic .sliceIndex

/-- `ensure_width::<U>(width, n, op)` for a symbol type of `realwidth` bits -/
def ensureWidth (realwidth width : ℕ) (n : Option ℕ) (op : String) : Res Unit := do
  ensure (width ≤ realwidth) (.badWidth op width realwidth)
  match n with
  | some n => ensure (32 ≤ width ∨ n < 2 ^ width) (.symOverflow op width)
  | none => pure ()

/-- `U::encode_sym(width, n)` -/
def encodeSym (realwidth width n : ℕ) : Res Bits := do
  ensureWidth realwidth width (some n) "encode"
  pure (toBits width n)

/-- `U::decode_sym(width, bits)` -/
def decodeSym (realwidth width : ℕ) (bits : Bits) : Res ℕ := do
  ensureWidth realwidth width none "decode"
  ensure (width ≤ bits.length) (.truncated width)
  pure (orBits width (bits.take width))

/-- `encode` of a symbol encoder: the symbols' codes one after another -/
def encodeSyms {α : Type} (encode : α → Res Bits) (syms : List α) : Res Bits := do
  let codes ← syms.mapM encode
  pure codes.flatten

theorem sliceFrom_eq_ok {bits rest : Bits} {off : ℕ} :
    sliceFrom bits off = .ok rest ↔ off ≤ bits.length ∧ bits.drop off = rest := by
  unfold sliceFrom
  split
  · simp_all [pure, Except.pure]
  · simp_all [panic]

theorem ensureWidth_some_eq_ok {realwidth width n : ℕ} {op : String} {u : Unit} :
    ensureWidth realwidth width (some n) op = .ok u ↔
      width ≤ realwidth ∧ (32 ≤ width ∨ n < 2 ^ width) := by
  simp [ensureWidth, Res.bind_eq_ok, ensure_eq_ok]

theorem encodeSym_eq_ok {realwidth width n : ℕ} {bits : Bits} :
    encodeSym realwidth width n = .ok bits ↔
      width ≤ realwidth ∧ (32 ≤ width ∨ n < 2 ^ width) ∧ toBits width n = bits := by
  simp [encodeSym, Res.bind_eq_ok, ensureWidth_some_eq_ok, pure, Except.pure, and_assoc]

theorem decodeSym_eq_ok {realwidth width n : ℕ} {bits : Bits} :
    decodeSym realwidth width bits = .ok n ↔
      width ≤ realwidth ∧ width ≤ bits.length ∧ ofBits (bits.take width) = n := by
  have hor : width ≤ bits.length →
      orBits width (bits.take width) = ofBits (bits.take width) :=
    fun hlen => orBits_eq_ofBits (by simpa using hlen)
  simp only [decodeSym, ensureWidth, Res.bind_eq_ok, ensure_eq_ok, pure, Except.pure,
    decide_eq_true_eq, Except.ok.injEq]
  constructor
  · rintro ⟨_, ⟨_, hreal, _⟩, _, hlen, rfl⟩
    exact ⟨hreal, hlen, (hor hlen).symm⟩
  · rintro ⟨hreal, hlen, rfl⟩
    exact ⟨(), ⟨(), hreal, trivial⟩, (), hlen, hor hlen⟩

/-- A fixed-width symbol decodes to itself, whatever follows it. -/
theorem decodeSym_encodeSym {realwidth width n : ℕ} {bits : Bits}
    (hn : n < 2 ^ 32) (h : encodeSym realwidth width n = .ok bits) (rest : Bits) :
    decodeSym realwidth width (bits ++ rest) = .ok n := by
  obtain ⟨hreal, hlt, rfl⟩ := encodeSym_eq_ok.mp h
  rw [decodeSym_eq_ok]
  refine ⟨hreal, by simp, ?_⟩
  have hwidth : n < 2 ^ width := by
    rcases hlt with hbig | hlt
    · exact hn.trans_le (Nat.pow_le_pow_right (by decide) hbig)
    · exact hlt
  rw [List.take_left' (by simp), ofBits_toBits hwidth]

end BentoLinker.Glz
