import BentoLinker.Glz.Hist

/-!
# GLZ Rice Codes

Model of `rice.rs` and of the `BijectEncoder` of `hist.rs`: Golomb-Rice codes, the
choice of their parameter from a histogram, and the codes composed with the
histogram's mapping. Each comes with its round trip.
-/

namespace BentoLinker.Glz

open BitCode

/-! ## Section 1: Golomb-Rice codes -/

/-- `struct GolombRice` -/
structure GolombRice where
  k : ℕ
  deriving Repr, DecidableEq

namespace GolombRice

/-- `GolombRice::encode_sym` -/
def encodeSym (gr : GolombRice) (n : ℕ) : Res Bits := do
  let m ← shlU32 1 gr.k
  let q := n / m
  let r := n % m
  let low ← Glz.encodeSym 32 gr.k r
  pure (unary q ++ low)

/-- `GolombRice::decode_sym`: the value and the length of its code -/
def decodeSym (gr : GolombRice) (rice : Bits) : Res (ℕ × ℕ) := do
  let m ← shlU32 1 gr.k
  match rice.findIdx? (· == false) with
  | none => throwErr .unterminatedRice
  | some q => do
    let rest ← sliceFrom rice (q + 1)
    let r ← Glz.decodeSym 32 gr.k rest
    let hi ← mulU32 (q % 2 ^ 32) m
    let n ← addU32 hi r
    pure (n, q + 1 + gr.k)

theorem shlU32_one_eq_ok {k m : ℕ} : shlU32 1 k = .ok m ↔ k < 32 ∧ m = 2 ^ k := by
  rw [shlU32_eq_ok]
  constructor
  · rintro ⟨hk, rfl⟩
    refine ⟨hk, ?_⟩
    rw [Nat.one_shiftLeft, Nat.mod_eq_of_lt (Nat.pow_lt_pow_right (by decide) hk)]
  · rintro ⟨hk, rfl⟩
    refine ⟨hk, ?_⟩
    rw [Nat.one_shiftLeft, Nat.mod_eq_of_lt (Nat.pow_lt_pow_right (by decide) hk)]

/-- The shape of a Rice code: quotient in unary, remainder in `k` bits. -/
theorem encodeSym_eq_ok {gr : GolombRice} {n : ℕ} {bits : Bits}
    (h : gr.encodeSym n = .ok bits) :
    gr.k < 32 ∧ bits = unary (n / 2 ^ gr.k) ++ toBits gr.k (n % 2 ^ gr.k) := by
  obtain ⟨m, hm, hrest⟩ := Res.bind_eq_ok.mp h
  obtain ⟨hk, rfl⟩ := shlU32_one_eq_ok.mp hm
  obtain ⟨low, hlow, hpure⟩ := Res.bind_eq_ok.mp hrest
  obtain ⟨_, _, rfl⟩ := Glz.encodeSym_eq_ok.mp hlow
  cases hpure
  exact ⟨hk, rfl⟩

/-- A Rice code decodes to the number it was made from, whatever follows it. -/
theorem decodeSym_encodeSym {gr : GolombRice} {n : ℕ} {bits : Bits} (hn : n < 2 ^ 32)
    (h : gr.encodeSym n = .ok bits) (rest : Bits) :
    gr.decodeSym (bits ++ rest) = .ok (n, bits.length) := by
  obtain ⟨hk, rfl⟩ := encodeSym_eq_ok h
  have hq : n / 2 ^ gr.k < 2 ^ 32 := (Nat.div_le_self _ _).trans_lt hn
  have hr : n % 2 ^ gr.k < 2 ^ gr.k := Nat.mod_lt _ (Nat.two_pow_pos _)
  have hdiv : n / 2 ^ gr.k * 2 ^ gr.k + n % 2 ^ gr.k = n := Nat.div_add_mod' n _
  have hslice : sliceFrom (unary (n / 2 ^ gr.k) ++ toBits gr.k (n % 2 ^ gr.k) ++ rest)
      (n / 2 ^ gr.k + 1) = .ok (toBits gr.k (n % 2 ^ gr.k) ++ rest) := by
    refine sliceFrom_eq_ok.mpr ⟨by simp, ?_⟩
    rw [List.append_assoc, List.drop_left' (by simp)]
  have hlow : Glz.decodeSym 32 gr.k (toBits gr.k (n % 2 ^ gr.k) ++ rest)
      = .ok (n % 2 ^ gr.k) :=
    decodeSym_eq_ok.mpr ⟨hk.le, by simp, by
      rw [List.take_left' (by simp), ofBits_toBits hr]⟩
  have hmul : mulU32 (n / 2 ^ gr.k % 2 ^ 32) (2 ^ gr.k) = .ok (n / 2 ^ gr.k * 2 ^ gr.k) := by
    rw [Nat.mod_eq_of_lt hq]
    exact mulU32_eq_ok.mpr ⟨by omega, rfl⟩
  have hadd : addU32 (n / 2 ^ gr.k * 2 ^ gr.k) (n % 2 ^ gr.k) = .ok n :=
    addU32_eq_ok.mpr ⟨by omega, hdiv⟩
  unfold decodeSym
  refine Res.bind_eq_ok.mpr ⟨_, shlU32_one_eq_ok.mpr ⟨hk, rfl⟩, ?_⟩
  rw [List.append_assoc, findIdx?_unary, ← List.append_assoc]
  refine Res.bind_eq_ok.mpr ⟨_, hslice, Res.bind_eq_ok.mpr ⟨_, hlow, ?_⟩⟩
  refine Res.bind_eq_ok.mpr ⟨_, hmul, Res.bind_eq_ok.mpr ⟨_, hadd, ?_⟩⟩
  simp [pure, Except.pure]

theorem length_pos_of_encodeSym {gr : GolombRice} {n : ℕ} {bits : Bits}
    (h : gr.encodeSym n = .ok bits) : 0 < bits.length := by
  obtain ⟨_, rfl⟩ := encodeSym_eq_ok h
  simp

/-! ## Section 2: The best parameter for a histogram -/

/-- Encoded bits of a histogram's symbols under parameter `k` -/
def encodedSize (hits : List (ℕ × ℕ)) (k : ℕ) : Res ℕ := do
  let sizes ← hits.mapM fun nc => do
    let bits ← Hist.unwrap (encodeSym ⟨k⟩ nc.1)
    pure (nc.2 * bits.length)
  pure sizes.sum

/-- The smaller of two `(size, k)` pairs in lexicographic order -/
def minSizeK (a b : ℕ × ℕ) : ℕ × ℕ :=
  if b.1 < a.1 ∨ (b.1 = a.1 ∧ b.2 < a.2) then b else a

/-- `GolombRice::from_hist` -/
def fromHist (hist : Hist) : Res GolombRice := do
  let bound ← hist.bound
  let bound := bound % 2 ^ 32
  if bound = 0 then pure ⟨0⟩
  else do
    -- `32 - (bound-1).leading_zeros()`
    let width := (bound - 1).size
    let hits ← hist.iter
    let sizes ← (List.range (width + 1)).mapM fun k => do
      let size ← encodedSize hits k
      pure (size, k)
    match sizes with
    | [] => panic .unwrapNone
    | first :: others => pure ⟨(others.foldl minSizeK first).2⟩

end GolombRice

/-! ## Section 3: Codes composed with a mapping -/

/-- `struct BijectEncoder<GolombRice, Hist>` -/
structure BijectEncoder where
  encoder : GolombRice
  bijecter : Hist
  deriving Repr, DecidableEq

namespace BijectEncoder

/-- `BijectEncoder::encode_sym` -/
def encodeSym (be : BijectEncoder) (n : ℕ) : Res Bits := do
  let c ← be.bijecter.mapEncode n
  be.encoder.encodeSym c

/-- `BijectEncoder::decode_sym` -/
def decodeSym (be : BijectEncoder) (bits : Bits) : Res (ℕ × ℕ) := do
  let (n, diff) ← be.encoder.decodeSym bits
  let sym ← be.bijecter.mapDecode n
  pure (sym, diff)

theorem encodeSym_eq_ok {be : BijectEncoder} {n : ℕ} {bits : Bits} :
    be.encodeSym n = .ok bits ↔
      ∃ c, be.bijecter.mapEncode n = .ok c ∧ be.encoder.encodeSym c = .ok bits :=
  Res.bind_eq_ok

/-- A mapped code decodes to the symbol it was made from, whatever follows it. -/
theorem decodeSym_encodeSym {be : BijectEncoder} {n : ℕ} {bits : Bits} (hn : n < 2 ^ 32)
    (h : be.encodeSym n = .ok bits) (rest : Bits) :
    be.decodeSym (bits ++ rest) = .ok (n, bits.length) := by
  obtain ⟨c, hmap, hcode⟩ := encodeSym_eq_ok.mp h
  have hc : c < 2 ^ 32 := Hist.mapEncode_lt hn hmap
  have hrice := GolombRice.decodeSym_encodeSym hc hcode rest
  have hback := Hist.mapDecode_of_mapEncode hmap
  simp [decodeSym, bind, Except.bind, hrice, hback, pure, Except.pure]

theorem length_pos_of_encodeSym {be : BijectEncoder} {n : ℕ} {bits : Bits}
    (h : be.encodeSym n = .ok bits) : 0 < bits.length := by
  obtain ⟨_, _, hcode⟩ := encodeSym_eq_ok.mp h
  exact GolombRice.length_pos_of_encodeSym hcode

end BijectEncoder

end BentoLinker.Glz
