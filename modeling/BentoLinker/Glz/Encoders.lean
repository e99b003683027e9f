import BentoLinker.Glz.Leb128

/-!
# GLZ Encoders

The traits `SymEncode`, `Encode` and `GranularEncode` of `bits.rs`, for the symbol encoders of the
crate.

- `Encoder`: fixed-width symbols, Rice codes, LEB128, and each of them behind a histogram
- `Encoder.encode`, `Encoder.decode`: streams of symbols
- `Encoder.encodeAll`, `Encoder.decodeAll`: slices in one blob, with their offsets
- `encoders_round_trip`: streams come back unless they have no bits, slices always
-/

namespace BentoLinker.Glz

open BitCode FallibleFold

/-! ## Section 1: Symbols -/

/-- `map_decode` of a histogram, at any symbol type -/
def Hist.mapDecodeAs {U : Type} [Sym U] (h : Hist) (n : U) : Res U :=
  match h.table with
  | some (_, table) => do cast U (← Hist.lookup table (Sym.toU32 n))
  | none => pure n

/-- `map_encode` of a histogram, at any symbol type -/
def Hist.mapEncodeAs {U : Type} [Sym U] (h : Hist) (n : U) : Res U :=
  match h.table with
  | some (table, _) => do
    let newn ← cast U (← Hist.lookup table (Sym.toU32 n))
    let oldn ← h.mapDecodeAs newn
    ensure (Sym.toU32 oldn = Sym.toU32 n) .undecodable
    pure newn
  | none => pure n

/-- The types with `SymEncode` -/
inductive Encoder where
  /-- `usize` -/
  | width (w : ℕ)
  | rice (gr : GolombRice)
  | leb128
  /-- `BijectEncoder` -/
  | biject (encoder : Encoder) (bijecter : Hist)

namespace Encoder

/-- `SymEncode::encode_sym` -/
def encodeSym {U : Type} [Sym U] : Encoder → U → Res Bits
  | width w, n => Glz.encodeSym (Sym.size U) w (Sym.toU32 n)
  | rice gr, n => gr.encodeSym (Sym.toU32 n)
  | leb128, n => LEB128.encodeSym n
  | biject encoder bijecter, n => do encoder.encodeSym (← bijecter.mapEncodeAs n)

/-- `SymEncode::decode_sym` -/
def decodeSym (U : Type) [Sym U] : Encoder → Bits → Res (U × ℕ)
  | width w, bits => do
    let n ← Glz.decodeSym (Sym.size U) w bits
    return (← cast U n, w)
  | rice gr, bits => do
    let (n, diff) ← gr.decodeSym bits
    return (← cast U n, diff)
  | leb128, bits => LEB128.decodeSym U bits
  | biject encoder bijecter, bits => do
    let (n, diff) ← encoder.decodeSym U bits
    return (← bijecter.mapDecodeAs n, diff)

/-! ## Section 2: Streams and slices -/

section Streams

variable (U : Type) [Sym U] (e : Encoder)

/-- `decode_sym_at` -/
def decodeSymAt (bits : Bits) (off : ℕ) : Res (U × ℕ) := do
  e.decodeSym U (← sliceFrom bits off)

/-- The loop of `decode`. A symbol that takes no bits is met again and again. -/
def decodeLoop (bits : Bits) : ℕ → ℕ → List U → Res (List U)
  | 0, _, _ => .error .outOfFuel
  | fuel + 1, off, words =>
    if off < bits.length then do
      let (n, diff) ← e.decodeSymAt U bits off
      decodeLoop bits fuel (off + diff) (words ++ [n])
    else pure words

/-- `Encode::decode` -/
def decode (bits : Bits) : Res (List U) := e.decodeLoop U bits (bits.length + 1) 0 []

/-- The loop of `decode_at`, for the symbols that are left -/
def decodeAtLoop (bits : Bits) : ℕ → ℕ → List U → Res (List U)
  | 0, _, words => pure words
  | left + 1, off, words => do
    let (n, diff) ← e.decodeSymAt U bits off
    decodeAtLoop bits left (off + diff) (words ++ [n])

/-- `GranularEncode::decode_at` -/
def decodeAt (bits : Bits) (off len : ℕ) : Res (List U) := e.decodeAtLoop U bits len off []

/-- `GranularEncode::decode_all` -/
def decodeAll (bits : Bits) (offs : List (ℕ × ℕ)) : Res (List (List U)) :=
  offs.mapM fun range => e.decodeAt U bits range.1 range.2

variable {U}

/-- `Encode::encode` -/
def encode (bytes : List U) : Res Bits := encodeSyms e.encodeSym bytes

/-- Where slices begin, and how many symbols they have -/
def ranges : ℕ → List (Bits × List U) → List (ℕ × ℕ)
  | _, [] => []
  | off, (bits, slice) :: rest =>
    (off + bits.length - bits.length, slice.length) :: ranges (off + bits.length) rest

/-- `GranularEncode::encode_all` -/
def encodeAll (slices : List (List U)) : Res (Bits × List (ℕ × ℕ)) := do
  let bits ← slices.mapM e.encode
  return (bits.flatten, ranges 0 (bits.zip slices))

end Streams

/-! ## Section 3: Round trips -/

variable {U : Type} [Sym U] {e : Encoder}

/-- The assertion in `map_encode`, at any symbol type -/
theorem mapDecodeAs_of_mapEncodeAs {h : Hist} {n c : U} (henc : h.mapEncodeAs n = .ok c) :
    h.mapDecodeAs c = .ok n := by
  rw [Hist.mapEncodeAs] at henc
  split at henc
  · obtain ⟨newn, -, henc⟩ := bind_ok.mp henc
    obtain ⟨newn', -, henc⟩ := bind_ok.mp henc
    obtain ⟨oldn, hdec, henc⟩ := bind_ok.mp henc
    obtain ⟨_, hens, hpure⟩ := bind_ok.mp henc
    cases hpure
    rw [ensure_eq_ok, decide_eq_true_eq] at hens
    have heq := Sym.tryFrom_toU32 oldn
    rw [hens, Sym.tryFrom_toU32, Option.some_inj] at heq
    rw [hdec, heq]
  · next hnone =>
    cases henc
    rw [Hist.mapDecodeAs, hnone]
    rfl

/-- A symbol is read back, whatever follows it. -/
theorem decodeSym_encodeSym {x : U} {code : Bits} (h : e.encodeSym x = .ok code) (rest : Bits) :
    e.decodeSym U (code ++ rest) = .ok (x, code.length) := by
  have hx : Sym.toU32 x < 2 ^ 32 :=
    (Sym.toU32_lt x).trans_le (Nat.pow_le_pow_right (by decide) Sym.size_le)
  induction e generalizing x with
  | width w =>
    have hcode := Glz.decodeSym_encodeSym hx h rest
    obtain ⟨-, -, rfl⟩ := Glz.encodeSym_eq_ok.mp h
    refine bind_ok.mpr ⟨_, hcode, bind_ok.mpr ⟨x, cast_toU32 x, ?_⟩⟩
    rw [length_toBits]
    rfl
  | rice gr =>
    refine bind_ok.mpr ⟨_, GolombRice.decodeSym_encodeSym hx h rest, ?_⟩
    exact bind_ok.mpr ⟨x, cast_toU32 x, rfl⟩
  | leb128 =>
    obtain ⟨code', hcode', hdecode⟩ := LEB128.decodeSym_encodeSym x rest
    change LEB128.encodeSym x = .ok code at h
    rw [h] at hcode'
    cases hcode'
    exact hdecode
  | biject encoder bijecter ih =>
    obtain ⟨c, hmap, hcode⟩ := bind_ok.mp h
    have hc : Sym.toU32 c < 2 ^ 32 :=
      (Sym.toU32_lt c).trans_le (Nat.pow_le_pow_right (by decide) Sym.size_le)
    refine bind_ok.mpr ⟨_, ih hcode hc, ?_⟩
    exact bind_ok.mpr ⟨x, mapDecodeAs_of_mapEncodeAs hmap, rfl⟩

theorem decodeSymAt_code {x : U} {code : Bits} (h : e.encodeSym x = .ok code) (pre rest : Bits) :
    e.decodeSymAt U (pre ++ (code ++ rest)) pre.length = .ok (x, code.length) := by
  have hslice : sliceFrom (pre ++ (code ++ rest)) pre.length = .ok (code ++ rest) := by
    refine sliceFrom_eq_ok.mpr ⟨?_, List.drop_left⟩
    rw [List.length_append]
    exact Nat.le_add_right _ _
  exact bind_ok.mpr ⟨_, hslice, decodeSym_encodeSym h rest⟩

/-- As many symbols as there are codes -/
theorem decodeAtLoop_codes {xs : List U} {codes : List Bits}
    (h : List.Forall₂ (fun x code => e.encodeSym x = .ok code) xs codes) (pre rest : Bits)
    (words : List U) :
    e.decodeAtLoop U (pre ++ (codes.flatten ++ rest)) xs.length pre.length words =
      .ok (words ++ xs) := by
  induction h generalizing pre words with
  | nil =>
    rw [List.append_nil]
    rfl
  | @cons x code xs codes hx _ ih =>
    have hih := ih (pre ++ code) (words ++ [x])
    rw [List.length_append, List.append_assoc, List.append_assoc, List.singleton_append] at hih
    rw [List.flatten_cons, List.append_assoc, List.length_cons]
    exact bind_ok.mpr ⟨_, decodeSymAt_code hx pre _, hih⟩

/-- Symbols until the bits end, if each of them takes some -/
theorem decodeLoop_codes {xs : List U} {codes : List Bits}
    (h : List.Forall₂ (fun x code => e.encodeSym x = .ok code) xs codes)
    (hne : ∀ code ∈ codes, code ≠ []) (pre : Bits) (words : List U) {fuel : ℕ}
    (hfuel : codes.flatten.length < fuel) :
    e.decodeLoop U (pre ++ codes.flatten) fuel pre.length words = .ok (words ++ xs) := by
  induction h generalizing pre words fuel with
  | nil =>
    obtain ⟨fuel, rfl⟩ := Nat.exists_eq_add_one_of_ne_zero (Nat.ne_of_gt hfuel)
    rw [decodeLoop, List.flatten_nil, List.append_nil, if_neg (Nat.lt_irrefl _), List.append_nil]
    rfl
  | @cons x code xs codes hx _ ih =>
    have hpos : 0 < code.length := List.length_pos_iff.mpr (hne code List.mem_cons_self)
    rw [List.flatten_cons, List.length_append] at hfuel
    obtain ⟨fuel, rfl⟩ := Nat.exists_eq_add_one_of_ne_zero (show fuel ≠ 0 by omega)
    have hlt : pre.length < (pre ++ (code :: codes).flatten).length := by
      rw [List.length_append, List.flatten_cons, List.length_append]
      omega
    have hih := ih (fun code' hcode' => hne code' (List.mem_cons_of_mem _ hcode')) (pre ++ code)
      (words ++ [x]) (show codes.flatten.length < fuel by omega)
    rw [List.length_append, List.append_assoc, List.append_assoc, List.singleton_append] at hih
    rw [decodeLoop, if_pos hlt, List.flatten_cons]
    exact bind_ok.mpr ⟨_, decodeSymAt_code hx pre _, hih⟩

/-- With a symbol that takes no bits, no other one has a code. -/
theorem code_eq_nil {x y : U} {code : Bits} (hx : e.encodeSym x = .ok [])
    (hy : e.encodeSym y = .ok code) : code = [] := by
  have hread := decodeSym_encodeSym hy []
  have hempty := decodeSym_encodeSym hx (code ++ [])
  rw [List.nil_append, hread] at hempty
  exact List.length_eq_zero_iff.mp (congrArg Prod.snd (Except.ok.inj hempty))

theorem exists_codes {xs : List U} {bits : Bits} (h : e.encode xs = .ok bits) :
    ∃ codes, List.Forall₂ (fun x code => e.encodeSym x = .ok code) xs codes ∧
      codes.flatten = bits := by
  obtain ⟨codes, hcodes, hpure⟩ := bind_ok.mp h
  exact ⟨codes, forall₂_of_mapM hcodes, Except.ok.inj hpure⟩

/-- A stream is read back unless it has symbols and no bits. -/
theorem decode_stream_iff {xs : List U} {bits : Bits} (h : e.encode xs = .ok bits) :
    e.decode U bits = .ok xs ↔ (bits = [] → xs = []) := by
  obtain ⟨codes, hcodes, rfl⟩ := exists_codes h
  constructor
  · intro hdecode hnil
    rw [hnil] at hdecode
    exact (Except.ok.inj hdecode).symm
  · intro hempty
    by_cases hne : ∀ code ∈ codes, code ≠ []
    · exact decodeLoop_codes hcodes hne [] [] (Nat.lt_succ_self _)
    · simp only [not_forall, not_not] at hne
      obtain ⟨code, hmem, rfl⟩ := hne
      obtain ⟨x, -, hx⟩ := exists_left_of_mem hcodes hmem
      have hall : codes.flatten = [] := by
        refine List.flatten_eq_nil_iff.mpr fun code hcode => ?_
        obtain ⟨y, -, hy⟩ := exists_left_of_mem hcodes hcode
        exact code_eq_nil hx hy
      rw [hempty hall, hall]
      rfl

/-- Slices are read back from where they begin. -/
theorem mapM_decodeAt {slices : List (List U)} {blobs : List Bits}
    (h : List.Forall₂ (fun slice blob => e.encode slice = .ok blob) slices blobs) (pre : Bits) :
    (ranges pre.length (blobs.zip slices)).mapM (fun range =>
      e.decodeAt U (pre ++ blobs.flatten) range.1 range.2) = .ok slices := by
  induction h generalizing pre with
  | nil => rfl
  | @cons slice blob slices blobs hslice _ ih =>
    obtain ⟨codes, hcodes, rfl⟩ := exists_codes hslice
    have hfirst := decodeAtLoop_codes hcodes pre blobs.flatten []
    have hrest := ih (pre ++ codes.flatten)
    rw [List.length_append, List.append_assoc] at hrest
    rw [List.zip_cons_cons, ranges, List.mapM_cons, List.flatten_cons, Nat.add_sub_cancel]
    exact bind_ok.mpr ⟨_, hfirst, bind_ok.mpr ⟨_, hrest, rfl⟩⟩

theorem decodeAll_encodeAll {slices : List (List U)} {bits : Bits} {offs : List (ℕ × ℕ)}
    (h : e.encodeAll slices = .ok (bits, offs)) : e.decodeAll U bits offs = .ok slices := by
  obtain ⟨blobs, hblobs, hpure⟩ := bind_ok.mp h
  cases hpure
  exact mapM_decodeAt (forall₂_of_mapM hblobs) []

/-- What has been encoded is decoded again: a stream just if it does not lose its length with its
bits, and slices in any case. -/
theorem encoders_round_trip (e : Encoder) (U : Type) [Sym U] :
    (∀ (xs : List U) bits, e.encode xs = .ok bits →
      (e.decode U bits = .ok xs ↔ (bits = [] → xs = []))) ∧
    ∀ (slices : List (List U)) bits offs, e.encodeAll slices = .ok (bits, offs) →
      e.decodeAll U bits offs = .ok slices :=
  ⟨fun _ _ => decode_stream_iff, fun _ _ _ => decodeAll_encodeAll⟩

end Encoder

end BentoLinker.Glz
