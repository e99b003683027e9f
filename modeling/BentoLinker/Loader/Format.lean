import BentoLinker.Glz.RoundTrip
import BentoLinker.Loader.Termination

/-!
# What a Blob Says

The code that stands at a position of a blob, whatever the blob is, and the two decoders
that read it.

- `codeAt`: a number in unary and `k` more bits, its nine-bit entry in the table at the front,
  and the nibbles of a reference
- `codeAt_of_parses`: the C decoder reads the same, as long as the number of the code does not
  overflow
- `decodeSymAt_eq_ok`: `decode_sym_at`, with all entries of the blob as its table, reads the
  same
-/

namespace BentoLinker.Loader

open BitCode Fueled
open Glz (GLZ GLZSym Hist)

/-! ## Section 1: Codes -/

/-- A code of the stream: a byte, or a reference with its length and the position it leads to.
Both have the position behind the code. -/
inductive Code where
  | literal (x next : ℕ)
  | reference (size target next : ℕ)
  deriving Repr, DecidableEq

/-- The position a reference leads to, as a `uint32_t` -/
def Code.wrap : Code → Code
  | .literal x next => .literal x next
  | .reference size target next => .reference size (target % 2 ^ 32) next

/-- The number of a code, and the bits it takes -/
def codeField (k : ℕ) : Bits → Option (ℕ × ℕ)
  | true :: rest => (codeField k rest).map fun p => (p.1 + 2 ^ k, p.2 + 1)
  | false :: rest => if k ≤ rest.length then some (ofBits (rest.take k), k + 1) else none
  | [] => none

/-- Entry `n` of the table, if it is complete -/
def entryAt (bits : Bits) (n : ℕ) : Option ℕ :=
  if 9 * n + 9 ≤ bits.length then some (ofBits ((bits.drop (9 * n)).take 9)) else none

/-- All complete entries -/
def entries (bits : Bits) : List ℕ :=
  (List.range (bits.length / 9)).map fun n => ofBits ((bits.drop (9 * n)).take 9)

/-- The nibbles of a reference, each with its continuation bit in front, added up in 32 bits:
what is shifted out is lost, an addition must not overflow -/
def offsetField : ℕ → Bits → Option (ℕ × ℕ)
  | arg, more :: b₃ :: b₂ :: b₁ :: b₀ :: rest =>
    let next := (arg <<< glzM) % 2 ^ 32 + 1 + ofBits [b₃, b₂, b₁, b₀]
    if 2 ^ 32 ≤ next then none
    else if more then (offsetField next rest).map fun p => (p.1, p.2 + 5)
    else some (next, 5)
  | _, _ => none

/-- The code at a position -/
def codeAt (k : ℕ) (bits : Bits) (off : ℕ) : Option Code := do
  let (n, d) ← codeField k (bits.drop off)
  let v ← entryAt bits n
  if v < 0x100 then pure (.literal v (off + d))
  else do
    let (arg, e) ← offsetField 0 (bits.drop (off + d))
    pure (.reference (v - 0x100 + 2) (off + d + e + (arg - 1)) (off + d + e))

theorem codeField_unary (k u : ℕ) {field : Bits} (hfield : field.length = k) (rest : Bits) :
    codeField k (unary u ++ (field ++ rest)) = some (u * 2 ^ k + ofBits field, u + 1 + k) := by
  induction u with
  | zero =>
    have hcons : unary 0 ++ (field ++ rest) = false :: (field ++ rest) := rfl
    rw [hcons, codeField, if_pos (by rw [List.length_append]; omega), List.take_left' hfield,
      Nat.zero_mul, Nat.zero_add, Nat.zero_add, Nat.add_comm 1 k]
  | succ u ih =>
    have hcons : unary (u + 1) ++ (field ++ rest) = true :: (unary u ++ (field ++ rest)) := by
      simp [unary, List.replicate_succ]
    rw [hcons, codeField, ih, Option.map_some, Nat.succ_mul]
    simp only [Option.some.injEq, Prod.mk.injEq]
    omega

theorem entryAt_lt {bits : Bits} {n v : ℕ} (h : entryAt bits n = some v) :
    9 * n + 9 ≤ bits.length ∧ v < 2 ^ 9 := by
  rw [entryAt] at h
  split at h
  · next hle =>
    cases h
    refine ⟨hle, (ofBits_lt _).trans_le ?_⟩
    exact Nat.pow_le_pow_right (by decide) (List.length_take_le _ _)
  · cases h

theorem codeAt_eq {k off n d v : ℕ} {bits : Bits}
    (hfield : codeField k (bits.drop off) = some (n, d)) (hentry : entryAt bits n = some v) :
    codeAt k bits off =
      if v < 0x100 then some (.literal v (off + d))
      else (offsetField 0 (bits.drop (off + d))).bind fun p =>
        some (.reference (v - 0x100 + 2) (off + d + p.2 + (p.1 - 1)) (off + d + p.2)) := by
  rw [codeAt, hfield]
  simp only [Option.bind_eq_bind, Option.bind_some, hentry]
  rfl

/-- A code stands inside the blob. -/
theorem lt_of_codeAt {k off : ℕ} {bits : Bits} {c : Code} (h : codeAt k bits off = some c) :
    off < bits.length := by
  by_contra hlong
  rw [codeAt, List.drop_eq_nil_of_le (by omega)] at h
  cases h

theorem offsetField_bounds {arg w e : ℕ} {S : Bits} (h : offsetField arg S = some (w, e)) :
    0 < w ∧ w < 2 ^ 32 := by
  fun_induction offsetField arg S generalizing w e with
  | case1 => cases h
  | case2 =>
    rename_i ih
    obtain ⟨⟨w', e'⟩, hrest, heq⟩ := Option.map_eq_some_iff.mp h
    cases heq
    exact ih hrest
  | case3 =>
    cases h
    omega
  | case4 => cases h

theorem getElem?_entries (bits : Bits) (n : ℕ) : (entries bits)[n]? = entryAt bits n := by
  rw [entries, entryAt, List.getElem?_map]
  split
  · rw [List.getElem?_range (by omega)]
    rfl
  · rw [List.getElem?_eq_none (by rw [List.length_range]; omega)]
    rfl

/-! ## Section 2: The C decoder -/

section Blob

variable {W k : ℕ} {blob : List UInt8}

theorem readBit_of_drop {off : ℕ} {b : Bool} {rest : Bits}
    (h : (unpackBytes blob).drop off = b :: rest) :
    readBit (readBlob blob) off () = .ok (b.toNat, ()) := by
  have hlen := congrArg List.length h
  rw [List.length_drop, length_unpackBytes, List.length_cons] at hlen
  have hbit := bit_packBytes h
  rw [packBytes_unpackBytes] at hbit
  rw [readBit_of_lt (by omega), hbit]

theorem readBit_of_drop_nil {off : ℕ} (h : (unpackBytes blob).drop off = []) :
    readBit (readBlob blob) off () = .error (.err (-einval)) := by
  have hlen := congrArg List.length h
  rw [List.length_drop, length_unpackBytes, List.length_nil] at hlen
  exact readBit_of_le (by omega)

/-- Positions inside the blob do not wrap around. -/
theorem next_of_drop {off : ℕ} {b : Bool} {rest : Bits} (hblob : blob.length < 2 ^ 29)
    (h : (unpackBytes blob).drop off = b :: rest) :
    (off + 1) % 2 ^ 32 = off + 1 ∧ (unpackBytes blob).drop (off + 1) = rest := by
  have hlen := congrArg List.length h
  rw [List.length_drop, length_unpackBytes, List.length_cons] at hlen
  refine ⟨Nat.mod_eq_of_lt (by omega), ?_⟩
  rw [← List.drop_drop, h]
  rfl

theorem unary_of_riceUnary {fuel off rice m q : ℕ} (hblob : blob.length < 2 ^ 29)
    (hrice : rice < 2 ^ W)
    (h : riceUnary W (readBlob blob) fuel off rice () = .ok ((m, q), ())) :
    ∃ u rest, (unpackBytes blob).drop off = unary u ++ rest ∧ m = (rice + u) % 2 ^ W ∧
      q = off + (u + 1) := by
  induction fuel generalizing off rice with
  | zero => cases h
  | succ fuel ih =>
    rw [riceUnary_succ] at h
    cases hdrop : (unpackBytes blob).drop off with
    | nil =>
      rw [bind_of_error (readBit_of_drop_nil hdrop)] at h
      cases h
    | cons b rest =>
      obtain ⟨hnext, hrest⟩ := next_of_drop hblob hdrop
      rw [bind_of_ok (readBit_of_drop hdrop), hnext] at h
      cases b with
      | false =>
        cases h
        exact ⟨0, rest, rfl, (Nat.mod_eq_of_lt hrice).symm, rfl⟩
      | true =>
        obtain ⟨u, rest', hu, rfl, rfl⟩ := ih (Nat.mod_lt _ (Nat.two_pow_pos W)) h
        refine ⟨u + 1, rest', ?_, ?_, by omega⟩
        · rw [← hrest, hu, unary, unary, List.replicate_succ]
          rfl
        · rw [Nat.mod_add_mod]
          congr 1
          omega

theorem field_of_readBits {width count off n m q : ℕ} (hblob : blob.length < 2 ^ 29)
    (hn : n < 2 ^ width)
    (h : readBits (readBlob blob) width count off n () = .ok ((m, q), ())) :
    ∃ field rest, (unpackBytes blob).drop off = field ++ rest ∧ field.length = count ∧
      m = (n * 2 ^ count + ofBits field) % 2 ^ width ∧ q = off + count := by
  induction count generalizing off n with
  | zero =>
    cases h
    refine ⟨[], _, rfl, rfl, ?_, rfl⟩
    rw [pow_zero, Nat.mul_one, ofBits_nil, Nat.add_zero, Nat.mod_eq_of_lt hn]
  | succ count ih =>
    rw [readBits] at h
    cases hdrop : (unpackBytes blob).drop off with
    | nil =>
      rw [bind_of_error (readBit_of_drop_nil hdrop)] at h
      cases h
    | cons b rest =>
      obtain ⟨hnext, hrest⟩ := next_of_drop hblob hdrop
      have hor : (n <<< 1 ||| b.toNat) = 2 * n + b.toNat := by
        rw [Nat.shiftLeft_eq, Nat.mul_comm]
        exact (Nat.two_pow_add_eq_or_of_lt (i := 1) (Bool.toNat_lt b) n).symm
      rw [bind_of_ok (readBit_of_drop hdrop), hnext, hor] at h
      obtain ⟨field, rest', hfield, rfl, rfl, rfl⟩ :=
        ih (Nat.mod_lt _ (Nat.two_pow_pos width)) h
      refine ⟨b :: field, rest', ?_, rfl, ?_, by omega⟩
      · rw [← hrest, hfield]
        rfl
      · rw [ofBits_cons, pow_succ, ← Nat.add_assoc]
        rw [Nat.add_mod, Nat.mod_mul_mod, ← Nat.add_mod]
        congr 2
        ring

theorem entryAt_of_mapTable {n v : ℕ} (hn : 9 * n < 2 ^ max W 32)
    (h : mapTable W (readBlob blob) n () = .ok (v, ())) :
    entryAt (unpackBytes blob) n = some v := by
  rw [mapTable, Nat.mod_eq_of_lt hn] at h
  rcases Nat.lt_or_ge (9 * n / 8 + 1) blob.length with hlt | hge
  · have hread : readBlob blob (9 * n / 8) 2 = pure ((blob.drop (9 * n / 8)).take 2) := by
      rw [readBlob, if_neg (by omega)]
    have hbound : 9 * n + 9 ≤ (unpackBytes blob).length := by
      rw [length_unpackBytes]
      omega
    have hget : ∀ i, i < 2 → ((blob.drop (9 * n / 8)).take 2).getD i 0 =
        blob.getD (9 * n / 8 + i) 0 := by
      intro i hi
      rw [List.getD_eq_getElem?_getD, List.getElem?_take_of_lt hi, List.getElem?_drop,
        List.getD_eq_getElem?_getD]
    have hwindow := window_packBytes hbound
    rw [packBytes_unpackBytes] at hwindow
    rw [hread, pure_bind, hget 0 two_pos, hget 1 one_lt_two, Nat.add_zero, hwindow] at h
    cases h
    rw [entryAt, if_pos hbound]
  · have hread : readBlob blob (9 * n / 8) 2 = throw (.err (-einval)) := by
      rw [readBlob, if_pos (by omega)]
    rw [hread] at h
    cases h

/-- The value of a nibble with its continuation bit -/
theorem nibble_eq {field : Bits} (h : field.length = 5) :
    ∃ more b₃ b₂ b₁ b₀, field = [more, b₃, b₂, b₁, b₀] ∧
      ofBits field = more.toNat * 16 + ofBits [b₃, b₂, b₁, b₀] ∧
      ofBits [b₃, b₂, b₁, b₀] < 16 := by
  match field, h with
  | [more, b₃, b₂, b₁, b₀], _ =>
    exact ⟨more, b₃, b₂, b₁, b₀, rfl, ofBits_cons _ _, ofBits_lt [b₃, b₂, b₁, b₀]⟩

theorem offLoop_agrees {fuel off arg v q w e : ℕ} (hblob : blob.length < 2 ^ 29)
    (h : offLoop (readBlob blob) fuel off arg () = .ok ((v, q), ()))
    (hfield : offsetField arg ((unpackBytes blob).drop off) = some (w, e)) :
    v = w ∧ q = off + e := by
  induction fuel generalizing off arg w e with
  | zero => cases h
  | succ fuel ih =>
    rw [offLoop_succ] at h
    obtain ⟨⟨⟨n, q'⟩, ⟨⟩⟩, hbits, h⟩ := eq_ok_of_bind h
    obtain ⟨field, rest, hdrop, hlen, rfl, rfl⟩ :=
      field_of_readBits hblob (Nat.two_pow_pos 32) hbits
    obtain ⟨more, b₃, b₂, b₁, b₀, rfl, hvalue, hlow⟩ := nibble_eq hlen
    rw [hdrop] at hfield
    have hn : (0 * 2 ^ (glzM + 1) + ofBits [more, b₃, b₂, b₁, b₀]) % 2 ^ 32 =
        more.toNat * 16 + ofBits [b₃, b₂, b₁, b₀] := by
      have hmore := Bool.toNat_le more
      rw [Nat.zero_mul, Nat.zero_add, hvalue, Nat.mod_eq_of_lt (by omega)]
    set low := ofBits [b₃, b₂, b₁, b₀] with hlowdef
    have hand : (more.toNat * 16 + low) &&& (1 <<< glzM) - 1 = low := by
      change (more.toNat * 16 + low) &&& 2 ^ 4 - 1 = low
      rw [Nat.and_two_pow_sub_one_eq_mod]
      omega
    dsimp only at h
    rw [hn, hand] at h
    simp only [List.cons_append, List.nil_append, offsetField, ← hlowdef] at hfield
    split at hfield
    · cases hfield
    · next hfits =>
      have hnext : ((arg <<< glzM) + 1 + low) % 2 ^ 32 =
          (arg <<< glzM) % 2 ^ 32 + 1 + low := by omega
      rw [hnext] at h
      cases more with
      | false =>
        rw [if_pos (show Bool.toNat false * 16 + low < 1 <<< glzM by
          rw [Bool.toNat_false, Nat.zero_mul, Nat.zero_add]; exact hlow)] at h
        cases h
        cases hfield
        exact ⟨rfl, rfl⟩
      | true =>
        rw [if_neg (show ¬ Bool.toNat true * 16 + low < 1 <<< glzM by
          rw [Bool.toNat_true, Nat.one_mul]; exact Nat.not_lt.mpr (Nat.le_add_right 16 low))]
          at h
        rw [if_pos rfl] at hfield
        obtain ⟨⟨w', e'⟩, hmore, heq⟩ := Option.map_eq_some_iff.mp hfield
        cases heq
        have hrest : (unpackBytes blob).drop (off + (glzM + 1)) = rest := by
          rw [← List.drop_drop, hdrop]
          rfl
        obtain ⟨hv, hq⟩ := ih h (hrest ▸ hmore)
        exact ⟨hv, by rw [hq, Nat.add_assoc, Nat.add_comm e']; rfl⟩

/-- The number of the code at a position, and its place in the table, fit their types. -/
def FitsAt (W k : ℕ) (bits : Bits) (off : ℕ) : Prop :=
  ∀ n d, codeField k (bits.drop off) = some (n, d) → n < 2 ^ W ∧ 9 * n < 2 ^ max W 32

/-- What the C decoder makes of a code -/
def Parsed.code : Parsed → Code
  | .literal x off => .literal x off
  | .reference nsize noff off => .reference nsize ((off + noff) % 2 ^ 32) off

/-- The C decoder finds a complete code with an entry, and reads all of it but perhaps its
offset as it stands there. -/
theorem parses_cases {off : ℕ} {p : Parsed} (hblob : blob.length < 2 ^ 29)
    (hfits : FitsAt W k (unpackBytes blob) off) (h : Parses W k blob off p) :
    ∃ n d v, codeField k ((unpackBytes blob).drop off) = some (n, d) ∧
      entryAt (unpackBytes blob) n = some v ∧
      (v < 0x100 ∧ p = .literal v (off + d) ∨
        0x100 ≤ v ∧ ∃ noff q, p = .reference (v - 0x100 + 2) noff q ∧
          ∀ arg e, offsetField 0 ((unpackBytes blob).drop (off + d)) = some (arg, e) →
            noff = (arg + 2 ^ 32 - 1) % 2 ^ 32 ∧ q = off + d + e) := by
  obtain ⟨fuel, h⟩ := h
  obtain ⟨⟨⟨v₀, q⟩, ⟨⟩⟩, hsym, h⟩ := eq_ok_of_bind h
  obtain ⟨⟨⟨m, q₁⟩, ⟨⟩⟩, hunary, hsym⟩ := eq_ok_of_bind hsym
  obtain ⟨⟨⟨m', q₂⟩, ⟨⟩⟩, hbits, hsym⟩ := eq_ok_of_bind hsym
  obtain ⟨⟨v, ⟨⟩⟩, hentry, hsym⟩ := eq_ok_of_bind hsym
  cases hsym
  obtain ⟨u, rest, hdrop, rfl, rfl⟩ := unary_of_riceUnary hblob (Nat.two_pow_pos W) hunary
  obtain ⟨field, rest', hdrop', hlen, rfl, rfl⟩ :=
    field_of_readBits hblob (Nat.mod_lt _ (Nat.two_pow_pos W)) hbits
  have hrest : rest = field ++ rest' := by
    rw [← hdrop', ← List.drop_drop, hdrop, List.drop_left' (length_unary u)]
  have hcode := codeField_unary k u hlen rest'
  rw [← hrest, ← hdrop] at hcode
  obtain ⟨hn, hplace⟩ := hfits _ _ hcode
  -- the number, built up in `W` bits, is the one that stands there
  have hnumber : ((0 + u) % 2 ^ W * 2 ^ k + ofBits field) % 2 ^ W =
      u * 2 ^ k + ofBits field := by
    rw [Nat.zero_add, Nat.add_mod, Nat.mod_mul_mod, ← Nat.add_mod, Nat.mod_eq_of_lt hn]
  dsimp only at hentry
  rw [hnumber] at hentry
  have hentry := entryAt_of_mapTable hplace hentry
  have hnext : off + (u + 1) + k = off + (u + 1 + k) := Nat.add_assoc _ _ _
  refine ⟨_, _, v, hcode, hentry, ?_⟩
  dsimp only at h
  rw [hnext] at h
  split at h
  · next hv =>
    cases h
    exact .inl ⟨hv, rfl⟩
  · next hv =>
    obtain ⟨⟨⟨arg', q'⟩, ⟨⟩⟩, hoff, h⟩ := eq_ok_of_bind h
    cases h
    have hv' := (entryAt_lt hentry).2
    have hand : v &&& 0xff = v - 0x100 := by
      change v &&& 2 ^ 8 - 1 = _
      rw [Nat.and_two_pow_sub_one_eq_mod]
      omega
    refine .inr ⟨by omega, _, _, by rw [hand], fun arg e hfield => ?_⟩
    obtain ⟨rfl, rfl⟩ := offLoop_agrees hblob hoff hfield
    exact ⟨rfl, rfl⟩

/-- The C decoder reads a code as it stands there, with the position it leads to in 32 bits. -/
theorem code_of_parses {off : ℕ} {p : Parsed} {c : Code} (hblob : blob.length < 2 ^ 29)
    (hfits : FitsAt W k (unpackBytes blob) off) (h : Parses W k blob off p)
    (hc : codeAt k (unpackBytes blob) off = some c) : p.code = c.wrap := by
  obtain ⟨n, d, v, hfield, hentry, hcases⟩ := parses_cases hblob hfits h
  rw [codeAt_eq hfield hentry] at hc
  rcases hcases with ⟨hv, rfl⟩ | ⟨hv, noff, q, rfl, hread⟩
  · rw [if_pos hv] at hc
    cases hc
    rfl
  · rw [if_neg (Nat.not_lt.mpr hv)] at hc
    obtain ⟨⟨arg, e⟩, hoffset, hc⟩ := Option.bind_eq_some_iff.mp hc
    cases hc
    obtain ⟨hpos, hlt⟩ := offsetField_bounds hoffset
    obtain ⟨hnoff, rfl⟩ := hread arg e hoffset
    have hwrap : (arg + 2 ^ 32 - 1) % 2 ^ 32 = arg - 1 := by omega
    rw [Parsed.code, hnoff, hwrap]
    rfl

end Blob

/-! ## Section 3: The decoder of the codec -/

theorem eq_unary_of_findIdx? {S : Bits} {u : ℕ} (h : S.findIdx? (· == false) = some u) :
    S = unary u ++ S.drop (u + 1) := by
  induction S generalizing u with
  | nil => cases h
  | cons b S ih =>
    rw [List.findIdx?_cons] at h
    cases b with
    | false =>
      cases h
      rfl
    | true =>
      obtain ⟨v, hv, rfl⟩ := Option.map_eq_some_iff.mp h
      have hcons : unary (v + 1) ++ (true :: S).drop (v + 1 + 1) =
          true :: (unary v ++ S.drop (v + 1)) := by
        simp [unary, List.replicate_succ]
      rw [hcons, ← ih hv]

theorem codeField_of_findIdx? {k : ℕ} {S : Bits} (h : S.findIdx? (· == false) = none) :
    codeField k S = none := by
  induction S with
  | nil => rfl
  | cons b S ih =>
    rw [List.findIdx?_cons] at h
    cases b with
    | false => cases h
    | true => rw [codeField, ih (Option.map_eq_none_iff.mp h), Option.map_none]

theorem codeField_short {k : ℕ} {rest : Bits} (h : rest.length < k) (u : ℕ) :
    codeField k (unary u ++ rest) = none := by
  induction u with
  | zero => exact if_neg (Nat.not_le.mpr h)
  | succ u ih =>
    have hcons : unary (u + 1) ++ rest = true :: (unary u ++ rest) := by
      simp [unary, List.replicate_succ]
    rw [hcons, codeField, ih, Option.map_none]

theorem rice_decodeSym_eq_ok {k n d : ℕ} {S : Bits} (hk : k < 32) (hS : S.length < 2 ^ 32) :
    Glz.GolombRice.decodeSym ⟨k⟩ S = .ok (n, d) ↔
      codeField k S = some (n, d) ∧ n < 2 ^ 32 := by
  rw [Glz.GolombRice.decodeSym]
  cases hidx : S.findIdx? (· == false) with
  | none =>
    refine ⟨fun h => ?_, fun h => ?_⟩
    · obtain ⟨_, -, h⟩ := Glz.Res.bind_eq_ok.mp h
      cases h
    · rw [codeField_of_findIdx? hidx] at h
      cases h.1
  | some u =>
    have hsplit := eq_unary_of_findIdx? hidx
    have hlen := congrArg List.length hsplit
    rw [List.length_append, length_unary] at hlen
    generalize S.drop (u + 1) = rest at hsplit hlen
    subst hsplit
    have hslice : Glz.sliceFrom (unary u ++ rest) (u + 1) = .ok rest :=
      Glz.sliceFrom_eq_ok.mpr ⟨by rw [hlen]; omega, List.drop_left' (length_unary u)⟩
    simp only [Glz.Res.bind_eq_ok, Glz.GolombRice.shlU32_one_eq_ok, hslice,
      Glz.decodeSym_eq_ok, Glz.mulU32_eq_ok, Glz.addU32_eq_ok]
    rw [Nat.mod_eq_of_lt (show u < 2 ^ 32 by omega)]
    refine ⟨?_, ?_⟩
    · rintro ⟨_, ⟨-, rfl⟩, _, ⟨⟩, _, ⟨-, hk', rfl⟩, _, ⟨-, rfl⟩, _, ⟨hlt, rfl⟩, h⟩
      cases h
      have hfield : (rest.take k).length = k := by
        rw [List.length_take]
        omega
      refine ⟨?_, hlt⟩
      have hcode := codeField_unary k u hfield (rest.drop k)
      rwa [List.take_append_drop] at hcode
    · rintro ⟨hcode, hlt⟩
      have hk' : k ≤ rest.length := by
        by_contra hshort
        rw [codeField_short (Nat.not_le.mp hshort)] at hcode
        cases hcode
      have hfield : (rest.take k).length = k := by
        rw [List.length_take]
        omega
      have hcode' := codeField_unary k u hfield (rest.drop k)
      rw [List.take_append_drop, hcode] at hcode'
      cases hcode'
      exact ⟨_, ⟨hk, rfl⟩, _, rfl, _, ⟨hk.le, hk', rfl⟩, _, ⟨by omega, rfl⟩, _, ⟨hlt, rfl⟩, rfl⟩

theorem decodeOff_nibble {S rest : Bits} {fuel off arg : ℕ} {more b₃ b₂ b₁ b₀ : Bool}
    (hdrop : S.drop off = [more, b₃, b₂, b₁, b₀] ++ rest) :
    GLZ.decodeOff glzM S (fuel + 1) off arg =
      if 2 ^ 32 ≤ (arg <<< glzM) % 2 ^ 32 + 1 + ofBits [b₃, b₂, b₁, b₀] then
        Glz.panic .arithmetic
      else if more then GLZ.decodeOff glzM S fuel (off + 5)
        ((arg <<< glzM) % 2 ^ 32 + 1 + ofBits [b₃, b₂, b₁, b₀])
      else .ok ((arg <<< glzM) % 2 ^ 32 + 1 + ofBits [b₃, b₂, b₁, b₀], off + 5) := by
  have hlen := congrArg List.length hdrop
  simp only [List.length_drop, List.length_append, List.length_cons] at hlen
  have hslice : Glz.sliceFrom S off = .ok ([more, b₃, b₂, b₁, b₀] ++ rest) :=
    Glz.sliceFrom_eq_ok.mpr ⟨by omega, hdrop⟩
  have hdec : Glz.decodeSym 32 (glzM + 1) ([more, b₃, b₂, b₁, b₀] ++ rest) =
      .ok (more.toNat * 16 + ofBits [b₃, b₂, b₁, b₀]) :=
    Glz.decodeSym_eq_ok.mpr ⟨by decide, by simp [glzM], ofBits_cons _ _⟩
  have hlow : ofBits [b₃, b₂, b₁, b₀] < 16 := ofBits_lt [b₃, b₂, b₁, b₀]
  have hand : (more.toNat * 16 + ofBits [b₃, b₂, b₁, b₀]) &&& 2 ^ glzM - 1 =
      ofBits [b₃, b₂, b₁, b₀] := by
    rw [Nat.and_two_pow_sub_one_eq_mod]
    change _ % 16 = _
    omega
  have hmod : (arg <<< glzM) % 2 ^ 32 + 1 < 2 ^ 32 := by
    rw [Nat.shiftLeft_eq]
    change arg * 16 % 2 ^ 32 + 1 < 2 ^ 32
    omega
  have hpow : Glz.powU32 glzM = .ok (2 ^ glzM) := Glz.powU32_eq_ok.mpr ⟨by decide, rfl⟩
  have hshl : Glz.shlU32 arg glzM = .ok ((arg <<< glzM) % 2 ^ 32) :=
    Glz.shlU32_eq_ok.mpr ⟨by decide, rfl⟩
  have hone : Glz.addU32 ((arg <<< glzM) % 2 ^ 32) 1 = .ok ((arg <<< glzM) % 2 ^ 32 + 1) :=
    Glz.addU32_eq_ok.mpr ⟨hmod, rfl⟩
  rw [GLZ.decodeOff]
  by_cases hover : 2 ^ 32 ≤ (arg <<< glzM) % 2 ^ 32 + 1 + ofBits [b₃, b₂, b₁, b₀]
  · have hadd : Glz.addU32 ((arg <<< glzM) % 2 ^ 32 + 1) (ofBits [b₃, b₂, b₁, b₀]) =
        Glz.panic .arithmetic := if_neg (Nat.not_lt.mpr hover)
    rw [if_pos hover]
    simp only [bind, Except.bind, hslice, hdec, hpow, hshl, hone, hand, hadd]
    rfl
  · have hadd := Glz.addU32_eq_ok.mpr ⟨Nat.not_le.mp hover, rfl⟩
    rw [if_neg hover]
    simp only [bind, Except.bind, hslice, hdec, hpow, hshl, hone, hand, hadd]
    cases more with
    | false =>
      have hlast : Bool.toNat false * 16 + ofBits [b₃, b₂, b₁, b₀] < 2 ^ glzM := by
        rw [Bool.toNat_false, Nat.zero_mul, Nat.zero_add]
        exact hlow
      rw [if_pos hlast, if_neg Bool.false_ne_true]
      rfl
    | true =>
      have hmore : ¬ Bool.toNat true * 16 + ofBits [b₃, b₂, b₁, b₀] < 2 ^ glzM :=
        Nat.not_lt.mpr (Nat.le_add_right 16 _)
      rw [if_neg hmore, if_pos rfl]
      rfl

theorem offsetField_short {arg : ℕ} {S : Bits} (h : S.length < 5) : offsetField arg S = none := by
  match S, h with
  | [], _ => rfl
  | [_], _ => rfl
  | [_, _], _ => rfl
  | [_, _, _], _ => rfl
  | [_, _, _, _], _ => rfl

theorem decodeOff_eq_ok {S : Bits} {fuel off arg w q : ℕ} (hfuel : S.length < fuel + off) :
    GLZ.decodeOff glzM S fuel off arg = .ok (w, q) ↔
      ∃ e, offsetField arg (S.drop off) = some (w, e) ∧ q = off + e := by
  induction fuel generalizing off arg w q with
  | zero =>
    have hnil : S.drop off = [] := List.drop_eq_nil_of_le (by omega)
    rw [hnil]
    refine ⟨fun h => (by cases h), ?_⟩
    rintro ⟨e, h, -⟩
    cases h
  | succ fuel ih =>
    rcases Nat.lt_or_ge (S.drop off).length 5 with hshort | hlong
    · rw [offsetField_short hshort]
      refine ⟨fun h => ?_, fun ⟨e, h, _⟩ => (by cases h)⟩
      rw [GLZ.decodeOff] at h
      obtain ⟨rest, hslice, h⟩ := Glz.Res.bind_eq_ok.mp h
      obtain ⟨sym, hdec, -⟩ := Glz.Res.bind_eq_ok.mp h
      obtain ⟨-, rfl⟩ := Glz.sliceFrom_eq_ok.mp hslice
      have hlen : 5 ≤ (S.drop off).length := (Glz.decodeSym_eq_ok.mp hdec).2.1
      omega
    · have hfield : ((S.drop off).take 5).length = 5 := by
        rw [List.length_take]
        omega
      obtain ⟨more, b₃, b₂, b₁, b₀, htake, -, -⟩ := nibble_eq hfield
      have hdrop := (List.take_append_drop 5 (S.drop off)).symm
      rw [htake, List.drop_drop] at hdrop
      rw [decodeOff_nibble hdrop, hdrop]
      simp only [List.cons_append, List.nil_append, offsetField]
      split
      · exact ⟨fun h => (by cases h), fun ⟨e, h, _⟩ => (by cases h)⟩
      cases more with
      | false =>
        rw [if_neg (by decide), if_neg (by decide)]
        refine ⟨fun h => ?_, ?_⟩
        · cases h
          exact ⟨5, rfl, rfl⟩
        · rintro ⟨e, h, rfl⟩
          cases h
          rfl
      | true =>
        rw [if_pos rfl, if_pos rfl, ih (by omega)]
        refine ⟨?_, ?_⟩
        · rintro ⟨e, he, rfl⟩
          exact ⟨e + 5, by rw [he]; rfl, by omega⟩
        · rintro ⟨e, he, rfl⟩
          obtain ⟨⟨w', e'⟩, he', heq⟩ := Option.map_eq_some_iff.mp he
          cases heq
          exact ⟨e', he', by omega⟩

/-- A codec for the codes of a blob: all complete entries as its table -/
structure IsCodec (k : ℕ) (bits : Bits) (g : GLZ) : Prop where
  m : g.m = glzM
  encoder : g.rice.encoder = ⟨k⟩
  table : ∃ t, g.rice.bijecter.table = some (t, entries bits)

theorem isCodec_of_withTable {k l : ℕ} {bits : Bits} {g : GLZ}
    (h : GLZ.withTable k l glzM (entries bits) = .ok g) : IsCodec k bits g := by
  obtain ⟨hist, hset, h⟩ := Glz.Res.bind_eq_ok.mp h
  obtain ⟨-, rfl⟩ := Hist.setTable_eq_ok hset
  cases h
  exact ⟨rfl, rfl, _, rfl⟩

/-- Entries have nine bits, so there is always such a codec. -/
theorem withTable_entries (k l : ℕ) (bits : Bits) :
    ∃ g, GLZ.withTable k l glzM (entries bits) = .ok g := by
  have hmax : (entries bits).max?.getD 0 < 2 ^ 9 := by
    cases hmax : (entries bits).max? with
    | none => exact Nat.two_pow_pos 9
    | some v =>
      have hmem := List.max?_mem hmax
      obtain ⟨n, hn⟩ := List.getElem?_of_mem hmem
      rw [getElem?_entries] at hn
      exact (entryAt_lt hn).2
  have hsize : Glz.addU32 ((entries bits).max?.getD 0) 1 = .ok _ :=
    Glz.addU32_eq_ok.mpr ⟨by omega, rfl⟩
  exact ⟨_, Glz.Res.bind_eq_ok.mpr ⟨_, Glz.Res.bind_eq_ok.mpr ⟨_, hsize, rfl⟩, rfl⟩⟩

/-- The code that a decoded symbol at `off` stands for -/
def Code.ofSym (off : ℕ) : GLZSym UInt8 × ℕ → Code
  | (.imm x, d) => .literal x.toNat (off + d)
  | (.ref refoff refsize, d) => .reference refsize (off + d + refoff) (off + d)

section Codec

variable {k off n d v : ℕ} {bits : Bits} {g : GLZ}
  (hcodec : IsCodec k bits g) (hk : k < 32) (hbits : bits.length < 2 ^ 32)
  (hfield : codeField k (bits.drop off) = some (n, d)) (hentry : entryAt bits n = some v)

include hcodec hk hbits hfield hentry

theorem biject_decodeSym : g.rice.decodeSym (bits.drop off) = .ok (v, d) := by
  obtain ⟨hn, hv⟩ := entryAt_lt hentry
  obtain ⟨t, htable⟩ := hcodec.table
  have hrice : g.rice.encoder.decodeSym (bits.drop off) = .ok (n, d) := by
    rw [hcodec.encoder]
    exact (rice_decodeSym_eq_ok hk (by rw [List.length_drop]; omega)).mpr ⟨hfield, by omega⟩
  have hlen : (entries bits).length = bits.length / 9 := by
    rw [entries, List.length_map, List.length_range]
  have hrem : Glz.remU32 n ((entries bits).length % 2 ^ 32) = .ok n := by
    rw [hlen, Nat.mod_eq_of_lt (show bits.length / 9 < 2 ^ 32 by omega)]
    exact Glz.remU32_eq_ok.mpr ⟨by omega, Nat.mod_eq_of_lt (by omega)⟩
  have hmap : g.rice.bijecter.mapDecode n = .ok v := by
    rw [Hist.mapDecode, htable]
    refine Glz.Res.bind_eq_ok.mpr ⟨n, hrem, ?_⟩
    rw [getElem?_entries, hentry, Nat.sub_self]
    exact Glz.addU32_eq_ok.mpr ⟨by rw [Option.getD_some]; omega, Nat.zero_add _⟩
  exact Glz.Res.bind_eq_ok.mpr ⟨_, hrice, Glz.Res.bind_eq_ok.mpr ⟨_, hmap, rfl⟩⟩

/-- `decode_sym_at` reads a code with an entry as it stands there. -/
theorem decodeSymAt_eq_ok {r : GLZSym UInt8 × ℕ} :
    g.decodeSymAt UInt8 bits off = .ok r ↔ codeAt k bits off = some (Code.ofSym off r) := by
  have hoff : off ≤ bits.length := by
    by_contra hlong
    rw [List.drop_eq_nil_of_le (by omega)] at hfield
    cases hfield
  have hrice := biject_decodeSym hcodec hk hbits hfield hentry
  rw [GLZ.decodeSymAt, Glz.sliceFrom_eq_ok.mpr ⟨hoff, rfl⟩, codeAt_eq hfield hentry]
  change g.decodeSym UInt8 (bits.drop off) = _ ↔ _
  obtain ⟨sym, diff⟩ := r
  by_cases hv : v < 0x100
  · have hto : Glz.Sym.toU32 (UInt8.ofNat v) = v := UInt8.toNat_ofNat_of_lt hv
    have hcast : Glz.cast UInt8 v = .ok (UInt8.ofNat v) := by
      conv_lhs => rw [← hto]
      exact Glz.cast_toU32 _
    rw [Glz.GLZ.decodeSym_imm hrice hv hcast, if_pos hv]
    cases sym with
    | imm x =>
      simp only [Except.ok.injEq, Prod.mk.injEq, GLZSym.imm.injEq, Code.ofSym,
        Option.some.injEq, Code.literal.injEq, Nat.add_left_cancel_iff]
      refine and_congr_left fun _ => ⟨?_, ?_⟩
      · rintro rfl
        exact hto.symm
      · rintro rfl
        exact UInt8.ofNat_toNat
    | ref refoff refsize => simp [Code.ofSym]
  · rw [if_neg hv]
    have hdrop : (bits.drop off).drop d = bits.drop (off + d) := List.drop_drop
    have hoffs := fun w q =>
      @decodeOff_eq_ok (bits.drop off) ((bits.drop off).length + 1) d 0 w q (by omega)
    rw [hdrop] at hoffs
    cases harg : offsetField 0 (bits.drop (off + d)) with
    | none =>
      refine ⟨fun h => ?_, fun h => (by cases h)⟩
      rw [Glz.GLZ.decodeSym, Glz.chainErr_eq_ok, GLZ.decodeSymRaw] at h
      obtain ⟨p, hp, h⟩ := Glz.Res.bind_eq_ok.mp h
      obtain rfl : (v, d) = p := Except.ok.inj (hrice.symm.trans hp)
      dsimp only at h
      rw [if_neg (show ¬ v < 2 ^ 8 from hv)] at h
      obtain ⟨⟨w, q⟩, hp, -⟩ := Glz.Res.bind_eq_ok.mp h
      rw [hcodec.m] at hp
      obtain ⟨e, he, -⟩ := (hoffs w q).mp hp
      rw [harg] at he
      cases he
    | some p =>
      obtain ⟨arg, e⟩ := p
      have hdec := (hoffs arg (d + e)).mpr ⟨e, harg, rfl⟩
      rw [← hcodec.m] at hdec
      rw [Glz.GLZ.decodeSym_ref hrice hv hdec, Option.bind_some]
      cases sym with
      | imm x => simp [Code.ofSym]
      | ref refoff refsize =>
        simp only [Except.ok.injEq, Prod.mk.injEq, GLZSym.ref.injEq, Code.ofSym,
          Option.some.injEq, Code.reference.injEq]
        omega

end Codec

end BentoLinker.Loader
