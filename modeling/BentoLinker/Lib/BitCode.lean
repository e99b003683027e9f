import Mathlib.Data.Nat.Bitwise
import Mathlib.Data.List.Basic
import Mathlib.Tactic.Ring

/-!
# Big-Endian Bit Strings

Bit strings as lists of booleans, read most significant bit first:

- `toBits w n` / `ofBits bits`: fixed-width codes and their inverse
- `orBits`: the same value assembled by or-ing shifted bits, as bit-twiddling code does
- `unary q`: `q` ones closed by a zero
- `packBytes`, `unpackBytes`: bit strings in bytes, zero padded at the end, and back

Nothing here depends on a particular code; a codec is verified by citing the
round-trip lemmas and never unfolds these definitions.
-/

namespace BitCode

/-- A string of bits, first bit first. -/
abbrev Bits := List Bool

/-! ## Section 1: Fixed-width codes -/

/-- The low `w` bits of `n`, most significant first. -/
def toBits : ℕ → ℕ → Bits
  | 0, _ => []
  | w + 1, n => n.testBit w :: toBits w n

/-- The number a bit string denotes, most significant bit first. -/
def ofBits (bits : Bits) : ℕ :=
  bits.foldl (fun s b => 2 * s + b.toNat) 0

@[simp] theorem length_toBits (w n : ℕ) : (toBits w n).length = w := by
  induction w with
  | zero => rfl
  | succ w ih => simp [toBits, ih]

@[simp] theorem ofBits_nil : ofBits [] = 0 := rfl

private theorem foldl_ofBits (bits : Bits) (s : ℕ) :
    bits.foldl (fun s b => 2 * s + b.toNat) s = s * 2 ^ bits.length + ofBits bits := by
  induction bits generalizing s with
  | nil => simp
  | cons b bits ih =>
    simp only [ofBits, List.foldl_cons, List.length_cons]
    rw [ih, ih (2 * 0 + b.toNat)]
    ring

theorem ofBits_cons (b : Bool) (bits : Bits) :
    ofBits (b :: bits) = b.toNat * 2 ^ bits.length + ofBits bits := by
  have h := foldl_ofBits bits (2 * 0 + b.toNat)
  simpa [ofBits] using h

theorem ofBits_append (xs ys : Bits) :
    ofBits (xs ++ ys) = ofBits xs * 2 ^ ys.length + ofBits ys := by
  rw [ofBits, List.foldl_append, foldl_ofBits]
  rfl

theorem ofBits_append_singleton (xs : Bits) (b : Bool) :
    ofBits (xs ++ [b]) = 2 * ofBits xs + b.toNat := by
  rw [ofBits_append, ofBits_cons]
  simp [mul_comm]

theorem ofBits_lt (bits : Bits) : ofBits bits < 2 ^ bits.length := by
  induction bits with
  | nil => simp
  | cons b bits ih =>
    rw [ofBits_cons, List.length_cons, pow_succ]
    have hb : b.toNat ≤ 1 := Bool.toNat_le b
    have hmul : b.toNat * 2 ^ bits.length ≤ 1 * 2 ^ bits.length :=
      Nat.mul_le_mul_right _ hb
    omega

theorem ofBits_toBits_mod (w n : ℕ) : ofBits (toBits w n) = n % 2 ^ w := by
  induction w with
  | zero => simp [toBits, Nat.mod_one]
  | succ w ih =>
    rw [toBits, ofBits_cons, ih, length_toBits, pow_succ, Nat.mod_mul, Nat.toNat_testBit]
    ring

/-- Reading back a fixed-width code gives the number written. -/
theorem ofBits_toBits {w n : ℕ} (h : n < 2 ^ w) : ofBits (toBits w n) = n := by
  rw [ofBits_toBits_mod, Nat.mod_eq_of_lt h]

/-- Bit `i` from the front is bit `length - 1 - i` of the value. -/
theorem testBit_ofBits (bits : Bits) (i : ℕ) (h : i < bits.length) :
    (ofBits bits).testBit (bits.length - 1 - i) = bits[i] := by
  induction bits generalizing i with
  | nil => simp at h
  | cons b bits ih =>
    rw [ofBits_cons, Nat.mul_comm]
    cases i with
    | zero =>
      have hlt := ofBits_lt bits
      rw [Nat.testBit_two_pow_mul_add _ hlt]
      simp only [List.length_cons, Nat.add_sub_cancel, Nat.sub_zero, lt_irrefl, ite_false,
        Nat.sub_self, List.getElem_cons_zero]
      cases b <;> rfl
    | succ i =>
      have hi : i < bits.length := by simpa using h
      rw [Nat.testBit_two_pow_mul_add _ (ofBits_lt bits)]
      have hidx : (b :: bits).length - 1 - (i + 1) = bits.length - 1 - i := by
        simp only [List.length_cons]; omega
      rw [hidx, if_pos (by omega)]
      simpa using ih i hi

theorem getElem_toBits (w n : ℕ) (i : ℕ) (h : i < (toBits w n).length) :
    (toBits w n)[i] = n.testBit (w - 1 - i) := by
  induction w generalizing i with
  | zero => exact absurd h (Nat.not_lt_zero i)
  | succ w ih =>
    cases i with
    | zero => rfl
    | succ i =>
      have hi : i < (toBits w n).length := Nat.lt_of_succ_lt_succ h
      have hidx : w + 1 - 1 - (i + 1) = w - 1 - i := by omega
      rw [hidx]
      exact ih i hi

/-- The code of the number a bit string denotes is the bit string. -/
theorem toBits_ofBits (bits : Bits) : toBits bits.length (ofBits bits) = bits := by
  apply List.ext_getElem
  · exact length_toBits _ _
  · intro i hi hbits
    rw [getElem_toBits]
    exact testBit_ofBits bits i hbits

/-! ## Section 2: Values assembled by shifting and or-ing -/

/-- The value of a bit string, each bit or-ed in at its own place of a `width`-bit word. -/
def orBits (width : ℕ) (bits : Bits) : ℕ :=
  bits.zipIdx.foldl (fun s vi => s ||| (vi.1.toNat <<< (width - vi.2 - 1))) 0

private theorem foldl_orBits (bits : Bits) (width k s : ℕ) (hw : k + bits.length = width) :
    (bits.zipIdx k).foldl (fun s vi => s ||| (vi.1.toNat <<< (width - vi.2 - 1)))
        (s * 2 ^ bits.length) = s * 2 ^ bits.length + ofBits bits := by
  induction bits generalizing k s with
  | nil => simp
  | cons b bits ih =>
    simp only [List.zipIdx_cons, List.foldl_cons, List.length_cons]
    have hshift : width - k - 1 = bits.length := by
      simp only [List.length_cons] at hw; omega
    have hlt : b.toNat <<< bits.length < 2 ^ (bits.length + 1) := by
      rw [Nat.shiftLeft_eq, pow_succ]
      have hb : b.toNat ≤ 1 := Bool.toNat_le b
      have hmul := Nat.mul_le_mul_right (2 ^ bits.length) hb
      have hpos : 0 < 2 ^ bits.length := Nat.two_pow_pos _
      omega
    have hor : s * 2 ^ (bits.length + 1) ||| b.toNat <<< (width - k - 1)
        = (2 * s + b.toNat) * 2 ^ bits.length := by
      rw [hshift, Nat.mul_comm s, ← Nat.two_pow_add_eq_or_of_lt hlt, Nat.shiftLeft_eq]
      ring
    rw [hor, ih (k + 1) (2 * s + b.toNat) (by simp only [List.length_cons] at hw; omega),
      ofBits_cons]
    ring

/-- Or-ing the bits in one by one gives the value of the string. -/
theorem orBits_eq_ofBits {width : ℕ} {bits : Bits} (h : bits.length = width) :
    orBits width bits = ofBits bits := by
  have hfold := foldl_orBits bits width 0 0 (by omega)
  simpa [orBits] using hfold

/-! ## Section 3: Unary codes -/

/-- `q` ones closed by a zero. -/
def unary (q : ℕ) : Bits :=
  List.replicate q true ++ [false]

@[simp] theorem length_unary (q : ℕ) : (unary q).length = q + 1 := by
  simp [unary]

/-- The first zero after a unary code is the one that closes it. -/
theorem findIdx?_unary (q : ℕ) (rest : Bits) :
    (unary q ++ rest).findIdx? (· == false) = some q := by
  induction q with
  | zero => rfl
  | succ q ih =>
    have hcons : unary (q + 1) ++ rest = true :: (unary q ++ rest) := by
      simp [unary, List.replicate_succ]
    rw [hcons, List.findIdx?_cons, ih]
    simp

/-! ## Section 4: Bits in bytes -/

/-- Bits `i` to `i + n` of a string, by shift and mask of its value. -/
theorem ofBits_window (bits : Bits) {i n : ℕ} (h : i + n ≤ bits.length) :
    ofBits bits >>> (bits.length - (i + n)) % 2 ^ n = ofBits ((bits.drop i).take n) := by
  have hsplit : bits = (bits.take i ++ (bits.drop i).take n) ++ bits.drop (i + n) := by
    rw [← List.take_add, List.take_append_drop]
  have hlow : (bits.drop (i + n)).length = bits.length - (i + n) := List.length_drop
  have hlen : ((bits.drop i).take n).length = n := by
    rw [List.length_take, List.length_drop]; omega
  have hvalue : ofBits bits = (ofBits (bits.take i) * 2 ^ n + ofBits ((bits.drop i).take n)) *
      2 ^ (bits.length - (i + n)) + ofBits (bits.drop (i + n)) := by
    conv_lhs => rw [hsplit]
    rw [ofBits_append, ofBits_append, hlow, hlen]
  have hrest := ofBits_lt (bits.drop (i + n))
  have hwindow := ofBits_lt ((bits.drop i).take n)
  rw [hlow] at hrest
  rw [hlen] at hwindow
  rw [hvalue, Nat.shiftRight_eq_div_pow, Nat.mul_comm _ (2 ^ (bits.length - (i + n))),
    Nat.mul_add_div (Nat.two_pow_pos _), Nat.div_eq_of_lt hrest, Nat.add_zero,
    Nat.mul_comm, Nat.mul_add_mod, Nat.mod_eq_of_lt hwindow]

/-- `bits`, zero padded to whole bytes. -/
def padBytes (bits : Bits) : Bits :=
  bits ++ List.replicate ((bits.length + 7) / 8 * 8 - bits.length) false

/-- The bytes of a bit string, first bit in the most significant place. -/
def packBytes (bits : Bits) : List UInt8 :=
  (List.range ((bits.length + 7) / 8)).map fun i =>
    UInt8.ofNat (ofBits (((padBytes bits).drop (8 * i)).take 8))

@[simp] theorem length_packBytes (bits : Bits) :
    (packBytes bits).length = (bits.length + 7) / 8 := by
  simp [packBytes]

theorem length_padBytes (bits : Bits) :
    (padBytes bits).length = (bits.length + 7) / 8 * 8 := by
  simp only [padBytes, List.length_append, List.length_replicate]
  omega

theorem toNat_packBytes {bits : Bits} {i : ℕ} (h : i < (bits.length + 7) / 8) :
    ((packBytes bits).getD i 0).toNat = ofBits (((padBytes bits).drop (8 * i)).take 8) := by
  have hlt : ofBits (((padBytes bits).drop (8 * i)).take 8) < 2 ^ 8 :=
    (ofBits_lt _).trans_le (Nat.pow_le_pow_right (by decide) (List.length_take_le _ _))
  simp only [packBytes, List.getD_eq_getElem?_getD, List.getElem?_map, List.getElem?_range h,
    Option.map_some, Option.getD_some, UInt8.toNat_ofNat']
  omega

/-- The padding is not part of any window inside the string. -/
private theorem window_padBytes {bits : Bits} {o n : ℕ} (h : o + n ≤ bits.length) :
    ((padBytes bits).drop o).take n = (bits.drop o).take n := by
  rw [padBytes, List.drop_append_of_le_length (by omega),
    List.take_append_of_le_length (by rw [List.length_drop]; omega)]

private theorem window_of_window {bits : Bits} {j m i n : ℕ} (h : i + n ≤ m) :
    ((((bits.drop j).take m).drop i).take n) = (bits.drop (j + i)).take n := by
  rw [List.drop_take, List.take_take, List.drop_drop, Nat.min_eq_left (by omega)]

/-- `1 & (blob[o/8] >> (7 - o%8))` is bit `o`. -/
theorem bit_packBytes {bits rest : Bits} {o : ℕ} {b : Bool} (h : bits.drop o = b :: rest) :
    1 &&& (((packBytes bits).getD (o / 8) 0).toNat >>> (7 - o % 8)) = b.toNat := by
  have hlen := congrArg List.length h
  rw [List.length_drop, List.length_cons] at hlen
  have hbyte : (((padBytes bits).drop (8 * (o / 8))).take 8).length = 8 := by
    rw [List.length_take, List.length_drop, length_padBytes]
    omega
  have hwin := ofBits_window (((padBytes bits).drop (8 * (o / 8))).take 8)
    (i := o % 8) (n := 1) (by rw [hbyte]; omega)
  rw [hbyte, show 8 - (o % 8 + 1) = 7 - o % 8 by omega, window_of_window (by omega),
    show 8 * (o / 8) + o % 8 = o by omega, window_padBytes (o := o) (n := 1) (by omega), h]
    at hwin
  rw [toNat_packBytes (by omega), Nat.one_and_eq_mod_two]
  simpa [ofBits_cons] using hwin

/-- Nine bits from bit `o` on, out of the two bytes they lie in. -/
theorem window_packBytes {bits : Bits} {o : ℕ} (h : o + 9 ≤ bits.length) :
    0x1ff &&& ((((packBytes bits).getD (o / 8) 0).toNat <<< 8 |||
      ((packBytes bits).getD (o / 8 + 1) 0).toNat) >>> (7 - o % 8)) =
        ofBits ((bits.drop o).take 9) := by
  set w := ((padBytes bits).drop (8 * (o / 8))).take 16 with hw
  have hlen : w.length = 16 := by
    rw [hw, List.length_take, List.length_drop, length_padBytes]
    omega
  have hvalue : ((packBytes bits).getD (o / 8) 0).toNat <<< 8 |||
      ((packBytes bits).getD (o / 8 + 1) 0).toNat = ofBits w := by
    have hhigh : w.take 8 = ((padBytes bits).drop (8 * (o / 8))).take 8 := by
      rw [hw, List.take_take]; rfl
    have hlow : w.drop 8 = ((padBytes bits).drop (8 * (o / 8 + 1))).take 8 := by
      rw [hw, List.drop_take, List.drop_drop]
      congr 2
    have hlowlen : (w.drop 8).length = 8 := by rw [List.length_drop, hlen]
    have hlt := ofBits_lt (w.drop 8)
    rw [hlowlen] at hlt
    rw [toNat_packBytes (by omega), toNat_packBytes (by omega), ← hhigh, ← hlow,
      Nat.shiftLeft_eq, Nat.mul_comm, ← Nat.two_pow_add_eq_or_of_lt hlt, Nat.mul_comm]
    conv_rhs => rw [← List.take_append_drop 8 w, ofBits_append, hlowlen]
  have hwin := ofBits_window w (i := o % 8) (n := 9) (by rw [hlen]; omega)
  rw [hlen, show 16 - (o % 8 + 9) = 7 - o % 8 by omega, hw, window_of_window (by omega),
    show 8 * (o / 8) + o % 8 = o by omega, window_padBytes h, ← hw] at hwin
  rw [hvalue, ← hwin, Nat.and_comm]
  exact Nat.and_two_pow_sub_one_eq_mod _ 9

/-- The bits of a string of bytes, most significant first. -/
def unpackBytes (bytes : List UInt8) : Bits :=
  bytes.flatMap fun b => toBits 8 b.toNat

@[simp] theorem length_unpackBytes (bytes : List UInt8) :
    (unpackBytes bytes).length = 8 * bytes.length := by
  induction bytes with
  | nil => rfl
  | cons b bytes ih =>
    rw [unpackBytes, List.flatMap_cons, List.length_append, length_toBits, List.length_cons]
    rw [unpackBytes] at ih
    omega

theorem drop_unpackBytes (bytes : List UInt8) (i : ℕ) :
    (unpackBytes bytes).drop (8 * i) = unpackBytes (bytes.drop i) := by
  induction bytes generalizing i with
  | nil => simp [unpackBytes]
  | cons b bytes ih =>
    cases i with
    | zero => rfl
    | succ i =>
      rw [List.drop_succ_cons, ← ih, unpackBytes, List.flatMap_cons, Nat.mul_succ,
        Nat.add_comm, ← List.drop_drop, List.drop_left' (length_toBits _ _)]
      rfl

theorem packBytes_unpackBytes (bytes : List UInt8) : packBytes (unpackBytes bytes) = bytes := by
  have hlen : ((unpackBytes bytes).length + 7) / 8 = bytes.length := by
    rw [length_unpackBytes]
    omega
  have hpad : padBytes (unpackBytes bytes) = unpackBytes bytes := by
    rw [padBytes, hlen, length_unpackBytes, Nat.mul_comm, Nat.sub_self]
    exact List.append_nil _
  rw [packBytes, hlen, hpad]
  refine List.ext_getElem (by simp) fun i hi hi' => ?_
  rw [List.getElem_map, List.getElem_range, drop_unpackBytes, List.drop_eq_getElem_cons hi',
    unpackBytes, List.flatMap_cons, List.take_left' (length_toBits _ _),
    ofBits_toBits (UInt8.toNat_lt _), UInt8.ofNat_toNat]

/-- Windows of eight bits, one behind another, are the string. -/
private theorem flatMap_windows (n : ℕ) {bits : Bits} (h : bits.length = 8 * n) :
    (List.range n).flatMap (fun i => (bits.drop (8 * i)).take 8) = bits := by
  induction n generalizing bits with
  | zero => exact (List.length_eq_zero_iff.mp h).symm
  | succ n ih =>
    have hrest : (bits.drop 8).length = 8 * n := by
      rw [List.length_drop]
      omega
    have htail : ∀ i, (bits.drop (8 * (i + 1))).take 8 = ((bits.drop 8).drop (8 * i)).take 8 := by
      intro i
      rw [List.drop_drop, Nat.mul_succ, Nat.add_comm 8]
    rw [List.range_succ_eq_map, List.flatMap_cons, List.flatMap_map]
    simp only [Nat.succ_eq_add_one, htail]
    rw [ih hrest, Nat.mul_zero, List.drop_zero, List.take_append_drop]

/-- The bits of the packed bytes are the string, with its padding. -/
theorem unpackBytes_packBytes (bits : Bits) : unpackBytes (packBytes bits) = padBytes bits := by
  have hlen : (padBytes bits).length = 8 * ((bits.length + 7) / 8) := by
    rw [length_padBytes, Nat.mul_comm]
  -- a byte of its own
  have hbyte : ∀ i ∈ List.range ((bits.length + 7) / 8),
      toBits 8 (UInt8.ofNat (ofBits (((padBytes bits).drop (8 * i)).take 8))).toNat =
        ((padBytes bits).drop (8 * i)).take 8 := by
    intro i hi
    have hi := List.mem_range.mp hi
    have hwin : (((padBytes bits).drop (8 * i)).take 8).length = 8 := by
      rw [List.length_take, List.length_drop, hlen]
      omega
    have hlt := ofBits_lt (((padBytes bits).drop (8 * i)).take 8)
    have hbits := toBits_ofBits (((padBytes bits).drop (8 * i)).take 8)
    rw [hwin] at hlt hbits
    rw [UInt8.toNat_ofNat', Nat.mod_eq_of_lt hlt, hbits]
  calc unpackBytes (packBytes bits)
      = (List.range ((bits.length + 7) / 8)).flatMap
          fun i => ((padBytes bits).drop (8 * i)).take 8 := by
        rw [unpackBytes, packBytes, List.flatMap_map]
        exact List.flatMap_congr hbyte
    _ = padBytes bits := flatMap_windows _ hlen

theorem unpackBytes_append (xs ys : List UInt8) :
    unpackBytes (xs ++ ys) = unpackBytes xs ++ unpackBytes ys := List.flatMap_append

end BitCode
