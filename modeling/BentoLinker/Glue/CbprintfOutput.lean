import BentoLinker.Glue.CbprintfSafety

/-!
# Output of the Small Printf

What `__box_cbprintf` prints for the formats that `printf` is mostly called with, compared with
what the standard says.

- `Flag`, `Width`, `Precision`, `Operand`, `Piece`: a format with its arguments, as pieces
- `printf`: what they print
- `Meets`: the code prints the same, and returns how much that is
- `Piece.Agrees`: no zeros in front of a sign, and a string that is cut where it should be
- `meets_iff`: this is just what it takes, for outputs that can be counted

The zeros that justify a number are printed before its sign.
-/

namespace BentoLinker.Glue.Cbprintf

/-! ## Section 1: Formats in pieces -/

inductive Flag where
  | minus | zero
deriving DecidableEq

def Flag.byte : Flag → UInt8
  | .minus => '-'.toUInt8
  | .zero => '0'.toUInt8

def decimalValue (n : ℕ) (ds : List (Fin 10)) : ℕ := ds.foldl (fun n d => n * 10 + d.val) n

def decimalText (ds : List (Fin 10)) : Bytes := ds.map fun d => digitByte d.val

/-- Digits without a zero in front, which would be a flag, or a `*` -/
inductive Width where
  | none
  | digits (d : Fin 10) (ds : List (Fin 10)) (ne_zero : d ≠ 0)
  | star (value : Word) (nonneg : 0 ≤ value.toInt)

def Width.value : Width → ℕ
  | .none => 0
  | .digits d ds _ => decimalValue d ds
  | .star value _ => value.toNat

def Width.text : Width → Bytes
  | .none => []
  | .digits d ds _ => decimalText (d :: ds)
  | .star _ _ => ['*'.toUInt8]

def Width.args : Width → List Arg
  | .star value _ => [number value]
  | _ => []

inductive Precision where
  | digits (ds : List (Fin 10)) (pos : 0 < decimalValue 0 ds)
  | star (value : Word) (pos : 0 < value.toInt)

def Precision.value : Precision → ℕ
  | .digits ds _ => decimalValue 0 ds
  | .star value _ => value.toNat

def Precision.text : Precision → Bytes
  | .digits ds _ => '.'.toUInt8 :: decimalText ds
  | .star _ _ => ['.'.toUInt8, '*'.toUInt8]

def Precision.args : Precision → List Arg
  | .star value _ => [number value]
  | _ => []

/-- `%d` and `%i`, `%u`, `%x`, `%c`, and `%s` with an array that can be read -/
inductive Operand where
  | signed (i : Bool) (value : Word)
  | unsigned (value : Word)
  | hex (value : Word)
  | char (value : Word)
  | string (precision : Option Precision) (arg : Arg)
      (readable : match precision with
        | none => 0 ∈ arg.target
        | some p => 0 ∈ arg.target.take p.value ∨ p.value ≤ arg.target.length)

def Operand.Numeric : Operand → Prop
  | .signed .. | .unsigned _ | .hex _ => True
  | _ => False

def Operand.precision : Operand → Option Precision
  | .string precision _ _ => precision
  | _ => none

def Operand.byte : Operand → UInt8
  | .signed i _ => if i then 'i'.toUInt8 else 'd'.toUInt8
  | .unsigned _ => 'u'.toUInt8
  | .hex _ => 'x'.toUInt8
  | .char _ => 'c'.toUInt8
  | .string .. => 's'.toUInt8

def Operand.arg : Operand → Arg
  | .signed _ value | .unsigned value | .hex value | .char value => number value
  | .string _ arg _ => arg

/-- A character, `%%`, or a conversion -/
inductive Piece where
  | lit (c : UInt8) (ne_nul : c ≠ 0) (ne_percent : c ≠ '%'.toUInt8)
  | percent
  | conv (flags : List Flag) (width : Width) (operand : Operand)
      (zero : .zero ∈ flags → operand.Numeric)

def Piece.text : Piece → Bytes
  | .lit c _ _ => [c]
  | .percent => ['%'.toUInt8, '%'.toUInt8]
  | .conv flags width operand _ =>
    '%'.toUInt8 :: (flags.map Flag.byte ++ (width.text ++
      (operand.precision.elim [] Precision.text ++ [operand.byte])))

def Piece.args : Piece → List Arg
  | .conv _ width operand _ =>
    width.args ++ operand.precision.elim [] Precision.args ++ [operand.arg]
  | _ => []

/-! ## Section 2: What the standard says -/

/-- The digits of a number, lower case -/
def numeral (base n : ℕ) : Bytes := (Nat.toDigits base n).map Char.toUInt8

/-- The sign, and what is printed behind it -/
def Operand.printed : Operand → Bytes × Bytes
  | .signed _ value =>
    (if value.toInt < 0 then ['-'.toUInt8] else [], numeral 10 value.toInt.natAbs)
  | .unsigned value => ([], numeral 10 value.toNat)
  | .hex value => ([], numeral 16 value.toNat)
  | .char value => ([], [UInt8.ofNat value.toNat])
  | .string precision arg _ =>
    let s := arg.target.takeWhile (· ≠ 0)
    ([], precision.elim s fun p => s.take p.value)

/-- A field of at least `width` characters; zeros stand behind the sign, and there are none if
the field is left-justified. -/
def justify (flags : List Flag) (width : ℕ) (sign rest : Bytes) : Bytes :=
  let fill := width - (sign ++ rest).length
  if .minus ∈ flags then sign ++ rest ++ List.replicate fill ' '.toUInt8
  else if .zero ∈ flags then sign ++ List.replicate fill '0'.toUInt8 ++ rest
  else List.replicate fill ' '.toUInt8 ++ sign ++ rest

def Piece.printed : Piece → Bytes
  | .lit c _ _ => [c]
  | .percent => ['%'.toUInt8]
  | .conv flags width operand _ =>
    justify flags width.value operand.printed.1 operand.printed.2

def printf (pieces : List Piece) : Bytes := pieces.flatMap Piece.printed

/-- With a `write` that takes everything, the same bytes are written, and counted. -/
def Meets (pieces : List Piece) : Prop :=
  let out := cbprintf acceptAll (pieces.flatMap Piece.text) (pieces.flatMap Piece.args)
  (∃ n, out.1 = .returned n ∧ n.toInt = (printf pieces).length) ∧
    out.2.buffers.flatten = printf pieces

/-! ## Section 3: When it is the same -/

/-- No zeros come in front of a sign. -/
def Operand.SignFits (flags : List Flag) (width : ℕ) (operand : Operand) : Prop :=
  .zero ∈ flags → .minus ∉ flags → operand.printed.1 = [] ∨
    width ≤ (operand.printed.1 ++ operand.printed.2).length

/-- A string gives the same field where the residue of its precision cuts it, and there is a
character behind it to stop at. -/
def Operand.CutFits (flags : List Flag) (width : ℕ) : Operand → Prop
  | .string precision arg h =>
    let size := strSteps (sizeT (precision.elim 0 Precision.value)) 0 arg.target
    size < arg.target.length ∧
      justify flags width [] (arg.target.take size) =
        justify flags width [] (Operand.string precision arg h).printed.2
  | _ => True

def Piece.Agrees : Piece → Prop
  | .conv flags width operand _ =>
    operand.SignFits flags width.value ∧ operand.CutFits flags width.value
  | _ => True


/-! ## Section 4: Numbers -/

theorem digitByte_eq {d : ℕ} (hd : d < 16) : digitByte d = (Nat.digitChar d).toUInt8 := by
  revert d
  decide

theorem digitCount_zero (base : ℕ) : digitCount base 0 = 0 := by
  rw [digitCount, Nat.digits_zero, List.length_nil]

theorem digitCount_pos {base n : ℕ} (hbase : 2 ≤ base) (hn : 0 < n) :
    digitCount base n = digitCount base (n / base) + 1 := by
  rw [digitCount, Nat.digits_of_two_le_of_pos hbase hn, List.length_cons, digitCount]

/-- The last of the digits, and those of the quotient in front of it -/
theorem flatten_digitBuffers_succ (base n size : ℕ) :
    (digitBuffers base n (size + 1)).flatten =
      (digitBuffers base (n / base) size).flatten ++ [digitByte (n % base)] := by
  have hshift : ∀ i, n / base ^ (i + 1) % base = n / base / base ^ i % base := by
    intro i
    rw [Nat.pow_succ', Nat.div_div_eq_div_mul]
  simp only [digitBuffers, List.range_succ_eq_map, List.reverse_cons, List.map_append,
    List.flatten_append, List.map_reverse, List.map_map]
  congr 1
  · congr 3
    funext i
    simp only [Function.comp_apply, Nat.succ_eq_add_one, hshift]
  · simp

/-- As many digits as have been counted are the number. -/
theorem flatten_digitBuffers {base : ℕ} (hbase : 2 ≤ base) (hle : base ≤ 16) (n : ℕ) :
    (digitBuffers base n (atLeastOne (digitCount base n))).flatten = numeral base n := by
  induction n using Nat.strongRecOn with
  | _ n ih =>
    have hmod : n % base < 16 := Nat.lt_of_lt_of_le (Nat.mod_lt _ (by omega)) hle
    rw [numeral, Nat.toDigits_eq_if (by omega)]
    rcases Nat.eq_zero_or_pos n with rfl | hn
    · rw [digitCount_zero, if_pos (by omega)]
      exact flatten_digitBuffers_succ base 0 0
    · rw [digitCount_pos hbase hn, atLeastOne, if_neg (Nat.succ_ne_zero _),
        flatten_digitBuffers_succ, digitByte_eq hmod]
      split
      · next hlt =>
        rw [Nat.div_eq_of_lt hlt, digitCount_zero, Nat.mod_eq_of_lt hlt]
        rfl
      · next hge =>
        have hquot : 0 < n / base := Nat.div_pos (Nat.le_of_not_lt hge) (by omega)
        have hcount : atLeastOne (digitCount base (n / base)) = digitCount base (n / base) := by
          rw [digitCount_pos hbase hquot]
          rfl
        have hrest := ih (n / base) (Nat.div_lt_self hn (by omega))
        rw [hcount] at hrest
        rw [hrest, numeral, List.map_append, List.map_singleton]

theorem length_digitBuffers (base n size : ℕ) :
    (digitBuffers base n size).flatten.length = size := by
  induction size generalizing n with
  | zero => rfl
  | succ size ih => rw [flatten_digitBuffers_succ, List.length_append, ih, List.length_singleton]

/-- A negative number, `INT_MIN` too -/
theorem toNat_neg_of_negative {d : Word} (hd : d.toInt < 0) :
    (-d).toNat = d.toInt.natAbs ∧ 0 < (-d).toNat := by
  have hlt := d.isLt
  rw [BitVec.toInt_eq_toNat_cond] at hd ⊢
  rw [BitVec.toNat_neg]
  split at hd
  · omega
  · rw [if_neg ‹_›]
    omega

theorem toNat_of_nonneg {d : Word} (hd : ¬d.toInt < 0) : d.toNat = d.toInt.natAbs := by
  have hlt := d.isLt
  rw [BitVec.toInt_eq_toNat_cond] at hd ⊢
  split at hd
  · rw [if_pos ‹_›]
    rfl
  · omega

/-! ## Section 5: Fields -/

variable {flags : List Flag} {width : ℕ} {sign : Bytes}

/-- What the parser makes of the flags, the width and the precision -/
def specOf (flags : List Flag) (width : ℕ) (precision : Option Precision) : Spec where
  zeroJustify := decide (.zero ∈ flags)
  leftJustify := decide (.minus ∈ flags)
  precisionMode := precision.isSome
  width := width
  precision := precision.elim 0 Precision.value
  plain := by cases precision <;> simp

theorem length_justify (flags : List Flag) (width : ℕ) (sign rest : Bytes) :
    (justify flags width sign rest).length = max width (sign ++ rest).length := by
  unfold justify
  split_ifs <;> simp only [List.length_append, List.length_replicate] <;> omega

/-- A sign in front of the digits and a sign as the first of them are the same but for zeros. -/
theorem justify_sign_iff (flags : List Flag) (width : ℕ) (rest : Bytes)
    (hsign : sign = [] ∨ sign = ['-'.toUInt8]) :
    justify flags width [] (sign ++ rest) = justify flags width sign rest ↔
      (.zero ∈ flags → .minus ∉ flags → sign = [] ∨ width ≤ (sign ++ rest).length) := by
  unfold justify
  rcases hsign with rfl | rfl
  · simp
  · by_cases hminus : Flag.minus ∈ flags
    · simp [hminus]
    · by_cases hzero : Flag.zero ∈ flags
      · simp only [hminus, hzero, if_false, if_true, List.nil_append, List.singleton_append,
          not_false_eq_true, true_imp_iff, List.cons_ne_nil, false_or]
        rcases Nat.eq_zero_or_pos (width - ('-'.toUInt8 :: rest).length) with hfill | hfill
        · rw [hfill]
          exact iff_of_true rfl (Nat.sub_eq_zero_iff_le.mp hfill)
        · -- the first character is a zero, and a sign
          obtain ⟨fill, hsucc⟩ := Nat.exists_eq_succ_of_ne_zero (Nat.ne_of_gt hfill)
          rw [hsucc]
          refine iff_of_false ?_ (by omega)
          intro heq
          exact absurd (List.cons.inj heq).1 (by decide)
      · simp [hminus, hzero]

theorem toInt_ofNat_of_lt {n : ℕ} (h : n < 2 ^ 31) : (BitVec.ofNat 32 n).toInt = n := by
  rw [BitVec.toInt_eq_toNat_cond, BitVec.toNat_ofNat, Nat.mod_eq_of_lt (by omega)]
  exact if_pos (by omega)

/-- The difference of two sizes that are less than 2³¹ -/
theorem toNat_sub_size {w n : ℕ} (hw : w < 2 ^ 31) (hn : n < 2 ^ 31) :
    (BitVec.ofNat 32 w - BitVec.ofNat 32 n).toInt.toNat = w - n := by
  rw [BitVec.toInt_sub, toInt_ofNat_of_lt hw, toInt_ofNat_of_lt hn,
    Int.bmod_eq_of_le (by omega) (by omega)]
  omega

/-- The code takes the sign for a digit. -/
theorem flatten_buffers (conv : Conv) {precision : Option Precision}
    (hspec : conv.spec = specOf flags width precision)
    (hsize : conv.size = conv.field.flatten.length) (hwidth : width < 2 ^ 31)
    (hlt : conv.size < 2 ^ 31) :
    conv.buffers.flatten = justify flags width [] conv.field.flatten := by
  have hpad : conv.padding = width - conv.field.flatten.length := by
    rw [Conv.padding, hspec, ← hsize]
    exact toNat_sub_size hwidth hlt
  have hflat : ∀ (n : ℕ) (c : UInt8), (List.replicate n [c]).flatten = List.replicate n c := by
    intro n c
    induction n with
    | zero => rfl
    | succ n ih => rw [List.replicate_succ, List.flatten_cons, ih]; rfl
  simp only [Conv.buffers, hpad, hspec, specOf, justify, decide_eq_true_eq, List.nil_append]
  split_ifs <;> simp only [List.flatten_append, hflat, List.append_nil]

/-- A conversion of a number or of a character -/
theorem exists_convert {operand : Operand} (spec : Spec)
    (h : ∀ precision arg readable, operand ≠ .string precision arg readable) :
    ∃ conv, convert spec (some operand.byte) (some operand.arg) = .ok conv ∧ conv.spec = spec ∧
      conv.size = conv.field.flatten.length ∧
        conv.field.flatten = operand.printed.1 ++ operand.printed.2 := by
  cases operand with
  | string precision arg readable => exact absurd rfl (h precision arg readable)
  | char value => exact ⟨⟨spec, .c, value, [], 1⟩, rfl, rfl, rfl, rfl⟩
  | unsigned value =>
    refine ⟨⟨spec, .u, value, [], _⟩, rfl, rfl, ?_, ?_⟩
    · exact (length_digitBuffers ..).symm
    · exact flatten_digitBuffers (by decide) (by decide) value.toNat
  | hex value =>
    refine ⟨⟨spec, .x, value, [], _⟩, rfl, rfl, ?_, ?_⟩
    · exact (length_digitBuffers ..).symm
    · exact flatten_digitBuffers (by decide) (by decide) value.toNat
  | signed i value =>
    -- the sign is a buffer of its own, in front of the digits
    by_cases hneg : value.toInt < 0
    · obtain ⟨habs, hpos⟩ := toNat_neg_of_negative hneg
      have hone : atLeastOne (digitCount 10 (-value).toNat) = digitCount 10 (-value).toNat := by
        rw [digitCount_pos (by decide) hpos]
        rfl
      have hsize : atLeastOne (signedSize value) = digitCount 10 (-value).toNat + 1 := by
        rw [signedSize, if_pos hneg, Nat.add_comm]
        rfl
      have hfield : (⟨spec, .d, value, [], digitCount 10 (-value).toNat + 1⟩ : Conv).field =
          ['-'.toUInt8] :: digitBuffers 10 (-value).toNat (digitCount 10 (-value).toNat) :=
        if_pos hneg
      have hdigits : (digitBuffers 10 (-value).toNat (digitCount 10 (-value).toNat)).flatten =
          numeral 10 (-value).toNat := by
        rw [← flatten_digitBuffers (by decide) (by decide), hone]
      refine ⟨⟨spec, .d, value, [], digitCount 10 (-value).toNat + 1⟩, ?_, rfl, ?_, ?_⟩
      · rw [← hsize]
        -- `%d` and `%i` are one branch
        cases i <;> rfl
      · rw [hfield, List.flatten_cons, List.length_append, length_digitBuffers, Nat.add_comm]
        rfl
      · rw [hfield, List.flatten_cons, hdigits, Operand.printed, if_pos hneg, habs]
    · have hsize : signedSize value = digitCount 10 value.toNat := if_neg hneg
      have hfield : (⟨spec, .d, value, [], atLeastOne (digitCount 10 value.toNat)⟩ : Conv).field =
          digitBuffers 10 value.toNat (atLeastOne (digitCount 10 value.toNat)) := if_neg hneg
      refine ⟨⟨spec, .d, value, [], atLeastOne (digitCount 10 value.toNat)⟩, ?_, rfl, ?_, ?_⟩
      · rw [← hsize]
        cases i <;> rfl
      · rw [hfield, length_digitBuffers]
      · rw [hfield, flatten_digitBuffers (by decide) (by decide), Operand.printed, if_neg hneg,
          toNat_of_nonneg hneg]
        rfl

/-- What the code prints for a piece, if it comes to an end -/
def Piece.output : Piece → Option Bytes
  | .lit c _ _ => some [c]
  | .percent => some ['%'.toUInt8]
  | .conv flags width operand _ =>
    match convert (specOf flags width.value operand.precision) (some operand.byte)
      (some operand.arg) with
    | .error _ => none
    | .ok done => some done.buffers.flatten

theorem sign_of_printed (operand : Operand) :
    operand.printed.1 = [] ∨ operand.printed.1 = ['-'.toUInt8] := by
  cases operand with
  | signed i value =>
    unfold Operand.printed
    by_cases hneg : value.toInt < 0
    · exact .inr (if_pos hneg)
    · exact .inl (if_neg hneg)
  | _ => exact .inl rfl

/-- The residue of a precision cuts a string no later than the precision. -/
theorem strSteps_le (precision : Option Precision) (arg : Arg) (readable) :
    strSteps (sizeT (precision.elim 0 Precision.value)) 0 arg.target ≤
      (Operand.string precision arg readable).printed.2.length := by
  have hfits := arg.fits
  have hle := strLen_le arg.target
  cases precision with
  | none => exact Nat.le_refl _
  | some p =>
    have hlen : ((arg.target.takeWhile (· ≠ 0)).take p.value).length =
        min p.value (strLen arg.target) := List.length_take
    have hpos : 0 < p.value := by
      cases p with
      | digits ds pos => exact pos
      | star value pos =>
        rw [Precision.value]
        rw [BitVec.toInt_eq_toNat_cond] at pos
        split at pos <;> omega
    have hcut : strSteps (sizeT p.value) 0 arg.target ≤ min p.value (strLen arg.target) := by
      unfold strSteps sizeT
      by_cases hzero : p.value % 2 ^ 32 = 0
      · rw [if_pos hzero]
        omega
      · rw [if_neg hzero]
        omega
    exact hcut.trans_eq hlen.symm

theorem output_of_plain {flags : List Flag} {width : Width} {operand : Operand}
    (zero : .zero ∈ flags → operand.Numeric)
    (h : ∀ precision arg readable, operand ≠ .string precision arg readable)
    (hwidth : width.value < 2 ^ 31)
    (hlt : (operand.printed.1 ++ operand.printed.2).length < 2 ^ 31) :
    (Piece.conv flags width operand zero).output =
      some (justify flags width.value [] (operand.printed.1 ++ operand.printed.2)) := by
  obtain ⟨done, hdone, hspec, hsize, hfield⟩ :=
    exists_convert (specOf flags width.value operand.precision) h
  rw [hfield] at hsize
  have hbuffers := flatten_buffers done hspec (by rw [hsize, hfield]) hwidth (by rwa [hsize])
  rw [Piece.output, hdone]
  simp only [hbuffers, hfield]

theorem output_of_string {flags : List Flag} {width : Width} {precision : Option Precision}
    {arg : Arg} {readable} (zero : .zero ∈ flags → (Operand.string precision arg readable).Numeric)
    (hwidth : width.value < 2 ^ 31)
    (hlt : (Operand.string precision arg readable).printed.2.length < 2 ^ 31) :
    (Piece.conv flags width (.string precision arg readable) zero).output =
      if strSteps (sizeT (precision.elim 0 Precision.value)) 0 arg.target < arg.target.length then
        some (justify flags width.value []
          (arg.target.take (strSteps (sizeT (precision.elim 0 Precision.value)) 0 arg.target)))
      else none := by
  have hle := strSteps_le precision arg readable
  have hsize := strSize_eq (p := sizeT (precision.elim 0 Precision.value)) arg.target
    (.inr (Nat.zero_le _))
  have hconvert := convert_string (specOf flags width.value precision) arg
  have hprecision : (specOf flags width.value precision).precision =
      precision.elim 0 Precision.value := rfl
  rw [hprecision, hsize, Nat.zero_add] at hconvert
  simp only [Piece.output, Operand.precision, Operand.byte, Operand.arg, hconvert]
  by_cases hin : strSteps (sizeT (precision.elim 0 Precision.value)) 0 arg.target <
      arg.target.length
  · simp only [if_pos hin]
    have hbuffers := flatten_buffers ⟨specOf flags width.value precision, .s, arg.value,
      arg.target, strSteps (sizeT (precision.elim 0 Precision.value)) 0 arg.target⟩ rfl
      (by simp [Conv.field]; omega) hwidth (Nat.lt_of_le_of_lt hle hlt)
    rw [hbuffers]
    simp [Conv.field]
  · simp only [if_neg hin]

/-- Where a field is less than 2³¹ characters long, the code prints it just if it agrees, and
never prints more. -/
theorem Piece.output_iff {piece : Piece} (hlt : piece.printed.length < 2 ^ 31) :
    (piece.output = some piece.printed ↔ piece.Agrees) ∧
      ∀ out, piece.output = some out → out.length ≤ piece.printed.length := by
  cases piece with
  | lit c ne_nul ne_percent =>
    refine ⟨iff_of_true rfl trivial, ?_⟩
    rintro _ ⟨⟩
    exact Nat.le_refl _
  | percent =>
    refine ⟨iff_of_true rfl trivial, ?_⟩
    rintro _ ⟨⟩
    exact Nat.le_refl _
  | conv flags width operand zero =>
    have hsigned := justify_sign_iff flags width.value operand.printed.2 (sign_of_printed operand)
    obtain ⟨hwidth, hbody⟩ : width.value < 2 ^ 31 ∧
        (operand.printed.1 ++ operand.printed.2).length < 2 ^ 31 := by
      rw [Piece.printed, length_justify] at hlt
      omega
    -- only a string can be cut
    by_cases hstring : ∃ precision arg readable, operand = .string precision arg readable
    · obtain ⟨precision, arg, readable, rfl⟩ := hstring
      have hle := strSteps_le precision arg readable
      rw [output_of_string zero hwidth hbody]
      constructor
      · have hsign : (Operand.string precision arg readable).SignFits flags width.value :=
          fun _ _ => .inl rfl
        simp only [Piece.Agrees, hsign, true_and, Operand.CutFits, Option.ite_none_right_eq_some,
          Option.some.injEq, Piece.printed]
        rfl
      · intro out hout
        obtain ⟨hin, hout⟩ := Option.ite_none_right_eq_some.mp hout
        cases hout
        rw [Piece.printed, length_justify, length_justify, List.nil_append, List.length_take]
        have hnil : (Operand.string precision arg readable).printed.1 = [] := rfl
        rw [hnil, List.nil_append]
        omega
    · have hcut : operand.CutFits flags width.value := by
        cases operand with
        | string precision arg readable => exact absurd ⟨_, _, _, rfl⟩ hstring
        | _ => exact trivial
      rw [output_of_plain zero (fun _ _ _ h => hstring ⟨_, _, _, h⟩) hwidth hbody, Piece.printed]
      constructor
      · rw [Option.some.injEq, hsigned]
        simp only [Piece.Agrees, hcut, and_true]
        rfl
      · rintro _ ⟨⟩
        rw [length_justify, length_justify]
        exact Nat.le_refl _

/-! ## Section 6: The parser on pieces -/

variable {cs : Bytes} {args : List Arg} {spec : Spec}

theorem digitByte_digit (d : Fin 10) :
    isDigit (digitByte d) = true ∧ digitValue (digitByte d) = d ∧
      (digitByte d > '0'.toUInt8 ↔ d ≠ 0) := by
  revert d
  decide

theorem scan_digit (d : Fin 10) (cs : Bytes) (spec : Spec) (args : List Arg) :
    scan (digitByte d :: cs) spec args = scan cs (spec.digit (digitByte d)) args := by
  exact if_pos (digitByte_digit d).1

theorem le_decimalValue (n : ℕ) (ds : List (Fin 10)) : n ≤ decimalValue n ds := by
  induction ds generalizing n with
  | nil => exact Nat.le_refl n
  | cons d ds ih =>
    have hle := ih (n * 10 + d)
    exact Nat.le_trans (by omega) hle

/-- The flags in any order -/
theorem scan_flags (flags : List Flag) (zero left : Bool) (cs : Bytes) (args : List Arg) :
    scan (flags.map Flag.byte ++ cs) ⟨zero, left, false, 0, 0, fun _ => rfl⟩ args =
      scan cs ⟨zero || decide (.zero ∈ flags), left || decide (.minus ∈ flags), false, 0, 0,
        fun _ => rfl⟩ args := by
  induction flags generalizing zero left with
  | nil => simp
  | cons f flags ih =>
    cases f with
    | minus =>
      have hstep : scan (Flag.minus.byte :: (flags.map Flag.byte ++ cs))
          ⟨zero, left, false, 0, 0, fun _ => rfl⟩ args =
            scan (flags.map Flag.byte ++ cs) ⟨zero, true, false, 0, 0, fun _ => rfl⟩ args := rfl
      rw [List.map_cons, List.cons_append, hstep, ih]
      simp
    | zero =>
      have hstep : scan (Flag.zero.byte :: (flags.map Flag.byte ++ cs))
          ⟨zero, left, false, 0, 0, fun _ => rfl⟩ args =
            scan (flags.map Flag.byte ++ cs) ⟨true, left, false, 0, 0, fun _ => rfl⟩ args := rfl
      rw [List.map_cons, List.cons_append, hstep, ih]
      simp

/-- The digits of a width, behind a number that is not zero -/
theorem scan_width_digits {n : ℕ} (ds : List (Fin 10)) (zero left : Bool) (hpos : 0 < n)
    (hlt : decimalValue n ds < 2 ^ 32) (cs : Bytes) (args : List Arg) :
    scan (decimalText ds ++ cs) ⟨zero, left, false, n, 0, fun _ => rfl⟩ args =
      scan cs ⟨zero, left, false, decimalValue n ds, 0, fun _ => rfl⟩ args := by
  induction ds generalizing n with
  | nil => rfl
  | cons d ds ih =>
    have hn : sizeT n = n := Nat.mod_eq_of_lt (Nat.lt_of_le_of_lt (le_decimalValue n _) hlt)
    have hdigit : (⟨zero, left, false, n, 0, fun _ => rfl⟩ : Spec).digit (digitByte d) =
        ⟨zero, left, false, n * 10 + d, 0, fun _ => rfl⟩ := by
      simp [Spec.digit, hn, hpos, (digitByte_digit d).2.1]
    have hcons : decimalText (d :: ds) ++ cs = digitByte d :: (decimalText ds ++ cs) := rfl
    rw [hcons, scan_digit, hdigit]
    exact ih (by omega) hlt

theorem scan_width (width : Width) (zero left : Bool) (hlt : width.value < 2 ^ 32) (cs : Bytes)
    (args : List Arg) :
    scan (width.text ++ cs) ⟨zero, left, false, 0, 0, fun _ => rfl⟩ (width.args ++ args) =
      scan cs ⟨zero, left, false, width.value, 0, fun _ => rfl⟩ args := by
  cases width with
  | none => rfl
  | star value nonneg => rfl
  | digits d ds ne_zero =>
    have hpos : 0 < (d : ℕ) := Nat.pos_of_ne_zero fun h => ne_zero (Fin.ext h)
    have hdigit : (⟨zero, left, false, 0, 0, fun _ => rfl⟩ : Spec).digit (digitByte d) =
        ⟨zero, left, false, d, 0, fun _ => rfl⟩ := by
      simp [Spec.digit, (digitByte_digit d).2.1, (digitByte_digit d).2.2.mpr ne_zero]
    have hcons : (Width.digits d ds ne_zero).text ++ cs =
        digitByte d :: (decimalText ds ++ cs) := rfl
    rw [hcons, scan_digit, hdigit]
    exact scan_width_digits ds zero left hpos hlt cs args

/-- The digits of a precision, behind the `.` -/
theorem scan_precision_digits (ds : List (Fin 10)) (zero left : Bool) (width n : ℕ) (cs : Bytes)
    (args : List Arg) :
    scan (decimalText ds ++ cs) ⟨zero, left, true, width, n, by simp⟩ args =
      scan cs ⟨zero, left, true, width, decimalValue n ds, by simp⟩ args := by
  induction ds generalizing n with
  | nil => rfl
  | cons d ds ih =>
    have hdigit : (⟨zero, left, true, width, n, by simp⟩ : Spec).digit (digitByte d) =
        ⟨zero, left, true, width, n * 10 + d, by simp⟩ := by
      simp [Spec.digit, (digitByte_digit d).2.1]
    have hcons : decimalText (d :: ds) ++ cs = digitByte d :: (decimalText ds ++ cs) := rfl
    rw [hcons, scan_digit, hdigit]
    exact ih _

theorem scan_precision (precision : Option Precision) (zero left : Bool) (width : ℕ) (cs : Bytes)
    (args : List Arg) :
    scan (precision.elim [] Precision.text ++ cs) ⟨zero, left, false, width, 0, fun _ => rfl⟩
        (precision.elim [] Precision.args ++ args) =
      scan cs ⟨zero, left, precision.isSome, width, precision.elim 0 Precision.value,
        by cases precision <;> simp⟩ args := by
  cases precision with
  | none => rfl
  | some p =>
    cases p with
    | star value pos => rfl
    | digits ds pos => exact scan_precision_digits ds zero left width 0 cs args

theorem scan_byte (operand : Operand) (cs : Bytes) (spec : Spec) (args : List Arg) :
    scan (operand.byte :: cs) spec args = some ⟨spec, some operand.byte, cs, args⟩ := by
  cases operand with
  | signed i value => cases i <;> rfl
  | _ => rfl

/-- The parser finds what the pieces of a conversion say. -/
theorem scan_conv (flags : List Flag) (width : Width) (operand : Operand)
    (hlt : width.value < 2 ^ 32) (cs : Bytes) (args : List Arg) :
    scan (flags.map Flag.byte ++ (width.text ++ (operand.precision.elim [] Precision.text ++
        (operand.byte :: cs)))) .initial
        (width.args ++ (operand.precision.elim [] Precision.args ++ args)) =
      some ⟨specOf flags width.value operand.precision, some operand.byte, cs, args⟩ := by
  rw [Spec.initial, scan_flags, scan_width width _ _ hlt, scan_precision, scan_byte]
  simp only [Bool.false_or, specOf]

/-! ## Section 7: The items of the pieces -/

/-- What is printed for the items of a format, if the call comes to its end -/
def outputs : List Item → Option Bytes
  | [] => some []
  | .text bufs :: rest => (outputs rest).map (bufs.flatten ++ ·)
  | .missing :: _ => none
  | .conversion spec char arg :: rest =>
    match convert spec char arg with
    | .error _ => none
    | .ok conv =>
      if char = none then none else (outputs rest).map (conv.buffers.flatten ++ ·)

/-- The same for pieces -/
def printed : List Piece → Option Bytes
  | [] => some []
  | piece :: rest => piece.output.bind fun out => (printed rest).map (out ++ ·)

theorem flatten_skipped (text : Bytes) :
    (skipped text).flatten = text.takeWhile (!isPercent ·) := by
  unfold skipped
  split
  · next h => exact h.symm
  · next h => rw [h, List.flatten_singleton]

/-- A character of the text -/
theorem outputs_items_cons {c : UInt8} (hc : c ≠ '%'.toUInt8) (text : Bytes) (args : List Arg) :
    outputs (items (c :: text) args) = (outputs (items text args)).map (c :: ·) := by
  have hpercent : (!isPercent c) = true := by simpa [isPercent] using hc
  have hskipped : (skipped (c :: text)).flatten = c :: (skipped text).flatten := by
    rw [flatten_skipped, flatten_skipped]
    exact List.takeWhile_cons_of_pos hpercent
  have hdrop : (c :: text).dropWhile (!isPercent ·) = text.dropWhile (!isPercent ·) :=
    List.dropWhile_cons_of_pos hpercent
  cases htext : text.dropWhile (!isPercent ·) with
  | nil =>
    rw [items_of_end htext, items_of_end (hdrop.trans htext)]
    simp [outputs, hskipped]
  | cons percent behind =>
    rw [items_of_percent htext, items_of_percent (hdrop.trans htext)]
    simp [outputs, hskipped, Function.comp_def]

/-- A conversion that is not cut off -/
theorem outputs_items_found {behind rest : Bytes} {char : UInt8} {args left : List Arg}
    (hscan : scan behind .initial args = some ⟨spec, some char, rest, left⟩) :
    outputs (items ('%'.toUInt8 :: behind) args) =
      match convert spec (some char) left.head? with
      | .error _ => none
      | .ok conv =>
        (outputs (items rest (if takesArg (some char) then left.tail else left))).map
          (conv.buffers.flatten ++ ·) := by
  have hskipped : skipped ('%'.toUInt8 :: behind) = [] := rfl
  have hdrop : ('%'.toUInt8 :: behind).dropWhile (!isPercent ·) = '%'.toUInt8 :: behind := rfl
  rw [items_of_percent hdrop, hscan, hskipped]
  simp only [outputs, reduceCtorEq, if_false, List.flatten_nil, List.nil_append, Option.map_id_fun',
    id_eq]
  rfl

theorem outputs_items_percent (text : Bytes) (args : List Arg) :
    outputs (items ('%'.toUInt8 :: '%'.toUInt8 :: text) args) =
      (outputs (items text args)).map ('%'.toUInt8 :: ·) := by
  have hscan : scan ('%'.toUInt8 :: text) .initial args =
      some ⟨.initial, some '%'.toUInt8, text, args⟩ := rfl
  exact outputs_items_found hscan

theorem outputs_items_conv (flags : List Flag) (width : Width) (operand : Operand)
    (zero : .zero ∈ flags → operand.Numeric) (hlt : width.value < 2 ^ 32) (text : Bytes)
    (args : List Arg) :
    outputs (items ((Piece.conv flags width operand zero).text ++ text)
        ((Piece.conv flags width operand zero).args ++ args)) =
      (Piece.conv flags width operand zero).output.bind fun out =>
        (outputs (items text args)).map (out ++ ·) := by
  have hscan := scan_conv flags width operand hlt text (operand.arg :: args)
  have htakes : takesArg (some operand.byte) = true := by
    cases operand with
    | signed i value => cases i <;> rfl
    | _ => rfl
  simp only [Piece.text, Piece.args, List.cons_append, List.append_assoc, List.nil_append]
  rw [outputs_items_found hscan, htakes]
  simp only [Piece.output, List.head?_cons, if_true, List.tail_cons]
  split <;> rfl

/-- The items of a format print what its pieces print. -/
theorem outputs_items_pieces (pieces : List Piece)
    (hlt : ∀ flags width operand zero, .conv flags width operand zero ∈ pieces →
      width.value < 2 ^ 32) :
    outputs (items (pieces.flatMap Piece.text) (pieces.flatMap Piece.args)) = printed pieces := by
  induction pieces with
  | nil =>
    rw [List.flatMap_nil, items_of_end rfl]
    rfl
  | cons piece pieces ih =>
    have hrest := ih fun flags width operand zero hmem =>
      hlt flags width operand zero (List.mem_cons_of_mem _ hmem)
    rw [List.flatMap_cons, List.flatMap_cons, printed, ← hrest]
    cases piece with
    | lit c ne_nul ne_percent => exact outputs_items_cons ne_percent _ _
    | percent => exact outputs_items_percent _ _
    | conv flags width operand zero =>
      exact outputs_items_conv flags width operand zero
        (hlt flags width operand zero List.mem_cons_self) _ _

/-! ## Section 8: The whole call -/

variable {write : Write} {s : State} {bufs : List Bytes} {next : State → Stop × State}

/-- A negative result is returned, or all of the buffers are written. -/
theorem emit_cases (write : Write) (bufs : List Bytes) (s : State)
    (next : State → Stop × State) :
    (∃ n s', emit write bufs s next = (.returned n, s') ∧ n.toInt < 0) ∨
      ∃ s', emit write bufs s next = next s' ∧ s'.buffers = s.buffers ++ bufs := by
  induction bufs generalizing s with
  | nil => exact .inr ⟨s, rfl, (List.append_nil _).symm⟩
  | cons buf bufs ih =>
    rw [emit]
    by_cases hneg : (write s.buffers buf).toInt < 0
    · exact .inl ⟨_, _, if_pos hneg, hneg⟩
    · rw [if_neg hneg]
      rcases ih { s with
        buffers := s.buffers ++ [buf], results := s.results ++ [write s.buffers buf],
        res := s.res + write s.buffers buf } with hrejects | ⟨s', heq, hbuffers⟩
      · exact .inl hrejects
      · exact .inr ⟨s', heq, by simpa using hbuffers⟩

/-- A call that returns a count has printed the items. -/
theorem outputs_of_returned {list : List Item} {n : Word} {s' : State}
    (h : exec write list s = (.returned n, s')) (hn : 0 ≤ n.toInt) :
    ∃ out, outputs list = some out ∧ s'.buffers.flatten = s.buffers.flatten ++ out := by
  induction list generalizing s with
  | nil =>
    cases h
    exact ⟨[], rfl, (List.append_nil _).symm⟩
  | cons item rest ih =>
    cases item with
    | missing => cases h
    | text bufs =>
      rcases emit_cases write bufs s (exec write rest) with ⟨m, t, heq, hneg⟩ | ⟨t, heq, hbuffers⟩
      · cases heq.symm.trans h
        omega
      · obtain ⟨out, hout, hflat⟩ := ih (heq.symm.trans h)
        refine ⟨bufs.flatten ++ out, by rw [outputs, hout]; rfl, ?_⟩
        rw [hflat, hbuffers, List.flatten_append, List.append_assoc]
    | conversion spec char arg =>
      rw [exec] at h
      split at h
      · next stop hconv =>
        cases h
        rcases convert_eq_error hconv with ⟨hstop, -⟩ | ⟨hstop, -⟩ <;> cases hstop
      · next conv hconv =>
        rcases emit_cases write conv.buffers { s with convs := s.convs ++ [conv] } fun s =>
          if char = none then (.pastFormat, s) else exec write rest s with
          ⟨m, t, heq, hneg⟩ | ⟨t, heq, hbuffers⟩
        · cases heq.symm.trans h
          omega
        · have hend := heq.symm.trans h
          by_cases hchar : char = none
          · rw [if_pos hchar] at hend
            cases hend
          · rw [if_neg hchar] at hend
            obtain ⟨out, hout, hflat⟩ := ih hend
            refine ⟨conv.buffers.flatten ++ out, ?_, ?_⟩
            · simp only [outputs, hconv, if_neg hchar, hout, Option.map_some]
            · rw [hflat, hbuffers, List.flatten_append, List.append_assoc]

/-- A `write` that takes everything gets all of the buffers, and they are counted. -/
theorem emit_acceptAll (bufs : List Bytes) (next : State → Stop × State) {k : ℕ}
    (hres : s.res.toInt = k) (hlt : k + bufs.flatten.length < 2 ^ 31) :
    ∃ s', emit acceptAll bufs s next = next s' ∧ s'.buffers = s.buffers ++ bufs ∧
      s'.res.toInt = (k + bufs.flatten.length : ℕ) := by
  induction bufs generalizing s k with
  | nil => exact ⟨s, rfl, (List.append_nil _).symm, hres⟩
  | cons buf bufs ih =>
    rw [List.flatten_cons, List.length_append] at hlt
    have hreply : (acceptAll s.buffers buf).toInt = buf.length := toInt_ofNat_of_lt (by omega)
    have hsum : (s.res + acceptAll s.buffers buf).toInt = (k + buf.length : ℕ) := by
      rw [BitVec.toInt_add, hres, hreply, Int.bmod_eq_of_le (by omega) (by omega)]
      exact (Int.natCast_add ..).symm
    obtain ⟨s', heq, hbuffers, hres'⟩ := ih (s := { s with
      buffers := s.buffers ++ [buf], results := s.results ++ [acceptAll s.buffers buf],
      res := s.res + acceptAll s.buffers buf }) hsum (by omega)
    refine ⟨s', ?_, by simpa using hbuffers, ?_⟩
    · rw [emit, if_neg (by omega)]
      exact heq
    · rw [hres', List.flatten_cons, List.length_append, Nat.add_assoc]

theorem exec_acceptAll {list : List Item} {k : ℕ} {out : Bytes} (hout : outputs list = some out)
    (hres : s.res.toInt = k) (hlt : k + out.length < 2 ^ 31) :
    ∃ n s', exec acceptAll list s = (.returned n, s') ∧ n.toInt = (k + out.length : ℕ) ∧
      s'.buffers.flatten = s.buffers.flatten ++ out := by
  -- the count of the bytes so far goes with the state
  induction list generalizing s k out with
  | nil =>
    cases hout
    exact ⟨s.res, s, rfl, hres, (List.append_nil _).symm⟩
  | cons item rest ih =>
    cases item with
    | missing => cases hout
    | text bufs =>
      obtain ⟨out', hout', rfl⟩ := Option.map_eq_some_iff.mp hout
      rw [List.length_append] at hlt
      obtain ⟨t, heq, hbuffers, hres'⟩ :=
        emit_acceptAll bufs (exec acceptAll rest) hres (by omega)
      obtain ⟨n, s', hend, hn, hflat⟩ := ih hout' hres' (by omega)
      refine ⟨n, s', heq.trans hend, ?_, ?_⟩
      · rw [hn, List.length_append, Nat.add_assoc]
      · rw [hflat, hbuffers, List.flatten_append, List.append_assoc]
    | conversion spec char arg =>
      rw [outputs] at hout
      split at hout
      · cases hout
      · next conv hconv =>
        split at hout
        · cases hout
        · next hchar =>
          obtain ⟨out', hout', rfl⟩ := Option.map_eq_some_iff.mp hout
          rw [List.length_append] at hlt
          -- the conversion is kept in the state, and has no part in what follows
          obtain ⟨t, heq, hbuffers, hres'⟩ :=
            emit_acceptAll conv.buffers (fun s => if char = none then (.pastFormat, s) else
              exec acceptAll rest s) (s := { s with convs := s.convs ++ [conv] }) hres (by omega)
          obtain ⟨n, s', hend, hn, hflat⟩ := ih hout' hres' (by omega)
          refine ⟨n, s', ?_, ?_, ?_⟩
          · simp only [exec, hconv]
            rw [heq, if_neg hchar]
            exact hend
          · rw [hn, List.length_append, Nat.add_assoc]
          · rw [hflat, hbuffers, List.flatten_append, List.append_assoc]

/-- No piece prints more than it should, so what is printed is right just if every piece is. -/
theorem printed_iff {pieces : List Piece} (hlt : ∀ p ∈ pieces, p.printed.length < 2 ^ 31) :
    (printed pieces = some (printf pieces) ↔ ∀ p ∈ pieces, p.Agrees) ∧
      ∀ out, printed pieces = some out → out.length ≤ (printf pieces).length := by
  induction pieces with
  | nil =>
    refine ⟨iff_of_true rfl (List.forall_mem_nil _), ?_⟩
    rintro _ ⟨⟩
    exact Nat.le_refl _
  | cons piece pieces ih =>
    obtain ⟨hagrees, hle⟩ := Piece.output_iff (hlt piece List.mem_cons_self)
    obtain ⟨hall, hle'⟩ := ih fun p hp => hlt p (List.mem_cons_of_mem _ hp)
    have hprintf : printf (piece :: pieces) = piece.printed ++ printf pieces :=
      List.flatMap_cons
    have hsplit : ∀ out, printed (piece :: pieces) = some out ↔
        ∃ o o', piece.output = some o ∧ printed pieces = some o' ∧ o ++ o' = out := by
      intro out
      simp only [printed, Option.bind_eq_some_iff, Option.map_eq_some_iff]
      exact ⟨fun ⟨o, ho, o', ho', h⟩ => ⟨o, o', ho, ho', h⟩, fun ⟨o, o', ho, ho', h⟩ =>
        ⟨o, ho, o', ho', h⟩⟩
    rw [List.forall_mem_cons, hprintf]
    constructor
    · rw [hsplit]
      constructor
      · rintro ⟨o, o', ho, ho', happend⟩
        have hlength := congrArg List.length happend
        rw [List.length_append, List.length_append] at hlength
        have hpiece := hle o ho
        have hpieces := hle' o' ho'
        obtain ⟨rfl, rfl⟩ := List.append_inj happend (by omega)
        exact ⟨hagrees.mp ho, hall.mp ho'⟩
      · rintro ⟨hpiece, hpieces⟩
        exact ⟨_, _, hagrees.mpr hpiece, hall.mpr hpieces, rfl⟩
    · intro out hout
      obtain ⟨o, o', ho, ho', rfl⟩ := (hsplit out).mp hout
      rw [List.length_append, List.length_append]
      exact Nat.add_le_add (hle o ho) (hle' o' ho')

theorem length_printed_le {piece : Piece} {pieces : List Piece} (h : piece ∈ pieces) :
    piece.printed.length ≤ (printf pieces).length :=
  (List.sublist_flatten_of_mem (List.mem_map_of_mem h)).length_le

/-- The code prints what `printf` prints, and counts it, just if that can be counted, no zeros
come in front of a sign, and the strings are cut where they should be. -/
theorem meets_iff (pieces : List Piece) :
    Meets pieces ↔ (printf pieces).length < 2 ^ 31 ∧ ∀ p ∈ pieces, p.Agrees := by
  have hfits : (printf pieces).length < 2 ^ 31 →
      outputs (items (pieces.flatMap Piece.text) (pieces.flatMap Piece.args)) = printed pieces ∧
        (printed pieces = some (printf pieces) ↔ ∀ p ∈ pieces, p.Agrees) := by
    intro hlt
    refine ⟨outputs_items_pieces pieces ?_, (printed_iff ?_).1⟩
    · intro flags width operand zero hmem
      have hle := length_printed_le hmem
      rw [Piece.printed, length_justify] at hle
      omega
    · exact fun p hp => Nat.lt_of_le_of_lt (length_printed_le hp) hlt
  rw [Meets, cbprintf_eq_exec]
  constructor
  · rintro ⟨⟨n, hreturned, hn⟩, hflat⟩
    have hlt : (printf pieces).length < 2 ^ 31 := by
      have hmax := BitVec.toInt_lt (x := n)
      omega
    obtain ⟨hitems, hagrees⟩ := hfits hlt
    obtain ⟨out, hout, hflat'⟩ := outputs_of_returned (Prod.ext hreturned rfl) (by omega)
    have hsame : out = printf pieces := by
      rw [hflat] at hflat'
      exact hflat'.symm
    rw [hitems, hsame] at hout
    exact ⟨hlt, hagrees.mp hout⟩
  · rintro ⟨hlt, hall⟩
    obtain ⟨hitems, hagrees⟩ := hfits hlt
    obtain ⟨n, s', heq, hn, hflat⟩ := exec_acceptAll (s := .initial) (k := 0)
      (hitems.trans (hagrees.mpr hall)) rfl (by omega)
    rw [heq]
    refine ⟨⟨n, rfl, ?_⟩, hflat⟩
    rw [hn, Nat.zero_add]

/-- `%05d` -/
def fiveDigits (value : Word) : Piece :=
  .conv [.zero] (.digits 5 [] (by decide)) (.signed false value) fun _ => trivial

example : printf [fiveDigits (-42)] = ['-', '0', '0', '4', '2'].map Char.toUInt8 := by decide

/-- The zeros of `%05d` come in front of the sign. -/
theorem not_meets : ¬Meets [fiveDigits (-42)] := by
  rintro ⟨-, hflat⟩
  have hbuffers : (cbprintf acceptAll ([fiveDigits (-42)].flatMap Piece.text)
      ([fiveDigits (-42)].flatMap Piece.args)).2.buffers.flatten =
        ['0'.toUInt8, '0'.toUInt8, '-'.toUInt8, '4'.toUInt8, '2'.toUInt8] := by decide
  rw [hbuffers] at hflat
  exact absurd hflat (by decide)

end BentoLinker.Glue.Cbprintf
