import BentoLinker.Glue.Malloc
import Mathlib.Data.Nat.Digits.Defs

/-!
# The Small Printf

`__box_cbprintf` in `write_glue.py`, the printf that is linked into the boxes and into the
system. The format is scanned by hand, and all that is printed goes to a callback.

- `Spec`, `scan`: the format parser, up to the conversion character
- `Conv`, `convert`: the conversions, which take their arguments
- `Conv.buffers`: what is handed to `write` for a conversion
- `emit`, `run`: the calls of `write`, and the outer loop
- `items`, `exec`: the whole format parsed, and its items printed one after another
- `run_eq_exec`: the outer loop prints the items of the format

A format is the text in front of its NUL, and a pointer into it is the text from there on.
Signed arithmetic wraps.
-/

namespace BentoLinker.Glue.Cbprintf

abbrev Bytes := List UInt8

/-- One of the arguments: its 32 bits, and the array that these point to, if they do -/
structure Arg where
  value : Word
  target : Bytes
  fits : target.length < 2 ^ 32

/-! ## Section 1: The format parser -/

/-- The variables of the parser; `width` and `precision` hold the residues of these numbers. -/
structure Spec where
  zeroJustify : Bool
  leftJustify : Bool
  precisionMode : Bool
  width : ℕ
  precision : ℕ
  plain : precisionMode = false → precision = 0

def sizeT (n : ℕ) : ℕ := n % 2 ^ 32

def Spec.initial : Spec := ⟨false, false, false, 0, 0, fun _ => rfl⟩

def isDigit (c : UInt8) : Bool := '0'.toUInt8 ≤ c && c ≤ '9'.toUInt8

def digitValue (c : UInt8) : ℕ := c.toNat - '0'.toNat

def Spec.digit (spec : Spec) (c : UInt8) : Spec :=
  if hmode : spec.precisionMode then
    { spec with precision := spec.precision * 10 + digitValue c, plain := by simp [hmode] }
  else if c > '0'.toUInt8 ∨ sizeT spec.width > 0 then
    { spec with width := spec.width * 10 + digitValue c }
  else { spec with zeroJustify := true }

def Spec.star (spec : Spec) (value : Word) : Spec :=
  if hmode : spec.precisionMode then
    { spec with precision := value.toNat, plain := by simp [hmode] }
  else { spec with width := value.toNat }

/-- The `.` -/
def Spec.dot (spec : Spec) : Spec := { spec with precisionMode := true, plain := by simp }

/-- Where the parser comes to a conversion: the character, which is `none` for the NUL, and
what is left of the format and of the arguments -/
structure Found where
  spec : Spec
  char : Option UInt8
  rest : Bytes
  args : List Arg

/-- The loop over `p[1]`, with the text behind `p`; `none` is an argument that there is not. -/
def scan : Bytes → Spec → List Arg → Option Found
  | [], spec, args => some ⟨spec, none, [], args⟩
  | c :: cs, spec, args =>
    if isDigit c then scan cs (spec.digit c) args
    else if c = '*'.toUInt8 then
      match args with
      | [] => none
      | arg :: args => scan cs (spec.star arg.value) args
    else if c = '.'.toUInt8 then scan cs spec.dot args
    else if c = '-'.toUInt8 then scan cs { spec with leftJustify := true } args
    -- '%' is the one conversion among the characters of the last test
    else if c ≠ '%'.toUInt8 ∧ ' '.toUInt8 ≤ c ∧ c ≤ '?'.toUInt8 then scan cs spec args
    else some ⟨spec, some c, cs, args⟩

/-! ## Section 2: Conversions -/

inductive Mode where
  | c | s | x | d | u
deriving DecidableEq

/-- `mode`, `value` and `size`, with the array that `value` points to in mode `s` -/
structure Conv where
  spec : Spec
  mode : Mode
  value : Word
  target : Bytes
  size : ℕ

/-- How the function ends: it returns, or it reads what is not there. -/
inductive Stop where
  | returned (n : Word)
  | pastFormat
  | pastArguments
  | pastString
  | outOfFuel
deriving DecidableEq

/-- `while (s[size] && (precision == 0 || size < precision))`; `none` is a read behind the
array. -/
def strSize (precision : ℕ) : Bytes → ℕ → Option ℕ
  | [], _ => none
  | c :: s, size =>
    if c ≠ 0 ∧ (precision = 0 ∨ size < precision) then strSize precision s (size + 1)
    else some size

/-- `for (uint32_t t = value; t > 0; t /= base)` -/
def digitCount (base value : ℕ) : ℕ := (Nat.digits base value).length

def atLeastOne (size : ℕ) : ℕ := if size = 0 then size + 1 else size

def signedSize (d : Word) : ℕ :=
  if d.toInt < 0 then 1 + digitCount 10 (-d).toNat else digitCount 10 d.toNat

/-- Only `%%` takes no argument. -/
def takesArg (c : Option UInt8) : Bool := c ≠ some '%'.toUInt8

/-- The branches of the format parser that end its loop -/
def convert (spec : Spec) (c : Option UInt8) (arg : Option Arg) : Except Stop Conv :=
  if c = some '%'.toUInt8 then .ok ⟨spec, .c, '%'.val.toBitVec, [], 1⟩
  else match arg with
    | none => .error .pastArguments
    | some arg =>
      if c = some 'c'.toUInt8 then .ok ⟨spec, .c, arg.value, [], 1⟩
      else if c = some 's'.toUInt8 then
        match strSize (sizeT spec.precision) arg.target 0 with
        | none => .error .pastString
        | some size => .ok ⟨spec, .s, arg.value, arg.target, size⟩
      else if c = some 'd'.toUInt8 ∨ c = some 'i'.toUInt8 then
        .ok ⟨spec, .d, arg.value, [], atLeastOne (signedSize arg.value)⟩
      else if c = some 'u'.toUInt8 then
        .ok ⟨spec, .u, arg.value, [], atLeastOne (digitCount 10 arg.value.toNat)⟩
      else
        -- hex or unknown character, prettier for pointers
        let spec := if c = some 'x'.toUInt8 ∨ c = some 'X'.toUInt8 then spec
          else { spec with zeroJustify := true, width := 8 }
        .ok ⟨spec, .x, arg.value, [], atLeastOne (digitCount 16 arg.value.toNat)⟩

/-! ## Section 3: Format printing -/

def digitByte (digit : ℕ) : UInt8 :=
  UInt8.ofNat ((if digit ≥ 10 then 'a'.toNat - 10 else '0'.toNat) + digit)

/-- The loop from `i = size-1` down to 0, with a digit each time -/
def digitBuffers (base value size : ℕ) : List Bytes :=
  (List.range size).reverse.map fun i => [digitByte (value / base ^ i % base)]

/-- `(ssize_t)width-(ssize_t)size` -/
def Conv.padding (conv : Conv) : ℕ :=
  (BitVec.ofNat 32 conv.spec.width - BitVec.ofNat 32 conv.size).toInt.toNat

def Conv.field (conv : Conv) : List Bytes :=
  match conv.mode with
  | .c => [[UInt8.ofNat conv.value.toNat]]
  | .s => [conv.target.take conv.size]
  | .x => digitBuffers 16 conv.value.toNat conv.size
  | .d =>
    if conv.value.toInt < 0 then
      ['-'.toUInt8] :: digitBuffers 10 (-conv.value).toNat (conv.size - 1)
    else digitBuffers 10 conv.value.toNat conv.size
  | .u => digitBuffers 10 conv.value.toNat conv.size

/-- The buffers that a conversion hands to `write` -/
def Conv.buffers (conv : Conv) : List Bytes :=
  let pad := if conv.spec.zeroJustify then '0'.toUInt8 else ' '.toUInt8
  if conv.spec.leftJustify then conv.field ++ List.replicate conv.padding [' '.toUInt8]
  else List.replicate conv.padding [pad] ++ conv.field

/-- `write`: what it returns for a buffer, behind the buffers that it has got before -/
abbrev Write := List Bytes → Bytes → Word

/-- `res`, and what has happened: the buffers that `write` has got and what it has returned, and
the conversions whose arguments have been read -/
structure State where
  res : Word
  buffers : List Bytes
  results : List Word
  convs : List Conv

def State.initial : State := ⟨0, [], [], []⟩

/-- The calls of `write` for some buffers, and what is done then; a negative result is
returned. -/
def emit (write : Write) : List Bytes → State → (State → Stop × State) → Stop × State
  | [], s, next => next s
  | buf :: bufs, s, next =>
    let nres := write s.buffers buf
    let s := { s with buffers := s.buffers ++ [buf], results := s.results ++ [nres] }
    if nres.toInt < 0 then (.returned nres, s)
    else emit write bufs { s with res := s.res + nres } next

def isPercent (c : UInt8) : Bool := c = '%'.toUInt8

/-- What is in front of the next `%`, if that is more than nothing -/
def skipped (text : Bytes) : List Bytes :=
  match text.takeWhile (!isPercent ·) with
  | [] => []
  | c :: cs => [c :: cs]

/-- The arguments behind a conversion -/
def Found.left (found : Found) : List Arg :=
  if takesArg found.char then found.args.tail else found.args

/-- The outer loop; a NUL that the scan has come to is stepped over by `p += 2`. -/
def run (write : Write) : ℕ → Bytes → List Arg → State → Stop × State
  | 0, _, _, s => (.outOfFuel, s)
  | fuel + 1, text, args, s =>
    emit write (skipped text) s fun s =>
      match text.dropWhile (!isPercent ·) with
      | [] => (.returned s.res, s)
      | _ :: behind =>
        match scan behind .initial args with
        | none => (.pastArguments, s)
        | some found =>
          match convert found.spec found.char found.args.head? with
          | .error stop => (stop, s)
          | .ok conv =>
            emit write conv.buffers { s with convs := s.convs ++ [conv] } fun s =>
              if found.char = none then (.pastFormat, s)
              else run write fuel found.rest found.left s

/-- `__box_cbprintf`; every turn of the outer loop has a character of the format to itself. -/
def cbprintf (write : Write) (format : Bytes) (args : List Arg) : Stop × State :=
  run write (format.length + 1) format args .initial

/-! ## Section 4: The items of a format -/

inductive Item where
  | text (bufs : List Bytes)
  | conversion (spec : Spec) (char : Option UInt8) (arg : Option Arg)
  | missing

theorem scan_rest_le {behind : Bytes} {spec : Spec} {args : List Arg} {found : Found}
    (h : scan behind spec args = some found) : found.rest.length ≤ behind.length := by
  induction behind, spec, args using scan.induct <;> unfold scan at h <;> grind

theorem items_decreasing {text behind : Bytes} {c : UInt8} {spec : Spec} {args : List Arg}
    {found : Found} (htext : text.dropWhile (!isPercent ·) = c :: behind)
    (hscan : scan behind spec args = some found) : found.rest.length < text.length := by
  have hle := (List.dropWhile_suffix (!isPercent ·) (l := text)).length_le
  rw [htext, List.length_cons] at hle
  exact Nat.lt_of_le_of_lt (scan_rest_le hscan) hle

/-- The items of the format as the parser finds them -/
def items (text : Bytes) (args : List Arg) : List Item :=
  .text (skipped text) ::
    match _htext : text.dropWhile (!isPercent ·) with
    | [] => []
    | _ :: behind =>
      match _hscan : scan behind .initial args with
      | none => [.missing]
      | some found =>
        .conversion found.spec found.char found.args.head? ::
          if found.char = none then [] else items found.rest found.left
termination_by text.length
decreasing_by exact items_decreasing _htext _hscan

variable {text behind : Bytes} {c : UInt8} {args : List Arg} {found : Found}

theorem items_of_end (h : text.dropWhile (!isPercent ·) = []) (args : List Arg) :
    items text args = [.text (skipped text)] := by
  rw [items]
  split
  · rfl
  · next htext =>
    rw [h] at htext
    cases htext

theorem items_of_percent (h : text.dropWhile (!isPercent ·) = c :: behind) (args : List Arg) :
    items text args = .text (skipped text) ::
      match scan behind .initial args with
      | none => [.missing]
      | some found =>
        .conversion found.spec found.char found.args.head? ::
          if found.char = none then [] else items found.rest found.left := by
  rw [items]
  split
  · next htext =>
    rw [h] at htext
    cases htext
  · next htext =>
    rw [h] at htext
    cases htext
    split <;> simp only [*]

def exec (write : Write) : List Item → State → Stop × State
  | [], s => (.returned s.res, s)
  | .text bufs :: rest, s => emit write bufs s (exec write rest)
  | .conversion spec char arg :: rest, s =>
    match convert spec char arg with
    | .error stop => (stop, s)
    | .ok conv =>
      emit write conv.buffers { s with convs := s.convs ++ [conv] } fun s =>
        if char = none then (.pastFormat, s) else exec write rest s
  | .missing :: _, s => (.pastArguments, s)

/-- Each turn of the loop makes the text shorter, so the fuel is enough. -/
theorem run_eq_exec (write : Write) {fuel : ℕ} {text : Bytes} (h : text.length < fuel)
    (args : List Arg) (s : State) :
    run write fuel text args s = exec write (items text args) s := by
  induction fuel generalizing text args s with
  | zero => exact absurd h (Nat.not_lt_zero _)
  | succ fuel ih =>
    rw [run]
    split
    · next htext =>
      rw [items_of_end htext, exec]
      rfl
    · next c behind htext =>
      rw [items_of_percent htext, exec]
      congr 1
      funext s
      cases hscan : scan behind .initial args with
      | none => rfl
      | some found =>
        simp only [exec]
        split
        · rfl
        · congr 1
          funext s
          split
          · rfl
          · exact ih (by have := items_decreasing htext hscan; omega) _ _

theorem cbprintf_eq_exec (write : Write) (format : Bytes) (args : List Arg) :
    cbprintf write format args = exec write (items format args) .initial :=
  run_eq_exec write (Nat.lt_succ_self _) args .initial

theorem emit_ne_outOfFuel (write : Write) (bufs : List Bytes) (s : State)
    {next : State → Stop × State} (h : ∀ s', (next s').1 ≠ .outOfFuel) :
    (emit write bufs s next).1 ≠ .outOfFuel := by
  induction bufs generalizing s with
  | nil => exact h s
  | cons buf bufs ih =>
    rw [emit]
    split
    · exact Stop.noConfusion
    · exact ih _

/-- What is missing is an argument, or the character that a string stops at. -/
theorem convert_eq_error {spec : Spec} {char : Option UInt8} {arg : Option Arg} {stop : Stop}
    (h : convert spec char arg = .error stop) :
    (stop = .pastArguments ∧ takesArg char ∧ arg = none) ∨
      (stop = .pastString ∧ char = some 's'.toUInt8 ∧ ∃ a, arg = some a ∧
        strSize (sizeT spec.precision) a.target 0 = none) := by
  unfold convert at h
  split at h
  · cases h
  · next hpercent =>
    split at h
    · cases h
      exact .inl ⟨rfl, by simpa [takesArg] using hpercent, rfl⟩
    · next a =>
      right
      split at h
      · cases h
      · split at h
        · next hchar =>
          split at h
          · next hsize =>
            cases h
            exact ⟨rfl, hchar, a, rfl, hsize⟩
          · cases h
        · split_ifs at h

/-- The fuel is enough, for every format. -/
theorem cbprintf_ends (write : Write) (format : Bytes) (args : List Arg) :
    (cbprintf write format args).1 ≠ .outOfFuel := by
  rw [cbprintf_eq_exec]
  generalize State.initial = s
  induction items format args generalizing s with
  | nil => exact Stop.noConfusion
  | cons item rest ih =>
    cases item with
    | text bufs => exact emit_ne_outOfFuel write bufs s ih
    | missing => exact Stop.noConfusion
    | conversion spec char arg =>
      rw [exec]
      split
      · next stop hconv =>
        rcases convert_eq_error hconv with ⟨rfl, -⟩ | ⟨rfl, -⟩ <;> exact Stop.noConfusion
      · apply emit_ne_outOfFuel
        intro s'
        split
        · exact Stop.noConfusion
        · exact ih s'

end BentoLinker.Glue.Cbprintf
