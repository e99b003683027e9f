import Mathlib.Data.Int.Notation
import Mathlib.Data.Nat.Notation
import Mathlib.Tactic.ByContra
import Mathlib.Tactic.Ring

/-!
# Results in Rust

The conversions that `build_c2rust` and `build_rust2c` in `rust.py` generate for the types of
errors, on a 32-bit target, and the type `Error` of `error_glue.py`.

- `IntType`, `tryFrom`: the integer types, and `T::try_from(n).unwrap()`
- `Error`: a code that is not 0 and has 31 bits
- `c2rust`, `rust2c`: from a code to a `Result`, and back
- `result_iff`: they are right just where there is no error

A panic is `none`. The code of an error is not negated on its way from C, so that
`u32::try_from` fails.
-/

namespace BentoLinker.Glue.RustResults

/-! ## Section 1: Integers -/

inductive IntType where
  | u32 | u64 | usize | i32 | i64 | isize
  deriving Repr, DecidableEq

namespace IntType

def min : IntType → ℤ
  | u32 | u64 | usize => 0
  | i32 | isize => -2 ^ 31
  | i64 => -2 ^ 63

def max : IntType → ℤ
  | u32 | usize => 2 ^ 32 - 1
  | u64 => 2 ^ 64 - 1
  | i32 | isize => 2 ^ 31 - 1
  | i64 => 2 ^ 63 - 1

def Fits (t : IntType) (n : ℤ) : Prop := t.min ≤ n ∧ n ≤ t.max

instance (t : IntType) (n : ℤ) : Decidable (t.Fits n) := inferInstanceAs (Decidable (_ ∧ _))

end IntType

/-- An integer of a type -/
abbrev RInt (t : IntType) := { n : ℤ // t.Fits n }

/-- `T::try_from(n).unwrap()` -/
def tryFrom (t : IntType) (n : ℤ) : Option (RInt t) := if h : t.Fits n then some ⟨n, h⟩ else none

/-- `-n` on `i32` -/
def neg (n : RInt .i32) : Option (RInt .i32) := tryFrom .i32 (-n.1)

theorem tryFrom_of_fits {t : IntType} {n : ℤ} (h : t.Fits n) : tryFrom t n = some ⟨n, h⟩ := dif_pos h

theorem tryFrom_of_not {t : IntType} {n : ℤ} (h : ¬t.Fits n) : tryFrom t n = none := dif_neg h

/-! ## Section 2: Errors -/

/-- `Error`, a `NonZeroU32` below `2 ^ 31` -/
structure Error where
  code : ℕ
  pos : 0 < code
  lt : code < 2 ^ 31
  deriving Repr, DecidableEq

/-- `Error::new` -/
def Error.new (code : RInt .u32) : Option Error :=
  if h : 0 < code.1.toNat ∧ code.1.toNat < 2 ^ 31 then some ⟨code.1.toNat, h.1, h.2⟩ else none

/-- `Error::get_i32` -/
def Error.getI32 (e : Error) : RInt .i32 :=
  ⟨e.code, by have := e.lt; exact ⟨by simp only [IntType.min]; omega,
    by simp only [IntType.max]; omega⟩⟩

/-- `Arg.PRIMITIVES` that `iserr` -/
inductive ErrPrim where
  | err | err32 | err64 | errsize
  deriving Repr, DecidableEq

namespace ErrPrim

/-- `repr_rawarg` -/
def raw : ErrPrim → IntType
  | err | err32 => .i32
  | err64 => .i64
  | errsize => .isize

/-- `repr_arg`: the type in `Result`, with `none` for `()` -/
def value? : ErrPrim → Option IntType
  | err => none
  | err32 => some .u32
  | err64 => some .u64
  | errsize => some .usize

/-- What is in `Ok` -/
def Value (p : ErrPrim) : Type :=
  match p.value? with
  | none => Unit
  | some t => RInt t

end ErrPrim

/-! ## Section 3: Conversions -/

/-- What `build_c2rust` puts in `Ok` -/
def okValue (p : ErrPrim) (name : ℤ) : Option p.Value :=
  match p with
  | .err => some ()
  | .err32 => tryFrom .u32 name
  | .err64 => tryFrom .u64 name
  | .errsize => tryFrom .usize name

/-- `match name >= 0 { true => Ok(..), false => Err(..) }` -/
def c2rust (p : ErrPrim) (name : RInt p.raw) : Option (Except Error p.Value) :=
  if 0 ≤ name.1 then (okValue p name.1).map .ok
  else do
    -- `Error::new(u32::try_from(name).unwrap()).unwrap()`
    let code ← tryFrom .u32 name.1
    let err ← Error.new code
    pure (.error err)

/-- `match name { Ok(x) => .., Err(err) => .. }` -/
def rust2c (p : ErrPrim) (name : Except Error p.Value) : Option (RInt p.raw) :=
  match p, name with
  | .err, .ok () => tryFrom .i32 0
  | .err32, .ok x => tryFrom .i32 x.1
  | .err64, .ok x => tryFrom .i64 x.1
  | .errsize, .ok x => tryFrom .isize x.1
  | .err, .error err => neg err.getI32
  | .err32, .error err => neg err.getI32
  | .err64, .error err => do
    let n ← neg err.getI32
    -- `i64::from`, which does not fail
    tryFrom .i64 n.1
  | .errsize, .error err => do
    let n ← neg err.getI32
    tryFrom .isize n.1

/-! ## Section 4: What they should do -/

/-- The number in `Ok`, with 0 for `()` -/
def number (p : ErrPrim) (x : p.Value) : ℤ :=
  match p, x with
  | .err, () => 0
  | .err32, x => x.1
  | .err64, x => x.1
  | .errsize, x => x.1

/-- The value of the result fits the type in C. -/
def Representable (p : ErrPrim) (r : Except Error p.Value) : Prop :=
  ∀ x, r = .ok x → p.raw.Fits (number p x)

/-- There is an error with the code. -/
def FitsError (c : ℤ) : Prop := 0 < -c ∧ -c < 2 ^ 31

/-- A result comes back. -/
def ComesBack (p : ErrPrim) (r : Except Error p.Value) : Prop :=
  ∃ c, rust2c p r = some c ∧ c2rust p c = some r

/-- A code that is not negative becomes `Ok` with its value, which `()` has none of, and a
negative one the error with the code. -/
def Converts (p : ErrPrim) (c : RInt p.raw) : Prop :=
  ∃ r, c2rust p c = some r ∧
    match r with
    | .ok x => 0 ≤ c.1 ∧ (p ≠ .err → number p x = c.1)
    | .error e => c.1 < 0 ∧ (e.code : ℤ) = -c.1

/-- Codes below 0 are no `u32`. -/
theorem c2rust_of_neg {p : ErrPrim} {c : RInt p.raw} (h : c.1 < 0) : c2rust p c = none := by
  have hnot : ¬IntType.u32.Fits c.1 := fun hfits => absurd hfits.1 (Int.not_le.mpr h)
  rw [c2rust, if_neg (Int.not_le.mpr h), tryFrom_of_not hnot]
  rfl

theorem exists_okValue {p : ErrPrim} {c : RInt p.raw} (h : 0 ≤ c.1) :
    ∃ x, okValue p c.1 = some x ∧ (p ≠ .err → number p x = c.1) := by
  have hmax := c.2.2
  cases p with
  | err => exact ⟨(), rfl, fun hne => absurd rfl hne⟩
  | err32 =>
    have hfits : IntType.u32.Fits c.1 := ⟨h, Int.le_trans hmax (by decide)⟩
    exact ⟨⟨c.1, hfits⟩, tryFrom_of_fits hfits, fun _ => rfl⟩
  | err64 =>
    have hfits : IntType.u64.Fits c.1 := ⟨h, Int.le_trans hmax (by decide)⟩
    exact ⟨⟨c.1, hfits⟩, tryFrom_of_fits hfits, fun _ => rfl⟩
  | errsize =>
    have hfits : IntType.usize.Fits c.1 := ⟨h, Int.le_trans hmax (by decide)⟩
    exact ⟨⟨c.1, hfits⟩, tryFrom_of_fits hfits, fun _ => rfl⟩

theorem exists_c2rust {p : ErrPrim} {c : RInt p.raw} (h : 0 ≤ c.1) :
    ∃ x, c2rust p c = some (.ok x) ∧ (p ≠ .err → number p x = c.1) := by
  obtain ⟨x, hx, hnumber⟩ := exists_okValue h
  refine ⟨x, ?_, hnumber⟩
  rw [c2rust, if_pos h, hx]
  rfl

/-- A code is converted as it should be just if it is not negative. -/
theorem converts_iff (p : ErrPrim) (c : RInt p.raw) : Converts p c ↔ 0 ≤ c.1 := by
  constructor
  · rintro ⟨r, hr, -⟩
    by_contra hneg
    rw [c2rust_of_neg (Int.not_le.mp hneg)] at hr
    cases hr
  · intro h
    obtain ⟨x, hx, hnumber⟩ := exists_c2rust h
    exact ⟨_, hx, h, hnumber⟩

/-- Numbers that are not negative and of the same type are the same value. -/
theorem number_injective {p : ErrPrim} {x y : p.Value} (hp : p ≠ .err)
    (h : number p x = number p y) : x = y := by
  cases p with
  | err => exact absurd rfl hp
  | err32 => exact Subtype.ext h
  | err64 => exact Subtype.ext h
  | errsize => exact Subtype.ext h

theorem number_nonneg (p : ErrPrim) (x : p.Value) : 0 ≤ number p x := by
  cases p with
  | err => exact Int.le_refl 0
  | err32 => exact x.2.1
  | err64 => exact x.2.1
  | errsize => exact x.2.1

/-- A value that fits is written as its number. -/
theorem rust2c_ok {p : ErrPrim} {x : p.Value} (h : p.raw.Fits (number p x)) :
    rust2c p (.ok x) = some ⟨number p x, h⟩ := by
  cases p with
  | err => exact tryFrom_of_fits h
  | err32 => exact tryFrom_of_fits h
  | err64 => exact tryFrom_of_fits h
  | errsize => exact tryFrom_of_fits h

/-- An error is written as its code, negated. -/
theorem exists_rust2c_error (p : ErrPrim) (e : Error) :
    ∃ c, rust2c p (.error e) = some c ∧ c.1 = -e.code := by
  have hpos := e.pos
  have hlt := e.lt
  have hi32 : IntType.i32.Fits (-e.code) := by
    constructor
    · simp only [IntType.min]
      omega
    · simp only [IntType.max]
      omega
  have hneg : neg e.getI32 = some ⟨-e.code, hi32⟩ := tryFrom_of_fits hi32
  cases p with
  | err => exact ⟨_, hneg, rfl⟩
  | err32 => exact ⟨_, hneg, rfl⟩
  | err64 =>
    have hi64 : IntType.i64.Fits (-e.code) :=
      ⟨Int.le_trans (by decide) hi32.1, Int.le_trans hi32.2 (by decide)⟩
    refine ⟨⟨-e.code, hi64⟩, ?_, rfl⟩
    rw [rust2c, hneg]
    exact tryFrom_of_fits hi64
  | errsize =>
    refine ⟨⟨-e.code, hi32⟩, ?_, rfl⟩
    rw [rust2c, hneg]
    exact tryFrom_of_fits hi32

/-- A result comes back just if it is no error. -/
theorem comesBack_iff {p : ErrPrim} {r : Except Error p.Value} (h : Representable p r) :
    ComesBack p r ↔ ∃ x, r = .ok x := by
  cases r with
  | ok x =>
    have hfits := h x rfl
    obtain ⟨y, hy, hnumber⟩ := exists_c2rust (c := ⟨number p x, hfits⟩) (number_nonneg p x)
    refine ⟨fun _ => ⟨x, rfl⟩, fun _ => ⟨_, rust2c_ok hfits, ?_⟩⟩
    rw [hy]
    by_cases hp : p = .err
    · subst hp
      rfl
    · rw [number_injective hp (hnumber hp)]
  | error e =>
    obtain ⟨c, hc, hcode⟩ := exists_rust2c_error p e
    have hpos := e.pos
    constructor
    · rintro ⟨c', hc', hback⟩
      rw [hc] at hc'
      cases hc'
      rw [c2rust_of_neg (by omega)] at hback
      cases hback
    · rintro ⟨x, hx⟩
      cases hx

/-- The conversions are right just where there is no error: a result comes back just if it is
`Ok`, and a code is converted as it should be just if it is not negative. -/
theorem result_iff (p : ErrPrim) :
    (∀ r, Representable p r → (ComesBack p r ↔ ∃ x, r = .ok x)) ∧
      ∀ c : RInt p.raw, 0 ≤ c.1 ∨ FitsError c.1 → (Converts p c ↔ 0 ≤ c.1) :=
  ⟨fun _ => comesBack_iff, fun c _ => converts_iff p c⟩

/-- `Ok(2147483647)` comes back from `err32`, and -5 is not converted. -/
theorem result_iff_err32 :
    ComesBack .err32 (.ok ⟨2147483647, by decide⟩) ∧ ¬Converts .err32 ⟨-5, by decide⟩ := by
  constructor
  · refine ((result_iff .err32).1 _ ?_).mpr ⟨_, rfl⟩
    intro x hx
    cases hx
    decide
  · intro hconverts
    exact absurd (((result_iff .err32).2 ⟨-5, by decide⟩ (.inr ⟨by decide, by decide⟩)).mp hconverts)
      (by decide)

/-- `Error::General`, with the code 1, does not come back from `err`. -/
theorem not_comesBack : rust2c .err (.error ⟨1, by decide, by decide⟩) = some ⟨-1, by decide⟩ ∧
    c2rust .err ⟨-1, by decide⟩ = none :=
  ⟨rfl, rfl⟩

end BentoLinker.Glue.RustResults
