import BentoLinker.Lib.FallibleFold
import Mathlib.Tactic.TypeStar
import Mathlib.Tactic.Ring

/-!
# GLZ Errors

Outcomes of the Rust compressor (`errors.rs`): a value, an `Err` the caller can
handle, or a panic; loops of the model that take a step budget can also exhaust it.
Overflow checks are on, as in the `cargo build` profile of the tool's Makefile, so
arithmetic that leaves its type is a panic here.

`u32` values are natural numbers below `2 ^ 32`; every operation of the source
that can leave that range goes through one of the checked operations below.
`usize` sums are natural numbers: bit offsets do not reach `2 ^ 64`.
-/

namespace BentoLinker.Glz

/-- The errors of the crate, one constructor for each `ensure!` or `?` that makes one. -/
inductive Error where
  /-- "attempted to {op} {width}-bit symbol as u{realwidth}" -/
  | badWidth (op : String) (width realwidth : Nat)
  /-- "{op} would overflow a {width}-bit symbol" -/
  | symOverflow (op : String) (width : Nat)
  /-- "found truncated {width}-bit symbol" -/
  | truncated (width : Nat)
  /-- `TryFromIntError` of a symbol cast -/
  | tryFromInt
  /-- "unterminated rice code" -/
  | unterminatedRice
  /-- "biject encoded symbol can not be decoded" -/
  | undecodable
  /-- "leb128 exceeds 32-bit limit" -/
  | leb128Limit
  /-- "bad size {size}" -/
  | badSize (size : Nat)
  /-- "exceeded max depth ({depth} < 2)" -/
  | exceededDepth (depth : Nat)
  /-- "exceeded runtime limit ({cycles} <= {limit})" -/
  | exceededRuntime (cycles limit : Nat)
  /-- `chain_err`: an error with more context in front -/
  | chain (context : String) (cause : Error)
  deriving Repr, DecidableEq

/-- Why a Rust thread panics. -/
inductive Panic where
  | arithmetic
  | divisionByZero
  | sliceIndex
  | unwrapNone
  deriving Repr, DecidableEq

/-- Everything but a value. -/
inductive Fault where
  | err (e : Error)
  | panic (p : Panic)
  /-- the step budget a loop of the model is given ran out -/
  | outOfFuel
  deriving Repr, DecidableEq

/-- Outcome of a Rust computation. -/
abbrev Res (α : Type) := Except Fault α

def throwErr {α : Type} (e : Error) : Res α := .error (.err e)

def panic {α : Type} (p : Panic) : Res α := .error (.panic p)

/-- `ensure!(cond, ...)` -/
def ensure (cond : Bool) (e : Error) : Res Unit :=
  if cond then pure () else throwErr e

/-- `Result::ok`: errors become `None`, panics stay panics. -/
def okOrNone {α : Type} : Res α → Res (Option α)
  | .ok a => .ok (some a)
  | .error (.err _) => .ok none
  | .error f => .error f

/-- `chain_err` -/
def chainErr {α : Type} (context : String) : Res α → Res α
  | .error (.err e) => throwErr (.chain context e)
  | r => r

/-! ## Checked machine arithmetic -/

/-- A result that is in range only when `p` holds; the arithmetic panic otherwise. -/
def checked (p : Prop) [Decidable p] (n : Nat) : Res Nat :=
  if p then pure n else panic .arithmetic

/-- A `u32` result, or the overflow panic. -/
def checkU32 (n : Nat) : Res Nat := checked (n < 2 ^ 32) n

def addU32 (a b : Nat) : Res Nat := checkU32 (a + b)

def mulU32 (a b : Nat) : Res Nat := checkU32 (a * b)

/-- `a % b` on `u32` -/
def remU32 (a b : Nat) : Res Nat :=
  if b = 0 then panic .divisionByZero else pure (a % b)

/-- `a << k` on `u32`: bits shifted out are lost, too large a shift panics. -/
def shlU32 (a k : Nat) : Res Nat := checked (k < 32) ((a <<< k) % 2 ^ 32)

/-- `a >> k` on `u32` -/
def shrU32 (a k : Nat) : Res Nat := checked (k < 32) (a >>> k)

/-- `2u32.pow(k)` -/
def powU32 (k : Nat) : Res Nat := checked (k < 32) (2 ^ k)

/-- `2usize.pow(k)` on a 64-bit host -/
def powUsize (k : Nat) : Res Nat := checked (k < 64) (2 ^ k)

/-- `a - b` on `usize` -/
def subUsize (a b : Nat) : Res Nat := checked (b ≤ a) (a - b)

/-! ## Peeling computations apart -/

theorem Res.bind_eq_ok {α β : Type} {x : Res α} {f : α → Res β} {b : β} :
    (x >>= f) = .ok b ↔ ∃ a, x = .ok a ∧ f a = .ok b :=
  FallibleFold.bind_ok

theorem ensure_eq_ok {cond : Bool} {e : Error} {u : Unit} :
    ensure cond e = .ok u ↔ cond = true := by
  cases cond <;> simp [ensure, throwErr, pure, Except.pure]

theorem chainErr_eq_ok {α : Type} {context : String} {r : Res α} {a : α} :
    chainErr context r = .ok a ↔ r = .ok a := by
  cases r with
  | ok _ => simp [chainErr]
  | error f => cases f <;> simp [chainErr, throwErr]

theorem okOrNone_eq_some {α : Type} {r : Res α} {a : α} :
    okOrNone r = .ok (some a) ↔ r = .ok a := by
  cases r with
  | ok _ => simp [okOrNone]
  | error f => cases f <;> simp [okOrNone]

theorem checked_eq_ok {p : Prop} [Decidable p] {n m : Nat} :
    checked p n = .ok m ↔ p ∧ n = m := by
  unfold checked
  split
  · simp_all [pure, Except.pure]
  · simp_all [panic]

theorem checkU32_eq_ok {n m : Nat} : checkU32 n = .ok m ↔ n < 2 ^ 32 ∧ n = m :=
  checked_eq_ok

theorem addU32_eq_ok {a b m : Nat} : addU32 a b = .ok m ↔ a + b < 2 ^ 32 ∧ a + b = m :=
  checked_eq_ok

theorem mulU32_eq_ok {a b m : Nat} : mulU32 a b = .ok m ↔ a * b < 2 ^ 32 ∧ a * b = m :=
  checked_eq_ok

theorem shlU32_eq_ok {a k m : Nat} :
    shlU32 a k = .ok m ↔ k < 32 ∧ (a <<< k) % 2 ^ 32 = m :=
  checked_eq_ok

theorem shrU32_eq_ok {a k m : Nat} : shrU32 a k = .ok m ↔ k < 32 ∧ a >>> k = m :=
  checked_eq_ok

theorem powU32_eq_ok {k m : Nat} : powU32 k = .ok m ↔ k < 32 ∧ 2 ^ k = m :=
  checked_eq_ok

theorem powUsize_eq_ok {k m : Nat} : powUsize k = .ok m ↔ k < 64 ∧ 2 ^ k = m :=
  checked_eq_ok

theorem subUsize_eq_ok {a b m : Nat} : subUsize a b = .ok m ↔ b ≤ a ∧ a - b = m :=
  checked_eq_ok

theorem remU32_eq_ok {a b m : Nat} : remU32 a b = .ok m ↔ b ≠ 0 ∧ a % b = m := by
  unfold remU32
  split
  · simp_all [panic]
  · simp_all [pure, Except.pure]

end BentoLinker.Glz
