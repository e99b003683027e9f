import Mathlib.Data.Int.Notation
import Mathlib.Data.List.Nodup
import Mathlib.Data.Nat.Notation
import Mathlib.Tactic.Ring

/-!
# Signatures of Functions

The classes `Arg` and `Fn` of the recipes: the types of imports and exports, with the arguments
that are bound to constants.

- `Arg`, `Fn`: arguments, and functions whose names and sizes are consistent
- `Fn.args`: what is left of the arguments on the side of an export
- `Fn.iscompatible`, `Fn.islinkable`: the predicates of the linker
-/

namespace BentoLinker.Linker

/-! ## Section 1: Arguments -/

/-- `Arg.PRIMITIVES` -/
inductive Prim where
  | bool
  | u8 | u16 | u32 | u64 | usize
  | i8 | i16 | i32 | i64 | isize
  | f32 | f64
  | err | err32 | err64 | errsize
  deriving Repr, DecidableEq

/-- The size of an array, a number or the argument that has it -/
inductive ASize where
  | num (n : ℕ)
  | arg (name : String)
  deriving Repr, DecidableEq

/-- `Arg` -/
structure Arg where
  name : Option String
  prim : Prim
  isconst : Bool
  ismut : Bool
  isnullable : Bool
  /-- `_ptr`, which is one star at most -/
  ptr : Bool
  asize : Option ASize
  deriving Repr, DecidableEq

namespace Arg

/-- A plain value -/
def value (prim : Prim) (name : Option String) : Arg where
  name
  prim
  isconst := false
  ismut := false
  isnullable := false
  ptr := false
  asize := none

/-- The argument that has the size of the array -/
def asizeName (arg : Arg) : Option String :=
  match arg.asize with
  | some (.arg name) => some name
  | _ => none

/-- The size of the array where it is a number, the source's `'dyn'` elsewhere -/
def asizeNum (arg : Arg) : Option ℕ :=
  match arg.asize with
  | some (.num n) => some n
  | _ => none

/-- `Arg.__eq__`, for which a pointer and an array with a variable size have the same size -/
def eq (self other : Arg) : Bool :=
  self.isconst = other.isconst ∧ self.ismut = other.ismut ∧ self.isnullable = other.isnullable ∧
    self.prim = other.prim ∧ self.ptr = other.ptr ∧ self.asizeNum = other.asizeNum

/-- `isarray`, which is not true of an array of size 0 -/
def isarray (arg : Arg) : Bool :=
  match arg.asize with
  | none | some (.num 0) => false
  | some _ => true

/-- `isptr` -/
def isptr (arg : Arg) : Bool := arg.ptr || arg.isarray

/-- `iserr` -/
def iserr (arg : Arg) : Bool :=
  match arg.prim with
  | .err | .err32 | .err64 | .errsize => !arg.isptr
  | _ => false

end Arg

/-! ## Section 2: Functions -/

/-- `Fn`, as its constructor accepts it. Names are unique, the size of an array is an argument,
and only arguments are bound. -/
structure Fn where
  name : String
  scope : Option String
  source : String
  alias_ : String
  weak : Bool
  noreturn : Bool
  preboundargs : List Arg
  rets : List Arg
  boundargs : List (String × ℤ)
  /-- `args` has only the arguments that are not bound -/
  ispostbound : Bool
  names_nodup : ((preboundargs ++ rets).filterMap Arg.name).Nodup := by decide
  asizes_mem : ∀ arg ∈ preboundargs, ∀ name ∈ arg.asizeName,
    name ∈ preboundargs.filterMap Arg.name := by decide
  rets_asize : ∀ ret ∈ rets, ret.asizeName = none := by decide
  bound_mem : ∀ bound ∈ boundargs, bound.1 ∈ preboundargs.filterMap Arg.name := by decide
  bound_nodup : (boundargs.map Prod.fst).Nodup := by decide
  deriving DecidableEq

theorem nodup_noBound : (([] : List (String × ℤ)).map Prod.fst).Nodup := List.nodup_nil

namespace Fn

/-- `boundargs[name]` -/
def boundarg? (self : Fn) (name : String) : Option ℤ := self.boundargs.lookup name

/-- The constant that an argument is bound to -/
def bound? (self : Fn) (arg : Arg) : Option ℤ := arg.name.bind self.boundarg?

/-- `postboundargs` -/
def postboundargs (self : Fn) : List Arg :=
  self.preboundargs.filter fun arg => (self.bound? arg).isNone

/-- `args` -/
def args (self : Fn) : List Arg :=
  if self.ispostbound then self.postboundargs else self.preboundargs

/-- What functions are the same by, when boxes are linked -/
def key (self : Fn) : Option String × String := (self.scope, self.name)

/-- `isfalible` -/
def isfalible (self : Fn) : Bool := self.rets.any Arg.iserr

/-- The dictionaries `anames` and `bnames` of `iscompatible` -/
def argIndex (self : Fn) (name : String) : Option ℕ :=
  let i := self.args.findIdx fun arg => arg.name = some name
  if i < self.args.length then some i else none

/-- The loop of `iscompatible`; there is no result when a dictionary does not have a name. -/
def compatibleArgs (anames bnames : String → Option ℕ) : List (Arg × Arg) → Option Bool
  | [] => some true
  | (a, b) :: rest =>
    -- check that types are equivalent?
    if !a.eq b then some false
    else
      -- check that array references are in the correct places
      match a.asizeName with
      | none => compatibleArgs anames bnames rest
      | some size => do
        let i ← anames size
        let j ← b.asizeName.bind bnames
        if i = j then compatibleArgs anames bnames rest else return false

/-- `iscompatible`. The longer list of types is cut. -/
def iscompatible (self other : Fn) : Option Bool :=
  compatibleArgs self.argIndex other.argIndex
    ((self.args ++ self.rets).zip (other.args ++ other.rets))

/-- `islinkable` -/
def islinkable (self other : Fn) (exportbox importbox : String) : Bool :=
  self.name = other.name ∧ (self.scope = none ∨ self.scope = some exportbox) ∧
    (other.scope = none ∨ other.scope = some importbox)

/-- What an import can link to depends on the key of the export only. -/
theorem islinkable_of_key_eq (self : Fn) {other other' : Fn} (h : other.key = other'.key)
    (exportbox importbox : String) :
    self.islinkable other exportbox importbox = self.islinkable other' exportbox importbox := by
  have hscope : other.scope = other'.scope := congrArg Prod.fst h
  have hname : other.name = other'.name := congrArg Prod.snd h
  unfold islinkable
  rw [hscope, hname]

end Fn

end BentoLinker.Linker
