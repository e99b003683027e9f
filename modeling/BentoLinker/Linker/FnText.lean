import BentoLinker.Linker.ArgText

/-!
# Types of Functions as Text

`Fn.parsetype`, `Fn.__init__`, `Fn.__str__`, `Fn.prebound` and `Fn.postbound`.

- `fntype`: the regular expression for the type of an import or export
- `FnType`, `Fn.parsetype`: its two sides, taken apart
- `FnObject`: the attributes of an import or export; `FnKwargs.init`: the constructor
- `typeText`: what is printed
- `FnObject.prebound`, `FnObject.postbound`: the types with and without the arguments that are
  bound, which are printed and read
-/

namespace BentoLinker.Linker

open Backtracking PythonText

/-! ## Section 1: The regular expression -/

/-- `[:\*\[\]0-9]` -/
def fnChar (c : Char) : Bool := c == ':' || c == '*' || c == '[' || c == ']' || c.isDigit

/-- One turn of `argpattern` -/
def fnTurn : Pattern := seqs [.alt namepattern (.cls fnChar), spaces]

/-- `argpattern`: `(?:(?:name|[:\*\[\]0-9])\s*)+` -/
def fnArg : Pattern := plus fnTurn

/-- `(?:arg\s*(?:\s*,\s*arg\s*)*)?` -/
def fnArgs : Pattern :=
  .opt (seqs [fnArg, spaces, .star (seqs [spaces, char ',', spaces, fnArg, spaces])])

/-- With and without parens: `(?:\s*\(\s*(args)\s*,?\s*\)\s*|\s*(args)\s*,?\s*)`. The groups are
`g` and the next one. -/
def fnSide (g : ℕ) : Pattern :=
  .alt (seqs [spaces, char '(', spaces, .group g fnArgs, spaces, .opt (char ','), spaces, char ')',
      spaces])
    (seqs [spaces, .group (g + 1) fnArgs, spaces, .opt (char ','), spaces])

/-- `^\s*fnpattern\s*$`, which is `^\s*fn\s*side\s*->\s*side\s*$` -/
def fntype : Pattern :=
  seqs [spaces, literal "fn".toList, spaces, fnSide 1, spaces, literal "->".toList, spaces, fnSide 3,
    spaces, .stop]

/-! ## Section 2: Functions and texts -/

/-- What raises a `ValueError` -/
inductive FnError where
  | invalid
  | arg (e : ArgError)
  | notUnique
  | noSize
  | dependentReturn
  | unknownBound
  | arguments
  | returns
  deriving Repr, DecidableEq

/-- The tuple that `parsetype` returns -/
structure FnType where
  args : List (List Char)
  rets : List (List Char)
  noreturn : Bool
  deriving Repr, DecidableEq

/-- `s or t` -/
def orText (s t : List Char) : List Char := if s = [] then t else s

/-- An error of an argument, as one of the function -/
def ofArg {α : Type} : Except ArgError α → Except FnError α
  | .ok a => .ok a
  | .error e => .error (.arg e)

/-- `[['void'], ['']]` -/
def noArgs : List (List (List Char)) := [["void".toList], [[]]]

/-- What becomes of the groups -/
def fnGroups (gs : List (ℕ × List Char)) : FnType :=
  let args := (commas (orText (groupText gs 1) (groupText gs 2))).map strip
  let rets := (commas (orText (groupText gs 3) (groupText gs 4))).map strip
  let noreturn := rets = ["noreturn".toList]
  let rets := if noreturn then [] else rets
  { args := if args ∈ noArgs then [] else args
    rets := if rets ∈ noArgs then [] else rets
    noreturn }

/-- `Fn.parsetype` -/
def Fn.parsetype (alnum : Char → Bool) (s : List Char) : Except FnError FnType :=
  match run (isWord alnum) fntype s with
  | none => .error .invalid
  | some gs => do
    let t := fnGroups gs
    let _ ← (t.args ++ t.rets).mapM fun arg => ofArg (Arg.parsetype alnum arg)
    pure t

/-- `primwidth` -/
def Arg.primwidth (arg : Arg) : ℕ :=
  match arg.prim with
  | .i8 | .u8 | .bool => 8
  | .i16 | .u16 => 16
  | .u64 | .i64 | .f64 | .err64 => 64
  | _ => 32

/-- `width` -/
def Arg.width (arg : Arg) : ℕ := if arg.isptr then 32 else arg.primwidth

/-- `size` -/
def Arg.size (arg : Arg) : ℕ := if 32 < arg.width then arg.width / 8 else 4

/-- The dictionary `with_` -/
abbrev Bindings := { bound : List (String × ℤ) // (bound.map Prod.fst).Nodup }

def noBindings : Bindings := ⟨[], List.nodup_nil⟩

/-- Attributes of an import or an export -/
structure FnObject where
  isExport : Bool
  name : String
  scope : Option String
  source : String
  alias_ : String
  weak : Bool
  noreturn : Bool
  args : List Arg
  preboundargs : List Arg
  postboundargs : List Arg
  rets : List Arg
  boundargs : List (String × ℤ)
  deriving DecidableEq

/-- `if scope is None and '.' in name` -/
def splitScope (name : String) (scope : Option String) : Option String × String :=
  match scope with
  | some scope => (some scope, name)
  | none =>
    if '.' ∈ name.toList then
      (some (String.ofList (name.toList.takeWhile (· ≠ '.'))),
        String.ofList ((name.toList.dropWhile (· ≠ '.')).drop 1))
    else (none, name)

/-- `postboundargs` -/
def unbound (bound : List (String × ℤ)) (args : List Arg) : List Arg :=
  args.filter fun arg => !(arg.name.any fun name => name ∈ bound.map Prod.fst)

/-- The arguments of the constructor, apart from the type -/
structure FnKwargs where
  isExport : Bool
  name : String
  scope : Option String
  source : String
  alias_ : Option String
  with_ : Bindings
  weak : Bool
  careaboutlimits : Bool

namespace FnKwargs

/-- The same call, without `with_` -/
def withNone (k : FnKwargs) : FnKwargs := { k with with_ := noBindings }

/-- `args`, behind `if postbound`. An export sets `postbound`. -/
def used (k : FnKwargs) (args : List Arg) : List Arg :=
  if k.isExport then unbound k.with_.1 args else args

/-- The attributes that the constructor sets -/
def make (k : FnKwargs) (args rets : List Arg) (noreturn : Bool) : FnObject :=
  let (scope, name) := splitScope k.name k.scope
  { isExport := k.isExport
    name
    scope
    source := k.source
    alias_ := (k.alias_.filter (· ≠ "")).getD name
    weak := k.weak
    noreturn
    args := k.used args
    preboundargs := args
    postboundargs := unbound k.with_.1 args
    rets
    boundargs := k.with_.1 }

/-- `__init__`, behind the loops that make the arguments -/
def build (k : FnKwargs) (args rets : List Arg) (noreturn : Bool) : Except FnError FnObject :=
  let names := args.filterMap Arg.name
  if ¬((args ++ rets).filterMap Arg.name).Nodup then .error .notUnique
  else if ¬∀ arg ∈ args, ∀ size ∈ arg.asizeName, size ∈ names then .error .noSize
  else if ¬∀ ret ∈ rets, ret.asizeName = none then .error .dependentReturn
  else if ¬∀ bound ∈ k.with_.1, bound.1 ∈ names then .error .unknownBound
  else if k.careaboutlimits ∧ 4 * 4 < ((k.used args).map Arg.size).sum then .error .arguments
  else if k.careaboutlimits ∧ 1 < rets.length then .error .returns
  else .ok (k.make args rets noreturn)

/-- `Fn(name, type, ..)` -/
def init (alnum : Char → Bool) (k : FnKwargs) (type : List Char) :
    Except FnError FnObject := do
  let t ← Fn.parsetype alnum type
  let args ← t.args.mapM fun arg => ofArg (Arg.parse alnum arg)
  let rets ← t.rets.mapM fun ret => ofArg (Arg.parse alnum ret)
  k.build args rets t.noreturn

end FnKwargs

/-- `map(str, args)`, where `args` are the arguments from the `i`-th on -/
def strs (o : SetOrder) : ℕ → List Arg → List (List Char)
  | _, [] => []
  | i, arg :: args => arg.str (o.order i arg.mods) :: strs o (i + 1) args

/-- The texts behind the arrow -/
def retTexts (o : SetOrder) (i : ℕ) (rets : List Arg) (noreturn : Bool) : List (List Char) :=
  if noreturn then ["noreturn".toList]
  else if rets = [] then ["void".toList]
  else strs o i rets

/-- `'fn(%s) -> %s'` -/
def typeText (o : SetOrder) (args rets : List Arg) (noreturn : Bool) : List Char :=
  "fn(".toList ++ (join (strs o 0 args) ++ (") -> ".toList ++
    join (retTexts o args.length rets noreturn)))

namespace FnObject

/-- `__str__` -/
def str (o : SetOrder) (self : FnObject) : List Char := typeText o self.args self.rets self.noreturn

/-- The arguments with which `prebound` and `postbound` call the constructor -/
def kwargs (self : FnObject) : FnKwargs where
  isExport := self.isExport
  name := self.name
  scope := self.scope
  source := self.source
  alias_ := some self.alias_
  with_ := noBindings
  weak := false
  careaboutlimits := false

/-- `prebound` -/
def prebound (alnum : Char → Bool) (o : SetOrder) (self : FnObject) : Except FnError FnObject := do
  let nfn ← self.kwargs.init alnum (typeText o self.preboundargs self.rets self.noreturn)
  pure { nfn with boundargs := self.boundargs, postboundargs := self.postboundargs }

/-- `postbound` -/
def postbound (alnum : Char → Bool) (o : SetOrder) (self : FnObject) :
    Except FnError FnObject := do
  let nfn ← self.kwargs.init alnum (typeText o self.postboundargs self.rets self.noreturn)
  pure { nfn with boundargs := self.boundargs, preboundargs := self.preboundargs }

end FnObject

end BentoLinker.Linker
