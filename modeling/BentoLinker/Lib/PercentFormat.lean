import Mathlib.Tactic.TypeStar

/-!
# Percent Formatting

The `%` operator of Python on a template and a mapping, as far as it can fail: every directive
`%(key)c` looks its key up and converts the value as the letter `c` says.

- `formatDirective`: one directive
- `format`: a template, as the directives in it
- `format_eq_ok`: a template can be formatted if each of its directives can
-/

namespace BentoLinker.PercentFormat

/-- What a mapping has for a key -/
inductive Value where
  | int
  | str
  deriving Repr, DecidableEq

/-- `%(key)c` -/
structure Directive where
  key : String
  conversion : Char
  deriving Repr, DecidableEq

inductive PyError where
  | keyError
  | typeError
  | valueError
  deriving Repr, DecidableEq

/-- The letters that convert anything -/
def anyLetters : List Char := ['s', 'r', 'a', '%']

/-- The letters that need a number -/
def numberLetters : List Char :=
  ['d', 'i', 'o', 'u', 'x', 'X', 'e', 'E', 'f', 'F', 'g', 'G', 'c']

/-- The key is looked up before the letter is read. -/
def formatDirective (attrs : String → Option Value) (d : Directive) : Except PyError Unit :=
  match attrs d.key with
  | none => .error .keyError
  | some value =>
    if d.conversion ∈ anyLetters then .ok ()
    else if d.conversion ∈ numberLetters then
      if value = .int then .ok () else .error .typeError
    -- "unsupported format character"
    else .error .valueError

/-- The directives of a template, in order -/
def format (attrs : String → Option Value) : List Directive → Except PyError Unit
  | [] => .ok ()
  | d :: ds =>
    match formatDirective attrs d with
    | .ok () => format attrs ds
    | .error e => .error e

theorem format_eq_ok {attrs : String → Option Value} {ds : List Directive} :
    format attrs ds = .ok () ↔ ∀ d ∈ ds, formatDirective attrs d = .ok () := by
  induction ds with
  | nil => simp [format]
  | cons d ds ih =>
    cases h : formatDirective attrs d with
    | ok u => simp [format, h, ih]
    | error e => simp [format, h]

/-- An unknown letter cannot be formatted, whatever the mapping has. -/
theorem formatDirective_ne_ok {attrs : String → Option Value} {d : Directive}
    (hany : d.conversion ∉ anyLetters) (hnumber : d.conversion ∉ numberLetters) :
    formatDirective attrs d ≠ .ok () := by
  unfold formatDirective
  cases attrs d.key with
  | none => simp
  | some value => simp [hany, hnumber]

end BentoLinker.PercentFormat
