import BentoLinker.Lib.PythonRepr
import Mathlib.Data.List.Dedup

/-!
# Dictionaries as Arguments

`ArgumentParser.parse_dict` in `argstuff.py`: a dictionary of option values is written as
arguments, and these are parsed as those of a command line are.

- `Value`, `buildargs`: a nested dictionary, and its arguments
- `parselist`: the type of a list option
- `Parser`, `normalise`, `parseArg`, `superParse`: the arguments taken one by one
- `nsnest`: dots in the names of the results
- `parseDict`: all of it

A parser is the options that it and its nested parsers declare; sets and globs look at the
arguments that are left over only, and there are none.
-/

namespace BentoLinker.Recipe

open PythonText

abbrev Text := List Char

/-- What a version of Python does: the characters that `repr` prints as they are, and whether
`argparse` takes a `--` away that is the value of an option -/
structure Python where
  printable : Char → Bool
  stripsDashes : Bool

/-! ## Section 1: Dictionaries -/

/-- `None`, a string, a list of strings, or a dictionary; `True` is written as a string. -/
inductive Value where
  | none
  | str (s : Text)
  | list (l : List Text)
  | dict (entries : List (Text × Value))

/-- `'.'.join(path)` -/
def dotted : List Text → Text
  | [] => []
  | [k] => k
  | k :: path => k ++ '.' :: dotted path

/-- `'--%s=%s'` -/
def argument (path : List Text) (value : Text) : Text := '-' :: '-' :: (dotted path ++ '=' :: value)

mutual

/-- The turn of `buildargs` for a value -/
def Value.args (py : Python) (path : List Text) : Value → List Text
  | .none => []
  | .str s => [argument path s]
  | .list l => [argument path (strList py.printable l)]
  | .dict entries => buildargs py path entries

def buildargs (py : Python) (path : List Text) : List (Text × Value) → List Text
  | [] => []
  | (k, v) :: entries => v.args py (path ++ [k]) ++ buildargs py path entries

end

/-! ## Section 2: Types -/

/-- `(\')?(.*)(?(1)\')`, and its second group -/
def unquote (x : Text) : Text :=
  match x with
  | c :: rest =>
    if c = apostrophe then (upToLast apostrophe rest).getD (x.takeWhile (· ≠ newline))
    else x.takeWhile (· ≠ newline)
  | [] => []

/-- `\[(.*)\]` in front of the type of a list option -/
def parselist (x : Text) : Option (List Text) :=
  match strip x with
  | '[' :: rest => (upToLast ']' rest).map fun inner => (commas inner).map fun x => unquote (strip x)
  | _ => none

inductive Kind where
  | string | list
deriving DecidableEq

/-- The value of an option -/
inductive Leaf where
  | str (s : Text)
  | list (l : List Text)
deriving DecidableEq

/-- `_get_values` and the type of an option; `none` is an exception. -/
def Kind.parse (py : Python) : Kind → Text → Option Leaf
  | .string, text =>
    if py.stripsDashes ∧ text = ['-', '-'] then none else some (.str text)
  | .list, text => (parselist text).map .list

/-! ## Section 3: Arguments -/

/-- An option `--flag` with the name of its result -/
structure Opt where
  flag : Text
  dest : Text
  kind : Kind

/-- Two options have different flags. -/
structure Parser where
  options : List Opt
  nodup : (options.map Opt.flag).Nodup

/-- The name and the value of `--name=value`, split at all of the `=` -/
def normalise (arg : Text) : Text :=
  match arg with
  | '-' :: '-' :: text =>
    match text.splitOn '=' with
    | a :: b => '-' :: '-' :: (a.map (fun c => if c = '-' then '_' else c) ++ '=' :: b.flatten)
    | [] => arg
  | _ => arg

/-- The attributes of a namespace, with `none` for `None` -/
abbrev Flat := List (Text × Option Leaf)

/-- `setattr(ns, k, v)` -/
def setattr (k : Text) (v : Option Leaf) : Flat → Flat
  | [] => [(k, v)]
  | (k', v') :: ns => if k' = k then (k, v) :: ns else (k', v') :: setattr k v ns

/-- The defaults, where there is no attribute yet -/
def Parser.defaults (parser : Parser) : Flat :=
  parser.options.foldl (fun ns opt => if ns.any (·.1 = opt.dest) then ns
    else ns ++ [(opt.dest, none)]) []

/-- An argument `--flag=value`, split at the first `=` -/
def parseArg (py : Python) (parser : Parser) (ns : Flat) (arg : Text) : Option Flat :=
  match arg with
  | '-' :: '-' :: text => do
    let opt ← parser.options.find? fun opt => opt.flag = text.takeWhile (· ≠ '=')
    let value ← opt.kind.parse py ((text.dropWhile (· ≠ '=')).drop 1)
    pure (setattr opt.dest (some value) ns)
  | _ => none

def superParse (py : Python) (parser : Parser) (args : List Text) : Option Flat :=
  args.foldlM (parseArg py parser) parser.defaults

/-! ## Section 4: Namespaces -/

/-- A namespace, nested -/
inductive Space where
  | leaf (v : Option Leaf)
  | node (entries : List (Text × Space))

def scopeOf (k : Text) : Text := k.takeWhile (· ≠ '.')

/-- The names in a scope, without it -/
def inside (scope : Text) (ns : Flat) : Flat :=
  (ns.filter fun kv => '.' ∈ kv.1 ∧ scopeOf kv.1 = scope).map fun kv =>
    ((kv.1.dropWhile (· ≠ '.')).drop 1, kv.2)

def scopes (ns : Flat) : List Text :=
  ((ns.filter fun kv => '.' ∈ kv.1).map fun kv => scopeOf kv.1).dedup

/-- `nsnest`: a scope replaces an attribute of its name. -/
def nsnest : ℕ → Flat → List (Text × Space)
  | 0, _ => []
  | fuel + 1, ns =>
    ((ns.filter fun kv => '.' ∉ kv.1 ∧ !(scopes ns).contains kv.1).map fun kv => (kv.1, .leaf kv.2)) ++
      (scopes ns).map fun scope => (scope, .node (nsnest fuel (inside scope ns)))

/-- One turn for each character of a name is enough. -/
def depth (ns : Flat) : ℕ := (ns.map fun kv => kv.1.length).sum + 1

/-- `getattr` along a path -/
def Space.at_ : Space → List Text → Option Space
  | s, [] => some s
  | .leaf _, _ :: _ => none
  | .node entries, k :: path => (entries.lookup k).bind fun s => s.at_ path

/-- `parse_dict` -/
def parseDict (py : Python) (parser : Parser) (dict : List (Text × Value)) : Option Space := do
  let args := (buildargs py [] dict).map normalise
  let ns ← superParse py parser args
  -- delete fake args
  let ns := ns.filter fun kv => kv.1 ≠ [] ∧ '!' ∉ kv.1
  pure (.node (nsnest (depth ns) ns))

end BentoLinker.Recipe
