import BentoLinker.Lib.Backtracking
import BentoLinker.Lib.FallibleFold
import BentoLinker.Lib.PythonText
import BentoLinker.Linker.Signature
import Mathlib.Tactic.ByContra

/-!
# Types of Arguments as Text

`Arg.parsetype`, `Arg.__init__` and `Arg.__str__`: the regular expression for the type of an
argument, and the text that is printed for one.

1. `argtype`: the regular expression
2. `Arg.parse`, `Arg.str`: the constructor, and the text
3. `Arg.WellFormed`: what the constructor has checked
-/

namespace BentoLinker.Linker

open Backtracking PythonText

/-! ## Section 1: The regular expression -/

/-- `Arg.MODIFIERS` -/
inductive Modifier where
  | const | mut | nullable
  deriving Repr, DecidableEq

def Modifier.text : Modifier → List Char
  | .const => "const".toList
  | .mut => "mut".toList
  | .nullable => "nullable".toList

def Modifier.all : List Modifier := [.const, .mut, .nullable]

def Prim.text : Prim → List Char
  | .bool => "bool".toList
  | .u8 => "u8".toList
  | .u16 => "u16".toList
  | .u32 => "u32".toList
  | .u64 => "u64".toList
  | .usize => "usize".toList
  | .i8 => "i8".toList
  | .i16 => "i16".toList
  | .i32 => "i32".toList
  | .i64 => "i64".toList
  | .isize => "isize".toList
  | .f32 => "f32".toList
  | .f64 => "f64".toList
  | .err => "err".toList
  | .err32 => "err32".toList
  | .err64 => "err64".toList
  | .errsize => "errsize".toList

def Prim.all : List Prim :=
  [.bool, .u8, .u16, .u32, .u64, .usize, .i8, .i16, .i32, .i64, .isize, .f32, .f64, .err, .err32,
    .err64, .errsize]

/-- `[a-zA-Z_]` -/
def identStart (c : Char) : Bool := c.isAlpha || c == '_'

/-- `[a-zA-Z_0-9]` -/
def identChar (c : Char) : Bool := c.isAlphanum || c == '_'

/-- `[0-9a-fA-F]` -/
def hexChar (c : Char) : Bool := c.isDigit || ('a' ≤ c && c ≤ 'f') || ('A' ≤ c && c ≤ 'F')

/-- A character as it is -/
def char (c : Char) : Pattern := .cls (· == c)

/-- `\s*` -/
def spaces : Pattern := .star (.cls isSpace)

/-- `namepattern`: `[a-zA-Z_][a-zA-Z_0-9]*` -/
def namepattern : Pattern := seqs [.cls identStart, .star (.cls identChar)]

/-- `numpattern`: `(?:0[oxb])?[0-9a-fA-F]+` -/
def numpattern : Pattern :=
  seqs [.opt (seqs [char '0', .cls fun c => c == 'o' || c == 'x' || c == 'b']), .cls hexChar,
    .star (.cls hexChar)]

/-- `modpattern`: `(?:(?:const|mut|nullable)\b\s*)*` -/
def modpattern : Pattern := .star (seqs [keyword (Modifier.all.map Modifier.text), spaces])

/-- `primpattern`: `(?:bool|u8|..)\b` -/
def primpattern : Pattern := keyword (Prim.all.map Prim.text)

/-- `arraypattern`: `\[\s*(?:(name)|(num))\s*\]`, whose groups are `g` and the next one -/
def arraypattern (g : ℕ) : Pattern :=
  seqs [char '[', spaces, .alt (.group g namepattern) (.group (g + 1) numpattern), spaces, char ']']

/-- `ptrpattern`: `(?:\s*\*\s*|\s*array\s*)*` -/
def ptrpattern (g : ℕ) : Pattern :=
  .star (.alt (seqs [spaces, char '*', spaces]) (seqs [spaces, arraypattern g, spaces]))

/-- `^\s*argpattern\s*$`, which is
`^\s*(?:\s*(name)\s*:\s*)?(mod)\s*(prim)\s*(ptr)\s*(name)?\s*(ptr)\s*$` -/
def argtype : Pattern :=
  seqs [spaces, .opt (seqs [spaces, .group 1 namepattern, spaces, char ':', spaces]),
    .group 2 modpattern, spaces, .group 3 primpattern, spaces, .group 4 (ptrpattern 5), spaces,
    .opt (.group 7 namepattern), spaces, .group 8 (ptrpattern 9), spaces, .stop]

/-! ## Section 2: Arguments and texts -/

/-- What raises a `ValueError` -/
inductive ArgError where
  | invalid
  | duplicateNames
  | badNumber
  | indirect
  | unexpectedModifier
  | noModifier
  | tooManyModifiers
  deriving Repr, DecidableEq

/-- The tuple that `parsetype` returns -/
structure ArgType where
  name : Option (List Char)
  mod : List (List Char)
  prim : List Char
  ptr : List Char
  asize : Option ASize
  deriving Repr, DecidableEq

/-- `m.group(n)`, with the empty text for a group that is not set -/
def groupText (gs : List (ℕ × List Char)) (n : ℕ) : List Char := (gs.lookup n).getD []

/-- `s or None` -/
def orNone (s : List Char) : Option (List Char) := if s = [] then none else some s

/-- `int(s, 0)` -/
def sizeNum (s : List Char) : Except ArgError (Option ASize) :=
  match int0 s with
  | some n => .ok (some (.num n))
  | none => .error .badNumber

/-- `asize`: the last name in brackets of the first group of pointers, the last number, and the
same for the second -/
def asizeOf (name num name' num' : List Char) : Except ArgError (Option ASize) :=
  if name ≠ [] then .ok (some (.arg (String.ofList name)))
  else if num ≠ [] then sizeNum num
  else if name' ≠ [] then .ok (some (.arg (String.ofList name')))
  else if num' ≠ [] then sizeNum num'
  else .ok none

/-- What becomes of the groups -/
def argGroups (gs : List (ℕ × List Char)) : Except ArgError ArgType :=
  if groupText gs 1 ≠ [] ∧ groupText gs 7 ≠ [] then .error .duplicateNames
  else do
    let asize ← asizeOf (groupText gs 5) (groupText gs 6) (groupText gs 9) (groupText gs 10)
    pure
      { name := (orNone (groupText gs 1)).orElse fun _ => orNone (groupText gs 7)
        mod := words (groupText gs 2)
        prim := groupText gs 3
        ptr := (groupText gs 4 ++ groupText gs 8).filter (· == '*')
        asize }

/-- `Arg.parsetype` -/
def Arg.parsetype (alnum : Char → Bool) (s : List Char) : Except ArgError ArgType :=
  match run (isWord alnum) argtype s with
  | none => .error .invalid
  | some gs => argGroups gs

/-- The fields that `__init__` sets, in front of its checks -/
def ArgType.toArg (t : ArgType) (prim : Prim) : Arg where
  name := t.name.map String.ofList
  prim
  isconst := Modifier.const.text ∈ t.mod
  ismut := Modifier.mut.text ∈ t.mod
  isnullable := Modifier.nullable.text ∈ t.mod
  ptr := t.ptr ≠ []
  asize := t.asize

/-- `Arg(type)` -/
def Arg.parse (alnum : Char → Bool) (s : List Char) : Except ArgError Arg := do
  let t ← parsetype alnum s
  match Prim.all.find? fun prim => prim.text = t.prim with
  | none => throw .invalid
  | some prim =>
    let arg := t.toArg prim
    if 1 < t.ptr.length then throw .indirect
    else if t.mod ≠ [] ∧ !arg.isptr then throw .unexpectedModifier
    else if arg.isptr ∧ !arg.isconst ∧ !arg.ismut then throw .noModifier
    else if arg.isconst ∧ arg.ismut then throw .tooManyModifiers
    else pure arg

theorem Arg.parsetype_of_run {alnum : Char → Bool} {s : List Char}
    {gs : List (ℕ × List Char)} (h : run (isWord alnum) argtype s = some gs) : Arg.parsetype alnum s = argGroups gs := by
  rw [parsetype, h]

/-- The checks of a type whose fields have been read -/
theorem Arg.parse_of_parsetype {alnum : Char → Bool} {s : List Char} {t : ArgType} {prim : Prim}
    (h : Arg.parsetype alnum s = .ok t)
    (hprim : Prim.all.find? (fun prim => prim.text = t.prim) = some prim) :
    Arg.parse alnum s =
      if 1 < t.ptr.length then throw .indirect
      else if t.mod ≠ [] ∧ !(t.toArg prim).isptr then throw .unexpectedModifier
      else if (t.toArg prim).isptr ∧ !(t.toArg prim).isconst ∧ !(t.toArg prim).ismut then
        throw .noModifier
      else if (t.toArg prim).isconst ∧ (t.toArg prim).ismut then throw .tooManyModifiers
      else pure (t.toArg prim) := by
  rw [parse, h]
  dsimp only [bind, Except.bind]
  rw [hprim]

/-- The set `_mod` -/
def Arg.mods (arg : Arg) : List Modifier :=
  (if arg.isconst then [.const] else []) ++ (if arg.ismut then [.mut] else []) ++
    if arg.isnullable then [.nullable] else []

/-- The orders in which Python goes through the set of the `i`-th argument -/
structure SetOrder where
  order : ℕ → List Modifier → List Modifier
  perm : ∀ i mods, (order i mods).Perm mods

/-- `name` -/
def Arg.nameText (arg : Arg) : List Char := (arg.name.getD "").toList

/-- `self._ptr or ''` -/
def Arg.ptrText (arg : Arg) : List Char := if arg.ptr then ['*'] else []

def ASize.text : ASize → List Char
  | .num n => decimal n
  | .arg name => name.toList

/-- `'[%s]' % self._asize if self._asize else ''` -/
def Arg.asizeText (arg : Arg) : List Char :=
  match arg.asize with
  | none | some (.num 0) => []
  | some size => '[' :: (size.text ++ [']'])

/-- `Arg.__str__`, with the modifiers in the order given -/
def Arg.str (mods : List Modifier) (arg : Arg) : List Char :=
  -- `'%s ' % ' '.join(self._mod) if self._mod else ''`
  (mods.flatMap fun mod => mod.text ++ [' ']) ++ (arg.prim.text ++
    ((if arg.nameText ≠ [] then [' '] else []) ++ (arg.ptrText ++ (arg.nameText ++ arg.asizeText))))

/-! ## Section 3: What the constructor has checked -/

/-- `[a-zA-Z_][a-zA-Z_0-9]*` -/
def IsName (w : List Char) : Prop := ∃ c cs, w = c :: cs ∧ identStart c = true ∧
  ∀ d ∈ cs, identChar d = true

/-- Arguments that the constructor makes -/
structure Arg.WellFormed (arg : Arg) : Prop where
  name : ∀ name ∈ arg.name, IsName name.toList
  asize : ∀ name ∈ arg.asizeName, IsName name.toList
  modifier : arg.mods ≠ [] → arg.isptr = true
  pointer : arg.isptr = true → arg.isconst = true ∨ arg.ismut = true
  one : ¬(arg.isconst = true ∧ arg.ismut = true)

theorem reads_cls_star {p : Char → Bool} {w : List Char} (h : Reads (.star (.cls p)) w) :
    ∀ c ∈ w, p c = true := by
  obtain ⟨us, rfl, hus⟩ := h
  intro c hc
  obtain ⟨u, hu, hc⟩ := List.mem_flatten.mp hc
  obtain ⟨c', hc', rfl⟩ := hus u hu
  obtain rfl := List.mem_singleton.mp hc
  exact hc'

theorem isName_of_reads {w : List Char} (h : Reads namepattern w) : IsName w := by
  obtain ⟨u, v, rfl, ⟨c, hc, rfl⟩, v', x, rfl, hv, hx⟩ := h
  obtain rfl : x = [] := hx
  refine ⟨c, v', by simp, hc, reads_cls_star hv⟩

/-- The groups of names have names. -/
theorem isName_of_sets {n : ℕ} {w : List Char} (h : Sets argtype n w)
    (hn : n = 1 ∨ n = 5 ∨ n = 7 ∨ n = 9) : IsName w := by
  have hreads : Reads namepattern w := by
    rcases hn with rfl | rfl | rfl | rfl <;>
      simpa [argtype, seqs, Sets, modpattern, primpattern, ptrpattern, arraypattern, spaces, char,
        not_sets_keyword, namepattern, numpattern] using h
  exact isName_of_reads hreads

section Parsed

variable {alnum : Char → Bool} {s : List Char} {gs : List (ℕ × List Char)} {t : ArgType}
  {arg : Arg}

theorem isName_groupText (hrun : run (isWord alnum) argtype s = some gs) {n : ℕ}
    (hn : n = 1 ∨ n = 5 ∨ n = 7 ∨ n = 9) (hne : groupText gs n ≠ []) :
    IsName (groupText gs n) := by
  unfold groupText at hne ⊢
  cases hw : gs.lookup n with
  | none =>
    rw [hw] at hne
    exact absurd rfl hne
  | some w => exact isName_of_sets (sets_of_run hrun hw) hn

theorem isName_orNone (hrun : run (isWord alnum) argtype s = some gs) {n : ℕ}
    (hn : n = 1 ∨ n = 5 ∨ n = 7 ∨ n = 9) {w : List Char} (hw : orNone (groupText gs n) = some w) :
    IsName w := by
  unfold orNone at hw
  split at hw
  · cases hw
  · next hne =>
    cases hw
    exact isName_groupText hrun hn hne

/-- A size that is a name is one of the two groups for names. -/
theorem asizeOf_arg {name num name' num' : List Char} {size : String}
    (h : asizeOf name num name' num' = .ok (some (.arg size))) :
    name ≠ [] ∧ size.toList = name ∨ name' ≠ [] ∧ size.toList = name' := by
  have hnum : ∀ {w}, sizeNum w ≠ .ok (some (.arg size)) := by
    intro w hw
    unfold sizeNum at hw
    split at hw
    · cases hw
    · cases hw
  unfold asizeOf at h
  split at h
  · next hne =>
    cases h
    exact .inl ⟨hne, String.toList_ofList⟩
  · split at h
    · exact absurd h hnum
    · split at h
      · next hne =>
        cases h
        exact .inr ⟨hne, String.toList_ofList⟩
      · split at h
        · exact absurd h hnum
        · cases h

theorem argGroups_eq_ok (h : argGroups gs = .ok t) :
    asizeOf (groupText gs 5) (groupText gs 6) (groupText gs 9) (groupText gs 10) = .ok t.asize ∧
      t.name = (orNone (groupText gs 1)).orElse fun _ => orNone (groupText gs 7) := by
  unfold argGroups at h
  split at h
  · cases h
  · obtain ⟨asize, hasize, h⟩ := FallibleFold.bind_ok.mp h
    cases h
    exact ⟨hasize, rfl⟩

/-- What a call of the constructor that succeeds comes from -/
theorem Arg.parse_eq_ok (h : Arg.parse alnum s = .ok arg) :
    ∃ gs t prim, run (isWord alnum) argtype s = some gs ∧ argGroups gs = .ok t ∧
      arg = t.toArg prim ∧ ¬(t.mod ≠ [] ∧ !arg.isptr) ∧
      ¬(arg.isptr ∧ !arg.isconst ∧ !arg.ismut) ∧ ¬(arg.isconst ∧ arg.ismut) := by
  obtain ⟨t, ht, h⟩ := FallibleFold.bind_ok.mp h
  unfold Arg.parsetype at ht
  split at ht
  · cases ht
  · next gs hgs =>
    split at h
    · cases h
    · next prim hprim =>
      dsimp only at h
      split at h
      · cases h
      · split at h
        · cases h
        · next hmodifier =>
          split at h
          · cases h
          · next hpointer =>
            split at h
            · cases h
            · next hone =>
              cases h
              exact ⟨gs, t, prim, hgs, ht, rfl, hmodifier, hpointer, hone⟩

theorem ArgType.mod_ne_nil {t : ArgType} {prim : Prim} (h : (t.toArg prim).mods ≠ []) :
    t.mod ≠ [] := by
  intro hmod
  apply h
  simp [Arg.mods, ArgType.toArg, hmod]

/-- The constructor makes arguments that are well formed. -/
theorem Arg.wellFormed_of_parse (h : Arg.parse alnum s = .ok arg) : arg.WellFormed := by
  obtain ⟨gs, t, prim, hgs, ht, rfl, hmodifier, hpointer, hone⟩ := Arg.parse_eq_ok h
  obtain ⟨hasize, hname⟩ := argGroups_eq_ok ht
  refine ⟨?_, ?_, ?_, ?_, hone⟩
  · intro name hmem
    obtain ⟨w, hw, rfl⟩ := Option.map_eq_some_iff.mp hmem
    rw [String.toList_ofList]
    rw [hname] at hw
    cases hfirst : orNone (groupText gs 1) with
    | some u =>
      rw [hfirst] at hw
      cases hw
      exact isName_orNone hgs (.inl rfl) hfirst
    | none =>
      rw [hfirst] at hw
      exact isName_orNone hgs (.inr (.inr (.inl rfl))) hw
  · intro name hmem
    have hsize : t.asize = some (.arg name) := by
      unfold Arg.asizeName at hmem
      split at hmem
      · next heq =>
        cases hmem
        exact heq
      · cases hmem
    rw [hsize] at hasize
    rcases asizeOf_arg hasize with ⟨hne, heq⟩ | ⟨hne, heq⟩
    · rw [heq]
      exact isName_groupText hgs (.inr (.inl rfl)) hne
    · rw [heq]
      exact isName_groupText hgs (.inr (.inr (.inr rfl))) hne
  · intro hmods
    by_contra hptr
    exact hmodifier ⟨ArgType.mod_ne_nil hmods, by simpa using hptr⟩
  · intro hptr
    by_contra hnone
    rw [not_or] at hnone
    exact hpointer ⟨hptr, by simpa using hnone.1, by simpa using hnone.2⟩

end Parsed

end BentoLinker.Linker
