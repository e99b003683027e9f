import BentoLinker.Lib.FreshNames
import BentoLinker.Linker.Signature
import Mathlib.Data.List.Perm.Basic
import Mathlib.Data.Nat.Digits.Defs

/-!
# Wrappers

The functions that are generated to call another one with its bound arguments filled in.

- `Fn.argnames`, `Fn.argnamesandbounds`, `Fn.uniquename`, `Fn.retname`: the names in a wrapper
- `Glue`: a wrapper; `Glue.Compiles`, `Glue.call`: what C makes of it
- `Fn.fill`: the arguments with the bound ones filled in
- `wrapper_passes_iff`: a wrapper passes them on unless an escaped name is in use or a size is bound
-/

namespace BentoLinker.Linker

open FreshNames

namespace Fn

/-! ## Section 1: Names -/

/-- The names of the arguments and of the result -/
def names (self : Fn) : List String := (self.preboundargs ++ self.rets).filterMap Arg.name

def escape (name : String) : String := "__box_" ++ name

/-- `uniquename` -/
def uniquename (self : Fn) (name : String) : String := fresh escape self.names name

/-- The nice looking name of argument `i` -/
def nicename (i : ℕ) : String := "a" ++ toString i

/-- The name that `argnames` has for argument `i` -/
def argname (self : Fn) (entry : Arg × ℕ) : String :=
  match entry.1.name with
  | some name => name
  | none => self.uniquename (nicename entry.2)

/-- `argnames`; without `prebound`, only those of the arguments that are not bound -/
def argnames (self : Fn) (prebound : Bool) : List String :=
  (self.preboundargs.zipIdx.filter fun entry => prebound || (self.bound? entry.1).isNone).map
    self.argname

/-- What is passed for an argument: a variable, or a constant -/
inductive Passed where
  | name (name : String)
  | const (c : ℤ)
  deriving Repr, DecidableEq

def Passed.name? : Passed → Option String
  | .name x => some x
  | .const _ => none

/-- `argnamesandbounds` -/
def argnamesandbounds (self : Fn) : List Passed :=
  (self.argnames true).map fun name =>
    match self.boundarg? name with
    | some c => .const c
    | none => .name name

/-- `zippedargsandbounds` -/
def zippedargsandbounds (self : Fn) : List (Arg × Passed) :=
  self.preboundargs.zip self.argnamesandbounds

/-- `retname` -/
def retname (self : Fn) : String :=
  match self.rets with
  | [] => "__r0"
  | ret :: _ => ret.name.getD (self.uniquename "r0")

end Fn

/-! ## Section 2: Wrappers -/

/-- A function that calls another one -/
structure Glue where
  params : List String
  /-- the variables that it declares -/
  locals : List String
  /-- the names in the prototype of the function that is called -/
  prototype : List String
  /-- what it passes, and what that is converted with -/
  actuals : List (Fn.Passed × (ℤ → ℤ))

namespace Glue

/-- No name is declared twice, every name that is used is declared, and there are as many arguments
as in the prototype. -/
structure Compiles (g : Glue) : Prop where
  once : (g.params ++ g.locals).Nodup
  prototype : g.prototype.Nodup
  declared : ∀ actual ∈ g.actuals, ∀ name ∈ actual.1.name?, name ∈ g.params
  arity : g.actuals.length = g.prototype.length

/-- The value of an argument that is passed -/
def value (env : List (String × ℤ)) (actual : Fn.Passed × (ℤ → ℤ)) : ℤ :=
  actual.2 (match actual.1 with
    | .name name => (env.lookup name).getD 0
    | .const c => c)

theorem value_name {env : List (String × ℤ)} {name : String} {v : ℤ}
    (h : env.lookup name = some v) (f : ℤ → ℤ) : value env (.name name, f) = f v := by
  simp only [value, h, Option.getD_some]

/-- The arguments of the function that is called -/
def call (g : Glue) (vals : List ℤ) : List ℤ := g.actuals.map (value (g.params.zip vals))

end Glue

namespace Fn

/-- The variables of a wrapper that catches aborts -/
def setjmpLocals (self : Fn) : List String :=
  ["pjmpbuf", "jmpbuf", "err"].map self.uniquename ++ if self.rets = [] then [] else [self.retname]

/-- The wrapper of a function, with conversions of its arguments; without `prebound`, the prototype
has only the arguments that are not bound. -/
def glue (self : Fn) (setjmp prebound : Bool) (convert : Arg → ℤ → ℤ) : Glue where
  params := self.argnames false
  locals := if setjmp then self.setjmpLocals else []
  prototype := self.argnames prebound
  actuals := self.zippedargsandbounds.map fun entry => (entry.2, convert entry.1)

/-- The arguments with the bound ones filled in; there are none if there are too few or too many
others. -/
def fillArgs (self : Fn) (convert : Arg → ℤ → ℤ) : List Arg → List ℤ → Option (List ℤ)
  | [], [] => some []
  | [], _ :: _ => none
  | arg :: args, vals =>
    match self.bound? arg, vals with
    | some c, vals => (self.fillArgs convert args vals).map (convert arg c :: ·)
    | none, [] => none
    | none, v :: vals => (self.fillArgs convert args vals).map (convert arg v :: ·)

def fill (self : Fn) (convert : Arg → ℤ → ℤ) (vals : List ℤ) : Option (List ℤ) :=
  self.fillArgs convert self.preboundargs vals

/-! ## Section 3: Names that clash -/

/-- The name of the result, where the signature has one -/
def retGiven (self : Fn) : List String := (self.rets.take 1).filterMap Arg.name

/-- The name that is made up for it -/
def retBase (self : Fn) : List String :=
  match self.rets with
  | [] => []
  | ret :: _ => if ret.name.isNone then ["r0"] else []

/-- The names of a wrapper that are taken from the signature -/
def given (self : Fn) (setjmp : Bool) : List String :=
  self.postboundargs.filterMap Arg.name ++ if setjmp then self.retGiven else []

/-- The numbers of the arguments without a name -/
def unnamed (self : Fn) : List ℕ :=
  (self.preboundargs.zipIdx.filter fun entry => entry.1.name.isNone).map Prod.snd

/-- The names that a wrapper makes up, if they are free -/
def generated (self : Fn) (setjmp : Bool) : List String :=
  self.unnamed.map nicename ++
    if setjmp then ["pjmpbuf", "jmpbuf", "err"] ++ self.retBase else []

/-- Where a name that is made up is taken, its escaped form is neither declared nor bound. -/
structure NamesFit (fn : Fn) (setjmp : Bool) : Prop where
  declared : ∀ base ∈ fn.generated setjmp, base ∈ fn.names → escape base ∉ fn.given setjmp
  bound : ∀ i ∈ fn.unnamed, nicename i ∈ fn.names →
    escape (nicename i) ∉ fn.boundargs.map Prod.fst

theorem escape_injective : Function.Injective escape :=
  fun _ _ h => (String.append_right_inj _).mp h

theorem nicename_injective : Function.Injective nicename := by
  intro i j h
  have hrepr : (toString i).toList = (toString j).toList :=
    congrArg String.toList ((String.append_right_inj _).mp h)
  change (Nat.repr i).toList = (Nat.repr j).toList at hrepr
  rw [Nat.toList_repr, Nat.toList_repr] at hrepr
  rw [← Nat.ofDigitChars_ten_toDigits (n := i), hrepr, Nat.ofDigitChars_ten_toDigits]

section Names

variable {self : Fn} {setjmp : Bool}

theorem toList_nicename (i : ℕ) : (nicename i).toList = 'a' :: Nat.toDigits 10 i := by
  have hrepr : (toString i).toList = Nat.toDigits 10 i := Nat.toList_repr
  rw [nicename, String.toList_append, hrepr]
  rfl

/-- Arguments without a name are not bound. -/
theorem bound?_of_unnamed {arg : Arg} (h : arg.name.isNone = true) : self.bound? arg = none := by
  rw [bound?, Option.isNone_iff_eq_none.mp h]
  rfl

theorem bound?_of_nil (h : self.boundargs = []) {arg : Arg} : self.bound? arg = none := by
  rw [bound?]
  cases arg.name with
  | none => rfl
  | some name =>
    rw [Option.bind_some, boundarg?, h]
    rfl

theorem argname_of_unnamed {entry : Arg × ℕ} (h : entry.1.name.isNone = true) :
    self.argname entry = self.uniquename (nicename entry.2) := by
  rw [argname, Option.isNone_iff_eq_none.mp h]

theorem map_argname_named (entries : List (Arg × ℕ)) :
    (entries.filter fun entry => !entry.1.name.isNone).map self.argname =
      (entries.map Prod.fst).filterMap Arg.name := by
  induction entries with
  | nil => rfl
  | cons entry entries ih =>
    cases hname : entry.1.name with
    | none =>
      rw [List.filter_cons_of_neg (by rw [hname]; decide), List.map_cons,
        List.filterMap_cons_none hname]
      exact ih
    | some name =>
      rw [List.filter_cons_of_pos (by rw [hname]; rfl), List.map_cons, List.map_cons,
        List.filterMap_cons_some hname, ih, argname, hname]

/-- The arguments that have names in a wrapper -/
def shown (self : Fn) (prebound : Bool) : List Arg :=
  self.preboundargs.filter fun arg => prebound || (self.bound? arg).isNone

theorem shown_true : self.shown true = self.preboundargs :=
  List.filter_eq_self.mpr fun _ _ => rfl

theorem map_fst_filter (prebound : Bool) :
    (self.preboundargs.zipIdx.filter fun entry =>
      prebound || (self.bound? entry.1).isNone).map Prod.fst = self.shown prebound := by
  have hfilter := List.filter_map (f := Prod.fst)
    (p := fun arg => prebound || (self.bound? arg).isNone) (l := self.preboundargs.zipIdx)
  rw [List.zipIdx_map_fst] at hfilter
  exact hfilter.symm

theorem length_argnames (prebound : Bool) :
    (self.argnames prebound).length = (self.shown prebound).length := by
  rw [← map_fst_filter, argnames, List.length_map, List.length_map]

/-- They have a name, or get one. -/
theorem argnames_perm (prebound : Bool) : (self.argnames prebound).Perm
    ((self.shown prebound).filterMap Arg.name ++
      (self.unnamed.map nicename).map self.uniquename) := by
  set entries := self.preboundargs.zipIdx.filter fun entry =>
    prebound || (self.bound? entry.1).isNone with hentries
  have hsplit := (List.filter_append_perm (fun entry => entry.1.name.isNone) entries).symm.trans
    List.perm_append_comm
  have hunnamed : entries.filter (fun entry => entry.1.name.isNone) =
      self.preboundargs.zipIdx.filter fun entry => entry.1.name.isNone := by
    rw [hentries, List.filter_filter]
    refine List.filter_congr fun entry _ => ?_
    cases hname : entry.1.name.isNone with
    | false => rfl
    | true =>
      rw [bound?_of_unnamed hname]
      exact Bool.or_true prebound
  have hmap := hsplit.map self.argname
  rw [List.map_append, map_argname_named, hentries, map_fst_filter, ← hentries, hunnamed] at hmap
  have hnames : (self.preboundargs.zipIdx.filter fun entry => entry.1.name.isNone).map
      self.argname = (self.unnamed.map nicename).map self.uniquename := by
    rw [unnamed, List.map_map, List.map_map]
    exact List.map_congr_left fun entry hentry => argname_of_unnamed (List.mem_filter.mp hentry).2
  rw [hnames] at hmap
  exact hmap

theorem retname_eq : (if self.rets = [] then [] else [self.retname]) =
    self.retGiven ++ self.retBase.map self.uniquename := by
  rw [retname, retGiven, retBase]
  cases self.rets with
  | nil => rfl
  | cons ret rets =>
    rw [if_neg (List.cons_ne_nil _ _), List.take_succ_cons, List.take_zero]
    dsimp only
    cases hname : ret.name with
    | none =>
      rw [List.filterMap_cons_none hname]
      rfl
    | some name =>
      rw [List.filterMap_cons_some hname]
      rfl

/-- What a wrapper declares is given, or made up. -/
theorem declared_perm (prebound : Bool) (convert : Arg → ℤ → ℤ) :
    ((self.glue setjmp prebound convert).params ++ (self.glue setjmp prebound convert).locals).Perm
      (self.given setjmp ++ (self.generated setjmp).map self.uniquename) := by
  change (self.argnames false ++ if setjmp then self.setjmpLocals else []).Perm _
  cases setjmp with
  | false =>
    rw [if_neg Bool.false_ne_true, given, generated, if_neg Bool.false_ne_true,
      if_neg Bool.false_ne_true, List.append_nil, List.append_nil, List.append_nil]
    exact argnames_perm false
  | true =>
    rw [if_pos rfl, given, generated, if_pos rfl, if_pos rfl, setjmpLocals, retname_eq,
      List.map_append, List.map_append]
    have hlocals := List.perm_append_comm_assoc (["pjmpbuf", "jmpbuf", "err"].map self.uniquename)
      self.retGiven (self.retBase.map self.uniquename)
    refine ((argnames_perm false).append hlocals).trans ?_
    rw [List.append_assoc, List.append_assoc]
    exact List.Perm.append_left _ (List.perm_append_comm_assoc _ _ _)

theorem given_sublist : (self.given setjmp).Sublist self.names := by
  rw [given, names, List.filterMap_append]
  refine List.Sublist.append (List.filter_sublist.filterMap _) ?_
  split
  · exact (List.take_sublist _ _).filterMap _
  · exact List.nil_sublist _

theorem unnamed_nodup : self.unnamed.Nodup := by
  have hnodup : (self.preboundargs.zipIdx.map Prod.snd).Nodup := by
    rw [List.zipIdx_map_snd]
    exact List.nodup_range'
  exact hnodup.sublist (List.filter_sublist.map _)

theorem mem_fixed {base : String}
    (h : base ∈ if setjmp then ["pjmpbuf", "jmpbuf", "err"] ++ self.retBase else []) :
    base ∈ ["pjmpbuf", "jmpbuf", "err", "r0"] := by
  have hret : self.retBase ⊆ ["r0"] := by
    rw [retBase]
    split
    · exact List.nil_subset _
    · split_ifs
      · exact List.Subset.refl _
      · exact List.nil_subset _
  split_ifs at h
  · rcases List.mem_append.mp h with h | h
    · exact List.mem_append_left ["r0"] h
    · exact List.mem_append_right ["pjmpbuf", "jmpbuf", "err"] (hret h)
  · cases h

/-- Only the names of arguments begin with an a. -/
theorem head_of_mem_fixed {base : String} (h : base ∈ ["pjmpbuf", "jmpbuf", "err", "r0"]) :
    base.toList.head? ≠ some 'a' ∧ base.toList.head? ≠ some '_' := by
  revert base
  decide

theorem generated_nodup : (self.generated setjmp).Nodup := by
  rw [generated, List.nodup_append']
  refine ⟨unnamed_nodup.map nicename_injective, ?_, ?_⟩
  · rw [retBase]
    split_ifs
    · split
      · decide
      · split_ifs <;> decide
    · exact List.nodup_nil
  · intro base hbase hmem
    obtain ⟨i, -, rfl⟩ := List.mem_map.mp hbase
    refine (head_of_mem_fixed (mem_fixed hmem)).1 ?_
    rw [toList_nicename]
    rfl

/-- No name that is made up is escaped already. -/
theorem escape_ne {base base' : String} (h : base' ∈ self.generated setjmp) :
    escape base ≠ base' := by
  have hescape : (escape base).toList.head? = some '_' := by
    rw [escape, String.toList_append]
    rfl
  rintro rfl
  rcases List.mem_append.mp h with h | h
  · obtain ⟨i, -, hi⟩ := List.mem_map.mp h
    rw [← hi, toList_nicename] at hescape
    cases hescape
  · exact (head_of_mem_fixed (mem_fixed h)).2 hescape

/-- The names of a wrapper are declared once just if no escaped form is given. -/
theorem declared_once_iff (prebound : Bool) (convert : Arg → ℤ → ℤ) :
    ((self.glue setjmp prebound convert).params ++ (self.glue setjmp prebound convert).locals).Nodup ↔
      ∀ base ∈ self.generated setjmp, base ∈ self.names →
        escape base ∉ self.given setjmp := by
  rw [(declared_perm prebound convert).nodup_iff]
  exact nodup_append_iff escape_injective (fun _ _ _ h => escape_ne h) generated_nodup
    (self.names_nodup.sublist given_sublist) given_sublist.subset

end Names

/-! ## Section 4: Arguments -/

/-- The check of the constructor that `postbound` calls -/
def Postbinds (self : Fn) : Prop :=
  ∀ arg ∈ self.postboundargs, ∀ size ∈ arg.asizeName,
    size ∈ self.postboundargs.filterMap Arg.name

/-- No array that is left has a size that is bound. -/
def SizesFit (self : Fn) : Prop :=
  ∀ arg ∈ self.postboundargs, ∀ size ∈ arg.asizeName, size ∉ self.boundargs.map Prod.fst

/-- A wrapper can be made, and passes on its arguments with the bound ones filled in. -/
structure Passes (fn : Fn) (setjmp prebound : Bool) (convert : Arg → ℤ → ℤ) : Prop where
  postbinds : fn.Postbinds
  compiles : (fn.glue setjmp prebound convert).Compiles
  call : ∀ vals, vals.length = fn.postboundargs.length →
    fn.fill convert vals = some ((fn.glue setjmp prebound convert).call vals)

section Arguments

variable {self : Fn} {setjmp prebound : Bool} {convert : Arg → ℤ → ℤ}

/-- What is passed for an entry of the arguments -/
def passed (self : Fn) (entry : Arg × ℕ) : Passed :=
  match self.boundarg? (self.argname entry) with
  | some c => .const c
  | none => .name (self.argname entry)

theorem zippedargsandbounds_eq : self.zippedargsandbounds =
    self.preboundargs.zipIdx.map fun entry => (entry.1, self.passed entry) := by
  have hall : (self.preboundargs.zipIdx.filter fun entry =>
      true || (self.bound? entry.1).isNone) = self.preboundargs.zipIdx :=
    List.filter_eq_self.mpr fun _ _ => rfl
  have hfst : self.preboundargs = self.preboundargs.zipIdx.map Prod.fst :=
    (List.zipIdx_map_fst _ _).symm
  rw [zippedargsandbounds, argnamesandbounds, argnames, hall, List.map_map]
  nth_rewrite 1 [hfst]
  rw [List.zip_map']
  rfl

/-- The entries whose arguments are not bound -/
def free (self : Fn) (entries : List (Arg × ℕ)) : List (Arg × ℕ) :=
  entries.filter fun entry => (self.bound? entry.1).isNone

theorem free_cons_bound {entry : Arg × ℕ} {entries : List (Arg × ℕ)} {c : ℤ}
    (h : self.bound? entry.1 = some c) : self.free (entry :: entries) = self.free entries :=
  List.filter_cons_of_neg (by rw [h]; exact Bool.false_ne_true)

theorem free_cons {entry : Arg × ℕ} {entries : List (Arg × ℕ)}
    (h : self.bound? entry.1 = none) :
    self.free (entry :: entries) = entry :: self.free entries :=
  List.filter_cons_of_pos (by rw [h]; rfl)

/-- A name that is made up for an argument is not bound, unless its escaped form is. -/
theorem boundarg?_uniquename_iff (base : String) : self.boundarg? (self.uniquename base) = none ↔
    ¬(base ∈ self.names ∧ escape base ∈ self.boundargs.map Prod.fst) := by
  have hsub : self.boundargs.map Prod.fst ⊆ self.names := by
    intro name hname
    obtain ⟨bound, hbound, rfl⟩ := List.mem_map.mp hname
    rw [names, List.filterMap_append]
    exact List.mem_append_left _ (self.bound_mem bound hbound)
  rw [← fresh_mem_iff hsub, boundarg?, List.lookup_eq_none_iff]
  constructor
  · intro h hmem
    obtain ⟨bound, hbound, heq⟩ := List.mem_map.mp hmem
    exact absurd heq.symm (bne_iff_ne.mp (h bound hbound))
  · intro h bound hbound
    exact bne_iff_ne.mpr fun heq => h (List.mem_map.mpr ⟨bound, hbound, heq.symm⟩)

/-- The names of arguments tell whether these are bound. -/
theorem boundarg?_argname (h : ∀ i ∈ self.unnamed, nicename i ∈ self.names →
      escape (nicename i) ∉ self.boundargs.map Prod.fst) {entry : Arg × ℕ}
    (hentry : entry ∈ self.preboundargs.zipIdx) :
    self.boundarg? (self.argname entry) = self.bound? entry.1 := by
  cases hname : entry.1.name with
  | some name =>
    rw [argname, bound?, hname]
    rfl
  | none =>
    have hunnamed : entry.1.name.isNone = true := by
      rw [hname]
      rfl
    have hmem : entry.2 ∈ self.unnamed :=
      List.mem_map.mpr ⟨entry, List.mem_filter.mpr ⟨hentry, hunnamed⟩, rfl⟩
    rw [argname_of_unnamed hunnamed, bound?_of_unnamed hunnamed, boundarg?_uniquename_iff]
    exact fun ⟨htaken, hbound⟩ => h entry.2 hmem htaken hbound

theorem fillArgs_bound {arg : Arg} {args : List Arg} {vals : List ℤ} {c : ℤ}
    (h : self.bound? arg = some c) : self.fillArgs convert (arg :: args) vals =
      (self.fillArgs convert args vals).map (convert arg c :: ·) := by
  simp only [fillArgs, h]

theorem fillArgs_free {arg : Arg} {args : List Arg} {v : ℤ} {vals : List ℤ}
    (h : self.bound? arg = none) : self.fillArgs convert (arg :: args) (v :: vals) =
      (self.fillArgs convert args vals).map (convert arg v :: ·) := by
  simp only [fillArgs, h]

/-- Where the parameters have the values and names tell what is bound, all arguments are filled in
as the wrapper passes them. -/
theorem fillArgs_eq {entries : List (Arg × ℕ)} {vals : List ℤ} {env : List (String × ℤ)}
    (hbound : ∀ entry ∈ entries, self.boundarg? (self.argname entry) = self.bound? entry.1)
    (hlen : vals.length = (self.free entries).length)
    (henv : ∀ p ∈ ((self.free entries).map self.argname).zip vals,
      env.lookup p.1 = some p.2) :
    self.fillArgs convert (entries.map Prod.fst) vals =
      some (entries.map fun entry => Glue.value env (self.passed entry, convert entry.1)) := by
  induction entries generalizing vals with
  | nil =>
    cases vals with
    | nil => rfl
    | cons v vals => cases hlen
  | cons entry entries ih =>
    have hrest : ∀ entry ∈ entries, self.boundarg? (self.argname entry) = self.bound? entry.1 :=
      fun entry' hentry' => hbound entry' (List.mem_cons_of_mem _ hentry')
    have hpassed := hbound entry List.mem_cons_self
    rw [List.map_cons, List.map_cons, passed, hpassed]
    cases hc : self.bound? entry.1 with
    | some c =>
      rw [free_cons_bound hc] at hlen henv
      rw [fillArgs_bound hc, ih hrest hlen henv]
      rfl
    | none =>
      rw [free_cons hc] at hlen henv
      cases vals with
      | nil => cases hlen
      | cons v vals =>
        rw [List.map_cons, List.zip_cons_cons] at henv
        have hv : env.lookup (self.argname entry) = some v := henv _ List.mem_cons_self
        rw [fillArgs_free hc, ih hrest (Nat.succ.inj hlen) fun p hp =>
          henv p (List.mem_cons_of_mem _ hp)]
        dsimp only
        rw [Glue.value_name hv]
        rfl

/-- Every name that a wrapper passes on is a parameter. -/
theorem declared_glue : ∀ actual ∈ (self.glue setjmp prebound convert).actuals,
    ∀ name ∈ actual.1.name?, name ∈ (self.glue setjmp prebound convert).params := by
  intro actual hactual name hname
  rw [glue, zippedargsandbounds_eq, List.map_map] at hactual
  obtain ⟨entry, hentry, rfl⟩ := List.mem_map.mp hactual
  rw [Function.comp_apply, passed] at hname
  cases hc : self.boundarg? (self.argname entry) with
  | some c =>
    rw [hc] at hname
    cases hname
  | none =>
    rw [hc] at hname
    cases hname
    refine List.mem_map.mpr ⟨entry, List.mem_filter.mpr ⟨hentry, ?_⟩, rfl⟩
    cases hname : entry.1.name with
    | none => rw [bound?, hname]; rfl
    | some name =>
      rw [argname, hname] at hc
      rw [bound?, hname]
      exact Option.isNone_iff_eq_none.mpr hc

theorem call_eq (vals : List ℤ) : (self.glue setjmp prebound convert).call vals =
    self.preboundargs.zipIdx.map fun entry =>
      Glue.value ((self.argnames false).zip vals) (self.passed entry, convert entry.1) := by
  rw [Glue.call, glue, zippedargsandbounds_eq, List.map_map, List.map_map]
  rfl

theorem boundargs_subset : self.boundargs.map Prod.fst ⊆ self.preboundargs.filterMap Arg.name := by
  intro name hname
  obtain ⟨bound, hbound, rfl⟩ := List.mem_map.mp hname
  exact self.bound_mem bound hbound

/-- An argument with a name is bound, or not. -/
theorem mem_named {name : String} (h : name ∈ self.preboundargs.filterMap Arg.name) :
    name ∈ self.postboundargs.filterMap Arg.name ∨ name ∈ self.boundargs.map Prod.fst := by
  obtain ⟨arg, harg, hname⟩ := List.mem_filterMap.mp h
  cases hc : self.boundarg? name with
  | none =>
    have hfree : (self.bound? arg).isNone = true := by
      rw [bound?, hname]
      exact Option.isNone_iff_eq_none.mpr hc
    exact .inl (List.mem_filterMap.mpr ⟨arg, List.mem_filter.mpr ⟨harg, hfree⟩, hname⟩)
  | some c =>
    obtain ⟨before, after, heq, -⟩ := List.lookup_eq_some_iff.mp hc
    have hmem : (name, c) ∈ self.boundargs := heq ▸ List.mem_append_right _ List.mem_cons_self
    exact .inr (List.mem_map.mpr ⟨_, hmem, rfl⟩)

theorem not_bound_of_mem {name : String} (h : name ∈ self.postboundargs.filterMap Arg.name) :
    name ∉ self.boundargs.map Prod.fst := by
  intro hbound
  obtain ⟨arg, harg, hname⟩ := List.mem_filterMap.mp h
  obtain ⟨bound, hmem, heq⟩ := List.mem_map.mp hbound
  have hfree := (List.mem_filter.mp harg).2
  rw [bound?, hname] at hfree
  have hnone := List.lookup_eq_none_iff.mp (Option.isNone_iff_eq_none.mp hfree) bound hmem
  exact bne_iff_ne.mp hnone heq.symm

theorem postbinds_iff : self.Postbinds ↔ self.SizesFit := by
  refine forall₂_congr fun arg harg => forall₂_congr fun size hsize => ?_
  constructor
  · exact not_bound_of_mem
  · intro hbound
    have hnamed := self.asizes_mem arg (List.mem_filter.mp harg).1 size hsize
    exact (mem_named hnamed).resolve_right hbound

theorem prototype_iff : (self.argnames prebound).Nodup ↔
    ∀ i ∈ self.unnamed, nicename i ∈ self.names →
      escape (nicename i) ∉ (self.shown prebound).filterMap Arg.name := by
  have hsub : ((self.shown prebound).filterMap Arg.name).Sublist self.names := by
    rw [names, List.filterMap_append]
    exact (List.filter_sublist.filterMap _).trans (List.sublist_append_left _ _)
  rw [(argnames_perm prebound).nodup_iff]
  refine (nodup_append_iff escape_injective ?_ (unnamed_nodup.map nicename_injective)
    (self.names_nodup.sublist hsub) hsub.subset).trans List.forall_mem_map
  intro base hbase base' hbase'
  have hgenerated : base' ∈ self.generated false := List.mem_append_left _ hbase'
  exact escape_ne hgenerated

/-- A prototype with all arguments has the names that a wrapper without locals passes on. -/
theorem namesFit_false_iff : self.NamesFit false ↔ (self.argnames true).Nodup := by
  rw [prototype_iff, shown_true]
  constructor
  · intro h i hi htaken hmem
    rcases mem_named hmem with hgiven | hbound
    · refine h.declared (nicename i) ?_ htaken (List.mem_append_left _ hgiven)
      exact List.mem_append_left _ (List.mem_map_of_mem hi)
    · exact h.bound i hi htaken hbound
  · intro h
    refine ⟨fun base hbase htaken hmem => ?_, fun i hi htaken hmem =>
      h i hi htaken (boundargs_subset hmem)⟩
    have hunnamed : base ∈ self.unnamed.map nicename :=
      (List.mem_append.mp hbase).resolve_right List.not_mem_nil
    obtain ⟨i, hi, rfl⟩ := List.mem_map.mp hunnamed
    have hgiven : escape (nicename i) ∈ self.postboundargs.filterMap Arg.name :=
      (List.mem_append.mp hmem).resolve_right List.not_mem_nil
    exact h i hi htaken ((List.filter_sublist.filterMap _).subset hgiven)

theorem arity_iff : (self.glue setjmp prebound convert).actuals.length =
    (self.argnames prebound).length ↔ prebound = true ∨ self.boundargs = [] := by
  rw [length_argnames, glue, zippedargsandbounds_eq, List.length_map, List.length_map,
    List.length_zipIdx]
  cases prebound with
  | true =>
    rw [shown_true]
    exact iff_of_true rfl (.inl rfl)
  | false =>
    rw [eq_comm, shown, List.length_filter_eq_length_iff]
    constructor
    · intro h
      refine .inr (List.eq_nil_iff_forall_not_mem.mpr fun bound hbound => ?_)
      obtain ⟨arg, harg, hname⟩ := List.mem_filterMap.mp (self.bound_mem bound hbound)
      have hnone : self.boundarg? bound.1 = none := by
        have hfree := h arg harg
        rw [bound?, hname] at hfree
        exact Option.isNone_iff_eq_none.mp hfree
      exact bne_iff_ne.mp (List.lookup_eq_none_iff.mp hnone bound hbound) rfl
    · rintro (h | h) arg -
      · cases h
      · exact Option.isNone_iff_eq_none.mpr (bound?_of_nil h)

theorem compiles_iff : (self.glue setjmp prebound convert).Compiles ↔
    self.NamesFit setjmp ∧ (prebound = true ∨ self.boundargs = []) := by
  constructor
  · intro h
    have harity := arity_iff.mp h.arity
    refine ⟨⟨(declared_once_iff prebound convert).mp h.once, fun i hi htaken hbound => ?_⟩, harity⟩
    rcases harity with rfl | hnil
    · have hfree := prototype_iff.mp h.prototype i hi htaken
      rw [shown_true] at hfree
      exact hfree (boundargs_subset hbound)
    · rw [hnil] at hbound
      cases hbound
  · rintro ⟨hnames, harity⟩
    refine ⟨(declared_once_iff prebound convert).mpr hnames.declared, ?_, declared_glue,
      arity_iff.mpr harity⟩
    refine prototype_iff.mpr fun i hi htaken hmem => ?_
    have hgenerated : nicename i ∈ self.generated setjmp :=
      List.mem_append_left _ (List.mem_map_of_mem hi)
    rcases mem_named ((List.filter_sublist.filterMap _).subset hmem) with hgiven | hbound
    · exact hnames.declared _ hgenerated htaken (List.mem_append_left _ hgiven)
    · exact hnames.bound i hi htaken hbound

theorem call_of_namesFit (h : self.NamesFit setjmp) {vals : List ℤ}
    (hvals : vals.length = self.postboundargs.length) :
    self.fill convert vals = some ((self.glue setjmp prebound convert).call vals) := by
  have honce := (declared_once_iff prebound convert).mpr h.declared
  have hparams : (self.argnames false).Nodup := (List.nodup_append'.mp honce).1
  have hlen : vals.length = (self.free self.preboundargs.zipIdx).length := by
    rw [hvals, ← List.length_map Prod.fst]
    exact congrArg List.length (map_fst_filter false).symm
  have hbound : ∀ entry ∈ self.preboundargs.zipIdx,
      self.boundarg? (self.argname entry) = self.bound? entry.1 :=
    fun entry hentry => boundarg?_argname h.bound hentry
  have henv : ∀ p ∈ ((self.free self.preboundargs.zipIdx).map self.argname).zip vals,
      ((self.argnames false).zip vals).lookup p.1 = some p.2 := fun p hp => lookup_zip hparams hp
  have hfill := @fillArgs_eq self convert _ _ _ hbound hlen henv
  rw [List.zipIdx_map_fst] at hfill
  rw [fill, hfill, call_eq]

end Arguments

end Fn

end BentoLinker.Linker
