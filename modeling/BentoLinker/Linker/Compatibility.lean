import BentoLinker.Linker.Signature
import Mathlib.Data.List.Forall2
import Mathlib.Data.List.Zip

/-!
# Compatible Signatures

`Fn.iscompatible` decides whether an import may be linked to an export. A call through the link is
sound if both have the same types in the same places.

1. `SameCall`: equal signatures, up to names
2. `Clashes`, `Resolved`: what the comparison sees of a pair of types
3. The loop, in both directions
4. `compatible_iff`: when the answer can be relied on
-/

namespace BentoLinker.Linker

namespace Fn

/-! ## Section 1: Equal signatures -/

/-- The argument that has the size of an array -/
def sizeIndex (self : Fn) (arg : Arg) : Option ℕ := arg.asizeName.bind self.argIndex

/-- Equal types; the size of an array is the same number or the same argument. -/
structure SameType (a b : Fn) (x y : Arg) : Prop where
  types : x.eq y = true
  named : x.asizeName.isSome = y.asizeName.isSome
  sizes : x.asizeName.isSome → ∃ i, a.sizeIndex x = some i ∧ b.sizeIndex y = some i

/-- Functions that can be called for each other -/
structure SameCall (a b : Fn) : Prop where
  args : List.Forall₂ (SameType a b) a.args b.args
  rets : List.Forall₂ (SameType a b) a.rets b.rets
  noreturn : a.noreturn = b.noreturn

/-- What is asked of `iscompatible` -/
structure CompatibleSound (a b : Fn) : Prop where
  returns : ∃ answer, a.iscompatible b = some answer
  symmetric : b.iscompatible a = a.iscompatible b
  sound : a.iscompatible b = some true → SameCall a b

/-! ## Section 2: Pairs of types -/

/-- The types are not equal, or the sizes are different arguments. -/
def Clashes (a b : Fn) (x y : Arg) : Prop :=
  x.eq y = false ∨ ∃ i j, a.sizeIndex x = some i ∧ b.sizeIndex y = some j ∧ i ≠ j

/-- A size that is named on one side is an argument on both. -/
def Resolved (a b : Fn) (x y : Arg) : Prop :=
  (x.asizeName = none ∧ y.asizeName = none) ∨
    (a.sizeIndex x).isSome ∧ (b.sizeIndex y).isSome

/-- Up to the first clash, all sizes are resolved. -/
def ResolvedUpToClash (a b : Fn) : List (Arg × Arg) → Prop
  | [] => True
  | (x, y) :: rest => Clashes a b x y ∨ Resolved a b x y ∧ ResolvedUpToClash a b rest

/-- The pairs that are compared -/
def comparedTypes (a b : Fn) : List (Arg × Arg) := (a.args ++ a.rets).zip (b.args ++ b.rets)

theorem eq_comm_arg (x y : Arg) : x.eq y = y.eq x := by
  unfold Arg.eq
  rw [decide_eq_decide]
  simp only [eq_comm]

theorem asizeName_of_sizeIndex {a : Fn} {x : Arg} {i : ℕ} (h : a.sizeIndex x = some i) :
    ∃ size, x.asizeName = some size ∧ a.argIndex size = some i :=
  Option.bind_eq_some_iff.mp h

theorem clashes_comm {a b : Fn} {x y : Arg} : Clashes a b x y ↔ Clashes b a y x := by
  unfold Clashes
  rw [eq_comm_arg]
  constructor
  · rintro (h | ⟨i, j, hi, hj, hne⟩)
    · exact .inl h
    · exact .inr ⟨j, i, hj, hi, hne.symm⟩
  · rintro (h | ⟨i, j, hi, hj, hne⟩)
    · exact .inl h
    · exact .inr ⟨j, i, hj, hi, hne.symm⟩

theorem resolved_comm {a b : Fn} {x y : Arg} : Resolved a b x y ↔ Resolved b a y x := by
  unfold Resolved
  rw [and_comm, and_comm (a := (a.sizeIndex x).isSome = true)]

/-- A pair that does not clash and is resolved has the same type. -/
theorem sameType_iff {a b : Fn} {x y : Arg} :
    SameType a b x y ↔ Resolved a b x y ∧ ¬Clashes a b x y := by
  constructor
  · intro h
    have hresolved : Resolved a b x y := by
      cases hx : x.asizeName with
      | none =>
        have hy := h.named
        rw [hx] at hy
        exact .inl ⟨hx, Option.not_isSome_iff_eq_none.mp (by rw [← hy]; decide)⟩
      | some size =>
        obtain ⟨i, hi, hj⟩ := h.sizes (by rw [hx]; rfl)
        exact .inr ⟨by rw [hi]; rfl, by rw [hj]; rfl⟩
    refine ⟨hresolved, ?_⟩
    rintro (htypes | ⟨i, j, hi, hj, hne⟩)
    · rw [h.types] at htypes
      cases htypes
    · obtain ⟨size, hsize, -⟩ := asizeName_of_sizeIndex hi
      obtain ⟨k, hk, hk'⟩ := h.sizes (by rw [hsize]; rfl)
      rw [hi] at hk
      rw [hj] at hk'
      cases hk
      cases hk'
      exact hne rfl
  · rintro ⟨hresolved, hclash⟩
    have htypes : x.eq y = true := by
      by_contra h
      exact hclash (.inl (Bool.eq_false_iff.mpr h))
    rcases hresolved with ⟨hx, hy⟩ | ⟨hx, hy⟩
    · exact ⟨htypes, by rw [hx, hy], fun h => by rw [hx] at h; cases h⟩
    · obtain ⟨i, hi⟩ := Option.isSome_iff_exists.mp hx
      obtain ⟨j, hj⟩ := Option.isSome_iff_exists.mp hy
      obtain ⟨size, hsize, -⟩ := asizeName_of_sizeIndex hi
      obtain ⟨size', hsize', -⟩ := asizeName_of_sizeIndex hj
      obtain rfl : i = j := by
        by_contra hne
        exact hclash (.inr ⟨i, j, hi, hj, hne⟩)
      exact ⟨htypes, by rw [hsize, hsize']; rfl, fun _ => ⟨i, hi, hj⟩⟩

/-! ## Section 3: The loop -/

/-- A clash ends the loop. -/
theorem compatibleArgs_of_clash {a b : Fn} {x y : Arg} (h : Clashes a b x y)
    (rest : List (Arg × Arg)) :
    compatibleArgs a.argIndex b.argIndex ((x, y) :: rest) = some false := by
  rw [compatibleArgs]
  cases htypes : x.eq y with
  | false => rfl
  | true =>
    rcases h with h | ⟨i, j, hi, hj, hne⟩
    · rw [htypes] at h
      cases h
    · obtain ⟨size, hsize, hindex⟩ := asizeName_of_sizeIndex hi
      rw [sizeIndex] at hj
      simp [hsize, hindex, hj, hne]

/-- The same type is passed over. -/
theorem compatibleArgs_of_sameType {a b : Fn} {x y : Arg} (h : SameType a b x y)
    (rest : List (Arg × Arg)) :
    compatibleArgs a.argIndex b.argIndex ((x, y) :: rest) =
      compatibleArgs a.argIndex b.argIndex rest := by
  rw [compatibleArgs, h.types]
  cases hx : x.asizeName with
  | none => rfl
  | some size =>
    obtain ⟨i, hi, hj⟩ := h.sizes (by rw [hx]; rfl)
    rw [sizeIndex, hx] at hi
    rw [sizeIndex] at hj
    have hindex : a.argIndex size = some i := hi
    simp [hindex, hj]

/-- A size that is not resolved is looked up in one of the two directions. -/
theorem compatibleArgs_of_not_resolved {a b : Fn} {x y : Arg} (hclash : ¬Clashes a b x y)
    (h : ¬Resolved a b x y) (rest : List (Arg × Arg)) :
    compatibleArgs a.argIndex b.argIndex ((x, y) :: rest) = none ∨
      compatibleArgs b.argIndex a.argIndex ((y, x) :: rest.map Prod.swap) = none := by
  have htypes : x.eq y = true := by
    by_contra hne
    exact hclash (.inl (Bool.eq_false_iff.mpr hne))
  have htypes' : y.eq x = true := by rw [eq_comm_arg, htypes]
  have hmissing : a.sizeIndex x = none ∨ b.sizeIndex y = none := by
    by_contra hboth
    rw [not_or] at hboth
    exact h (.inr ⟨Option.ne_none_iff_isSome.mp hboth.1, Option.ne_none_iff_isSome.mp hboth.2⟩)
  cases hx : x.asizeName with
  | some size =>
    left
    rw [compatibleArgs, htypes]
    rcases hmissing with hnone | hnone
    · rw [sizeIndex, hx] at hnone
      have hindex : a.argIndex size = none := hnone
      simp [hx, hindex]
    · rw [sizeIndex] at hnone
      cases hindex : a.argIndex size with
      | none => simp [hx, hindex]
      | some i => simp [hx, hindex, hnone]
  | none =>
    right
    cases hy : y.asizeName with
    | none => exact absurd (.inl ⟨hx, hy⟩) h
    | some size =>
      rw [compatibleArgs, htypes']
      cases hindex : b.argIndex size with
      | none => simp [hy, hindex]
      | some j => simp [hx, hy, hindex]

/-- Both directions return the same if and only if the sizes are resolved, as far as they are
looked up. -/
theorem exists_compatibleArgs_iff (a b : Fn) (pairs : List (Arg × Arg)) :
    (∃ answer, compatibleArgs a.argIndex b.argIndex pairs = some answer ∧
      compatibleArgs b.argIndex a.argIndex (pairs.map Prod.swap) = some answer) ↔
        ResolvedUpToClash a b pairs := by
  induction pairs with
  | nil => exact ⟨fun _ => trivial, fun _ => ⟨true, rfl, rfl⟩⟩
  | cons pair rest ih =>
    obtain ⟨x, y⟩ := pair
    rw [List.map_cons, ResolvedUpToClash]
    by_cases hclash : Clashes a b x y
    · refine ⟨fun _ => .inl hclash, fun _ => ⟨false, compatibleArgs_of_clash hclash rest, ?_⟩⟩
      exact compatibleArgs_of_clash (clashes_comm.mp hclash) _
    · by_cases hresolved : Resolved a b x y
      · have hsame : SameType a b x y := sameType_iff.mpr ⟨hresolved, hclash⟩
        have hsame' : SameType b a y x :=
          sameType_iff.mpr ⟨resolved_comm.mp hresolved, fun h => hclash (clashes_comm.mp h)⟩
        rw [compatibleArgs_of_sameType hsame, Prod.swap_prod_mk,
          compatibleArgs_of_sameType hsame', ih]
        constructor
        · exact fun h => .inr ⟨hresolved, h⟩
        · rintro (h | ⟨-, h⟩)
          · exact absurd h hclash
          · exact h
      · constructor
        · rintro ⟨answer, hleft, hright⟩
          rcases compatibleArgs_of_not_resolved hclash hresolved rest with hnone | hnone
          · rw [hnone] at hleft
            cases hleft
          · rw [Prod.swap_prod_mk, hnone] at hright
            cases hright
        · rintro (h | ⟨h, -⟩)
          · exact absurd h hclash
          · exact absurd h hresolved

/-- The answer is yes if and only if nothing clashes. -/
theorem compatibleArgs_eq_true {a b : Fn} {pairs : List (Arg × Arg)}
    (h : ResolvedUpToClash a b pairs) :
    compatibleArgs a.argIndex b.argIndex pairs = some true ↔
      ∀ pair ∈ pairs, SameType a b pair.1 pair.2 := by
  induction pairs with
  | nil => simp [compatibleArgs]
  | cons pair rest ih =>
    obtain ⟨x, y⟩ := pair
    rw [List.forall_mem_cons]
    by_cases hclash : Clashes a b x y
    · rw [compatibleArgs_of_clash hclash]
      constructor
      · intro hfalse
        cases hfalse
      · exact fun hsame => absurd hclash (sameType_iff.mp hsame.1).2
    · rcases h with h | ⟨hresolved, hrest⟩
      · exact absurd h hclash
      · have hsame : SameType a b x y := sameType_iff.mpr ⟨hresolved, hclash⟩
        rw [compatibleArgs_of_sameType hsame, ih hrest, and_iff_right hsame]

/-! ## Section 4: Compatible functions -/

theorem map_swap_comparedTypes (a b : Fn) :
    (comparedTypes a b).map Prod.swap = comparedTypes b a := by
  rw [comparedTypes, comparedTypes]
  exact List.zip_swap ..

/-- Functions with as many arguments and as many return values are compared type by type. -/
theorem sameCall_iff {a b : Fn} : SameCall a b ↔
    (∀ pair ∈ comparedTypes a b, SameType a b pair.1 pair.2) ∧ a.args.length = b.args.length ∧
      a.rets.length = b.rets.length ∧ a.noreturn = b.noreturn := by
  have hzip : a.args.length = b.args.length →
      comparedTypes a b = a.args.zip b.args ++ a.rets.zip b.rets := fun h => List.zip_append h
  constructor
  · intro h
    have hargs := h.args.length_eq
    refine ⟨?_, hargs, h.rets.length_eq, h.noreturn⟩
    rintro ⟨x, y⟩ hmem
    rw [hzip hargs, List.mem_append] at hmem
    rcases hmem with hmem | hmem
    · exact (List.forall₂_iff_zip.mp h.args).2 hmem
    · exact (List.forall₂_iff_zip.mp h.rets).2 hmem
  · rintro ⟨hsame, hargs, hrets, hnoreturn⟩
    rw [hzip hargs] at hsame
    refine ⟨List.forall₂_iff_zip.mpr ⟨hargs, fun hmem => ?_⟩,
      List.forall₂_iff_zip.mpr ⟨hrets, fun hmem => ?_⟩, hnoreturn⟩
    · exact hsame _ (List.mem_append_left _ hmem)
    · exact hsame _ (List.mem_append_right _ hmem)

/-- The answer of `iscompatible` can be relied on if and only if every size that is named before the
first clash is an argument on both sides, and functions without a clash have as many arguments and
as many return values and both return or do not. -/
theorem compatible_iff (a b : Fn) :
    CompatibleSound a b ↔ ResolvedUpToClash a b (comparedTypes a b) ∧
      ((∀ pair ∈ comparedTypes a b, ¬Clashes a b pair.1 pair.2) →
        a.args.length = b.args.length ∧ a.rets.length = b.rets.length ∧
          a.noreturn = b.noreturn) := by
  have hresolved : ResolvedUpToClash a b (comparedTypes a b) ↔
      ∃ answer, a.iscompatible b = some answer ∧ b.iscompatible a = some answer := by
    rw [← exists_compatibleArgs_iff, map_swap_comparedTypes]
    rfl
  -- without a clash, everything has been resolved
  have hall : ResolvedUpToClash a b (comparedTypes a b) →
      ((∀ pair ∈ comparedTypes a b, ¬Clashes a b pair.1 pair.2) ↔
        ∀ pair ∈ comparedTypes a b, SameType a b pair.1 pair.2) := by
    generalize comparedTypes a b = pairs
    intro h
    constructor
    · intro hclash
      induction pairs with
      | nil =>
        intro pair hmem
        cases hmem
      | cons pair rest ih =>
        rw [List.forall_mem_cons] at hclash ⊢
        rcases h with h | ⟨hpair, hrest⟩
        · exact absurd h hclash.1
        · exact ⟨sameType_iff.mpr ⟨hpair, hclash.1⟩, ih hrest hclash.2⟩
    · exact fun hsame pair hmem => (sameType_iff.mp (hsame pair hmem)).2
  constructor
  · rintro ⟨⟨answer, hreturns⟩, hsymmetric, hsound⟩
    have hup := hresolved.mpr ⟨answer, hreturns, hsymmetric.trans hreturns⟩
    refine ⟨hup, fun hclash => ?_⟩
    have htrue : a.iscompatible b = some true :=
      (compatibleArgs_eq_true hup).mpr ((hall hup).mp hclash)
    exact (sameCall_iff.mp (hsound htrue)).2
  · rintro ⟨hup, hlengths⟩
    obtain ⟨answer, hleft, hright⟩ := hresolved.mp hup
    refine ⟨⟨answer, hleft⟩, hright.trans hleft.symm, fun htrue => ?_⟩
    have hsame := (compatibleArgs_eq_true hup).mp htrue
    exact sameCall_iff.mpr ⟨hsame, hlengths ((hall hup).mpr hsame)⟩

/-- A function of values, as an import -/
def valueFn (args rets : List Prim) : Fn where
  name := "f"
  scope := none
  source := "sys"
  alias_ := "f"
  weak := false
  noreturn := false
  preboundargs := args.map fun prim => Arg.value prim none
  rets := rets.map fun prim => Arg.value prim none
  boundargs := []
  ispostbound := false
  names_nodup := by simp [Arg.value]
  asizes_mem := by simp [Arg.value, Arg.asizeName]
  rets_asize := by simp [Arg.value, Arg.asizeName]
  bound_mem := by simp
  bound_nodup := by simp

/-- `fn(i32) -> i32` and `fn(i32, i32) -> void` have the same types one after the other. -/
theorem not_compatibleSound :
    ¬∀ a b : Fn, CompatibleSound a b := by
  intro h
  have hsound := (h (valueFn [.i32] [.i32]) (valueFn [.i32, .i32] [])).sound (by decide)
  have hlength := hsound.args.length_eq
  exact absurd hlength (by decide)

end Fn

end BentoLinker.Linker
