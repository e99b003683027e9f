import BentoLinker.Glz.Panics
import BentoLinker.Glz.SortedTable
import BentoLinker.Glz.Traverse
import Mathlib.Data.List.Perm.Subperm

/-!
# Compression in Two Passes

The `encode` command of `main.rs` makes its table from the symbols of a first pass, and
encodes the same slices once more with it.

1. `twoPass`: the first pass, the histogram and the table
2. `Prepared`: every byte of the slices has an entry in the table
3. `Writes`: codecs with a code for every byte of the slices and for every length
4. `Fits`: the distances that a pass tries to write; it does not fail, as long as those fit
-/

namespace BentoLinker.Glz.GLZ

open BitCode CopyStream FallibleFold FueledLoop Relation

/-! ## Section 1: The table of the CLI -/

/-- `GLZ::DEFAULT_K` -/
def DEFAULT_K : ℕ := WIDTH + 1

/-- The table construction of `encode`, for a given or an optimised `k`. -/
def twoPass (k : Option ℕ) (l m : ℕ) (slices : List (List UInt8)) : Res GLZ := do
  let first := withConfig DEFAULT_K l m
  let (bits, _) ← first.encodeAll slices
  let syms ← first.traverseSyms bits
  let hist ← Hist.collect syms
  fromHist k l m hist

/-! ## Section 2: Every byte has an entry -/

/-- A codec with a table of the slices' bytes, made from a histogram -/
structure Prepared (g : GLZ) (slices : List (List UInt8)) (syms t : List ℕ) : Prop where
  l : g.l ≤ 8
  m : g.m < 32
  sorted : g.rice.bijecter.Sorted syms t
  small : ∀ s ∈ syms, s < 2 ^ 9
  bytes : ∀ slice ∈ slices, ∀ x ∈ slice, x.toNat ∈ t

theorem value_lt {g : GLZ} (hl : g.l ≤ 8) {bits : Bits} {syms : List (GLZSym UInt8)}
    (h : Coded g bits syms) : ∀ s ∈ syms.map GLZSym.value, s < 2 ^ 9 := by
  induction h with
  | nil =>
    intro s hs
    cases hs
  | @cons code S sym syms hcode _ ih =>
    intro s hs
    rcases List.mem_cons.mp hs with rfl | hs
    · cases sym with
      | imm x =>
        have := UInt8.toNat_lt x
        change x.toNat < 2 ^ 9
        omega
      | ref off size =>
        obtain ⟨_, -, hsize, -⟩ := encodeSym_ref_eq_ok hcode
        have hpow : 2 ^ g.l ≤ 2 ^ 8 := Nat.pow_le_pow_right (by decide) hl
        change size - 2 + 2 ^ 8 < 2 ^ 9
        omega
    · exact ih s hs

theorem Prepared.length_le {g : GLZ} {slices : List (List UInt8)} {syms t : List ℕ}
    (hp : Prepared g slices syms t) : t.length ≤ 2 ^ 9 := by
  have hsub : t ⊆ List.range (2 ^ 9) := fun n hn =>
    List.mem_range.mpr (hp.small n ((hp.sorted.mem n).mp hn))
  have := (hp.sorted.nodup.subperm hsub).length_le
  rwa [List.length_range] at this

/-- The first pass, when it has encoded the slices, leads to a table with all their bytes. -/
theorem exists_twoPass {slices : List (List UInt8)} {r : Bits × List (ℕ × ℕ)} {l m : ℕ}
    (k : Option ℕ) (hl : l ≤ 8) (hm : m < 32)
    (h : (withConfig DEFAULT_K l m).encodeAll slices = .ok r) :
    ∃ g syms t, twoPass k l m slices = .ok g ∧ Prepared g slices syms t ∧
      (∀ k', k = some k' → g.k = k') ∧ (k = none → g.k < 32) := by
  obtain ⟨bits, offs⟩ := r
  obtain ⟨syms, hcoded, hread⟩ := readable_encodeAll h
  have hsmall := value_lt hl hcoded
  have hlt : ∀ s ∈ syms.map GLZSym.value, s + 1 < 2 ^ 32 := by
    intro s hs
    have := hsmall s hs
    omega
  have htraverse := traverseSyms_of_coded le_rfl hl hcoded
  obtain ⟨hist, hcollect, hcounts⟩ := Hist.exists_collect (syms.map GLZSym.value)
  obtain ⟨hist', t, hsort, hsorted⟩ := Hist.exists_compact_sort hcounts hlt
  -- what the first pass reads back for a slice it has written as immediates
  have hbytes : ∀ slice ∈ slices, ∀ x ∈ slice, x.toNat ∈ t := by
    intro slice hslice x hx
    obtain ⟨at_, -, -, -, hreadable⟩ := exists_right_of_mem hread hslice
    obtain ⟨_, _, hmem, -⟩ := hreadable.emitted x hx
    exact (hsorted.mem _).mpr (List.mem_map_of_mem (f := GLZSym.value) hmem)
  have hprepared : ∀ rice : GolombRice, Prepared ⟨l, m, ⟨rice, hist'⟩⟩ slices
      (syms.map GLZSym.value) t :=
    fun rice => ⟨hl, hm, hsorted, hsmall, hbytes⟩
  obtain ⟨sorted, hsort, hcompact⟩ := Res.bind_eq_ok.mp hsort
  have htwo : ∀ {g : GLZ}, fromHist k l m hist = .ok g →
      twoPass k l m slices = .ok g := fun hfrom =>
    Res.bind_eq_ok.mpr ⟨_, h, Res.bind_eq_ok.mpr ⟨_, htraverse,
      Res.bind_eq_ok.mpr ⟨_, hcollect, hfrom⟩⟩⟩
  cases k with
  | some k =>
    have hfrom : fromHist (some k) l m hist =
        .ok ⟨l, m, ⟨⟨k⟩, hist'⟩⟩ :=
      Res.bind_eq_ok.mpr ⟨_, hsort, Res.bind_eq_ok.mpr ⟨_, hcompact, rfl⟩⟩
    refine ⟨_, _, t, htwo hfrom, hprepared ⟨k⟩, ?_, fun hnone => by cases hnone⟩
    rintro k' ⟨⟩
    rfl
  | none =>
    have hlen : t.length ≤ 2 ^ 31 := (hprepared ⟨0⟩).length_le.trans (by decide)
    obtain ⟨rice, hrice, hk⟩ := GolombRice.exists_fromHist hsorted hlt hlen
    have hfrom : fromHist none l m hist =
        .ok ⟨l, m, ⟨rice, hist'⟩⟩ :=
      Res.bind_eq_ok.mpr ⟨_, hsort, Res.bind_eq_ok.mpr ⟨_, hcompact,
        Res.bind_eq_ok.mpr ⟨_, hrice, rfl⟩⟩⟩
    exact ⟨_, _, t, htwo hfrom, hprepared rice, fun _ hsome => (by cases hsome), fun _ => hk⟩

/-! ## Section 3: Symbols of a pass -/

/-- A look-up in a table with entries below a bound -/
theorem exists_lookup {table : List ℕ} {n B : ℕ} (hpos : 0 < table.length)
    (hlen : table.length < 2 ^ 32) (hentry : ∀ e ∈ table, e < B) (hsum : n + B < 2 ^ 32) :
    ∃ c, Hist.lookup table n = .ok c ∧ c ≤ n + B := by
  have hmod : n % table.length ≤ n := Nat.mod_le _ _
  have hsome : ∃ e, table[n % table.length]? = some e :=
    ⟨_, List.getElem?_eq_getElem (Nat.mod_lt n hpos)⟩
  obtain ⟨e, he⟩ := hsome
  have hlt := hentry e (List.mem_of_getElem? he)
  refine ⟨n - n % table.length + e, ?_, by omega⟩
  refine Res.bind_eq_ok.mpr ⟨n % table.length, remU32_eq_ok.mpr ?_, addU32_eq_ok.mpr ?_⟩
  · rw [Nat.mod_eq_of_lt hlen]
    exact ⟨by omega, rfl⟩
  · rw [he, Option.getD_some]
    exact ⟨by omega, rfl⟩

section SecondPass

variable {g : GLZ} {slices : List (List UInt8)} {syms t : List ℕ}

theorem Prepared.returns_mapEncode (hp : Prepared g slices syms t) (hne : t ≠ []) {n : ℕ}
    (hn : n < 2 ^ 9) : Returns (fun _ => True) (g.rice.bijecter.mapEncode n) := by
  have hlen := hp.length_le
  have hpos : 0 < t.length := List.length_pos_iff.mpr hne
  have hentries : ∀ e ∈ t, e < 2 ^ 9 := fun e he => hp.small e ((hp.sorted.mem e).mp he)
  have hsize := Hist.max?_getD_lt (by decide) hentries
  obtain ⟨c, hc, hle⟩ : ∃ c, Hist.lookup (Hist.invert t (t.max?.getD 0 + 1)) n = .ok c ∧
      c ≤ n + 2 ^ 9 := by
    apply exists_lookup
    · rw [Hist.length_invert]
      exact Nat.succ_pos _
    · rw [Hist.length_invert]
      omega
    · intro e he
      have := Hist.lt_of_mem_invert hne he
      omega
    · omega
  obtain ⟨n', hn', -⟩ : ∃ n', Hist.lookup t c = .ok n' ∧ n' ≤ c + 2 ^ 9 :=
    exists_lookup hpos (by omega) hentries (by omega)
  unfold Hist.mapEncode Hist.mapDecode
  simp only [hp.sorted.table, returns_bind, hc, hn', returns_ok, returns_ensure, returns_pure,
    implies_true]

/-- With the table of the first pass every byte can be written. -/
theorem Prepared.exists_imm (hp : Prepared g slices syms t) (hk : g.k < 32)
    {slice : List UInt8} (hslice : slice ∈ slices) {x : UInt8} (hx : x ∈ slice) :
    ∃ code, g.encodeSym (GLZSym.imm x) = .ok code := by
  have hlt : ∀ s ∈ syms, s + 1 < 2 ^ 32 := by
    intro s hs
    have := hp.small s hs
    omega
  obtain ⟨c, hc, -⟩ := hp.sorted.exists_mapEncode (hp.bytes slice hslice x hx) hlt
  have hcode : g.rice.encodeSym x.toNat = .ok _ :=
    BijectEncoder.encodeSym_eq_ok.mpr ⟨c, hc, GolombRice.encodeSym_of_lt hk c⟩
  exact ⟨_, chainErr_eq_ok.mpr hcode⟩

theorem returns_offNibbles {m fuel n : ℕ} (hm : m < 32) (hn : n ≤ fuel) :
    Returns (fun _ => True) (offNibbles m fuel n) := by
  induction fuel generalizing n with
  | zero =>
    obtain rfl : n = 0 := by omega
    trivial
  | succ fuel ih =>
    cases n with
    | zero => trivial
    | succ n =>
      have hle : n >>> m ≤ fuel := by
        rw [Nat.shiftRight_eq_div_pow]
        exact (Nat.div_le_self _ _).trans (by omega)
      simp only [offNibbles, powU32, shrU32, returns_bind, returns_checked, returns_pure]
      exact ⟨hm, hm, ih hle⟩

theorem returns_mapM {α β : Type} {f : α → Res β} {xs : List α}
    (h : ∀ x ∈ xs, Returns (fun _ => True) (f x)) : Returns (fun _ => True) (xs.mapM f) := by
  induction xs with
  | nil => trivial
  | cons x xs ih =>
    rw [List.mapM_cons, returns_bind, returns_iff]
    refine ⟨h x (List.mem_cons_self ..), fun y _ => ?_⟩
    rw [returns_bind]
    exact (ih fun x' hx' => h x' (List.mem_cons_of_mem _ hx')).mono fun _ _ => trivial

/-- Writing a reference fails without a panic, unless its offset has no successor. -/
theorem returns_encodeSym_ref (hl : g.l ≤ 8) (hm : g.m < 32) {off size : ℕ} (hsize : 2 ≤ size)
    (hle : size ≤ 2 ^ g.l)
    (hcode : Returns (fun _ => True) (g.rice.encodeSym (size - 2 + 2 ^ 8))) :
    Returns (fun _ => True) (g.encodeSym (U := UInt8) (.ref off size)) ↔
      off % 2 ^ 32 ≠ 2 ^ 32 - 1 := by
  have hpow : 2 ^ g.l ≤ 2 ^ 8 := Nat.pow_le_pow_right (by decide) hl
  have hl : g.l < 64 := hl.trans_lt (by decide)
  have hmod : off % 2 ^ 32 < 2 ^ 32 := Nat.mod_lt _ (by decide)
  have hnsize : (size - 2) % 2 ^ 32 = size - 2 := Nat.mod_eq_of_lt (by omega)
  have hnibbles : ∀ offs : List ℕ, Returns (fun _ => True)
      (offs.zipIdx.mapM (encodeNibble g.m offs.length)) := by
    intro offs
    refine returns_mapM fun nibble _ => ?_
    rw [encodeNibble, returns_bind, shlU32, returns_checked, Glz.encodeSym, returns_bind,
      ensureWidth, returns_bind, returns_ensure]
    refine ⟨by omega, fun _ => ?_⟩
    rw [returns_ensure]
    exact fun _ => trivial
  rw [encodeSym, returns_chainErr, encodeSymRaw, if_neg (by omega)]
  simp only [powUsize, addU32, checkU32, returns_bind, returns_checked, returns_ensure,
    decide_eq_true_eq, hl, hnsize, returns_pure]
  constructor
  · rintro ⟨-, h⟩ hoff
    have := (h (by omega)).2.1
    omega
  · intro hoff
    refine ⟨by decide, fun _ => ⟨by omega, by omega, ?_⟩⟩
    refine (returns_offNibbles (by omega) le_rfl).mono fun offs _ => ?_
    refine hcode.mono fun code _ => ?_
    exact (hnibbles offs.reverse).mono fun _ _ => trivial

/-- A codec that can write every byte of the slices, and has a code for every length. -/
structure Writes (g : GLZ) (slices : List (List UInt8)) : Prop where
  l : g.l ≤ 8
  m : g.m < 32
  imm : ∀ slice ∈ slices, ∀ x ∈ slice, ∃ code, g.encodeSym (GLZSym.imm x) = .ok code
  size : ∀ slice ∈ slices, slice ≠ [] → ∀ n < 2 ^ 9, Returns (fun _ => True) (g.rice.encodeSym n)

theorem Prepared.writes (hp : Prepared g slices syms t) (hk : g.k < 32) : Writes g slices where
  l := hp.l
  m := hp.m
  imm := fun _ hslice _ hx => hp.exists_imm hk hslice hx
  size := by
    intro slice hslice hne n hn
    obtain ⟨x, hx⟩ := List.exists_mem_of_ne_nil slice hne
    have hnil : t ≠ [] := List.ne_nil_of_mem (hp.bytes slice hslice x hx)
    unfold BijectEncoder.encodeSym
    rw [returns_bind]
    refine (hp.returns_mapEncode hnil hn).mono fun c _ => ?_
    rw [GolombRice.encodeSym_of_lt hk]
    trivial

/-- Without a table there is a code for every symbol. -/
theorem writes_withConfig {k l m : ℕ} (hk : k < 32) (hl : l ≤ 8) (hm : m < 32)
    (slices : List (List UInt8)) : Writes (withConfig k l m) slices := by
  have hcode : ∀ n, (withConfig k l m).rice.encodeSym n =
      .ok (unary (n / 2 ^ k) ++ toBits k (n % 2 ^ k)) := fun n =>
    BijectEncoder.encodeSym_eq_ok.mpr
      ⟨n, Hist.mapEncode_of_none rfl n, GolombRice.encodeSym_of_lt hk n⟩
  refine ⟨hl, hm, fun _ _ x _ => ⟨_, chainErr_eq_ok.mpr (hcode _)⟩, fun _ _ _ n _ => ?_⟩
  rw [hcode]
  trivial

theorem Writes.returns_ref (hw : Writes g slices) {slice : List UInt8} (hslice : slice ∈ slices)
    (hne : slice ≠ []) {off size : ℕ} (hsize : 2 ≤ size) (hle : size ≤ 2 ^ g.l) :
    Returns (fun _ => True) (g.encodeSym (U := UInt8) (.ref off size)) ↔
      off % 2 ^ 32 ≠ 2 ^ 32 - 1 := by
  have hpow : 2 ^ g.l ≤ 2 ^ 8 := Nat.pow_le_pow_right (by decide) hw.l
  exact returns_encodeSym_ref hw.l hw.m hsize hle (hw.size slice hslice hne _ (by omega))

end SecondPass

/-! ## Section 4: Runs of a pass -/

/-- The distances that the search of `encode1` tries to write have a successor in 32 bits. -/
def DistancesFit (g : GLZ) (slice : List UInt8) (e : Encoder UInt8) : Prop :=
  ∀ i p, e.j - 2 ^ g.l ≤ i → i + 2 ≤ e.j → e.history (subslice slice i e.j) = some p →
    (e.off - p) % 2 ^ 32 ≠ 2 ^ 32 - 1

/-- From one turn of `encode1` to the next -/
def NextSymbol (g : GLZ) (slice : List UInt8) (e e' : Encoder UInt8) : Prop :=
  0 < e.j ∧ g.encode1Step slice e = .ok e'

/-- The distances fit wherever `encode1` comes to. -/
def SliceFits (g : GLZ) (history : History UInt8) (off : ℕ) (slice : List UInt8) : Prop :=
  ∀ e, ReflTransGen (g.NextSymbol slice) ⟨history, off, [], slice.length, slice.length, false⟩ e →
    0 < e.j → g.DistancesFit slice e

/-- The distances fit for each of the slices that the loop of `encode_all` comes to from
`a` and has to encode. -/
def FitsFrom (g : GLZ) (a : AllEncoder UInt8) (slices : List (List UInt8)) : Prop :=
  ∀ done slice rest a', slices = done ++ slice :: rest →
    done.foldlM g.encodeAllStep a = .ok a' → a'.offs slice = none → a'.history slice = none →
      g.SliceFits a'.history a'.off slice

/-- The distances fit all through `encode_all`. -/
def Fits (g : GLZ) (slices : List (List UInt8)) : Prop :=
  g.FitsFrom ⟨fun _ => none, 0, fun _ => none, []⟩
    (slices.mergeSort fun a b => decide (b.length ≤ a.length))

section Runs

variable {g : GLZ} {slices : List (List UInt8)} {slice : List UInt8} {e : Encoder UInt8}

theorem exists_okOrNone {α : Type} {x : Res α} :
    (∃ r, okOrNone x = .ok r) ↔ Returns (fun _ => True) x := by
  cases x with
  | ok a => exact ⟨fun _ => trivial, fun _ => ⟨_, rfl⟩⟩
  | error f =>
    cases f with
    | err e => exact ⟨fun _ => trivial, fun _ => ⟨_, rfl⟩⟩
    | panic p => exact ⟨fun ⟨_, h⟩ => (by cases h), False.elim⟩
    | outOfFuel => exact ⟨fun ⟨_, h⟩ => (by cases h), False.elim⟩

/-- The search fails only at a distance without a successor. -/
theorem exists_findRef (hw : Writes g slices) (hslice : slice ∈ slices) (hne : slice ≠ [])
    (hpast : ∀ s p, e.history s = some p → p ≤ e.off) :
    (∃ r, g.findRef e.history e.off slice e.j (e.j - 2 ^ g.l) = .ok r) ↔
      g.DistancesFit slice e := by
  unfold findRef
  constructor
  · rintro ⟨r, h⟩ i p hi hij hget
    have hmem : i ∈ (List.range' (e.j - 2 ^ g.l) (e.j - (e.j - 2 ^ g.l))).reverse := by
      rw [List.mem_reverse, List.mem_range'_1]
      omega
    obtain ⟨_, _, hstep⟩ := exists_step_of_foldlM h hmem
    rw [hget] at hstep
    obtain ⟨diff, hdiff, hstep⟩ := Res.bind_eq_ok.mp hstep
    obtain ⟨-, rfl⟩ := subUsize_eq_ok.mp hdiff
    obtain ⟨nref, hnref, -⟩ := Res.bind_eq_ok.mp hstep
    exact (hw.returns_ref hslice hne (by omega) (by omega)).mp (exists_okOrNone.mp ⟨nref, hnref⟩)
  · intro hfit
    apply exists_foldlM
    intro ref_ i hi
    rw [List.mem_reverse, List.mem_range'_1] at hi
    cases hget : e.history (subslice slice i e.j) with
    | none => exact ⟨ref_, rfl⟩
    | some p =>
      have hnref : ∃ nref, okOrNone (g.encodeSym (U := UInt8) (.ref (e.off - p) (e.j - i))) =
          .ok nref := by
        rw [exists_okOrNone]
        rcases Nat.lt_or_ge (e.j - i) 2 with hshort | hlong
        · rw [encodeSym, returns_chainErr, encodeSymRaw, if_pos hshort]
          trivial
        · exact (hw.returns_ref hslice hne hlong (by omega)).mpr
            (hfit i p hi.1 (by omega) hget)
      obtain ⟨nref, hnref⟩ := hnref
      have hdiff : subUsize e.off p = .ok (e.off - p) :=
        subUsize_eq_ok.mpr ⟨hpast _ _ hget, rfl⟩
      cases nref with
      | none => exact ⟨_, Res.bind_eq_ok.mpr ⟨_, hdiff, Res.bind_eq_ok.mpr ⟨_, hnref, rfl⟩⟩⟩
      | some nref => exact ⟨_, Res.bind_eq_ok.mpr ⟨_, hdiff, Res.bind_eq_ok.mpr ⟨_, hnref, rfl⟩⟩⟩

/-- A turn of `encode1` fails only if its search does. -/
theorem exists_encode1Step (hw : Writes g slices) (hslice : slice ∈ slices) (hj : 0 < e.j) (hle : e.j ≤ slice.length)
    (hpast : ∀ s p, e.history s = some p → p ≤ e.off) :
    (∃ e', g.encode1Step slice e = .ok e') ↔ g.DistancesFit slice e := by
  have hlt : e.j - 1 < slice.length := by omega
  obtain ⟨x, hx⟩ : ∃ x, slice[e.j - 1]? = some x := ⟨_, List.getElem?_eq_getElem hlt⟩
  have hmem := List.mem_of_getElem? hx
  obtain ⟨imm, himm⟩ := hw.imm slice hslice x hmem
  have hne : slice ≠ [] := List.ne_nil_of_mem hmem
  have hpow : powUsize g.l = .ok (2 ^ g.l) :=
    powUsize_eq_ok.mpr ⟨hw.l.trans_lt (by decide), rfl⟩
  rw [← exists_findRef hw hslice hne hpast]
  constructor
  · rintro ⟨e', h⟩
    obtain ⟨lim, hlim, h⟩ := Res.bind_eq_ok.mp h
    obtain ⟨-, rfl⟩ := powUsize_eq_ok.mp hlim
    obtain ⟨r, hr, -⟩ := Res.bind_eq_ok.mp h
    exact ⟨r, hr⟩
  · rintro ⟨r, hr⟩
    unfold encode1Step
    simp only [bind, Except.bind, hpow, hr, hx, himm]
    cases r with
    | none => exact ⟨_, rfl⟩
    | some r =>
      split
      · exact ⟨_, rfl⟩
      · exact ⟨_, rfl⟩

theorem SoundAt.past {U : Type} [Sym U] {g : GLZ} {slice : List U} {E S : Bits}
    {syms : List (GLZSym U)} {e : Encoder U} (h : SoundAt g slice E syms e S) :
    ∀ s p, e.history s = some p → p ≤ e.off := by
  intro s p hget
  rw [h.off]
  exact (h.sound.patterns s p hget).1

theorem exists_encode1Loop (hw : Writes g slices) (hslice : slice ∈ slices) {E S : Bits} {syms' : List (GLZSym UInt8)} {fuel : ℕ}
    (hsound : SoundAt g slice E syms' e S) (hfuel : e.j ≤ fuel) :
    (∃ e', g.encode1Loop slice fuel e = .ok e') ↔
      ∀ e', ReflTransGen (g.NextSymbol slice) e e' → 0 < e'.j → g.DistancesFit slice e' := by
  refine forall_reached_iff (fun fuel e => ∃ e', g.encode1Loop slice fuel e = .ok e')
    (fun e => ∃ E syms' S, SoundAt g slice E syms' e S) (fun e => e.j)
    (fun e => 0 < e.j → g.DistancesFit slice e) ?_ ?_ ?_ ⟨E, syms', S, hsound⟩ hfuel
  · intro e _ hzero
    rw [encode1Loop, if_neg (by omega)]
    exact ⟨fun _ hj => by omega, fun _ => ⟨e, rfl⟩⟩
  · rintro fuel e ⟨E, syms', S, hsound⟩
    rw [encode1Loop]
    split
    · next hj =>
      have hle := hsound.le
      have hstep := exists_encode1Step hw hslice hj (hle.1.trans hle.2) hsound.past
      constructor
      · rintro ⟨e', h⟩
        obtain ⟨e₁, he₁, h⟩ := Res.bind_eq_ok.mp h
        refine ⟨fun _ => hstep.mp ⟨e₁, he₁⟩, ?_⟩
        rintro e₂ ⟨-, he₂⟩
        obtain rfl : e₁ = e₂ := Except.ok.inj (he₁.symm.trans he₂)
        exact ⟨e', h⟩
      · rintro ⟨hfit, hnext⟩
        obtain ⟨e₁, he₁⟩ := hstep.mpr (hfit hj)
        obtain ⟨e', h⟩ := hnext e₁ ⟨hj, he₁⟩
        exact ⟨e', Res.bind_eq_ok.mpr ⟨e₁, he₁, h⟩⟩
    · next hj =>
      exact ⟨fun _ => ⟨fun h => absurd h hj, fun _ h => absurd h.1 hj⟩, fun _ => ⟨e, rfl⟩⟩
  · rintro e e' ⟨E, syms', S, hsound⟩ ⟨hj, hstep⟩
    obtain ⟨code, sym, hsound', hlt⟩ := soundAt_encode1Step hsound hj hstep
    exact ⟨⟨E, sym :: syms', code ++ S, hsound'⟩, hlt⟩

theorem exists_encode1 (hw : Writes g slices) (hslice : slice ∈ slices) {history : History UInt8} {S : Bits}
    {syms' : List (GLZSym UInt8)} (hsound : Sound g S syms' history) :
    (∃ r, g.encode1 history S.length slice = .ok r) ↔ g.SliceFits history S.length slice := by
  have hloop := exists_encode1Loop hw hslice (soundAt_start slice hsound) le_rfl
  rw [SliceFits, ← hloop]
  constructor
  · rintro ⟨r, h⟩
    obtain ⟨e, he, -⟩ := Res.bind_eq_ok.mp h
    exact ⟨e, he⟩
  · rintro ⟨e, he⟩
    exact ⟨_, Res.bind_eq_ok.mpr ⟨e, he, rfl⟩⟩

theorem fitsFrom_cons {a : AllEncoder UInt8} {s : List UInt8} {l : List (List UInt8)} :
    g.FitsFrom a (s :: l) ↔
      (a.offs s = none → a.history s = none → g.SliceFits a.history a.off s) ∧
        ∀ a₁, g.encodeAllStep a s = .ok a₁ → g.FitsFrom a₁ l := by
  constructor
  · intro h
    refine ⟨h [] s l a rfl rfl, fun a₁ ha₁ done slice rest a' hl hdone => ?_⟩
    refine h (s :: done) slice rest a' (by rw [hl]; rfl) ?_
    rw [List.foldlM_cons, Res.bind_eq_ok]
    exact ⟨a₁, ha₁, hdone⟩
  · rintro ⟨hhead, htail⟩ done slice rest a' hl hdone
    cases done with
    | nil =>
      cases hl
      cases hdone
      exact hhead
    | cons s' done =>
      cases hl
      rw [List.foldlM_cons, Res.bind_eq_ok] at hdone
      obtain ⟨a₁, ha₁, hdone⟩ := hdone
      exact htail a₁ ha₁ done slice rest a' rfl hdone

theorem exists_foldlM_encodeAllStep (hw : Writes g slices) {l : List (List UInt8)} (hl : ∀ slice ∈ l, slice ∈ slices) {a : AllEncoder UInt8}
    {S : Bits} {syms' : List (GLZSym UInt8)} (hsound : AllSound g S syms' a) :
    (∃ a', l.foldlM g.encodeAllStep a = .ok a') ↔ g.FitsFrom a l := by
  induction l generalizing a S syms' with
  | nil =>
    refine ⟨fun _ done slice rest a' h => ?_, fun _ => ⟨a, rfl⟩⟩
    exact absurd h.symm (List.append_ne_nil_of_right_ne_nil _ (List.cons_ne_nil _ _))
  | cons s l ih =>
    have hstep : (∃ a₁, g.encodeAllStep a s = .ok a₁) ↔
        (a.offs s = none → a.history s = none → g.SliceFits a.history a.off s) := by
      unfold encodeAllStep
      cases hoffs : a.offs s with
      | some off => exact ⟨fun _ h => (by cases h), fun _ => ⟨a, rfl⟩⟩
      | none =>
        cases hhist : a.history s with
        | some off => exact ⟨fun _ _ h => (by cases h), fun _ => ⟨_, rfl⟩⟩
        | none =>
          have henc := exists_encode1 hw (hl s (List.mem_cons_self ..)) hsound.sound
          rw [← hsound.off] at henc
          constructor
          · rintro ⟨a₁, h⟩ - -
            obtain ⟨r, hr, -⟩ := Res.bind_eq_ok.mp h
            exact henc.mp ⟨r, hr⟩
          · intro h
            obtain ⟨r, hr⟩ := henc.mpr (h rfl rfl)
            exact ⟨_, Res.bind_eq_ok.mpr ⟨r, hr, rfl⟩⟩
    have hrest : ∀ a₁, g.encodeAllStep a s = .ok a₁ →
        ((∃ a', l.foldlM g.encodeAllStep a₁ = .ok a') ↔ g.FitsFrom a₁ l) := by
      intro a₁ ha₁
      obtain ⟨bits, syms₁, hsound₁⟩ := allSound_encodeAllStep hsound ha₁
      exact ih (fun slice hslice => hl slice (List.mem_cons_of_mem _ hslice)) hsound₁
    rw [fitsFrom_cons, ← hstep]
    constructor
    · rintro ⟨a', h⟩
      rw [List.foldlM_cons, Res.bind_eq_ok] at h
      obtain ⟨a₁, ha₁, h⟩ := h
      refine ⟨⟨a₁, ha₁⟩, fun a₂ ha₂ => ?_⟩
      obtain rfl : a₁ = a₂ := Except.ok.inj (ha₁.symm.trans ha₂)
      exact (hrest a₁ ha₁).mp ⟨a', h⟩
    · rintro ⟨⟨a₁, ha₁⟩, hfits⟩
      obtain ⟨a', h⟩ := (hrest a₁ ha₁).mpr (hfits a₁ ha₁)
      refine ⟨a', ?_⟩
      rw [List.foldlM_cons, Res.bind_eq_ok]
      exact ⟨a₁, ha₁, h⟩

theorem offs_encodeAllStep {a a' : AllEncoder UInt8} {s : List UInt8}
    (h : g.encodeAllStep a s = .ok a') :
    (a'.offs s).isSome ∧ ∀ s', (a.offs s').isSome → (a'.offs s').isSome := by
  have hinsert : ∀ off, ((a.offs.insert s off) s).isSome ∧
      ∀ s', (a.offs s').isSome → ((a.offs.insert s off) s').isSome := by
    intro off
    simp only [History.insert_apply, if_true]
    refine ⟨rfl, fun s' hs' => ?_⟩
    split
    · rfl
    · exact hs'
  unfold encodeAllStep at h
  split at h
  · next hsome =>
    cases h
    exact ⟨hsome, fun _ => id⟩
  split at h
  · cases h
    exact hinsert _
  · obtain ⟨r, -, h⟩ := Res.bind_eq_ok.mp h
    cases h
    exact hinsert _

theorem offs_foldlM {l : List (List UInt8)} {a a' : AllEncoder UInt8}
    (h : l.foldlM g.encodeAllStep a = .ok a') :
    (∀ s ∈ l, (a'.offs s).isSome) ∧ ∀ s, (a.offs s).isSome → (a'.offs s).isSome := by
  induction l generalizing a with
  | nil =>
    cases h
    refine ⟨fun s hs => ?_, fun _ => id⟩
    cases hs
  | cons s l ih =>
    rw [List.foldlM_cons, Res.bind_eq_ok] at h
    obtain ⟨a₁, ha₁, h⟩ := h
    obtain ⟨hself, hkept⟩ := offs_encodeAllStep ha₁
    obtain ⟨hrest, hkept'⟩ := ih h
    refine ⟨fun s' hs' => ?_, fun s' hs' => hkept' s' (hkept s' hs')⟩
    rcases List.mem_cons.mp hs' with rfl | hs'
    · exact hkept' _ hself
    · exact hrest s' hs'

/-- `encode_all` fails only in its loop. -/
theorem exists_encodeAll_iff_foldlM :
    (∃ r, g.encodeAll slices = .ok r) ↔
      ∃ a, (slices.mergeSort fun a b => decide (b.length ≤ a.length)).foldlM g.encodeAllStep
        ⟨fun _ => none, 0, fun _ => none, []⟩ = .ok a := by
  constructor
  · rintro ⟨r, h⟩
    obtain ⟨a, ha, -⟩ := Res.bind_eq_ok.mp h
    exact ⟨a, ha⟩
  · rintro ⟨a, ha⟩
    obtain ⟨S, syms, hsound⟩ := allSound_foldlM (allSound_start g) ha
    have htotal : (a.blobs.map List.length).sum = S.length := by
      rw [← hsound.stream, List.length_flatten, List.map_reverse, List.sum_reverse]
    refine ⟨_, Res.bind_eq_ok.mpr ⟨a, ha, Res.bind_eq_ok.mpr ⟨_, mapM_eq_map
      (g := fun slice => (S.length - (a.offs slice).getD 0, slice.length))
      fun slice hslice => ?_, rfl⟩⟩⟩
    have hsome := (offs_foldlM ha).1 slice ((List.mergeSort_perm _ _).mem_iff.mpr hslice)
    obtain ⟨off, hoff⟩ := Option.isSome_iff_exists.mp hsome
    have hle := (hsound.offs slice off hoff).1
    rw [hoff, htotal]
    exact Res.bind_eq_ok.mpr ⟨_, subUsize_eq_ok.mpr ⟨hle, rfl⟩, rfl⟩

/-- Nothing is written for slices without bytes. -/
theorem exists_encodeAll_of_empty (hempty : ∀ slice ∈ slices, slice = []) :
    ∃ r, g.encodeAll slices = .ok r := by
  rw [exists_encodeAll_iff_foldlM]
  refine exists_foldlM _ fun a s hs => ?_
  obtain rfl := hempty s ((List.mergeSort_perm _ _).mem_iff.mp hs)
  unfold encodeAllStep
  split
  · exact ⟨a, rfl⟩
  split
  · exact ⟨_, rfl⟩
  · exact ⟨_, rfl⟩

/-- A codec that can write the slices fails just at a distance without a successor. -/
theorem Writes.exists_encodeAll_iff (hw : Writes g slices) :
    (∃ r, g.encodeAll slices = .ok r) ↔ g.Fits slices := by
  rw [exists_encodeAll_iff_foldlM]
  exact exists_foldlM_encodeAllStep hw (fun s hs => (List.mergeSort_perm _ _).mem_iff.mp hs)
    (allSound_start g)

/-- Where a byte has been written, `k` does not shift too far. -/
theorem k_lt_of_encodeAll {r : Bits × List (ℕ × ℕ)} (h : g.encodeAll slices = .ok r)
    (hslice : slice ∈ slices) (hne : slice ≠ []) : g.k < 32 := by
  obtain ⟨bits, offs⟩ := r
  obtain ⟨syms, -, hread⟩ := readable_encodeAll h
  obtain ⟨at_, -, -, -, hreadable⟩ := exists_right_of_mem hread hslice
  obtain ⟨x, hx⟩ := List.exists_mem_of_ne_nil slice hne
  obtain ⟨_, _, -, code, _, -, hcode, -⟩ := hreadable.emitted x hx
  obtain ⟨c, -, hrice⟩ := BijectEncoder.encodeSym_eq_ok.mp (chainErr_eq_ok.mp hcode)
  exact (GolombRice.encodeSym_eq_ok hrice).1

/-- After a first pass the second one does not fail, unless a given `k` shifts too far or
a distance has no successor in 32 bits. -/
theorem second_pass_iff {first : Bits × List (ℕ × ℕ)} {l m : ℕ} (k : Option ℕ) (hl : l ≤ 8)
    (hm : m < 32) (h : (withConfig DEFAULT_K l m).encodeAll slices = .ok first) :
    ∃ g, twoPass k l m slices = .ok g ∧ ((∃ r, g.encodeAll slices = .ok r) ↔
      (∀ slice ∈ slices, slice = []) ∨ (∀ k', k = some k' → k' < 32) ∧ g.Fits slices) := by
  obtain ⟨g, syms, t, htwo, hp, hsome, hnone⟩ := exists_twoPass k hl hm h
  refine ⟨g, htwo, ?_⟩
  by_cases hempty : ∀ slice ∈ slices, slice = []
  · exact ⟨fun _ => .inl hempty, fun _ => exists_encodeAll_of_empty hempty⟩
  have hfits : g.k < 32 → ((∃ r, g.encodeAll slices = .ok r) ↔ g.Fits slices) :=
    fun hk => (hp.writes hk).exists_encodeAll_iff
  have hk : (∀ k', k = some k' → k' < 32) ↔ g.k < 32 := by
    cases k with
    | none => exact ⟨fun _ => hnone rfl, fun _ k' hk' => by cases hk'⟩
    | some k' =>
      rw [hsome k' rfl]
      constructor
      · exact fun h => h k' rfl
      · rintro hlt _ ⟨⟩
        exact hlt
  rw [or_iff_right hempty, hk]
  constructor
  · rintro ⟨r, hr⟩
    obtain ⟨slice, hslice, hne⟩ : ∃ slice ∈ slices, slice ≠ [] := by
      simpa only [not_forall, exists_prop] using hempty
    have hlt := k_lt_of_encodeAll hr hslice hne
    exact ⟨hlt, (hfits hlt).mp ⟨r, hr⟩⟩
  · rintro ⟨hlt, hfit⟩
    exact (hfits hlt).mpr hfit

/-- A slice of one byte has no pattern to refer to. -/
theorem sliceFits_of_length_le (g : GLZ) (history : History UInt8) (off : ℕ)
    (hlen : slice.length ≤ 1) : g.SliceFits history off slice := by
  intro e hreach
  have hle : e.j ≤ slice.length := by
    induction hreach with
    | refl => exact le_rfl
    | tail _ hnext ih =>
      rcases encode1Step_cases hnext.2 with ⟨n, _, _, -, -, -, -, rfl⟩ | ⟨_, _, -, -, rfl⟩
      · exact (Nat.sub_le _ _).trans ih
      · exact (Nat.sub_le _ _).trans ih
  intro _ i p _ hij
  omega

end Runs

/-- Both passes over a byte and an empty slice -/
theorem second_pass_byte :
    ∃ g, twoPass none 5 4 [[0], []] = .ok g ∧ ∃ r, g.encodeAll (U := UInt8) [[0], []] = .ok r := by
  have hfirst : (withConfig DEFAULT_K 5 4).encodeAll (U := UInt8) [[0], []] =
      .ok (List.replicate 10 false, [(0, 1), (0, 0)]) := by
    rw [encodeAll, List.mergeSort_of_pairwise (by decide)]
    decide +kernel
  obtain ⟨g, htwo, hiff⟩ := second_pass_iff none (by decide) (by decide) hfirst
  refine ⟨g, htwo, hiff.mpr (.inr ⟨fun _ h => (by cases h), ?_⟩)⟩
  intro done slice rest a hl _ _ _
  apply sliceFits_of_length_le
  have hmem : slice ∈ [[(0 : UInt8)], []] := by
    rw [← (List.mergeSort_perm _ _).mem_iff, hl]
    exact List.mem_append_right _ (List.mem_cons_self ..)
  rcases List.mem_cons.mp hmem with rfl | hmem
  · exact le_rfl
  · rw [List.mem_singleton.mp hmem]
    exact Nat.zero_le 1

/-- A `k` that the code word of no symbol can be shifted by -/
theorem not_second_pass :
    ¬ ∀ (k : Option ℕ) (slices : List (List UInt8)) (g : GLZ), twoPass k 5 4 slices = .ok g →
      ∃ r, g.encodeAll slices = .ok r := by
  intro h
  have hfirst : (withConfig DEFAULT_K 5 4).encodeAll (U := UInt8) [[0]] =
      .ok (List.replicate 10 false, [(0, 1)]) := by
    rw [encodeAll, List.mergeSort_of_pairwise (by decide)]
    decide +kernel
  obtain ⟨g, _, _, htwo, -, hk, -⟩ := exists_twoPass (some 32) (by decide) (by decide) hfirst
  obtain ⟨r, hr⟩ := h (some 32) [[0]] g htwo
  have hlt := k_lt_of_encodeAll hr (List.mem_singleton_self _) (List.cons_ne_nil _ _)
  rw [hk 32 rfl] at hlt
  exact Nat.lt_irrefl 32 hlt

end BentoLinker.Glz.GLZ
