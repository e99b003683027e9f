import BentoLinker.Glz.TableIndex
import BentoLinker.Lib.Rearrangement
import Mathlib.Algebra.Order.BigOperators.Group.List

/-!
# The Best Code

How many bits the symbols of a histogram take, with the table that `sort` and `compact` make and
the parameter that `from_hist` chooses.

- `codeLength`, `Hist.encodedBits`: what an assignment of the symbols to code indices costs
- `GolombRice.Best`: the smallest parameter of those with the fewest bits
- `GolombRice.fromHist_best`: what the search in `from_hist` finds, and when it shifts too far
- `Hist.OptimalTable`, `Hist.OptimalParameter`: no better code, with a table and without
- `Hist.optimal_iff`: when this holds

The search tries one parameter for every bit of the bound, which is one too many for a bound with
32 bits.
-/

namespace BentoLinker.Glz

open BitCode FallibleFold

/-! ## Section 1: Lengths of codes -/

/-- The bits that a Golomb-Rice code of an index takes -/
def codeLength (k i : ℕ) : ℕ :=
  match GolombRice.encodeSym ⟨k⟩ i with
  | .ok bits => bits.length
  | .error _ => 0

theorem codeLength_eq {k : ℕ} (hk : k < 32) (i : ℕ) : codeLength k i = i / 2 ^ k + 1 + k := by
  have hencode : GolombRice.encodeSym ⟨k⟩ i =
      .ok (unary (i / 2 ^ k) ++ toBits k (i % 2 ^ k)) := GolombRice.encodeSym_of_lt hk i
  rw [codeLength, hencode]
  simp only [List.length_append, length_unary, length_toBits]

/-- A code is no shorter than those of the indices in front of its own. -/
theorem codeLength_mono {k : ℕ} (hk : k < 32) : Monotone (codeLength k) := by
  intro i j hij
  rw [codeLength_eq hk, codeLength_eq hk]
  exact Nat.add_le_add_right (Nat.add_le_add_right (Nat.div_le_div_right hij) 1) k

/-- Indices that fit in `k` bits -/
theorem codeLength_of_lt {k : ℕ} (hk : k < 32) {i : ℕ} (hi : i < 2 ^ k) :
    codeLength k i = 1 + k := by
  rw [codeLength_eq hk, Nat.div_eq_of_lt hi, Nat.zero_add]

namespace GolombRice

/-- The first of the parameters with the fewest bits -/
structure Best (bits : ℕ → ℕ) (k : ℕ) : Prop where
  lt : k < 32
  le : ∀ j < 32, bits k ≤ bits j
  first : ∀ j < k, bits k < bits j

/-! ## Section 2: The search -/

/-- The bits of some indices with counts -/
def totalBits (hits : List (ℕ × ℕ)) (k : ℕ) : ℕ :=
  (hits.map fun nc => nc.2 * codeLength k nc.1).sum

theorem encodedSize_eq (hits : List (ℕ × ℕ)) {k : ℕ} (hk : k < 32) :
    encodedSize hits k = .ok (totalBits hits k) := by
  refine Res.bind_eq_ok.mpr ⟨hits.map fun nc => nc.2 * codeLength k nc.1, ?_, rfl⟩
  apply mapM_eq_map
  intro nc _
  rw [codeLength, encodeSym_of_lt hk]
  rfl

/-- `1u32 << 32` -/
theorem encodedSize_of_ge {hits : List (ℕ × ℕ)} (hne : hits ≠ []) {k size : ℕ} (hk : 32 ≤ k) :
    encodedSize hits k ≠ .ok size := by
  intro hsize
  obtain ⟨sizes, hsizes, -⟩ := Res.bind_eq_ok.mp hsize
  obtain ⟨nc, hits, rfl⟩ := List.exists_cons_of_ne_nil hne
  obtain ⟨bits, -, hbits⟩ := exists_right_of_mem (forall₂_of_mapM hsizes) List.mem_cons_self
  obtain ⟨bits, hunwrap, -⟩ := Res.bind_eq_ok.mp hbits
  have hencode : encodeSym ⟨k⟩ nc.1 = .ok bits := by
    cases h : encodeSym ⟨k⟩ nc.1 with
    | ok b =>
      rw [h] at hunwrap
      exact hunwrap
    | error e =>
      rw [h] at hunwrap
      cases e <;> cases hunwrap
  exact absurd (encodeSym_eq_ok hencode).1 (Nat.not_lt.mpr hk)

/-- The order of the pairs in `min` -/
def PairLe (a b : ℕ × ℕ) : Prop := a.1 < b.1 ∨ a.1 = b.1 ∧ a.2 ≤ b.2

theorem PairLe.trans {a b c : ℕ × ℕ} (hab : PairLe a b) (hbc : PairLe b c) : PairLe a c := by
  unfold PairLe at *
  omega

theorem minSizeK_le (a b : ℕ × ℕ) : PairLe (minSizeK a b) a ∧ PairLe (minSizeK a b) b := by
  unfold minSizeK PairLe
  split <;> omega

/-- The fold keeps the smallest pair. -/
theorem foldl_minSizeK_le (sizes : List (ℕ × ℕ)) (first : ℕ × ℕ) :
    ∀ b ∈ first :: sizes, PairLe (sizes.foldl minSizeK first) b := by
  induction sizes generalizing first with
  | nil =>
    intro b hb
    cases List.mem_singleton.mp hb
    exact .inr ⟨rfl, Nat.le_refl _⟩
  | cons a sizes ih =>
    obtain ⟨hfirst, ha⟩ := minSizeK_le first a
    have hfold := ih (minSizeK first a)
    have hhead := hfold _ List.mem_cons_self
    rw [List.foldl_cons]
    intro b hb
    have hcases : b = first ∨ b = a ∨ b ∈ sizes := by simpa using hb
    rcases hcases with rfl | rfl | hb
    · exact hhead.trans hfirst
    · exact hhead.trans ha
    · exact hfold b (List.mem_cons_of_mem _ hb)

/-- Behind the width of the indices every bit is one too many. -/
theorem totalBits_lt {hits : List (ℕ × ℕ)} (hne : hits ≠ []) {w j : ℕ} (hj : j < 32)
    (hwj : w < j) (hhits : ∀ nc ∈ hits, nc.1 < 2 ^ w ∧ 0 < nc.2) :
    totalBits hits w < totalBits hits j := by
  apply List.sum_lt_sum_of_ne_nil hne
  intro nc hnc
  obtain ⟨hlt, hpos⟩ := hhits nc hnc
  have hlt' : nc.1 < 2 ^ j := Nat.lt_of_lt_of_le hlt (Nat.pow_le_pow_right (by decide) hwj.le)
  rw [codeLength_of_lt (by omega) hlt, codeLength_of_lt hj hlt']
  exact Nat.mul_lt_mul_of_pos_left (by omega) hpos

/-- The search is over the widths of the indices. -/
theorem fromHist_eq_ok {h : Hist} {bound : ℕ} {hits : List (ℕ × ℕ)} {c : GolombRice}
    (hbound : h.bound = .ok bound) (hiter : h.iter = .ok hits) (hlt : bound < 2 ^ 32)
    (hpos : 0 < bound) :
    fromHist h = .ok c ↔ ∃ first others, (List.range ((bound - 1).size + 1)).mapM (fun k => do
      let size ← encodedSize hits k
      pure (size, k)) = .ok (first :: others) ∧ c = ⟨(others.foldl minSizeK first).2⟩ := by
  rw [fromHist, hbound]
  change (if bound % 2 ^ 32 = 0 then _ else _) = _ ↔ _
  rw [Nat.mod_eq_of_lt hlt, if_neg hpos.ne', hiter]
  refine (Res.bind_eq_ok (x := .ok hits)).trans ?_
  constructor
  · rintro ⟨hits', hhits, h⟩
    cases hhits
    obtain ⟨sizes, hsizes, h⟩ := Res.bind_eq_ok.mp h
    cases sizes with
    | nil => cases h
    | cons first others =>
      cases h
      exact ⟨first, others, hsizes, rfl⟩
  · rintro ⟨first, others, hsizes, rfl⟩
    exact ⟨hits, rfl, Res.bind_eq_ok.mpr ⟨first :: others, hsizes, rfl⟩⟩

/-- The search finds the best parameter for indices below a bound, unless the bound has 32 bits. -/
theorem fromHist_best {h : Hist} {bound : ℕ} {hits : List (ℕ × ℕ)} (hbound : h.bound = .ok bound)
    (hiter : h.iter = .ok hits) (hlt : bound < 2 ^ 32) (hne : hits ≠ [])
    (hhits : ∀ nc ∈ hits, nc.1 < bound ∧ 0 < nc.2) :
    (∃ k, fromHist h = .ok ⟨k⟩ ∧ Best (totalBits hits) k) ↔ bound ≤ 2 ^ 31 := by
  have hpos : 0 < bound := by
    obtain ⟨nc, rest, rfl⟩ := List.exists_cons_of_ne_nil hne
    exact Nat.lt_of_le_of_lt (Nat.zero_le _) (hhits nc List.mem_cons_self).1
  have hwidth : (bound - 1).size ≤ 31 ↔ bound ≤ 2 ^ 31 := by
    rw [Nat.size_le]
    omega
  rw [← hwidth]
  constructor
  · rintro ⟨k, hk, -⟩
    -- with a bound of 32 bits the widest parameter is tried, and it shifts too far
    obtain ⟨first, others, hsizes, -⟩ := (fromHist_eq_ok hbound hiter hlt hpos).mp hk
    by_contra hgt
    obtain ⟨_, -, hbody⟩ := exists_right_of_mem (forall₂_of_mapM hsizes)
      (List.mem_range.mpr (Nat.lt_succ_self (bound - 1).size))
    obtain ⟨size, hsize, -⟩ := Res.bind_eq_ok.mp hbody
    exact encodedSize_of_ge hne (by omega) hsize
  · intro hle
    have hsizes : (List.range ((bound - 1).size + 1)).mapM (fun k => do
        let size ← encodedSize hits k
        pure (size, k)) =
          .ok ((List.range ((bound - 1).size + 1)).map fun k => (totalBits hits k, k)) := by
      apply mapM_eq_map
      intro k hk
      have hk := List.mem_range.mp hk
      rw [encodedSize_eq hits (by omega)]
      rfl
    obtain ⟨first, others, hcons⟩ : ∃ first others, ((List.range ((bound - 1).size + 1)).map
        fun k => (totalBits hits k, k)) = first :: others :=
      List.exists_cons_of_ne_nil (by simp)
    -- the fold keeps a pair of the list that is least in size, and then in parameter
    have hmin := foldl_minSizeK_le others first
    have hmem := minSizeK_foldl_mem others first
    rw [← hcons] at hmin hmem
    obtain ⟨k, hk, hpair⟩ := List.mem_map.mp hmem
    have hk := List.mem_range.mp hk
    rw [← hpair] at hmin
    have hle_of : ∀ j ≤ (bound - 1).size, PairLe (totalBits hits k, k) (totalBits hits j, j) :=
      fun j hj => hmin _ (List.mem_map.mpr ⟨j, List.mem_range.mpr (by omega), rfl⟩)
    refine ⟨k, ?_, by omega, ?_, ?_⟩
    · rw [fromHist_eq_ok hbound hiter hlt hpos]
      exact ⟨first, others, hsizes.trans (congrArg _ hcons), by rw [← hpair]⟩
    · intro j hj
      by_cases hjw : j ≤ (bound - 1).size
      · rcases hle_of j hjw with h | ⟨h, -⟩
        · exact Nat.le_of_lt h
        · exact Nat.le_of_eq h
      · -- behind the bound of the search
        have hbehind : totalBits hits (bound - 1).size < totalBits hits j := by
          apply totalBits_lt hne hj (by omega)
          intro nc hnc
          obtain ⟨hcode, hcount⟩ := hhits nc hnc
          exact ⟨Nat.lt_of_le_of_lt (Nat.le_sub_one_of_lt hcode) (Nat.lt_size_self _), hcount⟩
        rcases hle_of _ (Nat.le_refl _) with h | ⟨h, -⟩ <;> dsimp only at h <;> omega
    · intro j hj
      rcases hle_of j (by omega) with h | ⟨-, h⟩
      · exact h
      · exact absurd h (Nat.not_le.mpr hj)

end GolombRice

/-! ## Section 3: Symbols with a hit -/

namespace Hist

open Rearrangement GolombRice

variable {h : Hist} {code : ℕ → ℕ}

def symbols (h : Hist) : List ℕ := h.entries.map Prod.fst

/-- The bits of the symbols that have been counted, under an assignment of code indices -/
def encodedBits (h : Hist) (code : ℕ → ℕ) (k : ℕ) : ℕ :=
  cost h.hits (codeLength k) code h.symbols

theorem mem_symbols (n : ℕ) : n ∈ h.symbols ↔ h.hits n ≠ 0 := mem_iter_iff n

theorem nodup_symbols (h : Hist) : h.symbols.Nodup := by
  have hsub : h.symbols.Sublist (h.hist.zipIdx.map Prod.snd) := by
    rw [symbols, entries, List.map_map]
    exact List.filter_sublist.map _
  refine List.Nodup.sublist hsub ?_
  rw [List.zipIdx_map_snd]
  exact List.nodup_range'

theorem count_of_mem {nc : ℕ × ℕ} (hnc : nc ∈ h.entries) : nc.2 = h.hits nc.1 ∧ 0 < nc.2 := by
  obtain ⟨ni, hni, rfl⟩ := List.mem_map.mp hnc
  obtain ⟨hmem, hpos⟩ := List.mem_filter.mp hni
  have hget := List.mem_zipIdx_iff_getElem?.mp hmem
  refine ⟨?_, of_decide_eq_true hpos⟩
  rw [hits, List.getD_eq_getElem?_getD, hget]
  rfl

/-- `iter` runs over the codes of the symbols with a hit. -/
theorem iter_eq (hcode : ∀ n, h.hits n ≠ 0 → h.mapEncode n = .ok (code n)) :
    h.iter = .ok (h.entries.map fun nc => (code nc.1, nc.2)) := by
  have hiter : h.iter = .ok ((h.hist.zipIdx.filter (0 < ·.1)).map
      fun ni => (code ni.2, ni.1)) := by
    apply mapM_eq_map
    intro ni hni
    have hmem : (ni.2, ni.1) ∈ h.entries := List.mem_map.mpr ⟨ni, hni, rfl⟩
    have hhit : h.hits ni.2 ≠ 0 := (mem_symbols ni.2).mp (List.mem_map_of_mem hmem)
    rw [hcode ni.2 hhit]
    rfl
  rw [hiter, entries, List.map_map]
  rfl

theorem totalBits_entries (h : Hist) (code : ℕ → ℕ) :
    totalBits (h.entries.map fun nc => (code nc.1, nc.2)) = h.encodedBits code := by
  funext k
  rw [totalBits, encodedBits, cost, symbols, List.map_map, List.map_map]
  refine congrArg List.sum (List.map_congr_left fun nc hnc => ?_)
  simp only [Function.comp_apply, (count_of_mem hnc).1]

/-- Where all codes are below the bound, it decides about the search. -/
theorem fromHist_best_iff {bound : ℕ} (hhit : ∃ n, h.hits n ≠ 0) (hbound : h.bound = .ok bound)
    (hlt : bound < 2 ^ 32)
    (hcode : ∀ n, h.hits n ≠ 0 → h.mapEncode n = .ok (code n) ∧ code n < bound) :
    (∃ k, fromHist h = .ok ⟨k⟩ ∧ Best (h.encodedBits code) k) ↔ bound ≤ 2 ^ 31 := by
  rw [← totalBits_entries]
  apply fromHist_best hbound (iter_eq fun n hn => (hcode n hn).1) hlt
  · obtain ⟨n, hn⟩ := hhit
    obtain ⟨nc, hnc, -⟩ := List.mem_map.mp ((mem_symbols n).mpr hn)
    exact List.ne_nil_of_mem (List.mem_map_of_mem hnc)
  · intro nc hnc
    obtain ⟨entry, hentry, rfl⟩ := List.mem_map.mp hnc
    have hhit := (mem_symbols entry.1).mp (List.mem_map_of_mem hentry)
    exact ⟨(hcode entry.1 hhit).2, (count_of_mem hentry).2⟩

/-! ## Section 4: The best code -/

/-- After `sort` and `compact`, the codes of the symbols with a hit take the fewest bits under
every parameter, and `from_hist` finds the best one. -/
def OptimalTable (h : Hist) : Prop :=
  ∃ h' code, (h.sort >>= compact) = .ok h' ∧
    (∀ n, h.hits n ≠ 0 → h'.mapEncode n = .ok (code n)) ∧
    (∀ k < 32, ∀ other : ℕ → ℕ, Set.InjOn other {n | h.hits n ≠ 0} →
      h.encodedBits code k ≤ h.encodedBits other k) ∧
    ∃ k, fromHist h' = .ok ⟨k⟩ ∧ Best (h.encodedBits code) k

/-- Without a table, a symbol is its own code, and `from_hist` finds the best parameter. -/
def OptimalParameter (h : Hist) : Prop :=
  ∃ k, fromHist { h with table := none } = .ok ⟨k⟩ ∧ Best (h.encodedBits id) k

theorem Ranked.perm {t : List ℕ} (hr : Ranked h t) : t.Perm h.symbols :=
  (List.perm_ext_iff_of_nodup hr.nodup h.nodup_symbols).mpr fun n => by
    rw [hr.mem, mem_symbols]

/-- The places of the symbols in a ranked table -/
theorem Ranked.encodedBits_le {t : List ℕ} (hr : Ranked h t) {k : ℕ} (hk : k < 32)
    {other : ℕ → ℕ} (hother : Set.InjOn other {n | h.hits n ≠ 0}) :
    h.encodedBits (t.idxOf ·) k ≤ h.encodedBits other k := by
  rw [encodedBits, encodedBits, ← cost_perm hr.perm, ← cost_perm hr.perm]
  apply cost_idxOf_le (codeLength_mono hk) hr.nodup hr.sorted
  exact hother.mono fun n hn => (hr.mem n).mp hn

/-- A table is optimal just if the symbols can be sorted at all, and are not too many. -/
theorem optimalTable_iff (hhit : ∃ n, h.hits n ≠ 0) :
    OptimalTable h ↔
      (∀ n, h.hits n ≠ 0 → n + 1 < 2 ^ 32) ∧ h.symbols.length ≤ 2 ^ 31 := by
  by_cases hlt : ∀ n, h.hits n ≠ 0 → n + 1 < 2 ^ 32
  · obtain ⟨t, hrun, ⟨hnodup, hmem, hsorted⟩, hlen⟩ :=
      exists_ranked (h := { h with table := none }) rfl hlt
    have hr : Ranked h t := ⟨hnodup, hmem, hsorted⟩
    rw [sort_table] at hrun
    have hcode : ∀ n, h.hits n ≠ 0 →
        mapEncode { h with table := some (invert t (t.max?.getD 0 + 1), t) } n =
          .ok (t.idxOf n) ∧ t.idxOf n < t.length := by
      intro n hn
      have hmem := (hr.mem n).mpr hn
      exact ⟨mapEncode_of_getElem? rfl hlen hr.nodup (fun m hm => hlt m ((hr.mem m).mp hm))
        (List.getElem?_idxOf hmem), List.idxOf_lt_length_of_mem hmem⟩
    have hbest := fromHist_best_iff
      (h := { h with table := some (invert t (t.max?.getD 0 + 1), t) }) hhit rfl hlen hcode
    rw [← hr.perm.length_eq, ← hbest]
    constructor
    · rintro ⟨h', code, hrun', hcode', -, k, hk, hbits⟩
      rw [hrun] at hrun'
      cases hrun'
      have hsame : h.encodedBits code = h.encodedBits (t.idxOf ·) := by
        funext k
        apply cost_congr
        intro n hn
        have hn := (mem_symbols n).mp hn
        exact Except.ok.inj ((hcode' n hn).symm.trans (hcode n hn).1)
      rw [hsame] at hbits
      exact ⟨hlt, k, hk, hbits⟩
    · rintro ⟨-, k, hk, hbits⟩
      exact ⟨_, _, hrun, fun n hn => (hcode n hn).1,
        fun k hk other hother => hr.encodedBits_le hk hother, k, hk, hbits⟩
  · refine iff_of_false ?_ fun h => hlt h.1
    rintro ⟨h', -, hrun, -⟩
    obtain ⟨h₁, hsort, -⟩ := Res.bind_eq_ok.mp hrun
    exact hlt fun n hn => lt_of_sort hsort hn

/-- A parameter is optimal just if no symbol has a bit behind the 31st. -/
theorem optimalParameter_iff (hhit : ∃ n, h.hits n ≠ 0) :
    OptimalParameter h ↔ ∀ n, h.hits n ≠ 0 → n < 2 ^ 31 := by
  have htable : ({ h with table := none } : Hist).table = none := rfl
  by_cases hlt : ∀ n, h.hits n ≠ 0 → n + 1 < 2 ^ 32
  · obtain ⟨b, hbound, hsyms, hlast⟩ := bound_of_none htable hlt
    have hpos : 0 < b := by
      obtain ⟨n, hn⟩ := hhit
      exact Nat.lt_of_le_of_lt (Nat.zero_le n) (hsyms n hn)
    have hhits : h.hits (b - 1) ≠ 0 := hlast hpos
    have hb := hlt _ hhits
    have hbest := fromHist_best_iff (h := { h with table := none }) hhit hbound (by omega)
      fun n hn => ⟨mapEncode_of_none htable n, hsyms n hn⟩
    refine hbest.trans ⟨fun hle n hn => ?_, fun hall => ?_⟩
    · exact Nat.lt_of_lt_of_le (hsyms n hn) hle
    · have := hall _ hhits
      omega
  · refine iff_of_false ?_ fun hall => hlt fun n hn => ?_
    · rintro ⟨k, hk, -⟩
      obtain ⟨b, hbound, -⟩ := Res.bind_eq_ok.mp hk
      exact hlt fun n hn => lt_of_bound htable hbound hn
    · have := hall n hn
      omega

/-- One hit of the last symbol -/
def lastSymbol : Hist := ⟨List.replicate (2 ^ 32 - 1) 0 ++ [1], none⟩

end Hist

end BentoLinker.Glz
