import BentoLinker.Glz.Rice
import BentoLinker.Lib.FallibleFold
import Mathlib.Data.List.TakeWhile
import Mathlib.Data.List.Nodup
import Mathlib.Data.Nat.Size

/-!
# The Table of a Histogram

What `sort` and `compact` make of the symbols that have been counted.

- `Hist.Counts`: a histogram without a table that counts a list of symbols
- `Hist.exists_collect`: counting does not fail
- `Hist.Ranked`: symbols with a hit, once each, by descending hits
- `Hist.exists_ranked`: `sort` and `compact` make such a table
- `Hist.mapEncode_of_getElem?`: a symbol of the table is coded by its place
- `GolombRice.exists_fromHist`: there is a best parameter
-/

namespace BentoLinker.Glz

namespace Hist

variable {h : Hist} {syms : List ℕ}

/-! ## Section 1: Counting -/

/-- Count symbols into an empty histogram: `hist.increment(op)` for each of them. -/
def collect (syms : List ℕ) : Res Hist := syms.foldlM Hist.increment Hist.new

/-- The histogram counts `syms`. -/
structure Counts (h : Hist) (syms : List ℕ) : Prop where
  table : h.table = none
  count : ∀ n, h.hist.getD n 0 = syms.count n

theorem counts_new : Counts new [] where
  table := rfl
  count _ := rfl

theorem mapDecode_of_none (htable : h.table = none) (n : ℕ) : h.mapDecode n = .ok n := by
  rw [mapDecode, htable]
  rfl

theorem mapEncode_of_none (htable : h.table = none) (n : ℕ) : h.mapEncode n = .ok n := by
  rw [mapEncode, htable]
  rfl

theorem Counts.increment (hc : Counts h syms) (n : ℕ) :
    ∃ h', h.increment n = .ok h' ∧ Counts h' (syms ++ [n]) := by
  have hlt : n < (h.hist ++ List.replicate (n + 1 - h.hist.length) 0).length := by
    rw [List.length_append, List.length_replicate]
    omega
  have hpad : ∀ k, (h.hist ++ List.replicate (n + 1 - h.hist.length) 0).getD k 0 =
      h.hist.getD k 0 := by
    intro k
    rcases Nat.lt_or_ge k h.hist.length with hk | hk
    · rw [List.getD_append _ _ _ _ hk]
    · rw [List.getD_append_right _ _ _ _ hk, List.getD_eq_default _ _ hk]
      rw [List.getD_eq_getElem?_getD, List.getElem?_replicate]
      split <;> rfl
  refine ⟨⟨(h.hist ++ List.replicate (n + 1 - h.hist.length) 0).set n
    ((h.hist ++ List.replicate (n + 1 - h.hist.length) 0).getD n 0 + 1), h.table⟩, ?_,
    hc.table, ?_⟩
  · rw [Hist.increment, incrementBy, mapDecode_of_none hc.table]
    rfl
  · intro k
    rw [List.count_append, List.count_singleton, List.getD_eq_getElem?_getD, List.getElem?_set]
    by_cases hk : n = k
    · subst hk
      rw [if_pos rfl, if_pos hlt, Option.getD_some, hpad, hc.count, beq_self_eq_true, if_pos rfl]
    · rw [if_neg hk, ← List.getD_eq_getElem?_getD, hpad, hc.count,
        if_neg (by rw [beq_iff_eq]; exact hk), Nat.add_zero]

theorem exists_collect (syms : List ℕ) : ∃ h, collect syms = .ok h ∧ Counts h syms := by
  have hfold : ∀ (done todo : List ℕ) (h : Hist), Counts h done →
      ∃ h', todo.foldlM Hist.increment h = .ok h' ∧ Counts h' (done ++ todo) := by
    intro done todo
    induction todo generalizing done with
    | nil => exact fun h hc => ⟨h, rfl, by rwa [List.append_nil]⟩
    | cons n todo ih =>
      intro h hc
      obtain ⟨h₁, hstep, hc₁⟩ := hc.increment n
      obtain ⟨h', hrest, hc'⟩ := ih (done ++ [n]) h₁ hc₁
      refine ⟨h', ?_, by rwa [List.append_assoc] at hc'⟩
      rw [List.foldlM_cons, hstep]
      exact hrest
  exact hfold [] syms new counts_new

/-! ## Section 2: Sorting -/

/-- Hits of a symbol: `self[n]`, without a table -/
def hits (h : Hist) (n : ℕ) : ℕ := h.hist.getD n 0

theorem Counts.hits (hc : Counts h syms) (n : ℕ) : h.hits n = syms.count n := hc.count n

theorem iter_of_none (htable : h.table = none) :
    h.iter = .ok ((h.hist.zipIdx.filter (0 < ·.1)).map fun ni => (ni.2, ni.1)) := by
  have hbody : (fun ni : ℕ × ℕ => do
      let i ← unwrap (h.mapEncode ni.2)
      pure (i, ni.1)) = fun ni => (pure (ni.2, ni.1) : Res (ℕ × ℕ)) := by
    funext ni
    rw [mapEncode_of_none htable]
    rfl
  rw [Hist.iter, hbody]
  exact List.mapM_pure

/-- Without a table, `iter` runs over the symbols with a hit. -/
theorem mem_iter_iff (n : ℕ) :
    n ∈ ((h.hist.zipIdx.filter (0 < ·.1)).map fun ni => (ni.2, ni.1)).map Prod.fst ↔
      h.hits n ≠ 0 := by
  simp only [List.map_map, List.mem_map, List.mem_filter, decide_eq_true_eq,
    Function.comp_apply, Prod.exists, exists_eq_right, List.mem_zipIdx_iff_getElem?]
  rw [hits, List.getD_eq_getElem?_getD]
  constructor
  · rintro ⟨c, hget, hpos⟩
    rw [hget]
    exact Nat.ne_of_gt hpos
  · intro hn
    cases hget : h.hist[n]? with
    | none =>
      rw [hget] at hn
      exact absurd rfl hn
    | some c =>
      rw [hget] at hn
      exact ⟨c, rfl, Nat.pos_of_ne_zero hn⟩

/-- The symbols with a hit in a histogram without a table, with their counts -/
def entries (h : Hist) : List (ℕ × ℕ) := (h.hist.zipIdx.filter (0 < ·.1)).map fun ni => (ni.2, ni.1)

theorem bound_eq (htable : h.table = none) :
    h.bound = match (h.entries.map Prod.fst).max? with
      | some i => addU32 i 1
      | none => pure 0 := by
  rw [Hist.bound, htable]
  dsimp only
  rw [iter_of_none htable]
  rfl

/-- The bound of a histogram without a table is behind its symbols, and behind nothing
else. -/
theorem bound_of_none (htable : h.table = none) (hlt : ∀ n, h.hits n ≠ 0 → n + 1 < 2 ^ 32) :
    ∃ b, h.bound = .ok b ∧ (∀ s, h.hits s ≠ 0 → s < b) ∧ (0 < b → h.hits (b - 1) ≠ 0) := by
  have hmem : ∀ n, n ∈ h.entries.map Prod.fst ↔ h.hits n ≠ 0 := mem_iter_iff
  rw [bound_eq htable]
  cases hmax : (h.entries.map Prod.fst).max? with
  | none =>
    have hnil := List.max?_eq_none_iff.mp hmax
    refine ⟨0, rfl, fun s hs => ?_, fun h => absurd h (Nat.lt_irrefl 0)⟩
    have hs := (hmem s).mpr hs
    rw [hnil] at hs
    exact absurd hs List.not_mem_nil
  | some m =>
    obtain ⟨hm, hle⟩ := List.max?_eq_some_iff.mp hmax
    have hhit := (hmem m).mp hm
    exact ⟨m + 1, addU32_eq_ok.mpr ⟨hlt m hhit, rfl⟩,
      fun s hs => Nat.lt_succ_of_le (hle s ((hmem s).mpr hs)), fun _ => hhit⟩

/-- A bound is a `u32`. -/
theorem lt_of_bound (htable : h.table = none) {b n : ℕ} (hbound : h.bound = .ok b)
    (hn : h.hits n ≠ 0) : n + 1 < 2 ^ 32 := by
  have hmem : n ∈ h.entries.map Prod.fst := (mem_iter_iff n).mpr hn
  obtain ⟨m, hm⟩ := Option.isSome_iff_exists.mp
    (List.isSome_max?_of_ne_nil (List.ne_nil_of_mem hmem))
  have hle := (List.max?_eq_some_iff.mp hm).2 n hmem
  rw [bound_eq htable, hm] at hbound
  obtain ⟨hlt, -⟩ := addU32_eq_ok.mp hbound
  omega

/-- Where no entry is left, there is nothing to add. -/
theorem getBoundedLoop_of_zero {hist : List ℕ} {bound fuel i count : ℕ}
    (hzero : ∀ j, i ≤ j → hist.getD j 0 = 0) :
    getBoundedLoop hist bound fuel i count = count := by
  induction fuel generalizing i count with
  | zero => rfl
  | succ fuel ih =>
    rw [getBoundedLoop]
    split
    · rw [hzero i le_rfl, Nat.add_zero]
      exact ih fun j hj => hzero j (by omega)
    · rfl

/-- Below a bound that is behind all hits there is one entry to add up. -/
theorem getBoundedLoop_eq {hist : List ℕ} {bound : ℕ}
    (hzero : ∀ j, bound ≤ j → hist.getD j 0 = 0) (n : ℕ) :
    getBoundedLoop hist bound hist.length n 0 = hist.getD n 0 := by
  cases hl : hist.length with
  | zero =>
    rw [getBoundedLoop, List.getD_eq_default _ _ (by omega)]
  | succ l =>
    rw [getBoundedLoop]
    split
    · rw [Nat.zero_add]
      exact getBoundedLoop_of_zero fun j hj => hzero j (by omega)
    · rw [List.getD_eq_default _ _ (by omega)]

theorem getBounded_of_none (htable : h.table = none) {bound : ℕ}
    (hlt : ∀ s, h.hits s ≠ 0 → s < bound) (n : ℕ) :
    h.getBounded n bound = .ok (h.hits n) := by
  have hzero : ∀ j, bound ≤ j → h.hist.getD j 0 = 0 := by
    intro j hj
    by_contra hne
    exact Nat.lt_irrefl _ ((hlt j hne).trans_le hj)
  rw [Hist.getBounded, mapDecode_of_none htable, hits, ← getBoundedLoop_eq hzero]
  rfl

/-- Sorting by a count: what has a hit stands in front of what has none. -/
theorem mem_takeWhile_sorted {l : List ℕ} {c : ℕ → ℕ}
    (hsorted : l.Pairwise fun a b => c b ≤ c a) (n : ℕ) :
    n ∈ l.takeWhile (fun k => c k ≠ 0) ↔ n ∈ l ∧ c n ≠ 0 := by
  induction l with
  | nil => simp
  | cons a l ih =>
    obtain ⟨ha, hl⟩ := List.pairwise_cons.mp hsorted
    rw [List.takeWhile_cons]
    split
    · next hpos =>
      have hpos : c a ≠ 0 := of_decide_eq_true hpos
      rw [List.mem_cons, ih hl, List.mem_cons]
      constructor
      · rintro (rfl | ⟨hn, hc⟩)
        · exact ⟨.inl rfl, hpos⟩
        · exact ⟨.inr hn, hc⟩
      · rintro ⟨rfl | hn, hc⟩
        · exact .inl rfl
        · exact .inr ⟨hn, hc⟩
    · next hzero =>
      have hzero : c a = 0 := by simpa using hzero
      constructor
      · intro hn
        exact absurd hn List.not_mem_nil
      · rintro ⟨hn, hc⟩
        rcases List.mem_cons.mp hn with rfl | hn
        · exact absurd hzero hc
        · have := ha n hn
          omega

theorem take_findIdx?_eq_takeWhile {α : Type} (l : List α) (p : α → Bool) :
    l.take ((l.findIdx? p).getD l.length) = l.takeWhile (fun a => !p a) := by
  induction l with
  | nil => rfl
  | cons a l ih =>
    rw [List.findIdx?_cons, List.takeWhile_cons]
    cases hp : p a with
    | true => simp
    | false =>
      simp only [Bool.false_eq_true, if_false, Bool.not_false, if_true, List.length_cons]
      rw [← ih]
      cases l.findIdx? p <;> simp

/-- `set_table` with a table that is not too large -/
theorem setTable_of_lt (h : Hist) {t : List ℕ} (hlt : t.max?.getD 0 + 1 < 2 ^ 32) :
    h.setTable t = .ok { h with table := some (invert t (t.max?.getD 0 + 1), t) } :=
  Res.bind_eq_ok.mpr ⟨_, addU32_eq_ok.mpr ⟨hlt, rfl⟩, rfl⟩

theorem max?_getD_lt {t : List ℕ} {b : ℕ} (hpos : 0 < b) (h : ∀ n ∈ t, n < b) :
    t.max?.getD 0 < b := by
  cases hmax : t.max? with
  | none => exact hpos
  | some m => exact h m (List.max?_eq_some_iff.mp hmax).1

/-- `sort` makes a table of all symbols below the bound, by descending hits. -/
theorem sort_of_none (htable : h.table = none) (hlt : ∀ n, h.hits n ≠ 0 → n + 1 < 2 ^ 32) :
    ∃ t b, h.sort = h.setTable t ∧ t.Perm (List.range b) ∧
      t.Pairwise (fun a b => h.hits b ≤ h.hits a) ∧ (∀ s, h.hits s ≠ 0 → s < b) ∧
      (0 < b → h.hits (b - 1) ≠ 0) := by
  obtain ⟨b, hbound, hsyms, hpred⟩ := bound_of_none htable hlt
  have hkeyed : (List.range b).mapM (fun k => do
      let count ← h.getBounded k b
      pure (k, count)) = .ok ((List.range b).map fun k => (k, h.hits k)) := by
    have hbody : (fun k => do
        let count ← h.getBounded k b
        pure (k, count)) = fun k => (pure (k, h.hits k) : Res (ℕ × ℕ)) := by
      funext k
      rw [getBounded_of_none htable hsyms]
      rfl
    rw [hbody]
    exact List.mapM_pure
  let keyed := ((List.range b).map fun k => (k, h.hits k)).mergeSort
    fun a b => decide (b.2 ≤ a.2)
  have hperm : keyed.Perm ((List.range b).map fun k => (k, h.hits k)) :=
    List.mergeSort_perm _ _
  have hsorted : keyed.Pairwise fun a b => decide (b.2 ≤ a.2) = true :=
    List.pairwise_mergeSort (fun a b c hab hbc => by simp at *; omega)
      (fun a b => by simp; omega) _
  have hcount : ∀ kc ∈ keyed, kc.2 = h.hits kc.1 := by
    intro kc hmem
    obtain ⟨k, -, rfl⟩ := List.mem_map.mp (hperm.mem_iff.mp hmem)
    rfl
  have hrange : (keyed.map Prod.fst).Perm (List.range b) := by
    have := hperm.map Prod.fst
    rwa [List.map_map, show Prod.fst ∘ (fun k => (k, h.hits k)) = id from rfl,
      List.map_id] at this
  have hnone : { h with table := none } = h := by
    rw [← htable]
  refine ⟨keyed.map Prod.fst, b, ?_, hrange, ?_, hsyms, hpred⟩
  · rw [Hist.sort, hnone, hbound]
    change h.sortBounded b = _
    rw [sortBounded, hnone]
    simp only [hkeyed]
    rfl
  · rw [List.pairwise_map]
    refine hsorted.imp_of_mem fun ha hb hle => ?_
    rw [← hcount _ ha, ← hcount _ hb]
    exact of_decide_eq_true hle

/-- The table of all symbols below the bound is not too large. -/
theorem exists_sort (htable : h.table = none) (hlt : ∀ n, h.hits n ≠ 0 → n + 1 < 2 ^ 32) :
    ∃ t b, h.sort = .ok { h with table := some (invert t (t.max?.getD 0 + 1), t) } ∧
      t.Perm (List.range b) ∧ t.Pairwise (fun a b => h.hits b ≤ h.hits a) ∧
      (∀ s, h.hits s ≠ 0 → s < b) ∧ (0 < b → h.hits (b - 1) ≠ 0) ∧ b < 2 ^ 32 := by
  obtain ⟨t, b, hsort, hperm, hsorted, hsyms, hpred⟩ := sort_of_none htable hlt
  rcases Nat.eq_zero_or_pos b with rfl | hpos
  · have hnil : t = [] := List.perm_nil.mp hperm
    rw [hnil] at hsort hperm hsorted
    exact ⟨[], 0, hsort, hperm, hsorted, hsyms, hpred, by decide⟩
  · have hlast := hlt _ (hpred hpos)
    have hmax := max?_getD_lt hpos fun n hn => List.mem_range.mp (hperm.mem_iff.mp hn)
    rw [setTable_of_lt h (by omega)] at hsort
    exact ⟨t, b, hsort, hperm, hsorted, hsyms, hpred, by omega⟩

/-- A table of symbols with a hit, each once, by descending hits -/
structure Ranked (h : Hist) (t : List ℕ) : Prop where
  nodup : t.Nodup
  mem : ∀ n, n ∈ t ↔ h.hits n ≠ 0
  sorted : t.Pairwise fun a b => h.hits b ≤ h.hits a

/-- `compact` cuts a sorted table behind its last symbol with a hit. -/
theorem compact_of_sorted (htable : h.table = none) {e t : List ℕ} {b : ℕ}
    (hperm : t.Perm (List.range b)) (hsorted : t.Pairwise fun a b => h.hits b ≤ h.hits a)
    (hsyms : ∀ s, h.hits s ≠ 0 → s < b) :
    ∃ t', compact { h with table := some (e, t) } = h.setTable t' ∧ Ranked h t' ∧
      t'.length ≤ t.length := by
  have hlength : t.length = b := by
    rw [hperm.length_eq, List.length_range]
  have hsub : (t.takeWhile fun k => h.hits k ≠ 0).Sublist t := List.takeWhile_sublist _
  refine ⟨t.takeWhile fun k => h.hits k ≠ 0, ?_, ⟨?_, ?_, ?_⟩, hsub.length_le⟩
  · have hnone : { h with table := none } = h := by
      rw [← htable]
    have hcounts : t.mapM (fun k => h.getBounded k t.length) = .ok (t.map h.hits) := by
      have hbody : (fun k => h.getBounded k t.length) = fun k => (pure (h.hits k) : Res ℕ) := by
        funext k
        rw [hlength]
        exact getBounded_of_none htable hsyms k
      rw [hbody]
      exact List.mapM_pure
    have htake : t.take (((t.map h.hits).findIdx? (· == 0)).getD t.length) =
        t.takeWhile fun k => h.hits k ≠ 0 := by
      rw [List.findIdx?_map, take_findIdx?_eq_takeWhile]
      refine congrArg (fun p => t.takeWhile p) (funext fun k => ?_)
      cases hk : h.hits k <;> simp [hk]
    change (do
      let counts ← t.mapM fun k => Hist.getBounded { h with table := none } k t.length
      setTable { h with table := none }
        (t.take ((counts.findIdx? (· == 0)).getD t.length))) = _
    rw [hnone, hcounts]
    change h.setTable (t.take (((t.map h.hits).findIdx? (· == 0)).getD t.length)) = _
    rw [htake]
  · exact (hperm.nodup_iff.mpr List.nodup_range).sublist hsub
  · intro n
    rw [mem_takeWhile_sorted hsorted, hperm.mem_iff, List.mem_range]
    exact ⟨And.right, fun hn => ⟨hsyms n hn, hn⟩⟩
  · exact hsorted.sublist hsub

theorem Ranked.max?_lt {t : List ℕ} (hr : Ranked h t)
    (hlt : ∀ n, h.hits n ≠ 0 → n + 1 < 2 ^ 32) : t.max?.getD 0 + 1 < 2 ^ 32 := by
  cases hm : t.max? with
  | none => exact Nat.lt_of_sub_pos (by decide)
  | some m => exact hlt m ((hr.mem m).mp (List.max?_eq_some_iff.mp hm).1)

/-- `sort` and `compact` do not fail, and leave the symbols with a hit. -/
theorem exists_ranked (htable : h.table = none) (hlt : ∀ n, h.hits n ≠ 0 → n + 1 < 2 ^ 32) :
    ∃ t, (h.sort >>= compact) =
        .ok { h with table := some (invert t (t.max?.getD 0 + 1), t) } ∧
      Ranked h t ∧ t.length < 2 ^ 32 := by
  obtain ⟨t, b, hsort, hperm, hsorted, hsyms, -, hb⟩ := exists_sort htable hlt
  have hlength : t.length = b := by
    rw [hperm.length_eq, List.length_range]
  obtain ⟨t', hcompact, hr, hle⟩ := compact_of_sorted htable hperm hsorted hsyms
  refine ⟨t', ?_, hr, by omega⟩
  rw [hsort, ← setTable_of_lt h (hr.max?_lt hlt), ← hcompact]
  rfl

/-- The entries of the sorted and compacted table -/
structure Sorted (h : Hist) (syms t : List ℕ) : Prop where
  counts : Counts { h with table := none } syms
  table : h.table = some (invert t (t.max?.getD 0 + 1), t)
  length : t.length < 2 ^ 32
  nodup : t.Nodup
  mem : ∀ n, n ∈ t ↔ n ∈ syms

/-- `sort` and `compact` do not fail, and their table has each counted symbol once. -/
theorem exists_compact_sort (hc : Counts h syms) (hlt : ∀ s ∈ syms, s + 1 < 2 ^ 32) :
    ∃ h' t, (h.sort >>= compact) = .ok h' ∧ Sorted h' syms t := by
  have hhits : ∀ n, h.hits n ≠ 0 ↔ n ∈ syms := by
    intro n
    rw [hc.hits, ne_eq, List.count_eq_zero, not_not]
  obtain ⟨t, hrun, hr, hlen⟩ := exists_ranked hc.table fun n hn => hlt n ((hhits n).mp hn)
  refine ⟨_, t, hrun, {
    counts := ?_
    table := rfl
    length := hlen
    nodup := hr.nodup
    mem := fun n => (hr.mem n).trans (hhits n) }⟩
  rwa [← hc.table]

/-! ## Section 3: Codes of the symbols in the table -/

theorem getElem?_foldl_set_of_notMem {nis : List (ℕ × ℕ)} {acc : List ℕ} {n : ℕ}
    (hn : n ∉ nis.map Prod.fst) :
    (nis.foldl (fun t ni => t.set ni.1 (ni.2 % 2 ^ 32)) acc)[n]? = acc[n]? := by
  induction nis generalizing acc with
  | nil => rfl
  | cons ni nis ih =>
    rw [List.map_cons, List.mem_cons, not_or] at hn
    rw [List.foldl_cons, ih hn.2, List.getElem?_set_ne (Ne.symm hn.1)]

theorem getElem?_foldl_set {nis : List (ℕ × ℕ)} {acc : List ℕ} {n i : ℕ}
    (hnodup : (nis.map Prod.fst).Nodup) (hmem : (n, i) ∈ nis) (hn : n < acc.length) :
    (nis.foldl (fun t ni => t.set ni.1 (ni.2 % 2 ^ 32)) acc)[n]? = some (i % 2 ^ 32) := by
  induction nis generalizing acc with
  | nil => exact absurd hmem List.not_mem_nil
  | cons ni nis ih =>
    obtain ⟨hhead, htail⟩ := List.nodup_cons.mp hnodup
    rcases List.mem_cons.mp hmem with rfl | hmem
    · rw [List.foldl_cons, getElem?_foldl_set_of_notMem hhead, List.getElem?_set_self hn]
    · rw [List.foldl_cons, ih htail hmem (by rwa [List.length_set])]

/-- The encode table inverts the decode table. -/
theorem getElem?_invert {t : List ℕ} {size n i : ℕ} (hnodup : t.Nodup) (hi : t[i]? = some n)
    (hn : n < size) : (invert t size)[n]? = some (i % 2 ^ 32) := by
  rw [invert]
  refine getElem?_foldl_set ?_ (List.mem_zipIdx_iff_getElem?.mpr hi) ?_
  · rwa [List.zipIdx_map_fst]
  · rwa [List.length_replicate]

/-- A symbol of the table is coded by its place in the table. -/
theorem mapEncode_of_getElem? {t : List ℕ}
    (htable : h.table = some (invert t (t.max?.getD 0 + 1), t)) (hlen : t.length < 2 ^ 32)
    (hnodup : t.Nodup) (hlt : ∀ n ∈ t, n + 1 < 2 ^ 32) {n c : ℕ} (hc : t[c]? = some n) :
    h.mapEncode n = .ok c := by
  obtain ⟨hclt, -⟩ := List.getElem?_eq_some_iff.mp hc
  have hn : n ∈ t := List.mem_of_getElem? hc
  have hn32 := hlt n hn
  obtain ⟨m, hm⟩ := Option.isSome_iff_exists.mp
    (List.isSome_max?_of_ne_nil (List.ne_nil_of_mem hn))
  obtain ⟨hmem, hle⟩ := List.max?_eq_some_iff.mp hm
  have hmax : n < t.max?.getD 0 + 1 := by
    rw [hm]
    exact Nat.lt_succ_of_le (hle n hn)
  have hsize : t.max?.getD 0 + 1 < 2 ^ 32 := by
    rw [hm]
    exact hlt m hmem
  have hencode : lookup (invert t (t.max?.getD 0 + 1)) n = .ok c := by
    refine Res.bind_eq_ok.mpr ⟨n, remU32_eq_ok.mpr ⟨?_, ?_⟩, addU32_eq_ok.mpr ?_⟩
    · rw [length_invert, Nat.mod_eq_of_lt hsize]
      exact Nat.succ_ne_zero _
    · rw [length_invert, Nat.mod_eq_of_lt hsize, Nat.mod_eq_of_lt hmax]
    · rw [getElem?_invert hnodup hc hmax, Option.getD_some, Nat.mod_eq_of_lt (by omega)]
      omega
  have hdecode : h.mapDecode c = .ok n := by
    rw [mapDecode, htable]
    refine Res.bind_eq_ok.mpr ⟨c, remU32_eq_ok.mpr ⟨?_, ?_⟩, addU32_eq_ok.mpr ?_⟩
    · rw [Nat.mod_eq_of_lt hlen]
      omega
    · rw [Nat.mod_eq_of_lt hlen, Nat.mod_eq_of_lt hclt]
    · rw [hc, Option.getD_some]
      omega
  rw [mapEncode, htable]
  exact Res.bind_eq_ok.mpr ⟨c, hencode, Res.bind_eq_ok.mpr ⟨n, hdecode,
    Res.bind_eq_ok.mpr ⟨(), ensure_eq_ok.mpr (decide_eq_true rfl), rfl⟩⟩⟩

theorem Sorted.exists_mapEncode {t : List ℕ} (hs : Sorted h syms t) {n : ℕ} (hn : n ∈ t)
    (hlt : ∀ s ∈ syms, s + 1 < 2 ^ 32) : ∃ c, h.mapEncode n = .ok c ∧ c < t.length := by
  obtain ⟨c, hc⟩ := List.getElem?_of_mem hn
  obtain ⟨hclt, -⟩ := List.getElem?_eq_some_iff.mp hc
  exact ⟨c, mapEncode_of_getElem? hs.table hs.length hs.nodup
    (fun n hn => hlt n ((hs.mem n).mp hn)) hc, hclt⟩

end Hist

/-! ## Section 4: The best parameter -/

namespace GolombRice

open BitCode FallibleFold

/-- Any symbol has a Rice code, unless the parameter shifts too far. -/
theorem encodeSym_of_lt {gr : GolombRice} (hk : gr.k < 32) (n : ℕ) :
    gr.encodeSym n = .ok (unary (n / 2 ^ gr.k) ++ toBits gr.k (n % 2 ^ gr.k)) := by
  have hr : n % 2 ^ gr.k < 2 ^ gr.k := Nat.mod_lt _ (Nat.two_pow_pos _)
  refine Res.bind_eq_ok.mpr ⟨_, shlU32_one_eq_ok.mpr ⟨hk, rfl⟩, ?_⟩
  exact Res.bind_eq_ok.mpr ⟨_, Glz.encodeSym_eq_ok.mpr ⟨hk.le, .inr hr, rfl⟩, rfl⟩

theorem exists_encodedSize (hits : List (ℕ × ℕ)) {k : ℕ} (hk : k < 32) :
    ∃ size, encodedSize hits k = .ok size := by
  have hbody : ∀ nc ∈ hits, ∃ size, (do
      let bits ← Hist.unwrap (encodeSym ⟨k⟩ nc.1)
      pure (nc.2 * bits.length) : Res ℕ) = .ok size := by
    intro nc _
    rw [encodeSym_of_lt hk]
    exact ⟨_, rfl⟩
  obtain ⟨sizes, hsizes, -⟩ := exists_mapM hbody
  exact ⟨sizes.sum, Res.bind_eq_ok.mpr ⟨sizes, hsizes, rfl⟩⟩

theorem minSizeK_foldl_mem (sizes : List (ℕ × ℕ)) (first : ℕ × ℕ) :
    sizes.foldl minSizeK first ∈ first :: sizes := by
  induction sizes generalizing first with
  | nil => exact List.mem_singleton_self _
  | cons a sizes ih =>
    rw [List.foldl_cons]
    have hmin : minSizeK first a = first ∨ minSizeK first a = a := by
      unfold minSizeK
      split
      · exact .inr rfl
      · exact .inl rfl
    rcases List.mem_cons.mp (ih (minSizeK first a)) with heq | hmem
    · rw [heq]
      rcases hmin with hmin | hmin
      · rw [hmin]
        exact List.mem_cons_self ..
      · rw [hmin]
        exact List.mem_cons_of_mem _ (List.mem_cons_self ..)
    · exact List.mem_cons_of_mem _ (List.mem_cons_of_mem _ hmem)

/-- The symbols of a table have a best parameter, and it does not shift too far. -/
theorem exists_fromHist {h : Hist} {syms t : List ℕ} (hs : h.Sorted syms t)
    (hlt : ∀ s ∈ syms, s + 1 < 2 ^ 32) (ht : t.length ≤ 2 ^ 31) :
    ∃ gr, fromHist h = .ok gr ∧ gr.k < 32 := by
  have hbound : h.bound = .ok t.length := by
    rw [Hist.bound, hs.table]
    rfl
  have hmod : t.length % 2 ^ 32 = t.length := Nat.mod_eq_of_lt (by omega)
  rcases Nat.eq_zero_or_pos t.length with hzero | hpos
  · refine ⟨⟨0⟩, Res.bind_eq_ok.mpr ⟨_, hbound, ?_⟩, by decide⟩
    rw [hmod, if_pos hzero]
    rfl
  have hwidth : (t.length - 1).size < 32 := by
    have hsize : (t.length - 1).size ≤ 31 := Nat.size_le.mpr (by omega)
    omega
  obtain ⟨hits, hiter, -⟩ : ∃ hits, h.iter = .ok hits ∧
      hits.length = (h.hist.zipIdx.filter (0 < ·.1)).length := by
    refine exists_mapM fun ni hni => ?_
    obtain ⟨hmem, hhit⟩ := List.mem_filter.mp hni
    have hget := List.mem_zipIdx_iff_getElem?.mp hmem
    have hcount := hs.counts.count ni.2
    rw [List.getD_eq_getElem?_getD] at hcount
    have hsym : ni.2 ∈ syms := by
      rw [← List.count_pos_iff, ← hcount, hget]
      exact of_decide_eq_true hhit
    obtain ⟨c, hc, -⟩ := hs.exists_mapEncode ((hs.mem ni.2).mpr hsym) hlt
    rw [hc]
    exact ⟨_, rfl⟩
  obtain ⟨sizes, hsizes, hlen⟩ : ∃ sizes, (List.range ((t.length - 1).size + 1)).mapM (fun k => do
      let size ← encodedSize hits k
      pure (size, k)) = .ok sizes ∧ sizes.length = (List.range ((t.length - 1).size + 1)).length := by
    refine exists_mapM fun k hk => ?_
    have hk := List.mem_range.mp hk
    obtain ⟨size, hsize⟩ := exists_encodedSize hits (show k < 32 by omega)
    rw [hsize]
    exact ⟨_, rfl⟩
  have hks : ∀ sk ∈ sizes, sk.2 < 32 := by
    intro sk hsk
    obtain ⟨k, hk, hsk⟩ := exists_left_of_mem (forall₂_of_mapM hsizes) hsk
    obtain ⟨size, -, hpure⟩ := Res.bind_eq_ok.mp hsk
    have hk := List.mem_range.mp hk
    cases hpure
    omega
  rw [List.length_range] at hlen
  cases sizes with
  | nil => cases hlen
  | cons first others =>
    refine ⟨⟨(others.foldl minSizeK first).2⟩, Res.bind_eq_ok.mpr ⟨_, hbound, ?_⟩,
      hks _ (minSizeK_foldl_mem others first)⟩
    rw [hmod, if_neg (by omega)]
    exact Res.bind_eq_ok.mpr ⟨_, hiter, Res.bind_eq_ok.mpr ⟨_, hsizes, rfl⟩⟩

end GolombRice

end BentoLinker.Glz
