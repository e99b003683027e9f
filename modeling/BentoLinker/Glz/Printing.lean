import BentoLinker.Glz.CommandHeaders
import BentoLinker.Glz.OptimalCode

/-!
# What `encode` Prints

The lines that `encode` prints can fail: the file names are cut in bytes, the drawing divides by
the largest symbol, and the summary computes its percentages in `i32`.

- `setMessage_eq_ok`: names are cut between characters
- `Hist.exists_draw_iff`: there is a symbol but 0
- `PercentFits`: sizes whose percentage has a value
-/

namespace BentoLinker.Glz

open FallibleFold

/-! ## Section 1: Names -/

/-- The last bytes of a name, at most 20, start with a character. -/
def CutsFit (path : List UInt8) : Prop :=
  isCharBoundary path (path.length - min path.length 20) = true

instance (path : List UInt8) : Decidable (CutsFit path) := inferInstanceAs (Decidable (_ = _))

theorem setMessage_eq_ok {path : List UInt8} : setMessage path = .ok () ↔ CutsFit path := by
  rw [setMessage, CutsFit]
  split
  · next h => exact ⟨fun _ => h, fun _ => rfl⟩
  · next h => exact ⟨fun hpanic => (by cases hpanic), fun hcut => absurd hcut h⟩

theorem showFiles_eq_ok {quiet : Bool} {opt : CommonOpt} {paths : List InputFile} :
    showFiles quiet opt paths = .ok () ↔
      (quiet = false → 1 < (inputs opt paths).length → ∀ path ∈ paths, CutsFit path.path) := by
  have hall : (paths.forM fun path => setMessage path.path) = .ok () ↔
      ∀ path ∈ paths, CutsFit path.path := by
    rw [forM_eq_ok]
    exact forall₂_congr fun _ _ => setMessage_eq_ok
  rw [showFiles]
  split
  · next h =>
    refine ⟨fun _ hquiet hmany => ?_, fun _ => rfl⟩
    simp only [hquiet, Bool.false_or, decide_eq_true_eq] at h
    omega
  · next h =>
    rw [hall]
    simp only [Bool.or_eq_true, decide_eq_true_eq, not_or, Bool.not_eq_true] at h
    exact ⟨fun hcut _ _ => hcut, fun hcut => hcut h.1 (by omega)⟩

/-! ## Section 2: The drawing -/

/-- Where the symbol and its count are inside the drawing, only the width can be zero. -/
theorem drawSymbol_eq_ok {length upper lower : ℕ} {xy : ℕ × ℕ} (hx : xy.1 < length)
    (hlower : lower ≤ xy.2) (hupper : xy.2 ≤ upper) :
    drawSymbol length upper lower xy = .ok () ↔ length ≠ 1 := by
  have hrow : 8 * (xy.2 - lower) / max (upper - lower) 1 ≤ 8 :=
    Nat.div_le_of_le_mul (by
      rw [Nat.mul_comm (max _ _)]
      exact Nat.mul_le_mul_left 8 ((Nat.sub_le_sub_right hupper _).trans (Nat.le_max_left _ _)))
  have hlast : subUsize length 1 = .ok (length - 1) := subUsize_eq_ok.mpr ⟨by omega, rfl⟩
  have habove : subUsize xy.2 lower = .ok (xy.2 - lower) := subUsize_eq_ok.mpr ⟨hlower, rfl⟩
  have hrange : subUsize upper lower = .ok (upper - lower) :=
    subUsize_eq_ok.mpr ⟨hlower.trans hupper, rfl⟩
  have hline : subUsize 8 (8 * (xy.2 - lower) / max (upper - lower) 1) = .ok _ :=
    subUsize_eq_ok.mpr ⟨hrow, rfl⟩
  rw [drawSymbol]
  simp only [bind, Except.bind, hlast, habove, hrange, hline]
  by_cases hone : length - 1 = 0
  · rw [if_pos hone]
    exact ⟨fun h => (by cases h), fun h => absurd (by omega) h⟩
  · have hcol : 53 * xy.1 / (length - 1) ≤ 53 :=
      Nat.div_le_of_le_mul (by
        rw [Nat.mul_comm]
        exact Nat.mul_le_mul_right 53 (by omega))
    rw [if_neg hone, if_pos ⟨Nat.lt_succ_of_le (Nat.sub_le 8 _), Nat.lt_succ_of_le hcol⟩]
    exact ⟨fun _ => by omega, fun _ => rfl⟩

namespace Hist

variable {h : Hist} {syms : List ℕ}

/-- What is drawn: every symbol with a hit, at its place in the table -/
theorem draw_eq_ok {t : List ℕ} {hits : List (ℕ × ℕ)} (hiter : h.iter = .ok hits)
    (hbound : h.bound = .ok t.length) (hhits : ∀ xy ∈ hits, xy.1 < t.length) :
    h.draw = .ok () ↔ (hits ≠ [] → t.length ≠ 1) := by
  have hsymbol : ∀ xy ∈ hits, drawSymbol t.length ((hits.map Prod.snd).max?.getD 0)
      ((hits.map Prod.snd).min?.getD 0) xy = .ok () ↔ t.length ≠ 1 := by
    intro xy hxy
    have hmem : xy.2 ∈ hits.map Prod.snd := List.mem_map_of_mem hxy
    obtain ⟨upper, hupper⟩ := Option.isSome_iff_exists.mp
      (List.isSome_max?_of_ne_nil (List.ne_nil_of_mem hmem))
    obtain ⟨lower, hlower⟩ := Option.isSome_iff_exists.mp
      (List.isSome_min?_of_ne_nil (List.ne_nil_of_mem hmem))
    rw [hupper, hlower]
    exact drawSymbol_eq_ok (hhits xy hxy) ((List.min?_eq_some_iff.mp hlower).2 _ hmem)
      ((List.max?_eq_some_iff.mp hupper).2 _ hmem)
  have hdraw : h.draw = hits.forM (drawSymbol t.length ((hits.map Prod.snd).max?.getD 0)
      ((hits.map Prod.snd).min?.getD 0)) := by
    rw [draw]
    simp only [bind, Except.bind, hiter, hbound]
  rw [hdraw, forM_eq_ok]
  constructor
  · intro hall hne
    obtain ⟨xy, hxy⟩ := List.exists_mem_of_ne_nil hits hne
    exact (hsymbol xy hxy).mp (hall xy hxy)
  · intro hlen xy hxy
    exact (hsymbol xy hxy).mpr (hlen (List.ne_nil_of_mem hxy))

/-- A histogram is drawn if there is some symbol but 0 in it, or no symbol. -/
theorem exists_draw_iff (hc : Counts h syms) (hlt : ∀ s ∈ syms, s + 1 < 2 ^ 32) :
    ∃ sorted, h.sort = .ok sorted ∧
      (sorted.draw = .ok () ↔ (syms ≠ [] → ∃ s ∈ syms, s ≠ 0)) := by
  have hhits : ∀ n, h.hits n ≠ 0 ↔ n ∈ syms := by
    intro n
    rw [hc.hits, ne_eq, List.count_eq_zero, not_not]
  have hlt' : ∀ n, h.hits n ≠ 0 → n + 1 < 2 ^ 32 := fun n hn => hlt n ((hhits n).mp hn)
  obtain ⟨t, b, hsort, hperm, -, hsyms, hpred, hb⟩ := exists_sort hc.table hlt'
  have hlength : t.length = b := by rw [hperm.length_eq, List.length_range]
  have hentry : ∀ n ∈ t, n + 1 < 2 ^ 32 := by
    intro n hn
    have hn := List.mem_range.mp (hperm.mem_iff.mp hn)
    have := hlt' _ (hpred (by omega))
    omega
  refine ⟨_, hsort, ?_⟩
  have hmem : ∀ n, h.hits n ≠ 0 → n ∈ t := fun n hn =>
    hperm.mem_iff.mpr (List.mem_range.mpr (hsyms n hn))
  have hcode : ∀ n, h.hits n ≠ 0 →
      mapEncode { h with table := some (invert t (t.max?.getD 0 + 1), t) } n =
        .ok (t.idxOf n) := fun n hn =>
    mapEncode_of_getElem? rfl (hlength ▸ hb) (hperm.nodup_iff.mpr List.nodup_range) hentry
      (List.getElem?_idxOf (hmem n hn))
  have hiter := iter_eq (h := { h with table := some (invert t (t.max?.getD 0 + 1), t) }) hcode
  have hplace : ∀ xy ∈ (entries { h with table := some (invert t (t.max?.getD 0 + 1), t) }).map
      fun nc => (t.idxOf nc.1, nc.2), xy.1 < t.length := by
    intro xy hxy
    obtain ⟨nc, hnc, rfl⟩ := List.mem_map.mp hxy
    exact List.idxOf_lt_length_of_mem (hmem _ ((mem_symbols nc.1).mp (List.mem_map_of_mem hnc)))
  rw [draw_eq_ok hiter rfl hplace, hlength]
  have hsymbols : h.symbols = [] ↔ syms = [] := by
    rw [List.eq_nil_iff_forall_not_mem, List.eq_nil_iff_forall_not_mem]
    exact forall_congr' fun n => not_congr ((mem_symbols n).trans (hhits n))
  have hentries : (entries h).map (fun nc => (t.idxOf nc.1, nc.2)) ≠ [] ↔ syms ≠ [] := by
    rw [ne_eq, ne_eq, ← hsymbols, symbols, List.map_eq_nil_iff, List.map_eq_nil_iff]
  refine (imp_congr hentries Iff.rfl).trans (imp_congr_right fun hne => ?_)
  -- the bound is behind the largest symbol
  constructor
  · intro hone
    obtain ⟨n, hn⟩ := List.exists_mem_of_ne_nil syms hne
    have hpos := hsyms n ((hhits n).mpr hn)
    refine ⟨b - 1, (hhits _).mp (hpred (by omega)), by omega⟩
  · rintro ⟨s, hs, hzero⟩ hone
    have := hsyms s ((hhits s).mpr hs)
    omega

end Hist

/-! ## Section 3: Percentages -/

/-- The percentage can be computed: the size is not zero as an `i32`, and a hundred times the
difference is an `i32`. -/
def PercentFits (before after : ℕ) : Prop :=
  toI32 before ≠ 0 ∧ -2 ^ 31 ≤ 100 * (toI32 before - toI32 after) ∧
    100 * (toI32 before - toI32 after) < 2 ^ 31

instance (before after : ℕ) : Decidable (PercentFits before after) :=
  inferInstanceAs (Decidable (_ ∧ _))

theorem checkI32_eq_ok {n m : ℤ} : checkI32 n = .ok m ↔ (-2 ^ 31 ≤ n ∧ n < 2 ^ 31) ∧ n = m := by
  rw [checkI32]
  split
  · next h => exact ⟨fun heq => ⟨h, by cases heq; rfl⟩, fun heq => by rw [heq.2]; rfl⟩
  · next h => exact ⟨fun heq => (by cases heq), fun heq => absurd heq.1 h⟩

/-- A multiple of a hundred is not the least number, so its quotients are in range. -/
theorem i32_of_scaled {n : ℤ} (d : ℤ) (hlow : -2 ^ 31 ≤ 100 * n) (hhigh : 100 * n < 2 ^ 31) :
    (-2 ^ 31 ≤ n ∧ n < 2 ^ 31) ∧ -2 ^ 31 ≤ (100 * n).tdiv d ∧ (100 * n).tdiv d < 2 ^ 31 := by
  have habs := Int.natAbs_tdiv_le_natAbs (100 * n) d
  refine ⟨⟨by omega, by omega⟩, ?_, ?_⟩
  · omega
  · omega

theorem exists_percent_iff {before after : ℕ} :
    (∃ p, percent before after = .ok p) ↔ PercentFits before after := by
  rw [PercentFits, percent]
  constructor
  · rintro ⟨p, h⟩
    obtain ⟨diff, hdiff, h⟩ := Res.bind_eq_ok.mp h
    obtain ⟨-, rfl⟩ := checkI32_eq_ok.mp hdiff
    obtain ⟨scaled, hscaled, h⟩ := Res.bind_eq_ok.mp h
    obtain ⟨hfits, rfl⟩ := checkI32_eq_ok.mp hscaled
    split at h
    · cases h
    · next hne => exact ⟨hne, hfits⟩
  · rintro ⟨hne, hlow, hhigh⟩
    obtain ⟨hdiff, hquotient⟩ := i32_of_scaled (toI32 before) hlow hhigh
    refine ⟨(100 * (toI32 before - toI32 after)).tdiv (toI32 before),
      Res.bind_eq_ok.mpr ⟨_, checkI32_eq_ok.mpr ⟨hdiff, rfl⟩,
      Res.bind_eq_ok.mpr ⟨_, checkI32_eq_ok.mpr ⟨⟨hlow, hhigh⟩, rfl⟩, ?_⟩⟩⟩
    rw [if_neg hne]
    exact checkI32_eq_ok.mpr ⟨hquotient, rfl⟩

theorem printFiles_eq_ok {files : List Listed} {blobSize : ℕ} :
    printFiles files blobSize = .ok () ↔ ∀ entry ∈ files.zipIdx,
      PercentFits entry.1.size (((filesAfter files blobSize).lookup entry.2).getD 0) := by
  rw [printFiles]
  refine forM_eq_ok.trans (forall₂_congr fun entry _ => ?_)
  rw [← exists_percent_iff, Res.bind_eq_ok]
  exact exists_congr fun _ => ⟨And.left, fun h => ⟨h, rfl⟩⟩

end BentoLinker.Glz
