import BentoLinker.Glz.OptimalCode
import BentoLinker.Glz.TwoPass

/-!
# The Length of the Stream

A reference is only written where it takes fewer bits for a symbol than the immediate would. So
the stream is no longer than one of immediates, and short files have short distances.

- `ImmWithin g b slices`: no byte takes more than `b` bits
- `length_encodeAll_le`: then the stream takes no more than `b` bits for each byte
- `fits_of_short`: and if that is less than `2 ^ 32 - 1`, all distances fit
- `immWithin_withConfig`, `Prepared.immWithin`: the codecs of the two passes
-/

namespace BentoLinker.Glz.GLZ

open BitCode FallibleFold Relation

/-! ## Section 1: Slices -/

/-- No byte of the slices takes more than `b` bits. -/
def ImmWithin (g : GLZ) (b : ℕ) (slices : List (List UInt8)) : Prop :=
  ∀ slice ∈ slices, ∀ x ∈ slice, ∀ code, g.encodeSym (GLZSym.imm x) = .ok code → code.length ≤ b

/-- Bytes in all slices -/
def totalBytes (slices : List (List UInt8)) : ℕ := (slices.map List.length).sum

theorem immWins_eq_false {imm ref_ : Bits} {n : ℕ} (h : immWins imm (some (n, ref_)) = false) :
    ref_.length < n * imm.length :=
  Nat.lt_of_not_le (of_decide_eq_false h)

section Passes

variable {g : GLZ} {b : ℕ} {slices : List (List UInt8)} {slice : List UInt8} {e e' : Encoder UInt8}

/-- A turn of `encode1` writes no more than `b` bits for each byte that it takes. -/
theorem length_encode1Step_le (himm : g.ImmWithin b slices) (hslice : slice ∈ slices)
    (hj : 0 < e.j) (h : g.encode1Step slice e = .ok e') :
    e'.j ≤ e.j ∧ e'.off + b * e'.j ≤ e.off + b * e.j := by
  simp only [encode1Step, Res.bind_eq_ok] at h
  obtain ⟨lim, -, found, hfound, h⟩ := h
  cases hx : slice[e.j - 1]? with
  | none =>
    rw [hx] at h
    cases h
  | some x =>
    simp only [hx, Res.bind_eq_ok] at h
    obtain ⟨imm, hcode, h⟩ := h
    have hb : imm.length ≤ b := himm slice hslice x (List.mem_of_getElem? hx) imm hcode
    split at h
    · next n ref_ hwins =>
      cases h
      obtain ⟨p, hn, -⟩ := findRef_eq_some hfound
      have hshort := immWins_eq_false (Bool.or_eq_false_iff.mp hwins).2
      have hscaled : n * imm.length ≤ b * n := by
        rw [Nat.mul_comm b]
        exact Nat.mul_le_mul_left n hb
      have hsplit : b * e.j = b * (e.j - n) + b * n := by
        rw [← Nat.mul_add, Nat.sub_add_cancel hn]
      refine ⟨Nat.sub_le _ _, ?_⟩
      dsimp only
      omega
    · cases h
      have hsplit : b * e.j = b * (e.j - 1) + b := by
        rw [← Nat.mul_succ, Nat.succ_eq_add_one, Nat.sub_add_cancel hj]
      refine ⟨Nat.sub_le _ _, ?_⟩
      dsimp only
      omega

/-- The bound holds wherever `encode1` comes to. -/
theorem length_reached_le (himm : g.ImmWithin b slices) (hslice : slice ∈ slices)
    (h : ReflTransGen (g.NextSymbol slice) e e') : e'.off + b * e'.j ≤ e.off + b * e.j := by
  induction h with
  | refl => exact le_rfl
  | tail _ hnext ih => exact (length_encode1Step_le himm hslice hnext.1 hnext.2).2.trans ih

theorem length_encode1Loop_le (himm : g.ImmWithin b slices) (hslice : slice ∈ slices) {fuel : ℕ}
    (h : g.encode1Loop slice fuel e = .ok e') : e'.off ≤ e.off + b * e.j := by
  induction fuel generalizing e with
  | zero =>
    rw [encode1Loop] at h
    split at h
    · cases h
    · cases h
      exact Nat.le_add_right _ _
  | succ fuel ih =>
    rw [encode1Loop] at h
    split at h
    · next hj =>
      obtain ⟨e₁, hstep, h⟩ := Res.bind_eq_ok.mp h
      exact (ih h).trans (length_encode1Step_le himm hslice hj hstep).2
    · cases h
      exact Nat.le_add_right _ _

/-! ## Section 2: Many slices -/

theorem length_encodeAllStep_le (himm : g.ImmWithin b slices) (hslice : slice ∈ slices)
    {a a' : AllEncoder UInt8} (h : g.encodeAllStep a slice = .ok a') :
    a'.off ≤ a.off + b * slice.length := by
  rw [encodeAllStep] at h
  split at h
  · cases h
    exact Nat.le_add_right _ _
  split at h
  · cases h
    exact Nat.le_add_right _ _
  · obtain ⟨⟨blob, history, off⟩, henc, h⟩ := Res.bind_eq_ok.mp h
    cases h
    obtain ⟨e, hloop, henc⟩ := Res.bind_eq_ok.mp henc
    cases henc
    exact length_encode1Loop_le himm hslice hloop

theorem length_foldlM_le (himm : g.ImmWithin b slices) {l : List (List UInt8)}
    (hl : ∀ slice ∈ l, slice ∈ slices) {a a' : AllEncoder UInt8}
    (h : l.foldlM g.encodeAllStep a = .ok a') : a'.off ≤ a.off + b * totalBytes l := by
  induction l generalizing a with
  | nil =>
    cases h
    exact Nat.le_add_right _ _
  | cons s l ih =>
    rw [List.foldlM_cons, Res.bind_eq_ok] at h
    obtain ⟨a₁, hstep, h⟩ := h
    have hfirst := length_encodeAllStep_le himm (hl s List.mem_cons_self) hstep
    have hrest := ih (fun s' hs' => hl s' (List.mem_cons_of_mem _ hs')) h
    rw [totalBytes, List.map_cons, List.sum_cons, Nat.mul_add]
    rw [totalBytes] at hrest
    omega

theorem totalBytes_perm {l l' : List (List UInt8)} (h : l.Perm l') :
    totalBytes l = totalBytes l' := (h.map _).sum_eq

/-- The stream takes no more than `b` bits for each byte. -/
theorem length_encodeAll_le (himm : g.ImmWithin b slices) {bits : Bits} {offs : List (ℕ × ℕ)}
    (h : g.encodeAll slices = .ok (bits, offs)) : bits.length ≤ b * totalBytes slices := by
  obtain ⟨a, hfold, h⟩ := Res.bind_eq_ok.mp h
  obtain ⟨_, -, h⟩ := Res.bind_eq_ok.mp h
  cases h
  obtain ⟨S, syms, hsound⟩ := allSound_foldlM (allSound_start g) hfold
  have hperm := List.mergeSort_perm slices fun a b => decide (b.length ≤ a.length)
  have hle := length_foldlM_le himm (fun s hs => hperm.mem_iff.mp hs) hfold
  rw [Nat.zero_add, totalBytes_perm hperm] at hle
  rwa [hsound.stream, ← hsound.off]

/-- In a short stream every distance has a successor in 32 bits. -/
theorem fits_of_short (himm : g.ImmWithin b slices)
    (hshort : b * totalBytes slices < 2 ^ 32 - 1) : g.Fits slices := by
  intro done slice rest a hl hdone _ _ e hreach _ i p _ _ _
  have hperm := List.mergeSort_perm slices fun a b => decide (b.length ≤ a.length)
  have hmem : ∀ s ∈ done ++ slice :: rest, s ∈ slices := fun s hs =>
    hperm.mem_iff.mp (hl ▸ hs)
  have hbefore := length_foldlM_le himm
    (fun s hs => hmem s (List.mem_append_left _ hs)) hdone
  have hslice := length_reached_le himm
    (hmem slice (List.mem_append_right _ List.mem_cons_self)) hreach
  dsimp only at hbefore hslice
  have htotal : totalBytes slices = totalBytes done + (slice.length + totalBytes rest) := by
    rw [← totalBytes_perm hperm, hl]
    simp only [totalBytes, List.map_append, List.map_cons, List.sum_append, List.sum_cons]
  rw [htotal, Nat.mul_add, Nat.mul_add] at hshort
  omega

end Passes

/-! ## Section 3: The codecs of the two passes -/

theorem length_encodeSym_imm {g : GLZ} {x : UInt8} {code : Bits}
    (h : g.encodeSym (GLZSym.imm x) = .ok code) : g.k < 32 ∧
      ∃ c, g.rice.bijecter.mapEncode x.toNat = .ok c ∧ code.length = codeLength g.k c := by
  obtain ⟨c, hc, hrice⟩ := BijectEncoder.encodeSym_eq_ok.mp (chainErr_eq_ok.mp h)
  obtain ⟨hk, rfl⟩ := GolombRice.encodeSym_eq_ok hrice
  refine ⟨hk, c, hc, ?_⟩
  rw [List.length_append, length_unary, length_toBits]
  exact (codeLength_eq hk c).symm

/-- A code word for an index below `2 ^ 9` -/
theorem codeLength_le {k c : ℕ} (hk : k < 32) (hc : c < 2 ^ 9) : codeLength k c ≤ 2 ^ 9 := by
  rw [codeLength_eq hk]
  cases k with
  | zero =>
    rw [Nat.pow_zero, Nat.div_one]
    omega
  | succ k =>
    have hle : c / 2 ^ (k + 1) ≤ c / 2 :=
      Nat.div_le_div_left (Nat.le_self_pow (Nat.succ_ne_zero k) 2) (by decide)
    omega

theorem immWithin_withConfig (l m : ℕ) (slices : List (List UInt8)) :
    (withConfig DEFAULT_K l m).ImmWithin 10 slices := by
  intro slice _ x _ code h
  obtain ⟨-, c, hc, hlength⟩ := length_encodeSym_imm h
  rw [Hist.mapEncode_of_none rfl] at hc
  cases hc
  have hx : x.toNat < 2 ^ DEFAULT_K := (UInt8.toNat_lt x).trans (by decide)
  rw [hlength]
  exact (codeLength_of_lt (show DEFAULT_K < 32 by decide) hx).le

theorem Prepared.immWithin {g : GLZ} {slices : List (List UInt8)} {syms t : List ℕ}
    (hp : Prepared g slices syms t) : g.ImmWithin (2 ^ 9) slices := by
  intro slice hslice x hx code h
  obtain ⟨hk, c, hc, hlength⟩ := length_encodeSym_imm h
  have hlt : ∀ s ∈ syms, s + 1 < 2 ^ 32 := by
    intro s hs
    have := hp.small s hs
    omega
  obtain ⟨c', hc', hclt⟩ := hp.sorted.exists_mapEncode (hp.bytes slice hslice x hx) hlt
  obtain rfl : c' = c := Except.ok.inj (hc'.symm.trans hc)
  rw [hlength]
  exact codeLength_le hk (hclt.trans_le hp.length_le)

end BentoLinker.Glz.GLZ
