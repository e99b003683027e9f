import BentoLinker.Lib.Acyclic
import BentoLinker.Loader.Iteration
import Mathlib.Order.Interval.Finset.Nat

/-!
# Termination of the On-Target Decoder

When `__box_glz_decode` comes to an end.

- Section 1: the inner loops end, unless all bits they can come to are ones
- Section 2: `Iter`, `Visits`, `TailJump`: iterations of the outer loop, and the ones that
  write nothing
- Section 3: `TailCycle`: tail references that lead back to where they start
- `terminates_iff`: without such a cycle on its way the decoder ends

Bytes still wanted, with those put off behind a reference, never get more, and get less with
each byte written. A nested reference makes the bytes wanted next less. What is left are tail
references: they write nothing, and move to any position, backwards too, because positions
are added modulo `2 ^ 32`.
-/

namespace BentoLinker.Loader

open Fueled

variable {W k : ℕ} {blob : List UInt8}

/-! ## Section 1: The inner loops -/

/-- There is a stop `i` bits on. -/
theorem ends_riceUnary (i : ℕ) {off : ℕ} (hoff : off < 2 ^ 32)
    (h : Stops blob ((off + i) % 2 ^ 32)) (rice : ℕ) :
    Ends .outOfFuel (fun fuel => riceUnary W (readBlob blob) fuel off rice) () := by
  induction i generalizing off rice with
  | zero =>
    rw [Nat.add_zero, Nat.mod_eq_of_lt hoff] at h
    refine ⟨1, ?_⟩
    dsimp only
    rw [riceUnary_succ]
    rcases Nat.lt_or_ge (off / 8) blob.length with hlt | hle
    · rw [bind_of_ok (readBit_of_lt hlt)]
      rw [if_pos (h.resolve_left (by omega))]
      nofun
    · rw [bind_of_error (readBit_of_le hle)]
      simp
  | succ i ih =>
    have hnext : Stops blob (((off + 1) % 2 ^ 32 + i) % 2 ^ 32) := by
      rw [Nat.mod_add_mod, Nat.add_assoc, Nat.add_comm 1 i]
      exact h
    obtain ⟨fuel, hfuel⟩ := ih (Nat.mod_lt _ (by decide)) hnext ((rice + 1) % 2 ^ W)
    refine ⟨fuel + 1, ?_⟩
    dsimp only
    rw [riceUnary_succ]
    rcases Nat.lt_or_ge (off / 8) blob.length with hlt | hle
    · rw [bind_of_ok (readBit_of_lt hlt)]
      split
      · nofun
      · exact hfuel
    · rw [bind_of_error (readBit_of_le hle)]
      simp

/-- Reading bits moves on by as many, and keeps what has been read at the top. -/
theorem readBits_eq_ok {count off n m off' : ℕ}
    (h : readBits (readBlob blob) 32 count off n () = .ok ((m, off'), ()))
    (hn : n < 2 ^ (32 - count)) (hcount : count ≤ 32) (hoff : off < 2 ^ 32) :
    m / 2 ^ count = n ∧ off' = (off + count) % 2 ^ 32 := by
  induction count generalizing off n with
  | zero =>
    cases h
    rw [pow_zero, Nat.div_one, Nat.add_zero, Nat.mod_eq_of_lt hoff]
    exact ⟨rfl, rfl⟩
  | succ count ih =>
    rw [readBits] at h
    rcases Nat.lt_or_ge (off / 8) blob.length with hlt | hle
    · rw [bind_of_ok (readBit_of_lt hlt)] at h
      set b := 1 &&& ((blob.getD (off / 8) 0).toNat >>> (7 - off % 8)) with hb
      have hb1 : b ≤ 1 := Nat.and_le_left
      have hpow : 2 ^ (32 - count) = 2 * 2 ^ (32 - (count + 1)) := by
        rw [← pow_succ']
        congr 1
        omega
      have hor : (n <<< 1 ||| b) = 2 * n + b := by
        rw [Nat.shiftLeft_eq, Nat.mul_comm]
        exact (Nat.two_pow_add_eq_or_of_lt (i := 1) (by omega) n).symm
      have hle : 2 ^ (32 - count) ≤ 2 ^ 32 := Nat.pow_le_pow_right (by decide) (by omega)
      have hlt : 2 * n + b < 2 ^ 32 := by omega
      rw [hor, Nat.mod_eq_of_lt hlt] at h
      obtain ⟨hm, hoff'⟩ := ih h (by omega) (by omega) (Nat.mod_lt _ (by decide))
      refine ⟨?_, ?_⟩
      · rw [pow_succ, ← Nat.div_div_eq_div_mul, hm]
        omega
      · rw [hoff', Nat.mod_add_mod]
        congr 1
        omega
    · rw [bind_of_error (readBit_of_le hle)] at h
      cases h

/-- A nibble is the last one if its first bit, the continuation bit, is zero. -/
theorem nibble_cases {off : ℕ} (hoff : off < 2 ^ 32) :
    (∃ e, e ≠ .outOfFuel ∧ readBits (readBlob blob) 32 (glzM + 1) off 0 () = .error e) ∨
    ∃ n, readBits (readBlob blob) 32 (glzM + 1) off 0 () = .ok ((n, (off + 5) % 2 ^ 32), ()) ∧
      (Stops blob off → n < 1 <<< glzM) := by
  cases h : readBits (readBlob blob) 32 (glzM + 1) off 0 () with
  | error e =>
    refine .inl ⟨e, ?_, rfl⟩
    rw [throws_readBits 32 _ off 0 () e h]
    nofun
  | ok p =>
    obtain ⟨⟨n, off'⟩, ⟨⟩⟩ := p
    obtain ⟨-, hoff'⟩ := readBits_eq_ok h (by decide) (by decide) hoff
    refine .inr ⟨n, by rw [hoff']; rfl, fun hstops => ?_⟩
    rw [show glzM + 1 = 4 + 1 from rfl, readBits] at h
    rcases Nat.lt_or_ge (off / 8) blob.length with hlt | hle
    · rw [bind_of_ok (readBit_of_lt hlt)] at h
      rw [hstops.resolve_left (by omega)] at h
      obtain ⟨hn, -⟩ := readBits_eq_ok h (by decide) (by decide) (Nat.mod_lt _ (by decide))
      have hzero : n / 16 = 0 := hn
      have hshift : 1 <<< glzM = 16 := rfl
      omega
    · rw [bind_of_error (readBit_of_le hle)] at h
      cases h

/-- There is a stop in front of a nibble `i` nibbles on. -/
theorem ends_offLoop (i : ℕ) {off : ℕ} (hoff : off < 2 ^ 32)
    (h : Stops blob ((off + 5 * i) % 2 ^ 32)) (noff : ℕ) :
    Ends .outOfFuel (fun fuel => offLoop (readBlob blob) fuel off noff) () := by
  induction i generalizing off noff with
  | zero =>
    rw [Nat.mul_zero, Nat.add_zero, Nat.mod_eq_of_lt hoff] at h
    refine ⟨1, ?_⟩
    dsimp only
    rw [offLoop_succ]
    rcases nibble_cases hoff with ⟨e, he, hread⟩ | ⟨n, hread, hlast⟩
    · rw [bind_of_error hread]
      simpa using he
    · rw [bind_of_ok hread]
      dsimp only
      rw [if_pos (hlast h)]
      nofun
  | succ i ih =>
    have hnext : Stops blob (((off + 5) % 2 ^ 32 + 5 * i) % 2 ^ 32) := by
      rw [Nat.mod_add_mod, Nat.add_assoc, Nat.add_comm 5 (5 * i)]
      exact h
    rcases nibble_cases hoff with ⟨e, he, hread⟩ | ⟨n, hread, -⟩
    · refine ⟨1, ?_⟩
      dsimp only
      rw [offLoop_succ, bind_of_error hread]
      simpa using he
    · obtain ⟨fuel, hfuel⟩ := ih (Nat.mod_lt _ (by decide)) hnext
        (((noff <<< glzM) + 1 + (n &&& (1 <<< glzM) - 1)) % 2 ^ 32)
      refine ⟨fuel + 1, ?_⟩
      dsimp only
      rw [offLoop_succ, bind_of_ok hread]
      dsimp only
      split
      · nofun
      · exact hfuel

theorem off_readBits {width count off n m off' : ℕ}
    (h : readBits (readBlob blob) width count off n () = .ok ((m, off'), ()))
    (hoff : off < 2 ^ 32) : off' < 2 ^ 32 := by
  induction count generalizing off n with
  | zero =>
    cases h
    exact hoff
  | succ count ih =>
    rw [readBits] at h
    rcases Nat.lt_or_ge (off / 8) blob.length with hlt | hle
    · rw [bind_of_ok (readBit_of_lt hlt)] at h
      exact ih h (Nat.mod_lt _ (by decide))
    · rw [bind_of_error (readBit_of_le hle)] at h
      cases h

theorem off_riceUnary {fuel off rice m off' : ℕ}
    (h : riceUnary W (readBlob blob) fuel off rice () = .ok ((m, off'), ())) :
    off' < 2 ^ 32 := by
  induction fuel generalizing off rice with
  | zero => cases h
  | succ fuel ih =>
    rw [riceUnary_succ] at h
    rcases Nat.lt_or_ge (off / 8) blob.length with hlt | hle
    · rw [bind_of_ok (readBit_of_lt hlt)] at h
      split at h
      · cases h
        exact Nat.mod_lt _ (by decide)
      · exact ih h
    · rw [bind_of_error (readBit_of_le hle)] at h
      cases h

theorem off_offLoop {fuel off noff m off' : ℕ}
    (h : offLoop (readBlob blob) fuel off noff () = .ok ((m, off'), ())) (hoff : off < 2 ^ 32) :
    off' < 2 ^ 32 := by
  induction fuel generalizing off noff with
  | zero => cases h
  | succ fuel ih =>
    rw [offLoop_succ] at h
    obtain ⟨⟨⟨n, q⟩, ⟨⟩⟩, hbits, h⟩ := eq_ok_of_bind h
    have hq := off_readBits hbits hoff
    dsimp only at h
    split at h
    · cases h
      exact hq
    · exact ih h hq

theorem off_readSym {fuel off m off' : ℕ}
    (h : readSym W (readBlob blob) fuel k off () = .ok ((m, off'), ())) : off' < 2 ^ 32 := by
  obtain ⟨⟨⟨rice, q⟩, ⟨⟩⟩, hunary, h⟩ := eq_ok_of_bind h
  obtain ⟨⟨⟨rice', q'⟩, ⟨⟩⟩, hbits, h⟩ := eq_ok_of_bind h
  obtain ⟨⟨n, ⟨⟩⟩, -, h⟩ := eq_ok_of_bind h
  cases h
  exact off_readBits hbits (off_riceUnary hunary)

/-- Somewhere among the `2 ^ 32` positions a run of one bits ends. -/
def HasStop (blob : List UInt8) : Prop := ∃ off < 2 ^ 32, Stops blob off

theorem hasStop_of_length {blob : List UInt8} (h : blob.length < 2 ^ 29) : HasStop blob :=
  ⟨2 ^ 32 - 1, by decide, .inl (by omega)⟩

theorem ends_parseSym (hstop : HasStop blob) {off : ℕ} (hoff : off < 2 ^ 32) :
    Ends .outOfFuel (fun fuel => parseSym W (readBlob blob) fuel k off) () := by
  obtain ⟨z, hz, hstop⟩ := hstop
  refine ends_bind (stable_readSym W (readBlob blob) k off) (fun p => ?_) ?_ ?_
  · dsimp only
    split
    · exact stable_const _ _
    · exact (stable_offLoop (readBlob blob) p.2 0).bind fun _ => stable_const _ _
  · refine ends_bind (stable_riceUnary W (readBlob blob) off 0)
      (fun _ => stable_const _ _) ?_ fun p s' _ => ?_
    · have hdist : (off + (z + 2 ^ 32 - off) % 2 ^ 32) % 2 ^ 32 = z := by omega
      exact ends_riceUnary _ hoff (hdist.symm ▸ hstop) 0
    · refine ⟨0, fun hout => ?_⟩
      have hthrows : Throws (· = .err (-einval))
          (readBits (readBlob blob) W k p.2 p.1 >>= fun p =>
            mapTable W (readBlob blob) p.1 >>= fun rice => pure (rice, p.2)) :=
        (throws_readBits W k _ _).bind fun p =>
          (throws_mapTable p.1).bind fun _ => throws_pure _ _
      cases hthrows s' _ hout
  · rintro ⟨rice, q⟩ ⟨⟩ ⟨fuel, hread⟩
    dsimp only
    split
    · exact ⟨0, nofun⟩
    · refine ends_bind (stable_offLoop (readBlob blob) q 0) (fun _ => stable_const _ _) ?_
        fun _ _ _ => ⟨0, nofun⟩
      have hq := off_readSym hread
      -- five times this number is one more than four times `2 ^ 32`
      have hdist : (q + 5 * ((z + 2 ^ 32 - q) * 3435973837 % 2 ^ 32)) % 2 ^ 32 = z := by
        omega
      exact ends_offLoop _ hq (hdist.symm ▸ hstop) 0

/-- Without a stop the very first loop runs on. -/
theorem riceUnary_of_no_stop (h : ¬ HasStop blob) (fuel : ℕ) {off : ℕ} (hoff : off < 2 ^ 32)
    (rice : ℕ) : riceUnary W (readBlob blob) fuel off rice () = .error .outOfFuel := by
  induction fuel generalizing off rice with
  | zero => rfl
  | succ fuel ih =>
    have hgo : ¬ Stops blob off := fun hstops => h ⟨off, hoff, hstops⟩
    have hlt : off / 8 < blob.length := by
      by_contra hle
      exact hgo (.inl (by omega))
    rw [riceUnary_succ, bind_of_ok (readBit_of_lt hlt), if_neg fun hbit => hgo (.inr hbit)]
    exact ih (Nat.mod_lt _ (by decide)) _

/-! ## Section 2: Iterations -/

/-- One iteration of `while (size > 0)` that does not return -/
def Iter (W k : ℕ) (blob : List UInt8) (s s' : DecodeState) : Prop :=
  0 < s.size ∧ ∃ fuel t,
    decodeSym W (readBlob blob) fuel k s () = .ok (t, ()) ∧ s' = resume t

/-- The locals before the first iteration -/
def start (off size : ℕ) : DecodeState := ⟨off % 2 ^ 32, size % 2 ^ 32, 0, 0, []⟩

/-- The locals in front of some iteration -/
def Visits (W k : ℕ) (blob : List UInt8) (off size : ℕ) (s : DecodeState) : Prop :=
  Relation.ReflTransGen (Iter W (k % 2 ^ 8) blob) (start off size) s

/-- What stands at a position of the stream -/
def Parses (W k : ℕ) (blob : List UInt8) (off : ℕ) (p : Parsed) : Prop :=
  ∃ fuel, parseSym W (readBlob blob) fuel k off () = .ok (p, ())

theorem iter_iff {s s' : DecodeState} :
    Iter W k blob s s' ↔
      0 < s.size ∧ ∃ p, Parses W k blob s.off p ∧ s' = resume (s.apply p) := by
  refine and_congr_right fun _ => ⟨?_, ?_⟩
  · rintro ⟨fuel, t, hrun, rfl⟩
    rw [decodeSym_eq] at hrun
    obtain ⟨⟨p, ⟨⟩⟩, hparse, h⟩ := eq_ok_of_bind hrun
    cases h
    exact ⟨p, ⟨fuel, hparse⟩, rfl⟩
  · rintro ⟨p, ⟨fuel, hparse⟩, rfl⟩
    refine ⟨fuel, s.apply p, ?_, rfl⟩
    rw [decodeSym_eq, bind_of_ok hparse]
    rfl

theorem Parses.unique {off : ℕ} {p q : Parsed} (hp : Parses W k blob off p)
    (hq : Parses W k blob off q) : p = q := by
  obtain ⟨n, hn⟩ := hp
  obtain ⟨m, hm⟩ := hq
  have hagree := (stable_parseSym W (readBlob blob) k off).agree (n := n) (m := m) (s := ())
    (by rw [hn]; nofun) (by rw [hm]; nofun)
  rw [hn, hm] at hagree
  cases hagree
  rfl

theorem Parses.two_le {off nsize noff q : ℕ} (h : Parses W k blob off (.reference nsize noff q)) :
    2 ≤ nsize := by
  obtain ⟨fuel, hrun⟩ := h
  obtain ⟨⟨⟨rice, q⟩, ⟨⟩⟩, -, hrun⟩ := eq_ok_of_bind hrun
  dsimp only at hrun
  split at hrun
  · cases hrun
  · obtain ⟨_, -, hrun⟩ := eq_ok_of_bind hrun
    cases hrun
    exact Nat.le_add_left _ _

theorem Parses.off_lt {off x q : ℕ} (h : Parses W k blob off (.literal x q)) :
    q < 2 ^ 32 := by
  obtain ⟨fuel, hrun⟩ := h
  obtain ⟨⟨⟨rice, q⟩, ⟨⟩⟩, hread, hrun⟩ := eq_ok_of_bind hrun
  dsimp only at hrun
  split at hrun
  · cases hrun
    exact off_readSym hread
  · obtain ⟨_, -, hrun⟩ := eq_ok_of_bind hrun
    cases hrun

theorem Parses.ref_off_lt {off nsize noff q : ℕ}
    (h : Parses W k blob off (.reference nsize noff q)) : q < 2 ^ 32 := by
  obtain ⟨fuel, hrun⟩ := h
  obtain ⟨⟨⟨rice, q⟩, ⟨⟩⟩, hread, hrun⟩ := eq_ok_of_bind hrun
  dsimp only at hrun
  split at hrun
  · cases hrun
  · obtain ⟨⟨⟨n, q⟩, ⟨⟩⟩, hoff, hrun⟩ := eq_ok_of_bind hrun
    cases hrun
    exact off_offLoop hoff (off_readSym hread)

/-- The reference at `off`, read for `n` bytes, is a tail reference, and leads to `off'`. -/
def TailJump (W k : ℕ) (blob : List UInt8) (n off off' : ℕ) : Prop :=
  ∃ nsize noff q, Parses W k blob off (.reference nsize noff q) ∧ n ≤ nsize ∧
    off' = (q + noff) % 2 ^ 32

/-- Tail references lead from `off` back to `off`. -/
def TailCycle (W k : ℕ) (blob : List UInt8) (n off : ℕ) : Prop :=
  Relation.TransGen (TailJump W k blob n) off off

/-- All that an iteration can do: jump, write a byte, or put bytes off -/
theorem iter_cases {s s' : DecodeState} (h : Iter W k blob s s') :
    (∃ off', TailJump W k blob s.size s.off off' ∧ s' = { s with off := off' }) ∨
    s'.size + s'.psize < s.size + s.psize ∨
    s'.size + s'.psize ≤ s.size + s.psize ∧ s'.size < s.size := by
  obtain ⟨hsize, p, hparse, rfl⟩ := iter_iff.mp h
  cases p with
  | literal x off =>
    refine .inr (.inl ?_)
    rw [DecodeState.apply, resume]
    split <;> dsimp only at * <;> omega
  | reference nsize noff q =>
    have htwo := hparse.two_le
    rcases Nat.lt_or_ge nsize s.size with hlt | hle
    · refine .inr (.inr ?_)
      rw [DecodeState.apply, if_neg (Nat.not_le.mpr hlt), resume,
        if_neg (show nsize ≠ 0 by omega)]
      dsimp only
      omega
    · refine .inl ⟨_, ⟨nsize, noff, q, hparse, hle, rfl⟩, ?_⟩
      rw [DecodeState.apply, if_pos hle, resume, if_neg hsize.ne']

theorem TailJump.iter {s : DecodeState} (hsize : 0 < s.size) {off' : ℕ}
    (h : TailJump W k blob s.size s.off off') : Iter W k blob s { s with off := off' } := by
  obtain ⟨nsize, noff, q, hparse, hle, rfl⟩ := h
  refine iter_iff.mpr ⟨hsize, _, hparse, ?_⟩
  rw [DecodeState.apply, if_pos hle, resume, if_neg hsize.ne']

theorem reflTransGen_iter_of_tailJump {s : DecodeState} (hsize : 0 < s.size) {off' : ℕ}
    (h : Relation.ReflTransGen (TailJump W k blob s.size) s.off off') :
    Relation.ReflTransGen (Iter W k blob) s { s with off := off' } := by
  induction h with
  | refl => exact .refl
  | @tail b c _ hjump ih =>
    exact ih.tail (TailJump.iter (s := { s with off := b }) hsize hjump)

theorem transGen_iter_of_tailCycle {s : DecodeState} (hsize : 0 < s.size)
    (h : TailCycle W k blob s.size s.off) : Relation.TransGen (Iter W k blob) s s := by
  suffices hjumps : ∀ {off'}, Relation.TransGen (TailJump W k blob s.size) s.off off' →
      Relation.TransGen (Iter W k blob) s { s with off := off' } from hjumps h
  intro off' h
  induction h with
  | single hjump => exact .single (hjump.iter hsize)
  | @tail b c _ hjump ih =>
    exact ih.tail (TailJump.iter (s := { s with off := b }) hsize hjump)

/-! ## Section 3: Tail cycles -/

theorem acc_tailJump {s : DecodeState} (hsize : 0 < s.size)
    (h : ∀ s', Relation.ReflTransGen (Iter W k blob) s s' → 0 < s'.size →
      ¬ TailCycle W k blob s'.size s'.off) :
    Acc (Function.swap (TailJump W k blob s.size)) s.off := by
  refine acc_of_acyclic (s := insert s.off (Set.Iio (2 ^ 32)))
    ((Set.finite_Iio _).insert _) ?_ ?_
  · intro off' hjumps
    rcases hjumps.cases_tail with rfl | ⟨b, -, -, -, -, -, -, rfl⟩
    · exact Set.mem_insert _ _
    · exact Set.mem_insert_of_mem _ (Nat.mod_lt _ (by decide))
  · intro off' hjumps
    exact h _ (reflTransGen_iter_of_tailJump hsize hjumps) hsize

/-- The induction is on the bytes wanted in all, on the bytes wanted next, and along the tail
references. -/
theorem acc_iter {s : DecodeState}
    (h : ∀ s', Relation.ReflTransGen (Iter W k blob) s s' → 0 < s'.size →
      ¬ TailCycle W k blob s'.size s'.off) : Acc (Function.swap (Iter W k blob)) s := by
  induction hn : s.size + s.psize using Nat.strong_induction_on generalizing s with
  | _ n ihn =>
    induction hm : s.size using Nat.strong_induction_on generalizing s with
    | _ m ihm =>
      rcases Nat.eq_zero_or_pos s.size with hzero | hsize
      · exact ⟨_, fun s' hiter => absurd hiter.1 (by omega)⟩
      · have hacc := acc_tailJump hsize h
        obtain ⟨off, hoff⟩ : ∃ off, off = s.off := ⟨_, rfl⟩
        have hreach : Relation.ReflTransGen (Iter W k blob) s { s with off := off } := by
          rw [hoff]
        rw [← hoff] at hacc
        suffices hend : Acc (Function.swap (Iter W k blob)) { s with off := off } by
          rwa [hoff] at hend
        clear hoff
        induction hacc with
        | intro off _ ih =>
          refine ⟨_, fun s' hiter => ?_⟩
          have hnext : ∀ s'', Relation.ReflTransGen (Iter W k blob) s' s'' → 0 < s''.size →
              ¬ TailCycle W k blob s''.size s''.off :=
            fun s'' h'' => h s'' ((hreach.tail hiter).trans h'')
          rcases iter_cases hiter with ⟨off', hjump, rfl⟩ | hless | ⟨hle, hless⟩
          · exact ih off' hjump (hreach.tail hiter)
          · exact ihn _ (by simpa [← hn] using hless) hnext rfl
          · rcases Nat.lt_or_ge (s'.size + s'.psize) n with hlt | hge
            · exact ihn _ hlt hnext rfl
            · exact ihm _ (by simpa [← hm] using hless) hnext
                (by dsimp only at hle; omega) rfl

/-- Positions are `uint32_t`. -/
def InWord (s : DecodeState) : Prop := s.off < 2 ^ 32 ∧ s.poff < 2 ^ 32

theorem inWord_start (off size : ℕ) : InWord (start off size) :=
  ⟨Nat.mod_lt _ (by decide), Nat.two_pow_pos 32⟩

theorem inWord_resume {s : DecodeState} (h : InWord s) : InWord (resume s) := by
  rw [resume]
  split
  · exact ⟨h.2, Nat.two_pow_pos 32⟩
  · exact h

theorem InWord.iter {s s' : DecodeState} (h : InWord s) (hiter : Iter W k blob s s') :
    InWord s' := by
  obtain ⟨-, p, hparse, rfl⟩ := iter_iff.mp hiter
  apply inWord_resume
  cases p with
  | literal x off => exact ⟨hparse.off_lt, h.2⟩
  | reference nsize noff q =>
    rw [DecodeState.apply]
    split
    · exact ⟨Nat.mod_lt _ (by decide), h.2⟩
    · exact ⟨Nat.mod_lt _ (by decide), hparse.ref_off_lt⟩

theorem ends_decodeLoop (hstop : HasStop blob) {s : DecodeState}
    (hacc : Acc (Function.swap (Iter W k blob)) s) (hword : InWord s) :
    ∃ fuel steps, decodeLoop W (readBlob blob) fuel k steps s () ≠ .error .outOfFuel := by
  induction hacc with
  | intro s _ ih =>
    rcases Nat.eq_zero_or_pos s.size with hzero | hsize
    · refine ⟨0, 0, ?_⟩
      rw [decodeLoop_of_done W (readBlob blob) _ _ _ hzero]
      nofun
    · obtain ⟨fuel, hparse⟩ := ends_parseSym (W := W) (k := k) hstop hword.1
      cases hsym : parseSym W (readBlob blob) fuel k s.off () with
      | error e =>
        refine ⟨fuel, 1, ?_⟩
        rw [decodeLoop_succ W (readBlob blob) fuel k 0 hsize, decodeSym_eq,
          bind_of_error (bind_of_error hsym)]
        simpa [hsym] using hparse
      | ok r =>
        obtain ⟨p, ⟨⟩⟩ := r
        have hiter : Iter W k blob s (resume (s.apply p)) :=
          iter_iff.mpr ⟨hsize, p, ⟨fuel, hsym⟩, rfl⟩
        obtain ⟨fuel', steps, hrest⟩ := ih _ hiter (hword.iter hiter)
        refine ⟨max fuel fuel', steps + 1, ?_⟩
        have hsym' : parseSym W (readBlob blob) (max fuel fuel') k s.off () = .ok (p, ()) := by
          rw [(stable_parseSym W (readBlob blob) k s.off).le (n := fuel) (Nat.le_max_left _ _)
            (by rw [hsym]; nofun), hsym]
        rw [decodeLoop_succ W (readBlob blob) _ k steps hsize, decodeSym_eq, bind_assoc,
          bind_of_ok hsym', pure_bind]
        rw [decodeLoop_mono (Nat.le_max_right _ _) le_rfl hrest]
        exact hrest

/-- No iteration starts where an earlier one started with the same output. -/
def NeverReturns (W k : ℕ) (blob : List UInt8) (off size : ℕ) : Prop :=
  ∀ s, Visits W k blob off size s → ¬ Relation.TransGen (Iter W (k % 2 ^ 8) blob) s s

/-- The decoder ends with `0` or a negative error, the same one however long it may run. -/
def Returns (W k : ℕ) (blob : List UInt8) (off size : ℕ) : Prop :=
  ∃ fuel r, (∀ fuel', fuel ≤ fuel' → boxGlzDecode W fuel' k blob off size = r) ∧
    ((∃ output, r = .ok output) ∨ ∃ code, r = .error (.err code) ∧ code < 0)

theorem boxGlzDecode_eq (W fuel k : ℕ) (blob : List UInt8) (off size : ℕ) :
    boxGlzDecode W fuel k blob off size =
      (decodeLoop W (readBlob blob) fuel (k % 2 ^ 8) fuel (start off size) ()).map Prod.fst := rfl

/-- Enough fuel for the loop gives the result of the decoder. -/
theorem returns_of_ends {off size : ℕ}
    (h : ∃ fuel steps, decodeLoop W (readBlob blob) fuel (k % 2 ^ 8) steps (start off size) () ≠
      .error .outOfFuel) : Returns W k blob off size := by
  obtain ⟨fuel, steps, hend⟩ := h
  cases hrun : decodeLoop W (readBlob blob) fuel (k % 2 ^ 8) steps (start off size) () with
  | ok p =>
    refine ⟨max fuel steps, .ok p.1, fun fuel' hle => ?_, .inl ⟨p.1, rfl⟩⟩
    rw [boxGlzDecode_eq, decodeLoop_mono (by omega) (by omega) hend, hrun]
    rfl
  | error e =>
    have he : e = .err (-einval) := by
      rcases throws_decodeLoop fuel steps (start off size) () e hrun with rfl | he
      · exact absurd hrun hend
      · exact he
    refine ⟨max fuel steps, .error e, fun fuel' hle => ?_,
      .inr ⟨-einval, he ▸ rfl, by decide⟩⟩
    rw [boxGlzDecode_eq, decodeLoop_mono (by omega) (by omega) hend, hrun]
    rfl

theorem hasStop_of_returns {off size : ℕ} (hsize : size % 2 ^ 32 ≠ 0)
    (h : Returns W k blob off size) : HasStop blob := by
  by_contra hstop
  obtain ⟨fuel, r, hrun, hr⟩ := h
  have hloop : decodeLoop W (readBlob blob) (fuel + 1) (k % 2 ^ 8) (fuel + 1)
      (start off size) () = .error .outOfFuel := by
    rw [decodeLoop_succ W (readBlob blob) _ _ _ (Nat.pos_of_ne_zero hsize), decodeSym_eq]
    refine bind_of_error (bind_of_error (bind_of_error (bind_of_error ?_)))
    exact riceUnary_of_no_stop hstop _ (Nat.mod_lt _ (by decide)) 0
  have hout := hrun (fuel + 1) (Nat.le_succ _)
  rw [boxGlzDecode_eq, hloop] at hout
  rcases hr with ⟨output, rfl⟩ | ⟨code, rfl, -⟩
  · cases hout
  · cases hout

/-- The decoder terminates unless it comes to a cycle of tail references, or the blob has only
ones in all of the `2 ^ 32` positions. -/
theorem terminates_iff (W k : ℕ) (blob : List UInt8) (off size : ℕ) :
    NeverReturns W k blob off size ∧ Returns W k blob off size ↔
      size % 2 ^ 32 = 0 ∨ HasStop blob ∧ ∀ s, Visits W k blob off size s → 0 < s.size →
        ¬ TailCycle W (k % 2 ^ 8) blob s.size s.off := by
  refine ⟨?_, ?_⟩
  · rintro ⟨hnever, hreturns⟩
    rcases Nat.eq_zero_or_pos (size % 2 ^ 32) with hzero | hsize
    · exact .inl hzero
    · refine .inr ⟨hasStop_of_returns hsize.ne' hreturns, fun s hvisits hpos hcycle => ?_⟩
      exact hnever s hvisits (transGen_iter_of_tailCycle hpos hcycle)
  · rintro (hzero | ⟨hstop, hcycles⟩)
    · have hstay : ∀ s, Visits W k blob off size s → s = start off size := by
        intro s hvisits
        rcases hvisits.cases_head with h | ⟨s', hiter, -⟩
        · exact h.symm
        · exact absurd hiter.1 (by rw [start, hzero]; exact Nat.lt_irrefl 0)
      refine ⟨fun s hvisits hcycle => ?_, returns_of_ends ⟨0, 0, ?_⟩⟩
      · obtain ⟨s', hiter, -⟩ := Relation.TransGen.head'_iff.mp hcycle
        have hpos := hiter.1
        rw [hstay s hvisits, start, hzero] at hpos
        exact Nat.lt_irrefl 0 hpos
      · rw [decodeLoop_of_done W (readBlob blob) _ _ _ hzero]
        nofun
    · refine ⟨fun s hvisits => ?_, returns_of_ends ?_⟩
      · refine not_transGen_of_acc (acc_iter fun s' hreach => ?_)
        exact hcycles s' (hvisits.trans hreach)
      · exact ends_decodeLoop hstop (acc_iter hcycles) (inWord_start off size)

/-- Entry 0 of the table is a reference of two bytes. The stream at position 9 has that entry,
with an offset of eight nibbles that leads from their end, position 50, to `50 + 2 ^ 32 - 41`. -/
def loopBlob : List UInt8 := [128, 61, 239, 123, 222, 225, 192]

theorem parseSym_loopBlob :
    parseSym 32 (readBlob loopBlob) 8 0 9 () = .ok (.reference 2 4294967255 50, ()) := by
  decide +kernel

theorem iter_loopBlob : Iter 32 0 loopBlob (start 9 1) (start 9 1) :=
  iter_iff.mpr ⟨by decide, _, ⟨8, parseSym_loopBlob⟩, rfl⟩

theorem decodeLoop_loopBlob {fuel : ℕ} (hfuel : 8 ≤ fuel) (steps : ℕ) :
    decodeLoop 32 (readBlob loopBlob) fuel 0 steps (start 9 1) () = .error .outOfFuel := by
  induction steps with
  | zero => rfl
  | succ steps ih =>
    have hparse : parseSym 32 (readBlob loopBlob) fuel 0 9 () =
        .ok (.reference 2 4294967255 50, ()) := by
      rw [(stable_parseSym 32 (readBlob loopBlob) 0 9).le (n := 8) hfuel
        (by rw [parseSym_loopBlob]; nofun), parseSym_loopBlob]
    rw [decodeLoop_succ _ _ _ _ _ (by decide), decodeSym_eq, bind_assoc]
    rw [bind_of_ok (m := parseSym 32 (readBlob loopBlob) fuel 0 (start 9 1).off) hparse,
      pure_bind]
    exact ih

/-- The wanted byte is never written, and no error is returned. -/
theorem loopBlob_runs_on :
    ¬ NeverReturns 32 0 loopBlob 9 1 ∧ ¬ Returns 32 0 loopBlob 9 1 := by
  refine ⟨fun h => ?_, ?_⟩
  · exact h _ .refl (.single iter_loopBlob)
  · rintro ⟨fuel, r, hrun, hr⟩
    have hloop : boxGlzDecode 32 (max fuel 8) 0 loopBlob 9 1 = .error .outOfFuel :=
      congrArg (Except.map Prod.fst) (decodeLoop_loopBlob (Nat.le_max_right _ _) _)
    have hout := hrun (max fuel 8) (Nat.le_max_left _ _)
    rw [hloop] at hout
    rcases hr with ⟨output, rfl⟩ | ⟨code, rfl, -⟩
    · cases hout
    · cases hout

end BentoLinker.Loader
