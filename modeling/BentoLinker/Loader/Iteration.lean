import BentoLinker.Lib.Fueled
import BentoLinker.Loader.GlzDecode
import Mathlib.Logic.Relation

/-!
# Iterations of the Decoder Loop

One iteration of `while (size > 0)` in two halves: what is read from the stream, and what
it does to the locals.

- `Parsed`, `parseSym`, `DecodeState.apply`: the two halves, joined by `decodeSym_eq`
- `stable_parseSym`, `decodeLoop_mono`: fuel that is enough
- `Stops`: where a run of one bits ends
- `throws_decodeLoop`: the errors there can be
-/

namespace BentoLinker.Loader

open Fueled

/-! ## Section 1: Reading and acting -/

/-- What the stream says next, and the position behind it -/
inductive Parsed where
  | literal (x off : ℕ)
  | reference (nsize noff off : ℕ)
  deriving Repr, DecidableEq

/-- What an iteration reads -/
def parseSym {σ : Type} (W : ℕ) (read : ℕ → ℕ → Run σ (List UInt8)) (fuel k off : ℕ) :
    Run σ Parsed := do
  let (rice, off) ← readSym W read fuel k off
  if rice < 0x100 then pure (.literal rice off)
  else do
    let (noff, off) ← offLoop read fuel off 0
    pure (.reference ((rice &&& 0xff) + 2) ((noff + 2 ^ 32 - 1) % 2 ^ 32) off)

/-- What it does with it, up to the return from a nested reference -/
def DecodeState.apply (s : DecodeState) : Parsed → DecodeState
  | .literal x off =>
    { s with off := off, output := s.output ++ [UInt8.ofNat x], size := s.size - 1 }
  | .reference nsize noff off =>
    if s.size ≤ nsize then { s with off := (off + noff) % 2 ^ 32 }
    else { s with
      off := (off + noff) % 2 ^ 32, size := nsize, poff := off, psize := s.size - nsize }

theorem decodeSym_eq {σ : Type} (W : ℕ) (read : ℕ → ℕ → Run σ (List UInt8)) (fuel k : ℕ)
    (s : DecodeState) :
    decodeSym W read fuel k s = parseSym W read fuel k s.off >>= fun p => pure (s.apply p) := by
  rw [decodeSym, parseSym, bind_assoc]
  refine bind_congr fun p => ?_
  dsimp only
  split
  · rw [pure_bind]
    rfl
  · rw [bind_assoc]
    refine bind_congr fun q => ?_
    rw [pure_bind, DecodeState.apply]
    split <;> rfl

/-! ## Section 2: Fuel -/

section Fuel

variable {σ : Type} (W : ℕ) (read : ℕ → ℕ → Run σ (List UInt8))

theorem riceUnary_succ (fuel off rice : ℕ) :
    riceUnary W read (fuel + 1) off rice = readBit read off >>= fun b =>
      if b = 0 then pure (rice, (off + 1) % 2 ^ 32)
      else riceUnary W read fuel ((off + 1) % 2 ^ 32) ((rice + 1) % 2 ^ W) := rfl

theorem offLoop_succ (fuel off noff : ℕ) :
    offLoop read (fuel + 1) off noff = readBits read 32 (glzM + 1) off 0 >>= fun p =>
      if p.1 < 1 <<< glzM then
        pure (((noff <<< glzM) + 1 + (p.1 &&& (1 <<< glzM) - 1)) % 2 ^ 32, p.2)
      else offLoop read fuel p.2
        (((noff <<< glzM) + 1 + (p.1 &&& (1 <<< glzM) - 1)) % 2 ^ 32) := rfl

theorem stable_riceUnary (off rice : ℕ) :
    Stable .outOfFuel fun fuel => riceUnary W read fuel off rice := by
  intro fuel s hend
  induction fuel generalizing off rice s with
  | zero => exact absurd rfl hend
  | succ fuel ih =>
    dsimp only at hend ih ⊢
    rw [riceUnary_succ W read fuel] at hend
    rw [riceUnary_succ W read (fuel + 1), riceUnary_succ W read fuel off rice]
    cases hbit : readBit read off s with
    | error e => rw [bind_of_error hbit, bind_of_error hbit]
    | ok p =>
      rw [bind_of_ok hbit] at hend
      rw [bind_of_ok hbit, bind_of_ok hbit]
      split
      · rfl
      · next h =>
        rw [if_neg h] at hend
        exact ih _ _ _ hend

theorem stable_offLoop (off noff : ℕ) :
    Stable .outOfFuel fun fuel => offLoop read fuel off noff := by
  intro fuel s hend
  induction fuel generalizing off noff s with
  | zero => exact absurd rfl hend
  | succ fuel ih =>
    dsimp only at hend ih ⊢
    rw [offLoop_succ read fuel] at hend
    rw [offLoop_succ read (fuel + 1), offLoop_succ read fuel off noff]
    cases hbits : readBits read 32 (glzM + 1) off 0 s with
    | error e => rw [bind_of_error hbits, bind_of_error hbits]
    | ok p =>
      rw [bind_of_ok hbits] at hend
      rw [bind_of_ok hbits, bind_of_ok hbits]
      split
      · rfl
      · next h =>
        rw [if_neg h] at hend
        exact ih _ _ _ hend

theorem stable_readSym (k off : ℕ) :
    Stable .outOfFuel fun fuel => readSym W read fuel k off :=
  (stable_riceUnary W read off 0).bind fun _ => stable_const _ _

theorem stable_parseSym (k off : ℕ) :
    Stable .outOfFuel fun fuel => parseSym W read fuel k off := by
  refine (stable_readSym W read k off).bind fun p => ?_
  dsimp only
  split
  · exact stable_const _ _
  · exact (stable_offLoop read p.2 0).bind fun _ => stable_const _ _

theorem stable_decodeSym (k : ℕ) (s : DecodeState) :
    Stable .outOfFuel fun fuel => decodeSym W read fuel k s := by
  simp only [decodeSym_eq]
  exact (stable_parseSym W read k s.off).bind fun _ => stable_const _ _

theorem decodeLoop_succ (fuel k steps : ℕ) {s : DecodeState} (hsize : 0 < s.size) :
    decodeLoop W read fuel k (steps + 1) s =
      decodeSym W read fuel k s >>= fun s => decodeLoop W read fuel k steps (resume s) := by
  rw [decodeLoop, if_pos hsize]

theorem decodeLoop_of_done (fuel k steps : ℕ) {s : DecodeState} (hsize : s.size = 0) :
    decodeLoop W read fuel k steps s = pure s.output := by
  cases steps with
  | zero => rw [decodeLoop, if_neg (by omega)]
  | succ steps => rw [decodeLoop, if_neg (by omega)]

variable {W read}

/-- More fuel and more iterations change nothing, once they were enough. -/
theorem decodeLoop_mono {fuel fuel' k steps steps' : ℕ} {s : DecodeState} {ctx : σ}
    (hfuel : fuel ≤ fuel') (hsteps : steps ≤ steps')
    (h : decodeLoop W read fuel k steps s ctx ≠ .error .outOfFuel) :
    decodeLoop W read fuel' k steps' s ctx = decodeLoop W read fuel k steps s ctx := by
  induction steps generalizing steps' s ctx with
  | zero =>
    rcases Nat.eq_zero_or_pos s.size with hsize | hsize
    · rw [decodeLoop_of_done W read _ _ _ hsize, decodeLoop_of_done W read _ _ _ hsize]
    · rw [decodeLoop, if_pos hsize] at h
      exact absurd rfl h
  | succ steps ih =>
    rcases Nat.eq_zero_or_pos s.size with hsize | hsize
    · rw [decodeLoop_of_done W read _ _ _ hsize, decodeLoop_of_done W read _ _ _ hsize]
    · obtain ⟨steps', rfl⟩ : ∃ n, steps' = n + 1 := ⟨steps' - 1, by omega⟩
      rw [decodeLoop_succ W read fuel k steps hsize] at h ⊢
      rw [decodeLoop_succ W read fuel' k steps' hsize]
      have hstable := stable_decodeSym W read k s
      cases hsym : decodeSym W read fuel k s ctx with
      | error e =>
        have he : e ≠ .outOfFuel := by
          rintro rfl
          exact h (bind_of_error hsym)
        have hsym' : decodeSym W read fuel' k s ctx = .error e := by
          rw [hstable.le (f := fun fuel => decodeSym W read fuel k s) hfuel
            (by rw [hsym]; simpa using he)]
          exact hsym
        rw [bind_of_error hsym, bind_of_error hsym']
      | ok p =>
        have hsym' : decodeSym W read fuel' k s ctx = .ok p := by
          rw [hstable.le (f := fun fuel => decodeSym W read fuel k s) hfuel
            (by rw [hsym]; simp)]
          exact hsym
        rw [bind_of_ok hsym] at h
        rw [bind_of_ok hsym, bind_of_ok hsym']
        exact ih (by omega) h

end Fuel

/-! ## Section 3: The decoder of a blob -/

/-- A run of one bits ends here: past the end of the blob, or with a zero bit. -/
def Stops (blob : List UInt8) (off : ℕ) : Prop :=
  blob.length ≤ off / 8 ∨ 1 &&& ((blob.getD (off / 8) 0).toNat >>> (7 - off % 8)) = 0

/-- What `__box_glz_decode` throws in the model -/
def Einval (e : Stop) : Prop := e = .outOfFuel ∨ e = .err (-einval)

section Blob

variable {W k : ℕ} {blob : List UInt8}

theorem readBit_of_le {off : ℕ} (h : blob.length ≤ off / 8) :
    readBit (readBlob blob) off () = .error (.err (-einval)) := by
  have hread : readBlob blob (off / 8) 1 = throw (.err (-einval)) := by
    rw [readBlob, if_pos (by omega)]
  rw [readBit, hread]
  rfl

theorem readBit_of_lt {off : ℕ} (h : off / 8 < blob.length) :
    readBit (readBlob blob) off () =
      .ok (1 &&& ((blob.getD (off / 8) 0).toNat >>> (7 - off % 8)), ()) := by
  have hread : readBlob blob (off / 8) 1 = pure ((blob.drop (off / 8)).take 1) := by
    rw [readBlob, if_neg (by omega)]
  have hget : ((blob.drop (off / 8)).take 1).getD 0 0 = blob.getD (off / 8) 0 := by
    simp [List.getD_eq_getElem?_getD]
  rw [readBit, hread, pure_bind, hget]
  rfl

theorem throws_readBit (off : ℕ) :
    Throws (· = .err (-einval)) (readBit (readBlob blob) off) := by
  intro s e h
  rcases Nat.lt_or_ge (off / 8) blob.length with hlt | hle
  · rw [readBit_of_lt hlt] at h
    cases h
  · rw [readBit_of_le hle] at h
    cases h
    rfl

theorem throws_readBits (width count off n : ℕ) :
    Throws (· = .err (-einval)) (readBits (readBlob blob) width count off n) := by
  induction count generalizing off n with
  | zero => exact throws_pure _ _
  | succ count ih => exact (throws_readBit off).bind fun _ => ih _ _

theorem throws_mapTable (rice : ℕ) :
    Throws (· = .err (-einval)) (mapTable W (readBlob blob) rice) := by
  refine Throws.bind ?_ fun _ => throws_pure _ _
  rw [readBlob]
  split
  · exact throws_throw rfl
  · exact throws_pure _ _

theorem throws_riceUnary (fuel off rice : ℕ) :
    Throws Einval (riceUnary W (readBlob blob) fuel off rice) := by
  induction fuel generalizing off rice with
  | zero => exact throws_throw (.inl rfl)
  | succ fuel ih =>
    rw [riceUnary_succ]
    refine ((throws_readBit off).imp fun _ => .inr).bind fun b => ?_
    split
    · exact throws_pure _ _
    · exact ih _ _

theorem throws_offLoop (fuel off noff : ℕ) :
    Throws Einval (offLoop (readBlob blob) fuel off noff) := by
  induction fuel generalizing off noff with
  | zero => exact throws_throw (.inl rfl)
  | succ fuel ih =>
    rw [offLoop_succ]
    refine ((throws_readBits 32 _ off 0).imp fun _ => .inr).bind fun p => ?_
    split
    · exact throws_pure _ _
    · exact ih _ _

theorem throws_parseSym (fuel off : ℕ) :
    Throws Einval (parseSym W (readBlob blob) fuel k off) := by
  refine Throws.bind ?_ fun p => ?_
  · refine (throws_riceUnary fuel off 0).bind fun p => ?_
    refine ((throws_readBits W k _ _).imp fun _ => .inr).bind fun p => ?_
    exact ((throws_mapTable _).imp fun _ => .inr).bind fun _ => throws_pure _ _
  · dsimp only
    split
    · exact throws_pure _ _
    · exact (throws_offLoop fuel _ 0).bind fun _ => throws_pure _ _

theorem throws_decodeLoop (fuel steps : ℕ) (s : DecodeState) :
    Throws Einval (decodeLoop W (readBlob blob) fuel k steps s) := by
  induction steps generalizing s with
  | zero =>
    rw [decodeLoop]
    split
    · exact throws_throw (.inl rfl)
    · exact throws_pure _ _
  | succ steps ih =>
    rw [decodeLoop]
    split
    · rw [decodeSym_eq]
      exact ((throws_parseSym fuel s.off).bind fun _ => throws_pure _ _).bind fun _ => ih _
    · exact throws_pure _ _

end Blob

end BentoLinker.Loader
