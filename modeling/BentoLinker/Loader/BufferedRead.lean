import BentoLinker.Loader.BlockDevice

/-!
# Buffered Reads

What `__box_X_buffer_read` returns for a range of the device, in any state of its buffer.

1. `readLoop`, `readResult`: the read, with what it leaves behind after an error
2. `Reachable`: the states of the buffer, and what is known of them
3. A read inside one buffer returns the device's bytes
4. A read that passes the end of a buffer leaves the end of its output alone
5. `readsDevice_iff`: where a read does what its comment says
-/

namespace BentoLinker.Loader

/-! ## Section 1: What a read leaves behind -/

/-- On return from a read: the error, if any, the buffer, and what the caller's `buffer` points to -/
structure Return where
  err : Option ℤ
  buffer : Buffer
  dest : List UInt8
  deriving Repr, DecidableEq

/-- `while (size > 0)` of `__box_X_buffer_read`, up to any of its returns -/
def readLoop (bufferSize : ℕ) (bdread : Bdread) (block : ℕ) :
    ℕ → ℕ → ℕ → Buffer → List UInt8 → Option Return
  | 0, _, size, b, dest => if 0 < size then none else some ⟨none, b, dest⟩
  | fuel + 1, off, size, b, dest =>
    if 0 < size then
      if b.Holds bufferSize block off then
        let delta := min (bufferSize - (off - b.off)) size
        readLoop bufferSize bdread block fuel ((off + delta) % 2 ^ 32) (size - delta) b
          (copyTo dest ((b.bytes.drop (off - b.off)).take delta))
      else
        let noff := bdAligndown off bufferSize
        match bdread block noff bufferSize with
        | .error err => some ⟨some err, b, dest⟩
        | .ok bytes => readLoop bufferSize bdread block fuel off size ⟨block, noff, bytes⟩ dest
    else some ⟨none, b, dest⟩

/-- `__box_X_buffer_read`, up to any of its returns -/
def readResult (c : BDLoader) (bdread : Bdread) (fuel ctx addr size : ℕ) (b : Buffer)
    (dest : List UInt8) : Option Return :=
  let addr := (addr + ctx) % 2 ^ 32
  if c.size < (addr + size) % 2 ^ 32 then some ⟨some (-einval), b, dest⟩
  else
    let block := addr / c.blockSize
    let off := addr - block * c.blockSize
    readLoop c.bufferSize bdread block fuel off size b dest

/-- What a caller that stops at an error makes of it -/
def Return.toExcept : Option Return → Except Stop Reading
  | none => .error .outOfFuel
  | some ⟨none, b, dest⟩ => .ok (b, dest)
  | some ⟨some err, _, _⟩ => .error (.err err)

theorem bufferReadLoop_eq (bufferSize : ℕ) (bdread : Bdread) (block fuel off size : ℕ)
    (b : Buffer) (dest : List UInt8) :
    bufferReadLoop bufferSize bdread block fuel off size (b, dest) =
      Return.toExcept (readLoop bufferSize bdread block fuel off size b dest) := by
  induction fuel generalizing off size b dest with
  | zero =>
    rw [bufferReadLoop, readLoop]
    split <;> rfl
  | succ fuel ih =>
    rw [bufferReadLoop, readLoop]
    split
    · split
      · exact ih _ _ _ _
      · dsimp only
        cases bdread block (bdAligndown off bufferSize) bufferSize with
        | error err => rfl
        | ok bytes => exact ih _ _ _ _
    · rfl

theorem bufferRead_eq_toExcept (c : BDLoader) (bdread : Bdread) (fuel ctx addr size : ℕ)
    (b : Buffer) (dest : List UInt8) :
    bufferRead c bdread fuel ctx addr size (b, dest) =
      Return.toExcept (readResult c bdread fuel ctx addr size b dest) := by
  unfold bufferRead readResult
  dsimp only
  split
  · rfl
  · exact bufferReadLoop_eq _ _ _ _ _ _ _ _

section Loop

variable {bufferSize block fuel off n : ℕ} {bdread : Bdread} {b : Buffer} {dest : List UInt8}
  {r r' : Return}

/-- More fuel does not change a result. -/
theorem readLoop_succ (h : readLoop bufferSize bdread block fuel off n b dest = some r) :
    readLoop bufferSize bdread block (fuel + 1) off n b dest = some r := by
  induction fuel generalizing off n b dest with
  | zero =>
    rw [readLoop] at h
    split at h
    · cases h
    · next hzero => rwa [readLoop, if_neg hzero]
  | succ fuel ih =>
    rw [readLoop] at h ⊢
    split
    · next hpos =>
      rw [if_pos hpos] at h
      split
      · next hholds =>
        rw [if_pos hholds] at h
        exact ih h
      · next hholds =>
        rw [if_neg hholds] at h
        dsimp only at h ⊢
        cases hread : bdread block (bdAligndown off bufferSize) bufferSize with
        | error err =>
          rw [hread] at h
          exact h
        | ok bytes =>
          rw [hread] at h
          exact ih h
    · next hzero => rwa [if_neg hzero] at h

theorem readLoop_add (k : ℕ) (h : readLoop bufferSize bdread block fuel off n b dest = some r) :
    readLoop bufferSize bdread block (fuel + k) off n b dest = some r := by
  induction k with
  | zero => exact h
  | succ k ih => exact readLoop_succ ih

theorem readLoop_unique (fuel' : ℕ)
    (h : readLoop bufferSize bdread block fuel off n b dest = some r)
    (h' : readLoop bufferSize bdread block fuel' off n b dest = some r') : r = r' := by
  have hmore := readLoop_add fuel' h
  rw [Nat.add_comm, readLoop_add fuel h'] at hmore
  exact (Option.some.inj hmore).symm

end Loop

/-! ## Section 2: States of the buffer -/

/-- What the hook returns inside a block is the device's. It may also fail. -/
def Honest (c : BDLoader) (device : ℕ → UInt8) (bdread : Bdread) : Prop :=
  ∀ block off n bytes, off + n ≤ c.blockSize → bdread block off n = .ok bytes →
    bytes = span device (block * c.blockSize + off) n

/-- States of the buffer from `load` on. A load starts with zeros or with what the last one has
left, and ends at the first error. -/
inductive Reachable (c : BDLoader) (device : ℕ → UInt8) : Buffer → Prop where
  | start : Reachable c device ⟨2 ^ 32 - 1, 0, List.replicate c.bufferSize 0⟩
  | reload {b : Buffer} (hb : Reachable c device b) :
      Reachable c device { b with block := 2 ^ 32 - 1 }
  | read {b : Buffer} {bdread : Bdread} {fuel ctx addr n : ℕ} {dest : List UInt8} {r : Return}
      (hb : Reachable c device b) (hhonest : Honest c device bdread)
      (hread : readResult c bdread fuel ctx addr n b dest = some r) (hok : r.err = none) :
      Reachable c device r.buffer

/-- Marked as empty, or an aligned part of the device. Behind the end of a block, where no read
looks for it, it may hold anything. -/
def Buffer.Current (b : Buffer) (c : BDLoader) (device : ℕ → UInt8) : Prop :=
  b.block = 2 ^ 32 - 1 ∨ c.bufferSize ∣ b.off ∧
    (b.off < c.blockSize →
      b.bytes = span device (b.block * c.blockSize + b.off) c.bufferSize)

section States

variable {c : BDLoader} {device : ℕ → UInt8} {bdread : Bdread} {b : Buffer}
  {dest : List UInt8} {r : Return}

theorem bdAligndown_of_dvd {a n : ℕ} (h : n ∣ a) : bdAligndown a n = a := by
  rw [bdAligndown, Nat.mod_eq_zero_of_dvd h, Nat.sub_zero]

/-- What the hook loads is a part of the device. -/
theorem current_of_honest (hhonest : Honest c device bdread) {block off : ℕ} {bytes : List UInt8}
    (hread : bdread block (bdAligndown off c.bufferSize) c.bufferSize = .ok bytes) :
    Buffer.Current ⟨block, bdAligndown off c.bufferSize, bytes⟩ c device := by
  have hdvd : c.bufferSize ∣ bdAligndown off c.bufferSize := Nat.dvd_sub_mod off
  refine .inr ⟨hdvd, fun hlt => hhonest _ _ _ _ ?_ hread⟩
  have hle := aligndown_add_le c hlt
  rwa [bdAligndown_of_dvd hdvd] at hle

theorem readLoop_current (hhonest : Honest c device bdread) {block fuel off n : ℕ}
    (hb : b.Current c device)
    (hrun : readLoop c.bufferSize bdread block fuel off n b dest = some r) :
    r.buffer.Current c device := by
  induction fuel generalizing off n b dest with
  | zero =>
    rw [readLoop] at hrun
    split at hrun
    · cases hrun
    · cases hrun
      exact hb
  | succ fuel ih =>
    rw [readLoop] at hrun
    split at hrun
    · split at hrun
      · exact ih hb hrun
      · dsimp only at hrun
        cases hread : bdread block (bdAligndown off c.bufferSize) c.bufferSize with
        | error err =>
          rw [hread] at hrun
          cases hrun
          exact hb
        | ok bytes =>
          rw [hread] at hrun
          exact ih (current_of_honest hhonest hread) hrun
    · cases hrun
      exact hb

theorem Reachable.current (h : Reachable c device b) : b.Current c device := by
  induction h with
  | start => exact .inl rfl
  | reload => exact .inl rfl
  | read _ hhonest hread _ hcurrent =>
    rw [readResult] at hread
    dsimp only at hread
    split at hread
    · cases hread
      exact hcurrent
    · exact readLoop_current hhonest hcurrent hread

end States

/-! ## Section 3: Inside one buffer -/

/-- The aligned buffer around `a` has all of the range, and the loop finds it there: its end is
a `uint32_t`, and the number of its block does not mean that the buffer is empty. -/
structure BDLoader.OneBuffer (c : BDLoader) (a n : ℕ) : Prop where
  fits : a % c.bufferSize + n ≤ c.bufferSize
  found : a % c.blockSize <
    (bdAligndown (a % c.blockSize) c.bufferSize + c.bufferSize) % 2 ^ 32
  unmarked : a / c.blockSize ≠ 2 ^ 32 - 1

section Reads

variable {c : BDLoader} {device : ℕ → UInt8} {bdread : Bdread} {b : Buffer}
  {dest : List UInt8} {a n : ℕ}

theorem off_eq (c : BDLoader) (a : ℕ) : a - a / c.blockSize * c.blockSize = a % c.blockSize := by
  have hsplit := Nat.div_add_mod' a c.blockSize
  omega

/-- An aligned buffer that holds a byte is the one that would be loaded for it. -/
theorem aligndown_of_holds {block off : ℕ} (hholds : b.Holds c.bufferSize block off)
    (hdvd : c.bufferSize ∣ b.off) : b.off = bdAligndown off c.bufferSize := by
  obtain ⟨-, hle, hlt⟩ := hholds
  have hend := hlt.trans_le (Nat.mod_le _ _)
  obtain ⟨q, hq⟩ := hdvd
  have hmod : off % c.bufferSize = off - b.off := by
    rw [show off = (off - b.off) + c.bufferSize * q by omega, Nat.add_mul_mod_self_left,
      Nat.mod_eq_of_lt (by omega)]
    omega
  rw [bdAligndown]
  omega

/-- A hit in the buffer around `a` copies the whole range. -/
theorem readLoop_hit (fuel : ℕ) (hpos : 0 < n)
    (hfits : a % c.bufferSize + n ≤ c.bufferSize)
    (hoff : b.off = bdAligndown (a % c.blockSize) c.bufferSize)
    (hbytes : b.bytes = span device (a / c.blockSize * c.blockSize + b.off) c.bufferSize)
    (hholds : b.Holds c.bufferSize (a / c.blockSize) (a % c.blockSize)) :
    readLoop c.bufferSize bdread (a / c.blockSize) (fuel + 1) (a % c.blockSize) n b dest =
      some ⟨none, b, copyTo dest (span device a n)⟩ := by
  have hmod : a % c.blockSize % c.bufferSize = a % c.bufferSize :=
    Nat.mod_mod_of_dvd a c.buffer_dvd
  have hdelta : a % c.blockSize - b.off = a % c.bufferSize := by
    have := Nat.mod_le (a % c.blockSize) c.bufferSize
    rw [hoff, bdAligndown, ← hmod]
    omega
  have hstart : a / c.blockSize * c.blockSize + b.off + a % c.bufferSize = a := by
    have := Nat.div_add_mod' a c.blockSize
    have := Nat.mod_le (a % c.blockSize) c.bufferSize
    rw [hoff, bdAligndown, hmod]
    omega
  rw [readLoop, if_pos hpos, if_pos hholds, hdelta]
  dsimp only
  rw [Nat.min_eq_right (by omega), Nat.sub_self, hbytes, take_drop_span hfits, hstart]
  cases fuel with
  | zero => rfl
  | succ fuel => rfl

/-- A read inside one buffer: one load at most, then a hit. -/
theorem readLoop_oneBuffer (dest : List UInt8) (hhonest : Honest c device bdread)
    (hb : b.Current c device) (hpos : 0 < n) (hone : c.OneBuffer a n) :
    ∃ r, readLoop c.bufferSize bdread (a / c.blockSize) 2 (a % c.blockSize) n b dest = some r ∧
      ((∃ block off err, bdread block off c.bufferSize = .error err ∧ r.err = some err) ∨
        r.err = none ∧ r.dest = copyTo dest (span device a n)) := by
  have hlt : a % c.blockSize < c.blockSize := Nat.mod_lt a c.block_pos
  by_cases hholds : b.Holds c.bufferSize (a / c.blockSize) (a % c.blockSize)
  · -- the mark is no block of the range, so what the buffer holds has been loaded
    rcases hb with hmark | ⟨hdvd, hbytes⟩
    · exact absurd (hholds.1.trans hmark) hone.unmarked
    · have hoff := aligndown_of_holds hholds hdvd
      have hbytes := hbytes (hholds.2.1.trans_lt hlt)
      rw [← hholds.1] at hbytes
      exact ⟨_, readLoop_hit 1 hpos hone.fits hoff hbytes hholds, .inr ⟨rfl, rfl⟩⟩
  · rw [readLoop, if_pos hpos, if_neg hholds]
    dsimp only
    cases hread : bdread (a / c.blockSize) (bdAligndown (a % c.blockSize) c.bufferSize)
        c.bufferSize with
    | error err => exact ⟨_, rfl, .inl ⟨_, _, err, hread, rfl⟩⟩
    | ok bytes =>
      have hle := aligndown_add_le c hlt
      have hbytes := hhonest _ _ _ _ hle hread
      have hholds' : Buffer.Holds ⟨a / c.blockSize, bdAligndown (a % c.blockSize) c.bufferSize,
          bytes⟩ c.bufferSize (a / c.blockSize) (a % c.blockSize) :=
        ⟨rfl, Nat.sub_le _ _, hone.found⟩
      exact ⟨_, readLoop_hit 0 hpos hone.fits rfl hbytes hholds', .inr ⟨rfl, rfl⟩⟩

end Reads

/-! ## Section 4: Where a read goes wrong -/

/-- A hook that never fails -/
def serve (c : BDLoader) (device : ℕ → UInt8) : Bdread := fun block off n =>
  .ok (span device (block * c.blockSize + off) n)

theorem serve_honest (c : BDLoader) (device : ℕ → UInt8) : Honest c device (serve c device) := by
  intro block off n bytes _ hread
  cases hread
  rfl

theorem getElem?_copyTo {dest bytes : List UInt8} {m : ℕ} (h : bytes.length ≤ m) :
    (copyTo dest bytes)[m]? = dest[m]? := by
  rw [copyTo, List.getElem?_append_right h, List.getElem?_drop]
  congr 1
  omega

theorem getElem?_copyTo_span {dest : List UInt8} {device : ℕ → UInt8} {a n m : ℕ} (h : m < n) :
    (copyTo dest (span device a n))[m]? = some (device (a + m)) := by
  rw [copyTo, List.getElem?_append_left (by rwa [length_span])]
  simp [span, h]

section Wrong

variable {c : BDLoader} {device : ℕ → UInt8} {bdread : Bdread} {block fuel off n : ℕ}
  {b : Buffer} {dest : List UInt8} {r : Return}

theorem readLoop_serve_err
    (hrun : readLoop c.bufferSize (serve c device) block fuel off n b dest = some r) :
    r.err = none := by
  induction fuel generalizing off n b dest with
  | zero =>
    rw [readLoop] at hrun
    split at hrun
    · cases hrun
    · cases hrun
      rfl
  | succ fuel ih =>
    rw [readLoop] at hrun
    split at hrun
    · split at hrun
      · exact ih hrun
      · exact ih hrun
    · cases hrun
      rfl

/-- A read of `n` bytes at most writes to the first `n` bytes of the output only. -/
theorem readLoop_dest_of_le {m : ℕ} (hn : n ≤ m)
    (hrun : readLoop c.bufferSize bdread block fuel off n b dest = some r) :
    r.dest[m]? = dest[m]? := by
  induction fuel generalizing off n b dest with
  | zero =>
    rw [readLoop] at hrun
    split at hrun
    · cases hrun
    · cases hrun
      rfl
  | succ fuel ih =>
    rw [readLoop] at hrun
    split at hrun
    · split at hrun
      · rw [ih (by omega) hrun, getElem?_copyTo]
        rw [List.length_take]
        omega
      · dsimp only at hrun
        cases hread : bdread block (bdAligndown off c.bufferSize) c.bufferSize with
        | error err =>
          rw [hread] at hrun
          cases hrun
          rfl
        | ok bytes =>
          rw [hread] at hrun
          exact ih hn hrun
    · cases hrun
      rfl

/-- The output pointer never advances: where a read takes more than one copy, all of them are
shorter than the output, and its last byte stays what it was. -/
theorem readLoop_last (hdvd : c.bufferSize ∣ b.off) (hcross : c.bufferSize < off % c.bufferSize + n)
    (hrun : readLoop c.bufferSize bdread block fuel off n b dest = some r) :
    r.dest[n - 1]? = dest[n - 1]? := by
  have hmod : off % c.bufferSize < c.bufferSize := Nat.mod_lt off c.buffer_pos
  have hpos : 0 < n := by omega
  induction fuel generalizing b with
  | zero =>
    rw [readLoop, if_pos hpos] at hrun
    cases hrun
  | succ fuel ih =>
    rw [readLoop, if_pos hpos] at hrun
    split at hrun
    · next hholds =>
      have hoff := aligndown_of_holds hholds hdvd
      have hdelta : off - b.off = off % c.bufferSize := by
        have := Nat.mod_le off c.bufferSize
        rw [hoff, bdAligndown]
        omega
      rw [hdelta] at hrun
      dsimp only at hrun
      rw [readLoop_dest_of_le (by omega) hrun, getElem?_copyTo]
      rw [List.length_take]
      omega
    · dsimp only at hrun
      cases hread : bdread block (bdAligndown off c.bufferSize) c.bufferSize with
      | error err =>
        rw [hread] at hrun
        cases hrun
        rfl
      | ok bytes =>
        rw [hread] at hrun
        exact ih (Nat.dvd_sub_mod off) hrun

/-- Where the end of the buffer is not a `uint32_t`, the loop loads it for ever. -/
theorem readLoop_loads (hpos : 0 < n)
    (hlost : ¬off < (bdAligndown off c.bufferSize + c.bufferSize) % 2 ^ 32)
    (hmiss : ¬b.Holds c.bufferSize block off) :
    readLoop c.bufferSize (serve c device) block fuel off n b dest = none := by
  induction fuel generalizing b with
  | zero => rw [readLoop, if_pos hpos]
  | succ fuel ih =>
    rw [readLoop, if_pos hpos, if_neg hmiss]
    exact ih fun hholds => hlost hholds.2.2

end Wrong

/-! ## Section 5: Where a read is right -/

/-- The range `[a, a + n)` of the device is a part of the configured region. -/
def BDLoader.Inside (c : BDLoader) (a n : ℕ) : Prop := c.addr ≤ a ∧ a + n ≤ c.addr + c.size

instance (c : BDLoader) (a n : ℕ) : Decidable (c.Inside a n) :=
  inferInstanceAs (Decidable (_ ∧ _))

/-- "bdread with buffer_size buffering, translation, and bounds checking": the device's bytes,
unless the hook fails, for a range of the region, and an error for any other -/
structure Return.Right (r : Return) (c : BDLoader) (device : ℕ → UInt8) (bdread : Bdread)
    (a n : ℕ) (dest : List UInt8) : Prop where
  inside : c.Inside a n →
    (∃ block off err, bdread block off c.bufferSize = .error err ∧ r.err = some err) ∨
      r.err = none ∧ r.dest = copyTo dest (span device a n)
  outside : ¬c.Inside a n → r.err = some (-einval) ∧ r.dest = dest

/-- A read is right for any device, hook, state of the buffer and former output. -/
def BDLoader.ReadsDevice (c : BDLoader) (ctx addr n : ℕ) : Prop :=
  ∀ device bdread, Honest c device bdread → ∀ b, Reachable c device b →
    ∀ dest : List UInt8, n ≤ dest.length →
      ∃ fuel r, readResult c bdread fuel ctx addr n b dest = some r ∧
        r.Right c device bdread (addr + ctx) n dest

/-- The bounds check lets the range pass. -/
def BDLoader.Passes (c : BDLoader) (a n : ℕ) : Prop := (a % 2 ^ 32 + n) % 2 ^ 32 ≤ c.size

/-- What a range must be for the check and the loop to treat it right -/
structure BDLoader.Treatable (c : BDLoader) (a n : ℕ) : Prop where
  passes_iff : c.Passes a n ↔ c.Inside a n
  oneBuffer : c.Inside a n → 0 < n → a < 2 ^ 32 ∧ c.OneBuffer a n

section Right

variable {c : BDLoader} {ctx addr n : ℕ}

theorem readResult_of_passes (bdread : Bdread) (fuel : ℕ) (b : Buffer) (dest : List UInt8)
    (h : c.Passes (addr + ctx) n) :
    readResult c bdread fuel ctx addr n b dest =
      readLoop c.bufferSize bdread ((addr + ctx) % 2 ^ 32 / c.blockSize) fuel
        ((addr + ctx) % 2 ^ 32 % c.blockSize) n b dest := by
  rw [readResult]
  dsimp only
  rw [if_neg (Nat.not_lt.mpr h), off_eq]

theorem readResult_of_not_passes (bdread : Bdread) (fuel : ℕ) (b : Buffer) (dest : List UInt8)
    (h : ¬c.Passes (addr + ctx) n) :
    readResult c bdread fuel ctx addr n b dest = some ⟨some (-einval), b, dest⟩ := by
  rw [readResult]
  dsimp only
  rw [if_pos (Nat.lt_of_not_le h)]

theorem BDLoader.Treatable.readsDevice (h : c.Treatable (addr + ctx) n) :
    c.ReadsDevice ctx addr n := by
  intro device bdread hhonest b hb dest _
  by_cases hin : c.Inside (addr + ctx) n
  · have hpass := h.passes_iff.mpr hin
    rcases Nat.eq_zero_or_pos n with rfl | hpos
    · refine ⟨0, ⟨none, b, dest⟩, readResult_of_passes bdread 0 b dest hpass, ?_, ?_⟩
      · exact fun _ => .inr ⟨rfl, rfl⟩
      · exact fun hout => absurd hin hout
    · obtain ⟨hword, hone⟩ := h.oneBuffer hin hpos
      obtain ⟨r, hrun, hright⟩ := readLoop_oneBuffer dest hhonest hb.current hpos hone
      refine ⟨2, r, ?_, fun _ => hright, fun hout => absurd hin hout⟩
      rw [readResult_of_passes bdread 2 b dest hpass, Nat.mod_eq_of_lt hword]
      exact hrun
  · have hfail : ¬c.Passes (addr + ctx) n := fun hpass => hin (h.passes_iff.mp hpass)
    exact ⟨0, _, readResult_of_not_passes bdread 0 b dest hfail,
      fun hin' => absurd hin' hin, fun _ => ⟨rfl, rfl⟩⟩

/-- A read with a hook that never fails, into a buffer that is empty -/
theorem BDLoader.ReadsDevice.serve (h : c.ReadsDevice ctx addr n) (device : ℕ → UInt8)
    (x : UInt8) :
    ∃ fuel r, readResult c (serve c device) fuel ctx addr n
        ⟨2 ^ 32 - 1, 0, List.replicate c.bufferSize 0⟩ (List.replicate n x) = some r ∧
      (c.Inside (addr + ctx) n →
        r.err = none ∧ r.dest = copyTo (List.replicate n x) (span device (addr + ctx) n)) ∧
      (¬c.Inside (addr + ctx) n → r.err = some (-einval)) := by
  obtain ⟨fuel, r, hrun, hright⟩ := h device _ (serve_honest c device) _ .start
    (List.replicate n x) (by rw [List.length_replicate])
  refine ⟨fuel, r, hrun, fun hin => ?_, fun hout => (hright.outside hout).1⟩
  rcases hright.inside hin with ⟨block, off, err, herr, -⟩ | hok
  · cases herr
  · exact hok

theorem BDLoader.ReadsDevice.passes_iff (h : c.ReadsDevice ctx addr n) :
    c.Passes (addr + ctx) n ↔ c.Inside (addr + ctx) n := by
  obtain ⟨fuel, r, hrun, hin, hout⟩ := h.serve (fun _ => 0) 0
  constructor
  · intro hpass
    by_contra hout'
    rw [readResult_of_passes _ _ _ _ hpass] at hrun
    have hnone := readLoop_serve_err hrun
    rw [hout hout'] at hnone
    cases hnone
  · intro hin'
    by_contra hfail
    rw [readResult_of_not_passes _ _ _ _ hfail] at hrun
    cases hrun
    cases (hin hin').1

/-- The number that marks an empty buffer is the number of a block of one byte. -/
theorem blockSize_of_marked {a : ℕ} (ha : a < 2 ^ 32) (hmark : a / c.blockSize = 2 ^ 32 - 1) :
    c.blockSize = 1 := by
  have hpos := c.block_pos
  have hmul := Nat.div_mul_le_self a c.blockSize
  rw [hmark] at hmul
  by_contra hne
  have htwo : (2 ^ 32 - 1) * 2 ≤ (2 ^ 32 - 1) * c.blockSize := Nat.mul_le_mul_left _ (by omega)
  omega

theorem BDLoader.ReadsDevice.fits (h : c.ReadsDevice ctx addr n)
    (hin : c.Inside (addr + ctx) n) (hpos : 0 < n) :
    (addr + ctx) % 2 ^ 32 % c.bufferSize + n ≤ c.bufferSize := by
  by_contra hcross
  obtain ⟨fuel, r, hrun, hright, -⟩ := h.serve (fun _ => 0) 1
  rw [readResult_of_passes _ _ _ _ (h.passes_iff.mpr hin)] at hrun
  have hmod := Nat.mod_mod_of_dvd ((addr + ctx) % 2 ^ 32) c.buffer_dvd
  have hlast := readLoop_last (Nat.dvd_zero _) (by rw [hmod]; omega) hrun
  rw [(hright hin).2, getElem?_copyTo_span (by omega), List.getElem?_replicate,
    if_pos (by omega)] at hlast
  exact absurd hlast (by decide)

theorem BDLoader.ReadsDevice.unmarked (h : c.ReadsDevice ctx addr n)
    (hin : c.Inside (addr + ctx) n) (hpos : 0 < n) :
    (addr + ctx) % 2 ^ 32 / c.blockSize ≠ 2 ^ 32 - 1 := by
  intro hmark
  have hlt : (addr + ctx) % 2 ^ 32 < 2 ^ 32 := Nat.mod_lt _ (by decide)
  have hblock := blockSize_of_marked hlt hmark
  have hbuffer : c.bufferSize = 1 := by
    have hdvd := c.buffer_dvd
    rw [hblock] at hdvd
    exact Nat.dvd_one.mp hdvd
  have hfits := h.fits hin hpos
  rw [hbuffer, Nat.mod_one] at hfits
  have hn : n = 1 := by omega
  obtain ⟨fuel, r, hrun, hright, -⟩ := h.serve (fun _ => 1) 1
  rw [readResult_of_passes _ _ _ _ (h.passes_iff.mpr hin), hmark, hblock, hbuffer, hn,
    Nat.mod_one] at hrun
  -- the mark and the zeros of the start pass for the last block of the device
  have hstale := readLoop_unique 1 hrun rfl
  have hdest := (hright hin).2
  rw [hstale, hn] at hdest
  have hhead := congrArg (fun l : List UInt8 => l[0]?) hdest
  rw [getElem?_copyTo_span (by decide)] at hhead
  exact absurd hhead (by decide)

theorem BDLoader.ReadsDevice.found (h : c.ReadsDevice ctx addr n)
    (hin : c.Inside (addr + ctx) n) (hpos : 0 < n) :
    (addr + ctx) % 2 ^ 32 % c.blockSize <
      (bdAligndown ((addr + ctx) % 2 ^ 32 % c.blockSize) c.bufferSize + c.bufferSize) % 2 ^ 32 := by
  by_contra hlost
  obtain ⟨fuel, r, hrun, -, -⟩ := h.serve (fun _ => 0) 0
  rw [readResult_of_passes _ _ _ _ (h.passes_iff.mpr hin),
    readLoop_loads hpos hlost fun hholds => h.unmarked hin hpos hholds.1] at hrun
  cases hrun

theorem BDLoader.ReadsDevice.word (h : c.ReadsDevice ctx addr n)
    (hin : c.Inside (addr + ctx) n) (hpos : 0 < n) : addr + ctx < 2 ^ 32 := by
  by_contra hwrap
  have hne : (addr + ctx) % 2 ^ 32 ≠ addr + ctx := by
    intro heq
    exact hwrap (heq ▸ Nat.mod_lt _ (by decide))
  obtain ⟨fuel, r, hrun, hright, -⟩ := h.serve (fun x => if x = addr + ctx then 1 else 0) 0
  rw [readResult_of_passes _ _ _ _ (h.passes_iff.mpr hin)] at hrun
  obtain ⟨r', hrun', hread⟩ := readLoop_oneBuffer _ (serve_honest c _)
    (Reachable.start (c := c)).current hpos ⟨h.fits hin hpos, h.found hin hpos, h.unmarked hin hpos⟩
  rw [readLoop_unique _ hrun hrun'] at hright
  rcases hread with ⟨block, off, err, herr, -⟩ | ⟨-, hdest⟩
  · cases herr
  · rw [(hright hin).2] at hdest
    have hhead := congrArg (fun l : List UInt8 => l[0]?) hdest
    rw [getElem?_copyTo_span hpos, getElem?_copyTo_span hpos, Nat.add_zero, Nat.add_zero,
      if_pos rfl, if_neg hne] at hhead
    exact absurd hhead (by decide)

/-- Exactly the ranges that the check treats by their place in the region, and that the loop
finds in one buffer, are read as they should be. -/
theorem readsDevice_iff (c : BDLoader) (ctx addr n : ℕ) :
    c.ReadsDevice ctx addr n ↔ c.Treatable (addr + ctx) n := by
  refine ⟨fun h => ⟨h.passes_iff, fun hin hpos => ?_⟩, BDLoader.Treatable.readsDevice⟩
  have hword := h.word hin hpos
  have hfits := h.fits hin hpos
  have hfound := h.found hin hpos
  have hunmarked := h.unmarked hin hpos
  rw [Nat.mod_eq_of_lt hword] at hfits hfound hunmarked
  exact ⟨hword, hfits, hfound, hunmarked⟩

end Right

/-- The configuration of `examples/bdcompression`: a region of 8193 bytes at address 8192 -/
def bdcompression : BDLoader := .fourKiB 8192 8193

/-- Its header is the first eight bytes of the region, and is refused. -/
theorem not_readsDevice : ¬∀ (c : BDLoader) (ctx addr n : ℕ), c.ReadsDevice ctx addr n := by
  intro hclaim
  obtain ⟨fuel, r, hrun, hright⟩ := hclaim bdcompression 0 8192 8 (fun _ => 0) _
    (serve_honest bdcompression _) _ .start (List.replicate 8 0) (by decide)
  have hin : bdcompression.Inside (8192 + 0) 8 := by decide
  have hfail : ¬bdcompression.Passes (8192 + 0) 8 := by
    rw [BDLoader.Passes]
    decide
  rw [readResult_of_not_passes _ _ _ _ hfail] at hrun
  cases hrun
  rcases hright.inside hin with ⟨block, off, err, herr, -⟩ | ⟨hok, -⟩
  · cases herr
  · cases hok

end BentoLinker.Loader
