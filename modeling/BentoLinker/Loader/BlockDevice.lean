import BentoLinker.Glz.Container
import BentoLinker.Loader.Refinement

/-!
# Loading from a Block Device

The generated load function of `bd.py` for one compressed memory region (`BOX_LOAD_DECODE`). It
reads through a buffer, with a callback for the decoder that asks for one or two bytes at a time.

1. `BDLoader`: the sizes that the constructor accepts
2. `bufferRead`: translation, bounds check, buffer
3. `bdLoad`: the header, then the decoder
4. A read inside one buffer returns the device's bytes

Variables are `uint32_t`. What has not been written to a local buffer is a parameter, and so is
what the static buffer holds from an earlier load.
-/

namespace BentoLinker.Loader

/-! ## Section 1: Sizes -/

/-- `ENOEXEC` -/
def enoexec : ℤ := 8

/-- `n or default` -/
def orDefault (n : Option ℕ) (default : ℕ) : ℕ :=
  match n with
  | none => default
  | some n => if n = 0 then default else n

/-- `BDLoader`: a region of the device, and sizes that have passed the assertions -/
structure BDLoader where
  addr : ℕ
  size : ℕ
  readSize : ℕ
  bufferSize : ℕ
  blockSize : ℕ
  read_pos : 0 < readSize
  block_pos : 0 < blockSize
  /-- "buffer_size not aligned to read_size?" -/
  read_dvd : readSize ∣ bufferSize
  /-- "block_size not aligned to buffer_size?" -/
  buffer_dvd : bufferSize ∣ blockSize

/-- `BDLoader.__init__` -/
def BDLoader.init (addr size : ℕ) (readSize bufferSize blockSize : Option ℕ) :
    Option BDLoader :=
  let read := orDefault readSize 1
  let buffer := orDefault bufferSize (max read 16)
  let block := orDefault blockSize 0
  if h : 0 < read ∧ 0 < block ∧ read ∣ buffer ∧ buffer ∣ block then
    some ⟨addr, size, read, buffer, block, h.1, h.2.1, h.2.2.1, h.2.2.2⟩
  else none

/-- Blocks of 4 KiB, with the defaults for what is read at once -/
def BDLoader.fourKiB (addr size : ℕ) : BDLoader :=
  ⟨addr, size, 1, 16, 0x1000, by decide, by decide, by decide, by decide⟩

/-- `__box_bd_aligndown` -/
def bdAligndown (a alignment : ℕ) : ℕ := a - a % alignment

/-- `__box_bd_alignup` -/
def bdAlignup (a alignment : ℕ) : ℕ := bdAligndown ((a + alignment - 1) % 2 ^ 32) alignment

/-! ## Section 2: The buffer -/

/-- `int %(alias)s(uint32_t block, uint32_t off, uint8_t *buffer, size_t size)`: what is read, or
the error -/
abbrev Bdread := ℕ → ℕ → ℕ → Except ℤ (List UInt8)

/-- `__box_X_buffer_block`, `__box_X_buffer_off` and `__box_X_buffer` -/
structure Buffer where
  block : ℕ
  off : ℕ
  bytes : List UInt8
  deriving Repr, DecidableEq

/-- The buffer, and what the caller's `buffer` points to -/
abbrev Reading := Buffer × List UInt8

/-- The first condition of the loop: the buffer holds the byte at `off`. -/
def Buffer.Holds (b : Buffer) (bufferSize block off : ℕ) : Prop :=
  block = b.block ∧ b.off ≤ off ∧ off < (b.off + bufferSize) % 2 ^ 32

instance (b : Buffer) (bufferSize block off : ℕ) : Decidable (b.Holds bufferSize block off) :=
  inferInstanceAs (Decidable (_ ∧ _ ∧ _))

/-- `memcpy` to the start of `dest` -/
def copyTo (dest bytes : List UInt8) : List UInt8 := bytes ++ dest.drop bytes.length

/-- `while (size > 0)` of `__box_X_buffer_read` -/
def bufferReadLoop (bufferSize : ℕ) (bdread : Bdread) (block : ℕ) :
    ℕ → ℕ → ℕ → Reading → Except Stop Reading
  | 0, _, size, s => if 0 < size then .error .outOfFuel else .ok s
  | fuel + 1, off, size, (b, dest) =>
    if 0 < size then
      if b.Holds bufferSize block off then
        let delta := min (bufferSize - (off - b.off)) size
        -- the destination stays where it is
        let dest := copyTo dest ((b.bytes.drop (off - b.off)).take delta)
        bufferReadLoop bufferSize bdread block fuel ((off + delta) % 2 ^ 32) (size - delta)
          (b, dest)
      else
        let noff := bdAligndown off bufferSize
        match bdread block noff bufferSize with
        | .error err => .error (.err err)
        | .ok bytes =>
          bufferReadLoop bufferSize bdread block fuel off size (⟨block, noff, bytes⟩, dest)
    else .ok (b, dest)

/-- `__box_X_buffer_read` -/
def bufferRead (c : BDLoader) (bdread : Bdread) (fuel ctx addr size : ℕ) (s : Reading) :
    Except Stop Reading :=
  let addr := (addr + ctx) % 2 ^ 32
  if c.size < (addr + size) % 2 ^ 32 then .error (.err (-einval))
  else
    let block := addr / c.blockSize
    let off := addr - block * c.blockSize
    bufferReadLoop c.bufferSize bdread block fuel off size s

/-- The callback that the decoder reads its `x` with -/
def bufferFetch (c : BDLoader) (bdread : Bdread) (fuel ctx addr n : ℕ) :
    Run Reading (List UInt8) := fun s =>
  match bufferRead c bdread fuel ctx (addr % 2 ^ 32) n s with
  | .error e => .error e
  | .ok s => .ok (s.2.take n, s)

/-! ## Section 3: The load function -/

/-- `__box_X_load`: `mem` bytes of RAM, `x` and `y` as found in the local buffers of the load
function and of the decoder. What is written to the RAM on `return 0`. -/
def bdLoad (c : BDLoader) (W mem : ℕ) (bdread : Bdread) (fuel : ℕ) (buffer : Buffer)
    (x y : List UInt8) : Except Stop (List UInt8) := do
  let (buffer, x) ← bufferRead c bdread fuel 0 c.addr 8 ({ buffer with block := 2 ^ 32 - 1 }, x)
  let word := Glz.fromLeBytes x
  let k := 0xf &&& (word >>> 24)
  let off := 0x00ffffff &&& word
  let size := Glz.fromLeBytes (x.drop 4)
  -- align to read size
  let size := bdAlignup size c.readSize
  if mem < size then
    -- can't allow overwrites now can we
    .error (.err (-enoexec))
  else
    (decode W (bufferFetch c bdread fuel ((c.addr + 8) % 2 ^ 32)) fuel k off size).run'
      (buffer, y)

/-! ## Section 4: Reads inside one buffer -/

/-- The device's bytes from `a` on -/
def span (device : ℕ → UInt8) (a n : ℕ) : List UInt8 :=
  (List.range n).map fun i => device (a + i)

@[simp] theorem length_span (device : ℕ → UInt8) (a n : ℕ) : (span device a n).length = n := by
  simp [span]

theorem take_drop_span {device : ℕ → UInt8} {a i n m : ℕ} (h : i + n ≤ m) :
    ((span device a m).drop i).take n = span device (a + i) n := by
  apply List.ext_getElem
  · simp only [List.length_take, List.length_drop, length_span]
    omega
  · intro j hj _
    simp [span, Nat.add_assoc]

/-- The hook returns the device's bytes inside the region. What it does outside is left open. -/
def HookServes (c : BDLoader) (device : ℕ → UInt8) (bdread : Bdread) : Prop :=
  ∀ block off n, c.addr ≤ block * c.blockSize + off →
    block * c.blockSize + off + n ≤ c.addr + c.size →
    bdread block off n = .ok (span device (block * c.blockSize + off) n)

/-- The buffer is empty, or holds what the device does. -/
def Buffer.Valid (b : Buffer) (c : BDLoader) (device : ℕ → UInt8) : Prop :=
  b.block = 2 ^ 32 - 1 ∨ c.bufferSize ∣ b.off ∧ b.off + c.bufferSize < 2 ^ 32 ∧
    b.bytes = span device (b.block * c.blockSize + b.off) c.bufferSize

theorem BDLoader.buffer_pos (c : BDLoader) : 0 < c.bufferSize := by
  have hblock := c.block_pos
  have hdvd := c.buffer_dvd
  apply Nat.pos_of_ne_zero
  intro hzero
  rw [hzero, Nat.zero_dvd] at hdvd
  omega

section Reads

variable {c : BDLoader} {device : ℕ → UInt8} {bdread : Bdread}

/-- A hit copies all there is to copy. -/
theorem bufferReadLoop_of_holds {b : Buffer} {dest : List UInt8} {block off n : ℕ} (fuel : ℕ)
    (hholds : b.Holds c.bufferSize block off) (hpos : 0 < n)
    (hin : off - b.off + n ≤ c.bufferSize) :
    bufferReadLoop c.bufferSize bdread block (fuel + 1) off n (b, dest) =
      .ok (b, copyTo dest ((b.bytes.drop (off - b.off)).take n)) := by
  have hdelta : min (c.bufferSize - (off - b.off)) n = n := by omega
  rw [bufferReadLoop, if_pos hpos, if_pos hholds]
  dsimp only
  rw [hdelta, Nat.sub_self]
  cases fuel with
  | zero => rfl
  | succ fuel => rfl

/-- The part of a block that is loaded is the aligned part of the device. -/
theorem block_add_aligndown (c : BDLoader) (a : ℕ) :
    a / c.blockSize * c.blockSize + bdAligndown (a - a / c.blockSize * c.blockSize) c.bufferSize =
      bdAligndown a c.bufferSize := by
  have hsplit := Nat.div_add_mod' a c.blockSize
  have hmod := Nat.mod_mod_of_dvd a c.buffer_dvd
  have hle : a % c.bufferSize ≤ a % c.blockSize := by
    rw [← hmod]
    exact Nat.mod_le _ _
  have hoff : a - a / c.blockSize * c.blockSize = a % c.blockSize := by omega
  rw [hoff, bdAligndown, bdAligndown, hmod]
  omega

/-- A buffer does not reach beyond its block. -/
theorem aligndown_add_le (c : BDLoader) {off : ℕ} (hoff : off < c.blockSize) :
    bdAligndown off c.bufferSize + c.bufferSize ≤ c.blockSize := by
  obtain ⟨q, hq⟩ := c.buffer_dvd
  have hdown : bdAligndown off c.bufferSize = c.bufferSize * (off / c.bufferSize) := by
    have := Nat.div_add_mod off c.bufferSize
    rw [bdAligndown]
    omega
  have hlt : off / c.bufferSize < q := Nat.div_lt_of_lt_mul (by rw [← hq]; exact hoff)
  rw [hdown, ← Nat.mul_succ, hq]
  exact Nat.mul_le_mul_left _ hlt

/-- A read that neither passes the region nor the end of a buffer returns what the device
holds there. -/
theorem bufferRead_eq (hhook : HookServes c device bdread) {b : Buffer} {dest : List UInt8}
    (hvalid : b.Valid c device) {fuel ctx addr n : ℕ} (hfuel : 2 ≤ fuel) (hpos : 0 < n)
    (hblock : c.blockSize < 2 ^ 32) (hword : addr + ctx + n < 2 ^ 32)
    (hsize : addr + ctx + n ≤ c.size) (hin : (addr + ctx) % c.bufferSize + n ≤ c.bufferSize)
    (hlow : c.addr ≤ bdAligndown (addr + ctx) c.bufferSize)
    (hhigh : bdAligndown (addr + ctx) c.bufferSize + c.bufferSize ≤ c.addr + c.size) :
    ∃ b', bufferRead c bdread fuel ctx addr n (b, dest) =
      .ok (b', copyTo dest (span device (addr + ctx) n)) ∧ b'.Valid c device := by
  obtain ⟨fuel, rfl⟩ : ∃ m, fuel = m + 2 := ⟨fuel - 2, by omega⟩
  set a := addr + ctx with ha
  set block := a / c.blockSize with hblockdef
  set off := a - block * c.blockSize with hoffdef
  have hstart := block_add_aligndown c a
  rw [← hblockdef, ← hoffdef] at hstart
  have hsplit : block * c.blockSize + a % c.blockSize = a := Nat.div_add_mod' a c.blockSize
  have hoff : off < c.blockSize := by
    have := Nat.mod_lt a c.block_pos
    omega
  have hwithin := aligndown_add_le c hoff
  have hdown : bdAligndown off c.bufferSize ≤ off := Nat.sub_le _ _
  have hmod : off % c.bufferSize = a % c.bufferSize := by
    rw [show off = a % c.blockSize by omega]
    exact Nat.mod_mod_of_dvd a c.buffer_dvd
  -- from the start of the buffer on
  have hfrom : ∀ bytes : List UInt8,
      bytes = span device (block * c.blockSize + bdAligndown off c.bufferSize) c.bufferSize →
      (bytes.drop (off - bdAligndown off c.bufferSize)).take n = span device a n := by
    intro bytes hbytes
    have hdelta : off - bdAligndown off c.bufferSize = a % c.bufferSize := by
      have := Nat.mod_le off c.bufferSize
      rw [bdAligndown, ← hmod]
      omega
    rw [hbytes, hdelta, take_drop_span hin, hstart]
    congr 1
    have := Nat.mod_le a c.bufferSize
    rw [bdAligndown]
    omega
  -- the check lets the read through
  have hbound : ¬c.size < (a + n) % 2 ^ 32 := by
    rw [Nat.mod_eq_of_lt hword]
    omega
  rw [bufferRead, Nat.mod_eq_of_lt (show addr + ctx < 2 ^ 32 by omega), ← ha, if_neg hbound]
  simp only [← hblockdef, ← hoffdef]
  by_cases hholds : b.Holds c.bufferSize block off
  · -- a hit in what an earlier read has loaded
    obtain ⟨hsame, hle, hlt⟩ := id hholds
    rcases hvalid with hnone | ⟨hdvd, hwrap, hbytes⟩
    · have : block ≤ a := Nat.div_le_self _ _
      omega
    · rw [Nat.mod_eq_of_lt hwrap] at hlt
      have hboff : b.off = bdAligndown off c.bufferSize := by
        obtain ⟨q, hq⟩ := hdvd
        have hmodq : off % c.bufferSize = off - b.off := by
          rw [show off = (off - b.off) + c.bufferSize * q by omega, Nat.add_mul_mod_self_left,
            Nat.mod_eq_of_lt (by omega)]
          omega
        rw [bdAligndown]
        omega
      have hroom : off - b.off + n ≤ c.bufferSize := by
        have := Nat.mod_le off c.bufferSize
        rw [hboff, bdAligndown]
        omega
      refine ⟨b, ?_, .inr ⟨hdvd, hwrap, hbytes⟩⟩
      rw [bufferReadLoop_of_holds (fuel + 1) hholds hpos hroom, hboff,
        hfrom b.bytes (by rw [hbytes, ← hsame, hboff])]
  · -- a miss loads the buffer that the next iteration hits
    have hread := hhook block (bdAligndown off c.bufferSize) c.bufferSize (by omega) (by omega)
    set b' : Buffer := ⟨block, bdAligndown off c.bufferSize,
      span device (block * c.blockSize + bdAligndown off c.bufferSize) c.bufferSize⟩ with hb'
    have hroom : off - b'.off + n ≤ c.bufferSize := by
      have := Nat.mod_le off c.bufferSize
      change off - bdAligndown off c.bufferSize + n ≤ c.bufferSize
      rw [bdAligndown]
      omega
    have hholds' : b'.Holds c.bufferSize block off := by
      refine ⟨rfl, hdown, ?_⟩
      change off < (bdAligndown off c.bufferSize + c.bufferSize) % 2 ^ 32
      rw [Nat.mod_eq_of_lt (by omega), bdAligndown]
      have := Nat.mod_lt off c.buffer_pos
      omega
    refine ⟨b', ?_, .inr ⟨?_, by change bdAligndown off _ + _ < _; omega, rfl⟩⟩
    · rw [bufferReadLoop, if_pos hpos, if_neg hholds]
      dsimp only
      rw [hread]
      dsimp only
      rw [bufferReadLoop_of_holds fuel hholds' hpos hroom, hfrom b'.bytes rfl]
    · exact Nat.dvd_sub_mod off

end Reads

end BentoLinker.Loader
