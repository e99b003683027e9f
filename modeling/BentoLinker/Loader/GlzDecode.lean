import BentoLinker.Lib.BitCode

/-!
# The On-Target GLZ Decoders

Model of the C decoders that the loaders emit (`BOX_GLZ_DECODE` in `glz.py`, `bd.py`
and `fs.py`). The three are one text: they differ in how a byte of the blob is
fetched. `decode` takes the fetch as a parameter, and each decoder is an instance.

- `glz_off_t` and `glz_size_t` are `uint32_t`, kept modulo `2 ^ 32`
- `uint_fast16_t` has `W` bits; `9*rice` is computed in the wider of it and `int`
- a fetch may fail, and has a context of type `σ`
-/

namespace BentoLinker.Loader

/-- How a decoder ends without an output: a negative `errno` or the callback's error, or
the step budget of the model. -/
inductive Stop where
  | err (code : ℤ)
  | outOfFuel
  deriving Repr, DecidableEq

/-- A C computation that threads the context of a read callback -/
abbrev Run (σ : Type) := StateT σ (Except Stop)

/-- `GLZ_M` -/
def glzM : ℕ := 4

/-- `EINVAL` -/
def einval : ℤ := 22

/-- The locals of a decoder: position, symbols wanted, the one-slot stack, and what has
been written to `output` -/
structure DecodeState where
  off : ℕ
  size : ℕ
  poff : ℕ
  psize : ℕ
  output : List UInt8
  deriving Repr, DecidableEq

section Decoder

/- `W` bits in `uint_fast16_t`; `read addr n` fetches `n` bytes from `addr` on. -/
variable {σ : Type} (W : ℕ) (read : ℕ → ℕ → Run σ (List UInt8))

/-- `1 & (blob[off/8] >> (7-off%8))` -/
def readBit (off : ℕ) : Run σ ℕ := do
  let x ← read (off / 8) 1
  pure (1 &&& ((x.getD 0 0).toNat >>> (7 - off % 8)))

/-- The first loop of the rice code: one more for each one bit, up to a zero bit -/
def riceUnary : ℕ → ℕ → ℕ → Run σ (ℕ × ℕ)
  | 0, _, _ => throw .outOfFuel
  | fuel + 1, off, rice => do
    let b ← readBit read off
    if b = 0 then pure (rice, (off + 1) % 2 ^ 32)
    else riceUnary fuel ((off + 1) % 2 ^ 32) ((rice + 1) % 2 ^ W)

/-- `count` bits shifted into a variable of `width` bits -/
def readBits (width : ℕ) : ℕ → ℕ → ℕ → Run σ (ℕ × ℕ)
  | 0, off, n => pure (n, off)
  | count + 1, off, n => do
    let b ← readBit read off
    readBits width count ((off + 1) % 2 ^ 32) (((n <<< 1) ||| b) % 2 ^ width)

/-- The nine bits of entry `rice` of the table at the front of the blob -/
def mapTable (rice : ℕ) : Run σ ℕ := do
  let entry := 9 * rice % 2 ^ max W 32
  let x ← read (entry / 8) 2
  pure (0x1ff &&& (((x.getD 0 0).toNat <<< 8 ||| (x.getD 1 0).toNat) >>> (7 - entry % 8)))

/-- The offset loop: nibbles up to one without the continuation bit -/
def offLoop : ℕ → ℕ → ℕ → Run σ (ℕ × ℕ)
  | 0, _, _ => throw .outOfFuel
  | fuel + 1, off, noff => do
    let (n, off) ← readBits read 32 (glzM + 1) off 0
    let noff := ((noff <<< glzM) + 1 + (n &&& (1 <<< glzM) - 1)) % 2 ^ 32
    if n < 1 <<< glzM then pure (noff, off) else offLoop fuel off noff

/-- The first half of the body of `while (size > 0)`: a rice code, mapped through the
table, and the position behind it -/
def readSym (fuel k off : ℕ) : Run σ (ℕ × ℕ) := do
  let (rice, off) ← riceUnary W read fuel off 0
  let (rice, off) ← readBits read W k off rice
  let rice ← mapTable W read rice
  pure (rice, off)

/-- Body of `while (size > 0)`, up to the return from a nested reference -/
def decodeSym (fuel k : ℕ) (s : DecodeState) : Run σ DecodeState := do
  let (rice, off) ← readSym W read fuel k s.off
  if rice < 0x100 then
    pure { s with off := off, output := s.output ++ [UInt8.ofNat rice], size := s.size - 1 }
  else do
    let nsize := (rice &&& 0xff) + 2
    let (noff, off) ← offLoop read fuel off 0
    let noff := (noff + 2 ^ 32 - 1) % 2 ^ 32
    if s.size ≤ nsize then
      -- tail recurse
      pure { s with off := (off + noff) % 2 ^ 32 }
    else
      pure { s with
        off := (off + noff) % 2 ^ 32, size := nsize, poff := off, psize := s.size - nsize }

/-- `if (size == 0)`: go on behind the reference that was being read -/
def resume (s : DecodeState) : DecodeState :=
  if s.size = 0 then { s with off := s.poff, size := s.psize, poff := 0, psize := 0 } else s

/-- `while (size > 0)` -/
def decodeLoop (fuel k : ℕ) : ℕ → DecodeState → Run σ (List UInt8)
  | 0, s => if 0 < s.size then throw .outOfFuel else pure s.output
  | steps + 1, s =>
    if 0 < s.size then do
      let s ← decodeSym W read fuel k s
      decodeLoop fuel k steps (resume s)
    else pure s.output

/-- The decoder, its arguments converted to `uint8_t` and `uint32_t`; the result is what has
been written to `output` on `return 0`. -/
def decode (fuel k off size : ℕ) : Run σ (List UInt8) :=
  decodeLoop W read fuel (k % 2 ^ 8) fuel ⟨off % 2 ^ 32, size % 2 ^ 32, 0, 0, []⟩

end Decoder

/-- Fetch from a blob in memory, with the bounds check of `__box_glz_decode` -/
def readBlob (blob : List UInt8) (addr n : ℕ) : Run Unit (List UInt8) :=
  if blob.length ≤ addr + (n - 1) then throw (.err (-einval))
  else pure ((blob.drop addr).take n)

/-- `__box_glz_decode` -/
def boxGlzDecode (W fuel k : ℕ) (blob : List UInt8) (off size : ℕ) :
    Except Stop (List UInt8) :=
  (decode W (readBlob blob) fuel k off size).run' ()

/-- `int (*read)(void *ctx, uint32_t addr, void *buffer, size_t size)`: the bytes put into
the buffer, or the nonzero value returned -/
abbrev ReadCallback (σ : Type) := ℕ → ℕ → σ → Except ℤ (List UInt8 × σ)

/-- Fetch through a callback, which takes its address as `uint32_t` -/
def readCallback {σ : Type} (read : ReadCallback σ) (addr n : ℕ) : Run σ (List UInt8) :=
  fun ctx => match read (addr % 2 ^ 32) n ctx with
    | .ok r => .ok r
    | .error err => .error (.err err)

/-- `__box_glz_bddecode` -/
def boxGlzBddecode {σ : Type} (W fuel k : ℕ) (read : ReadCallback σ) (ctx : σ)
    (off size : ℕ) : Except Stop (List UInt8) :=
  (decode W (readCallback read) fuel k off size).run' ctx

/-- `__box_glz_fsdecode` -/
def boxGlzFsdecode {σ : Type} (W fuel k : ℕ) (read : ReadCallback σ) (ctx : σ)
    (off size : ℕ) : Except Stop (List UInt8) :=
  (decode W (readCallback read) fuel k off size).run' ctx

end BentoLinker.Loader
