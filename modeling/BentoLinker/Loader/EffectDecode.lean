import BentoLinker.Loader.GlzDecode

/-!
# The Decoder under Other Effects

The text of the decoder once more, for any monad that its callback works in, as long as the
monad has the decoder's errors. A callback that leaves something behind also when it fails, as
one that calls the hooks of a file system does, has no place in `Run`.

- `decode`: the decoder
- `decode_run`: in `Run` it is the decoder of `GlzDecode`
- `Closed`: properties of computations that combine
- `Closed.decode`: what every read has, the decoder has
-/

namespace BentoLinker.Loader.Effect

/-! ## Section 1: The decoder -/

section Decoder

variable {m : Type → Type} [Monad m] [MonadExcept Stop m] (W : ℕ)
  (read : ℕ → ℕ → m (List UInt8))

/-- `1 & (x[0] >> (7-off%8))` -/
def readBit (off : ℕ) : m ℕ := do
  let x ← read (off / 8) 1
  pure (1 &&& ((x.getD 0 0).toNat >>> (7 - off % 8)))

/-- The first loop of the rice code -/
def riceUnary : ℕ → ℕ → ℕ → m (ℕ × ℕ)
  | 0, _, _ => throw .outOfFuel
  | fuel + 1, off, rice => do
    let b ← readBit read off
    if b = 0 then pure (rice, (off + 1) % 2 ^ 32)
    else riceUnary fuel ((off + 1) % 2 ^ 32) ((rice + 1) % 2 ^ W)

/-- `count` bits shifted into a variable of `width` bits -/
def readBits (width : ℕ) : ℕ → ℕ → ℕ → m (ℕ × ℕ)
  | 0, off, n => pure (n, off)
  | count + 1, off, n => do
    let b ← readBit read off
    readBits width count ((off + 1) % 2 ^ 32) (((n <<< 1) ||| b) % 2 ^ width)

/-- The nine bits of entry `rice` of the table -/
def mapTable (rice : ℕ) : m ℕ := do
  let entry := 9 * rice % 2 ^ max W 32
  let x ← read (entry / 8) 2
  pure (0x1ff &&& (((x.getD 0 0).toNat <<< 8 ||| (x.getD 1 0).toNat) >>> (7 - entry % 8)))

/-- The offset loop -/
def offLoop : ℕ → ℕ → ℕ → m (ℕ × ℕ)
  | 0, _, _ => throw .outOfFuel
  | fuel + 1, off, noff => do
    let (n, off) ← readBits read 32 (glzM + 1) off 0
    let noff := ((noff <<< glzM) + 1 + (n &&& (1 <<< glzM) - 1)) % 2 ^ 32
    if n < 1 <<< glzM then pure (noff, off) else offLoop fuel off noff

/-- A rice code, mapped through the table -/
def readSym (fuel k off : ℕ) : m (ℕ × ℕ) := do
  let (rice, off) ← riceUnary W read fuel off 0
  let (rice, off) ← readBits read W k off rice
  let rice ← mapTable W read rice
  pure (rice, off)

/-- Body of `while (size > 0)`, up to the return from a nested reference -/
def decodeSym (fuel k : ℕ) (s : DecodeState) : m DecodeState := do
  let (rice, off) ← readSym W read fuel k s.off
  if rice < 0x100 then
    pure { s with off := off, output := s.output ++ [UInt8.ofNat rice], size := s.size - 1 }
  else do
    let nsize := (rice &&& 0xff) + 2
    let (noff, off) ← offLoop read fuel off 0
    let noff := (noff + 2 ^ 32 - 1) % 2 ^ 32
    if s.size ≤ nsize then
      -- tail recurse
      pure { s with off := (off + noff) % 2 ^ 32 }
    else
      pure { s with
        off := (off + noff) % 2 ^ 32, size := nsize, poff := off, psize := s.size - nsize }

/-- `while (size > 0)` -/
def decodeLoop (fuel k : ℕ) : ℕ → DecodeState → m (List UInt8)
  | 0, s => if 0 < s.size then throw .outOfFuel else pure s.output
  | steps + 1, s =>
    if 0 < s.size then do
      let s ← decodeSym W read fuel k s
      decodeLoop fuel k steps (resume s)
    else pure s.output

/-- The decoder, its arguments converted to `uint8_t` and `uint32_t` -/
def decode (fuel k off size : ℕ) : m (List UInt8) :=
  decodeLoop W read fuel (k % 2 ^ 8) fuel ⟨off % 2 ^ 32, size % 2 ^ 32, 0, 0, []⟩

end Decoder

/-! ## Section 2: The decoder of the other loaders -/

section Run

variable {σ : Type} (W : ℕ) (read : ℕ → ℕ → Run σ (List UInt8))

theorem riceUnary_run (fuel off rice : ℕ) :
    riceUnary W read fuel off rice = Loader.riceUnary W read fuel off rice := by
  induction fuel generalizing off rice with
  | zero => rfl
  | succ fuel ih =>
    rw [riceUnary, Loader.riceUnary]
    congr 1
    funext b
    rw [ih]

theorem readBits_run (width count off n : ℕ) :
    readBits read width count off n = Loader.readBits read width count off n := by
  induction count generalizing off n with
  | zero => rfl
  | succ count ih =>
    rw [readBits, Loader.readBits]
    congr 1
    funext b
    exact ih _ _

theorem offLoop_run (fuel off noff : ℕ) :
    offLoop read fuel off noff = Loader.offLoop read fuel off noff := by
  induction fuel generalizing off noff with
  | zero => rfl
  | succ fuel ih =>
    rw [offLoop, Loader.offLoop, readBits_run]
    congr 1
    funext r
    dsimp only
    rw [ih]

theorem readSym_run (fuel k off : ℕ) :
    readSym W read fuel k off = Loader.readSym W read fuel k off := by
  rw [readSym, Loader.readSym, riceUnary_run]
  congr 1
  funext r
  dsimp only
  rw [readBits_run]
  rfl

theorem decodeSym_run (fuel k : ℕ) (s : DecodeState) :
    decodeSym W read fuel k s = Loader.decodeSym W read fuel k s := by
  rw [decodeSym, Loader.decodeSym, readSym_run]
  congr 1
  funext r
  dsimp only
  rw [offLoop_run]

theorem decodeLoop_run (fuel k steps : ℕ) (s : DecodeState) :
    decodeLoop W read fuel k steps s = Loader.decodeLoop W read fuel k steps s := by
  induction steps generalizing s with
  | zero => rfl
  | succ steps ih =>
    rw [decodeLoop, Loader.decodeLoop, decodeSym_run]
    congr 2
    funext s'
    exact ih _

/-- The two texts are one. -/
theorem decode_run (fuel k off size : ℕ) :
    decode W read fuel k off size = Loader.decode W read fuel k off size :=
  decodeLoop_run _ _ _ _ _ _

end Run

/-! ## Section 3: What the decoder has from its reads -/

section Closed

variable {m : Type → Type} [Monad m] [MonadExcept Stop m]

/-- Properties that computations have because their parts have them -/
structure Closed (C : (α : Type) → m α → Prop) : Prop where
  pure {α : Type} (a : α) : C α (pure a)
  bind {α β : Type} {x : m α} {f : α → m β} : C α x → (∀ a, C β (f a)) → C β (x >>= f)
  outOfFuel {α : Type} : C α (throw .outOfFuel)

variable {C : (α : Type) → m α → Prop} (hC : Closed C) {W : ℕ}
  {read : ℕ → ℕ → m (List UInt8)} (hread : ∀ addr n, C _ (read addr n))
include hC hread

theorem Closed.readBit (off : ℕ) : C _ (readBit read off) :=
  hC.bind (hread _ _) fun _ => hC.pure _

theorem Closed.riceUnary (fuel off rice : ℕ) : C _ (riceUnary W read fuel off rice) := by
  induction fuel generalizing off rice with
  | zero => exact hC.outOfFuel
  | succ fuel ih =>
    apply hC.bind (hC.readBit hread off)
    intro b
    split
    · exact hC.pure _
    · exact ih _ _

theorem Closed.readBits (width count off n : ℕ) : C _ (readBits read width count off n) := by
  induction count generalizing off n with
  | zero => exact hC.pure _
  | succ count ih => exact hC.bind (hC.readBit hread off) fun _ => ih _ _

theorem Closed.mapTable (rice : ℕ) : C _ (mapTable W read rice) :=
  hC.bind (hread _ _) fun _ => hC.pure _

theorem Closed.offLoop (fuel off noff : ℕ) : C _ (offLoop read fuel off noff) := by
  induction fuel generalizing off noff with
  | zero => exact hC.outOfFuel
  | succ fuel ih =>
    apply hC.bind (hC.readBits hread _ _ _ _)
    intro r
    dsimp only
    split
    · exact hC.pure _
    · exact ih _ _

theorem Closed.readSym (fuel k off : ℕ) : C _ (readSym W read fuel k off) := by
  apply hC.bind (hC.riceUnary hread _ _ _)
  intro unary
  apply hC.bind (hC.readBits hread _ _ _ _)
  intro code
  exact hC.bind (hC.mapTable hread _) fun _ => hC.pure _

theorem Closed.decodeSym (fuel k : ℕ) (s : DecodeState) : C _ (decodeSym W read fuel k s) := by
  apply hC.bind (hC.readSym hread _ _ _)
  intro r
  dsimp only
  split
  · exact hC.pure _
  · apply hC.bind (hC.offLoop hread _ _ _)
    intro off
    split
    · exact hC.pure _
    · exact hC.pure _

theorem Closed.decodeLoop (fuel k steps : ℕ) (s : DecodeState) :
    C _ (decodeLoop W read fuel k steps s) := by
  induction steps generalizing s with
  | zero =>
    rw [Effect.decodeLoop]
    split
    · exact hC.outOfFuel
    · exact hC.pure _
  | succ steps ih =>
    rw [Effect.decodeLoop]
    split
    · exact hC.bind (hC.decodeSym hread _ _ _) fun _ => ih _
    · exact hC.pure _

theorem Closed.decode (fuel k off size : ℕ) : C _ (decode W read fuel k off size) :=
  hC.decodeLoop hread _ _ _ _

end Closed

end BentoLinker.Loader.Effect
