import BentoLinker.Glz.Rice

/-!
# GLZ Codec

Model of `glz.rs`. Symbols are immediates or references into the compressed stream;
the encoder works from the back of a slice to its front and remembers in `history`
where in the stream each pattern it has written starts, counted in bits from the end.

- `encodeSym` / `decodeSym`: one symbol
- `encode1` / `decode1`: one slice
- `encodeAll` / `decodeAt`: many slices in one stream, and access to one of them

Progress callbacks are left out. Loops whose number of iterations is not structural
take a step budget that they cannot use up.
-/

namespace BentoLinker.Glz

open BitCode

/-- `enum GLZSym<U>` -/
inductive GLZSym (U : Type) where
  | imm (x : U)
  | ref (off size : ℕ)
  deriving Repr, DecidableEq

/-- `struct GLZ`: width of a length field, width of an offset unit, symbol code -/
structure GLZ where
  l : ℕ
  m : ℕ
  rice : BijectEncoder
  deriving Repr, DecidableEq

namespace GLZ

/-! ## Section 1: Construction -/

/-- `GLZ::with_config` -/
def withConfig (k l m : ℕ) : GLZ := ⟨l, m, ⟨⟨k⟩, Hist.new⟩⟩

/-- `GLZ::with_table` -/
def withTable (k l m : ℕ) (decodeTable : List ℕ) : Res GLZ := do
  let hist ← Hist.withTable decodeTable
  pure ⟨l, m, ⟨⟨k⟩, hist⟩⟩

/-- `GLZ::from_hist` -/
def fromHist (k : Option ℕ) (l m : ℕ) (hist : Hist) : Res GLZ := do
  let hist ← hist.sort
  let hist ← hist.compact
  let rice ← match k with
    | some k => pure ⟨k⟩
    | none => GolombRice.fromHist hist
  pure ⟨l, m, ⟨rice, hist⟩⟩

def k (g : GLZ) : ℕ := g.rice.encoder.k

/-- `GLZ::decode_table` -/
def decodeTable (g : GLZ) : List ℕ := g.rice.bijecter.decodeTable

/-! ## Section 2: Symbols -/

/-- `while noff != 0 { noff -= 1; offs.push(noff & (2^m - 1)); noff >>= m; }` -/
def offNibbles (m : ℕ) : ℕ → ℕ → Res (List ℕ)
  | _, 0 => pure []
  | 0, _ + 1 => .error .outOfFuel
  | fuel + 1, noff + 1 => do
    let p ← powU32 m
    let next ← shrU32 noff m
    let rest ← offNibbles m fuel next
    pure ((noff &&& (p - 1)) :: rest)

/-- One nibble of an offset field, the continuation bit set on all but the last. -/
def encodeNibble (m count : ℕ) (nibble : ℕ × ℕ) : Res Bits := do
  let more ← shlU32 (if nibble.2 = count - 1 then 0 else 1) m
  Glz.encodeSym 32 (m + 1) (nibble.1 ||| more)

/-- `GLZ::encode_sym_raw` -/
def encodeSymRaw {U : Type} [Sym U] (g : GLZ) : GLZSym U → Res Bits
  | .imm x => g.rice.encodeSym (Sym.toU32 x)
  | .ref off size =>
    if size < 2 then throwErr (.badSize size)
    else do
      let lim ← powUsize g.l
      ensure (size ≤ lim - 1 + 2) (.badSize size)
      let off := off % 2 ^ 32
      let nsize ← addU32 ((size - 2) % 2 ^ 32) (2 ^ 8)
      let noff ← addU32 off 1
      let offs ← offNibbles g.m noff noff
      let offs := offs.reverse
      let code ← g.rice.encodeSym nsize
      let nibbles ← offs.zipIdx.mapM (encodeNibble g.m offs.length)
      pure (code ++ nibbles.flatten)

/-- `GLZ::encode_sym` -/
def encodeSym {U : Type} [Sym U] (g : GLZ) (sym : GLZSym U) : Res Bits :=
  chainErr "could not encode GLZ symbol" (g.encodeSymRaw sym)

/-- Offset loop of `decode_sym_raw`: nibbles from bit `off` on, up to one without
the continuation bit. Every nibble takes at least a bit of the slice. -/
def decodeOff (m : ℕ) (bits : Bits) : ℕ → ℕ → ℕ → Res (ℕ × ℕ)
  | 0, _, _ => .error .outOfFuel
  | fuel + 1, off, arg => do
    let rest ← sliceFrom bits off
    let sym ← Glz.decodeSym 32 (m + 1) rest
    let off := off + (m + 1)
    let p ← powU32 m
    let hi ← shlU32 arg m
    let hi ← addU32 hi 1
    let arg ← addU32 hi (sym &&& (p - 1))
    if sym < p then pure (arg, off) else decodeOff m bits fuel off arg

/-- `GLZ::decode_sym_raw` -/
def decodeSymRaw (U : Type) [Sym U] (g : GLZ) (bits : Bits) : Res (GLZSym U × ℕ) := do
  let (sym, off) ← g.rice.decodeSym bits
  if sym < 2 ^ 8 then do
    let x ← cast U sym
    pure (.imm x, off)
  else do
    let (arg, off) ← decodeOff g.m bits (bits.length + 1) off 0
    pure (.ref (arg - 1) (sym - 2 ^ 8 + 2), off)

/-- `GLZ::decode_sym` -/
def decodeSym (U : Type) [Sym U] (g : GLZ) (bits : Bits) : Res (GLZSym U × ℕ) :=
  chainErr "could not decode GLZ symbol" (g.decodeSymRaw U bits)

/-- `GLZ::decode_sym_at` -/
def decodeSymAt (U : Type) [Sym U] (g : GLZ) (bits : Bits) (off : ℕ) :
    Res (GLZSym U × ℕ) := do
  let rest ← sliceFrom bits off
  g.decodeSym U rest

/-! ## Section 3: Encoding one slice -/

/-- `HashMap<&[U], usize>` -/
abbrev History (U : Type) := List U → Option ℕ

variable {U : Type} [Sym U] [DecidableEq U]

/-- `HashMap::insert` -/
def History.insert (history : History U) (slice : List U) (off : ℕ) : History U :=
  Function.update history slice (some off)

/-- `&slice[i..j]` -/
def subslice (slice : List U) (i j : ℕ) : List U := (slice.drop i).take (j - i)

/-- Search of `encode1`: the longest suffix of `slice[lookahead..j]` in the history
whose reference can be encoded, with its length and its code. -/
def findRef (g : GLZ) (history : History U) (off : ℕ) (slice : List U) (j lookahead : ℕ) :
    Res (Option (ℕ × Bits)) :=
  (List.range' lookahead (j - lookahead)).reverse.foldlM (fun ref_ i =>
    match history (subslice slice i j) with
    | none => pure ref_
    | some poff => do
      let diff ← subUsize off poff
      let nref ← okOrNone (g.encodeSym (U := U) (.ref diff (j - i)))
      match nref with
      | some nref => pure (some (j - i, nref))
      | none => pure ref_) none

/-- `immratio >= refratio`, with `immratio = 1 / imm.len()` and
`refratio = refconsume / ref_.len()` or `0.0`. Numerators and lengths are below
`2 ^ 40`, where the `f64` quotients compare as the rationals do. -/
def immWins (imm : Bits) : Option (ℕ × Bits) → Bool
  | none => true
  | some (refconsume, ref_) => refconsume * imm.length ≤ ref_.length

/-- Local state of `encode1` and what it borrows -/
structure Encoder (U : Type) where
  history : History U
  off : ℕ
  patterns : List Bits
  j : ℕ
  lastmatch : ℕ
  forceimm : Bool

/-- `for r in (i+2..lastmatch+1).take(2^l) { history.insert(&slice[i..r], at) }` -/
def insertPrefixes (g : GLZ) (history : History U) (slice : List U) (i lastmatch at_ : ℕ) :
    History U :=
  ((List.range' (i + 2) (lastmatch + 1 - (i + 2))).take (2 ^ g.l)).foldl
    (fun history r => history.insert (subslice slice i r) at_) history

/-- Body of the `while j > 0` loop of `encode1` -/
def encode1Step (g : GLZ) (slice : List U) (e : Encoder U) : Res (Encoder U) := do
  let lim ← powUsize g.l
  let lookahead := e.j - lim
  let ref_ ← g.findRef e.history e.off slice e.j lookahead
  let imm ← match slice[e.j - 1]? with
    | some x => g.encodeSym (.imm x)
    | none => panic .sliceIndex
  match ref_, e.forceimm || immWins imm ref_ with
  | some (refconsume, ref_), false =>
    -- a pattern; force an immediate after it so that decoding stays linear
    pure { e with
      off := e.off + ref_.length
      patterns := e.patterns ++ [ref_]
      j := e.j - refconsume
      lastmatch := e.j
      forceimm := true }
  | _, _ =>
    pure { e with
      history := g.insertPrefixes e.history slice (e.j - 1) e.lastmatch (e.off + imm.length)
      off := e.off + imm.length
      patterns := e.patterns ++ [imm]
      j := e.j - 1
      forceimm := false }

/-- `while j > 0`; every iteration consumes at least one symbol -/
def encode1Loop (g : GLZ) (slice : List U) : ℕ → Encoder U → Res (Encoder U)
  | 0, e => if 0 < e.j then .error .outOfFuel else pure e
  | fuel + 1, e =>
    if 0 < e.j then do
      let e ← g.encode1Step slice e
      encode1Loop g slice fuel e
    else pure e

/-- `GLZ::encode1`: the code of the slice, and the history and offset after it -/
def encode1 (g : GLZ) (history : History U) (off : ℕ) (slice : List U) :
    Res (Bits × History U × ℕ) := do
  let e ← g.encode1Loop slice slice.length
    ⟨history, off, [], slice.length, slice.length, false⟩
  pure (e.patterns.reverse.flatten, e.history, e.off)

/-! ## Section 4: Decoding one slice -/

/-- `while` condition of `decode1` -/
def wantsMore (bits : Bits) (size : Option ℕ) (off count : ℕ) : Bool :=
  match size with
  | some size => count < size
  | none => off < bits.length

/-- `ensure!(cycles <= 2*size.unwrap() as u32, ...)` -/
def checkCycles (size : Option ℕ) (cycles : ℕ) : Res Unit :=
  match size with
  | some size => do
    let limit ← mulU32 2 (size % 2 ^ 32)
    ensure (cycles ≤ limit) (.exceededRuntime cycles limit)
  | none => pure ()

/-- Does a reference of `refsize` symbols reach the end of what is wanted? -/
def isTail (size : Option ℕ) (count refsize : ℕ) : Bool :=
  match size with
  | some size => size - count ≤ refsize
  | none => false

/-- The loop of `decode1`; `nested` is the recursive call. -/
def decode1Loop (g : GLZ) (bits : Bits) (size : Option ℕ) (nested : ℕ → ℕ → Res (List U)) :
    ℕ → ℕ → List U → ℕ → Res (List U)
  | 0, _, _, _ => .error .outOfFuel
  | fuel + 1, off, bytes, cycles =>
    if wantsMore bits size off bytes.length then do
      let (sym, diff) ← g.decodeSymAt U bits off
      let (off, bytes) ← match sym with
        | .imm x => pure (off + diff, bytes ++ [x])
        | .ref refoff refsize =>
          if isTail size bytes.length refsize then
            pure (off + diff + refoff, bytes)
          else do
            let ref_ ← nested (off + diff + refoff) refsize
            pure (off + diff, bytes ++ ref_)
      -- check that runtime is linear
      let cycles ← addU32 cycles 1
      checkCycles size cycles
      decode1Loop g bits size nested fuel off bytes cycles
    else pure bytes

/-- Iterations `decode1` can make: bounded by the runtime check, or by the bits left. -/
def decodeBudget (bits : Bits) : Option ℕ → ℕ
  | some size => 2 * size + 2
  | none => bits.length + 2

/-- `GLZ::decode1` with `left = 2 - depth` -/
def decode1 (g : GLZ) (bits : Bits) : ℕ → ℕ → Option ℕ → Res (List U)
  | 0, _, _ => throwErr (.exceededDepth 2)
  | left + 1, off, size =>
    decode1Loop g bits size (fun off size => decode1 g bits left off (some size))
      (decodeBudget bits size) off [] 0

/-- `GLZ::decode` -/
def decode (g : GLZ) (bits : Bits) : Res (List U) := g.decode1 bits 2 0 none

/-- `GLZ::decode_at` -/
def decodeAt (g : GLZ) (bits : Bits) (off len : ℕ) : Res (List U) :=
  g.decode1 bits 2 off (some len)

/-- `GLZ::encode` -/
def encode (g : GLZ) (slice : List U) : Res Bits := do
  let (bits, _, _) ← g.encode1 (fun _ => none) 0 slice
  pure bits

/-! ## Section 5: Many slices in one stream -/

/-- State of the loop of `encode_all` -/
structure AllEncoder (U : Type) where
  history : History U
  off : ℕ
  offs : History U
  blobs : List Bits

/-- Body of the loop of `encode_all` -/
def encodeAllStep (g : GLZ) (a : AllEncoder U) (slice : List U) : Res (AllEncoder U) :=
  if (a.offs slice).isSome then
    -- duplicate in the blob
    pure a
  else
    match a.history slice with
    | some off =>
      -- slice inside a pattern
      pure { a with offs := a.offs.insert slice off }
    | none => do
      let (blob, history, off) ← g.encode1 a.history a.off slice
      pure ⟨history, off, a.offs.insert slice off, a.blobs ++ [blob]⟩

/-- `GLZ::encode_all`: the stream, and offset and length of every slice in it -/
def encodeAll (g : GLZ) (slices : List (List U)) : Res (Bits × List (ℕ × ℕ)) := do
  -- longest first, so that smaller slices have smaller offset values
  let sorted := slices.mergeSort fun a b => decide (b.length ≤ a.length)
  let a ← sorted.foldlM g.encodeAllStep ⟨fun _ => none, 0, fun _ => none, []⟩
  let total := (a.blobs.map List.length).sum
  let offs ← slices.mapM fun slice =>
    match a.offs slice with
    | some off => do
      let start ← subUsize total off
      pure (start, slice.length)
    | none => panic .unwrapNone
  pure (a.blobs.reverse.flatten, offs)

/-! ## Section 6: Traversal -/

/-- Argument loop of `traverse_syms` -/
def skipOff (m : ℕ) (bits : Bits) : ℕ → ℕ → Res ℕ
  | 0, _ => .error .outOfFuel
  | fuel + 1, off => do
    let rest ← sliceFrom bits off
    let sym ← Glz.decodeSym 32 (m + 1) rest
    let p ← powU32 m
    if sym < p then pure (off + (m + 1)) else skipOff m bits fuel (off + (m + 1))

/-- Loop of `traverse_syms`, collecting what it passes to its callback -/
def traverseLoop (g : GLZ) (bits : Bits) : ℕ → ℕ → Res (List ℕ)
  | 0, _ => .error .outOfFuel
  | fuel + 1, off =>
    if off < bits.length then do
      let rest ← sliceFrom bits off
      let (sym, diff) ← g.rice.decodeSym rest
      let off ← if 2 ^ 8 ≤ sym then skipOff g.m bits (bits.length + 1) (off + diff)
        else pure (off + diff)
      let syms ← traverseLoop g bits fuel off
      pure (sym :: syms)
    else pure []

/-- `GLZ::traverse_syms` at `U = u32` -/
def traverseSyms (g : GLZ) (bits : Bits) : Res (List ℕ) :=
  g.traverseLoop bits (bits.length + 1) 0

/-! ## Section 7: The blob -/

/-- `GLZ::WIDTH` -/
def WIDTH : ℕ := 8

/-- The blob the CLI writes: the table in symbols of `1 + WIDTH` bits, the stream, and
zeros up to a whole byte -/
def writeBlob (g : GLZ) (bits : Bits) : Res (List UInt8) := do
  let table ← encodeSyms (Glz.encodeSym 32 (1 + WIDTH)) g.decodeTable
  pure (packBytes (table ++ bits))

end GLZ

end BentoLinker.Glz
