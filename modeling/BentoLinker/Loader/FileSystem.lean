import BentoLinker.Lib.TracedRun
import BentoLinker.Loader.EffectDecode
import BentoLinker.Loader.MultiRegion

/-!
# The File-System Loader

Model of `BOX_LOAD`, `BOX_LOAD_DECODE`, `BOX_LOAD_MULTI` and `BOX_LOAD_DECODE_MULTI` of `fs.py`:
load functions that open a file, read it through four hooks, and close it. The hooks' calls
and results are the trace of a load.

- `Event`: the calls of the hooks, and which of their results end a load
- `Hooks`: the hooks
- `FSLoader.load`: the load functions

The target has 32 bits: `ssize_t`, `size_t`, `int` and `uint32_t` have 32, and a comparison
of the first with one of the unsigned ones converts it.
-/

namespace BentoLinker.Loader

open TracedRun

/-! ## Section 1: Calls -/

/-- Where a read puts what it reads -/
inductive Target where
  /-- A local variable of the load function, for words of the header -/
  | header
  /-- `x` of the decoder -/
  | blob
  /-- The memory of a region -/
  | image (region : ℕ)
  deriving Repr, DecidableEq

/-- What a load does: the calls of the hooks with their results, and in between what it looks
at in its buffers and what it refuses -/
inductive Event where
  | opened (err fd : BitVec 32)
  | read (fd : BitVec 32) (target : Target) (n : ℕ) (res : BitVec 32)
  | seek (fd : BitVec 32) (off : ℕ) (res : BitVec 32)
  | closed (fd err : BitVec 32)
  /-- The `n` bytes of a buffer, for which a read has returned `res` -/
  | used (n : ℕ) (res : BitVec 32)
  /-- A size or a count that does not fit -/
  | refused
  deriving Repr, DecidableEq

/-- What is returned for a short read -/
def Target.short : Target → ℤ
  | .header | .image _ => -enoexec
  | .blob => -einval

/-- What a load function returns at once for a result, if it does -/
def Event.failure : Event → Option Stop
  | .opened err _ => if err ≠ 0 then some (.err err.toInt) else none
  | .read _ target n res =>
    -- `res < size`, unsigned
    if res.toNat < n then
      if res.toInt < 0 then some (.err res.toInt) else some (.err target.short)
    else none
  | .seek _ _ res => if res.toInt < 0 then some (.err res.toInt) else none
  | .closed _ err => if err ≠ 0 then some (.err err.toInt) else none
  | .used _ _ => none
  | .refused => some (.err (-enoexec))

/-! ## Section 2: Load functions -/

/-- The hooks of the user. They may go by everything that has happened. A read leaves
something in its buffer, of which as many bytes as it returns are those of the file. -/
structure Hooks where
  /-- `open(&fd, path, flags)`, with what it stores at `fd` -/
  openHook : List Event → String → ℕ → BitVec 32 × BitVec 32
  /-- `read(fd, buffer, size)`, with what is in the buffer then -/
  readHook : List Event → BitVec 32 → Target → ℕ → BitVec 32 × List UInt8
  /-- `seek(fd, off, whence)` -/
  seekHook : List Event → BitVec 32 → ℕ → ℕ → BitVec 32
  /-- `close(fd)` -/
  closeHook : List Event → BitVec 32 → BitVec 32

/-- `FSLoader`, with the sizes of the regions that it loads -/
structure FSLoader where
  path : String
  glz : Option String
  limits : List ℕ
  deriving Repr, DecidableEq

/-- `if self._glz` -/
def FSLoader.compressed (c : FSLoader) : Bool := c.glz.getD "" != ""

/-- A C function that calls the hooks -/
abbrev Hooked : Type → Type := Traced Event Stop

section Functions

variable (W : ℕ) (h : Hooks)

def openFile (path : String) : Hooked (BitVec 32) :=
  perform Event.failure fun log =>
    let (err, fd) := h.openHook log path 0
    (.opened err fd, fd)

def closeFile (fd : BitVec 32) : Hooked Unit :=
  perform Event.failure fun log => (.closed fd (h.closeHook log fd), ())

def seekFile (fd : BitVec 32) (off : ℕ) : Hooked Unit :=
  perform Event.failure fun log =>
    (.seek fd (off % 2 ^ 32) (h.seekHook log fd (off % 2 ^ 32) 0), ())

/-- A read, and the two returns behind it -/
def readFile (fd : BitVec 32) (target : Target) (n : ℕ) : Hooked (BitVec 32 × List UInt8) :=
  perform Event.failure fun log =>
    let (res, bytes) := h.readHook log fd target n
    (.read fd target n res, (res, bytes))

/-- The bytes of a buffer are looked at. -/
def look (n : ℕ) (res : BitVec 32) : Hooked Unit :=
  perform Event.failure fun _ => (.used n res, ())

/-- `return -ENOEXEC` -/
def refuse : Hooked Unit := perform Event.failure fun _ => (.refused, ())

/-- A read into a variable whose value is used -/
def readInto (fd : BitVec 32) (target : Target) (n : ℕ) : Hooked (List UInt8) := do
  let (res, bytes) ← readFile h fd target n
  look n res
  pure bytes

/-- `__box_X_seekread`, its context `{fd, off}` -/
def seekread (fd : BitVec 32) (off addr n : ℕ) : Hooked (List UInt8) := do
  seekFile h fd (addr + off)
  readInto h fd .blob n

/-- The frame of the load functions. What is in between leaves by its own `return`s, past the
`close`. -/
def withFile (path : String) (body : BitVec 32 → Hooked Unit) : Hooked Unit := do
  let fd ← openFile h path
  body fd
  closeFile h fd

/-- `BOX_LOAD` -/
def load (path : String) (limit : ℕ) : Hooked Unit :=
  withFile h path fun fd => do
    -- load metadata?
    let x ← readInto h fd .header 4
    let size := wordAt x 0
    -- can't allow overwrites now can we
    if limit < size then refuse
    else do
      -- load image
      let _ ← readFile h fd (.image 0) size
      pure ()

/-- `BOX_LOAD_DECODE` -/
def loadDecode (fuel : ℕ) (path : String) (limit : ℕ) : Hooked Unit :=
  withFile h path fun fd => do
    -- load metadata
    let x ← readInto h fd .header 8
    let k := 0xf &&& (wordAt x 0 >>> 24)
    let off := 0x00ffffff &&& wordAt x 0
    let size := wordAt x 1
    -- can't allow overwrites now can we
    if limit < size then refuse
    else do
      -- decompress region
      let _ ← Effect.decode W (seekread h fd 8) fuel k off size
      pure ()

/-- The loop of `BOX_LOAD_MULTI`, for the regions from `i` on -/
def loadLoop (fd : BitVec 32) : ℕ → ℕ → List ℕ → Hooked Unit
  | _, _, [] => pure ()
  | i, off, limit :: limits => do
    -- load metadata again
    seekFile h fd ((1 + i) * 4)
    let x ← readInto h fd .header 4
    let size := wordAt x 0
    -- can't allow overwrites now can we
    if limit < size then refuse
    else do
      -- load region
      seekFile h fd off
      let _ ← readFile h fd (.image i) size
      loadLoop fd (i + 1) ((off + size) % 2 ^ 32) limits

/-- `BOX_LOAD_MULTI` -/
def loadMulti (path : String) (limits : List ℕ) : Hooked Unit :=
  withFile h path fun fd => do
    -- load metadata?
    let x ← readInto h fd .header 4
    let count := wordAt x 0
    if count ≠ limits.length then refuse
    else loadLoop h fd 0 ((1 + limits.length) * 4 % 2 ^ 32) limits

/-- The loop of `BOX_LOAD_DECODE_MULTI`, for the regions from `i` on -/
def loadDecodeLoop (fuel : ℕ) (fd : BitVec 32) (n k : ℕ) : ℕ → List ℕ → Hooked Unit
  | _, [] => pure ()
  | i, limit :: limits => do
    -- load metadata again
    seekFile h fd ((1 + i) * 2 * 4)
    let x ← readInto h fd .header 8
    let off := wordAt x 0
    let size := wordAt x 1
    -- can't allow overwrites now can we
    if limit < size then refuse
    else do
      -- decompress region
      let _ ← Effect.decode W (seekread h fd ((1 + n) * 2 * 4 % 2 ^ 32)) fuel k off size
      loadDecodeLoop fuel fd n k (i + 1) limits

/-- `BOX_LOAD_DECODE_MULTI` -/
def loadDecodeMulti (fuel : ℕ) (path : String) (limits : List ℕ) : Hooked Unit :=
  withFile h path fun fd => do
    -- load metadata
    let x ← readInto h fd .header 8
    let k := 0xf &&& (wordAt x 0 >>> 24)
    let count := wordAt x 1
    if count ≠ limits.length then refuse
    else loadDecodeLoop W h fuel fd limits.length k 0 limits

/-- `__box_X_load`: the template that `build_parent_c` takes -/
def FSLoader.load (c : FSLoader) (fuel : ℕ) : Hooked Unit :=
  match c.limits, c.compressed with
  | [limit], false => Loader.load h c.path limit
  | [limit], true => loadDecode W h fuel c.path limit
  | limits, false => loadMulti h c.path limits
  | limits, true => loadDecodeMulti W h fuel c.path limits

end Functions

end BentoLinker.Loader
