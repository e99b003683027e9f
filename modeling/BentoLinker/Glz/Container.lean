import BentoLinker.Glz.TwoPass

/-!
# The Container of the Command Line

What `glz encode` writes to its output file, from `main.rs`: the magic string, the header with
type, `k` and a size, the offsets and lengths of the files, and the blob.

1. Options, flags and types
2. `writeSize`, `writeMeta`: fields of the headers
3. `printFiles`: the summary, which is printed before anything is written
4. `encodeFile`: from the codec to the bytes of the file

File names are UTF-8 and stand as bytes. Progress bars and what is printed of a table are left out.
-/

namespace BentoLinker.Glz

open BitCode

/-! ## Section 1: Options -/

/-- `CommonOpt` -/
structure CommonOpt where
  k : Option ℕ
  table : List ℕ
  l : ℕ
  m : ℕ
  archive : Bool
  index : Bool
  noMagic : Bool
  noLen : Bool
  noHeaders : Bool
  noTable : Bool
  leb128 : Bool
  deriving Repr, DecidableEq

/-- `CommonOpt` without arguments -/
def CommonOpt.default : CommonOpt where
  k := none
  table := []
  l := 4
  m := 4
  archive := false
  index := false
  noMagic := false
  noLen := false
  noHeaders := false
  noTable := false
  leb128 := false

/-- One of the paths of `EncodeOpt::input`, and what can be read there -/
structure InputFile where
  path : List UInt8
  data : List UInt8
  deriving Repr, DecidableEq

/-- `MAGIC` -/
def MAGIC : List UInt8 := [0, 0x67, 0x6c, 0x7a]

/-- `VERSION` -/
def VERSION : List UInt8 := [1, 0]

def FLAG_LEB128 : ℕ := 0x0001

def TYPE_NONE : ℕ := 0x0

def TYPE_LEN : ℕ := 0x1

def TYPE_INDEX : ℕ := 0x2

def TYPE_ARCHIVE : ℕ := 0x3

/-- `mkflags` -/
def mkflags (opt : CommonOpt) (flags : ℕ) : ℕ :=
  flags ||| if opt.leb128 then FLAG_LEB128 else 0

/-- `mktype` -/
def mktype (opt : CommonOpt) : ℕ :=
  if opt.archive then TYPE_ARCHIVE
  else if opt.index then TYPE_INDEX
  else if !opt.noLen then TYPE_LEN
  else TYPE_NONE

/-! ## Section 2: Fields -/

/-- `u32::to_le_bytes` -/
def toLeBytes (n : ℕ) : List UInt8 :=
  [UInt8.ofNat n, UInt8.ofNat (n >>> 8), UInt8.ofNat (n >>> 16), UInt8.ofNat (n >>> 24)]

/-- `u32::from_le_bytes`, of the first four bytes -/
def fromLeBytes (bytes : List UInt8) : ℕ :=
  (bytes.getD 0 0).toNat + (bytes.getD 1 0).toNat * 2 ^ 8 + (bytes.getD 2 0).toNat * 2 ^ 16 +
    (bytes.getD 3 0).toNat * 2 ^ 24

/-- `u16::to_le_bytes` -/
def toLeBytes16 (n : ℕ) : List UInt8 :=
  [UInt8.ofNat n, UInt8.ofNat (n >>> 8)]

/-- `LEB128::encode_sym`: groups of seven bits, the lowest first, each behind a bit that says
whether there are more. -/
def leb128Sym (n : ℕ) : Bits :=
  if 0x7f < n then true :: toBits 7 (n &&& 0x7f) ++ leb128Sym (n >>> 7)
  else false :: toBits 7 n
termination_by n
decreasing_by
  rw [Nat.shiftRight_eq_div_pow]
  exact Nat.div_lt_self (by omega) (by decide)

/-- `write_size` -/
def writeSize (flags size : ℕ) : List UInt8 :=
  if flags &&& FLAG_LEB128 ≠ 0 then packBytes (leb128Sym (size % 2 ^ 32))
  else toLeBytes (size % 2 ^ 32)

/-- `write_meta` -/
def writeMeta (opt : CommonOpt) (flags type_ k size : ℕ) : List UInt8 :=
  (if !opt.noMagic then MAGIC ++ VERSION ++ toLeBytes16 flags else []) ++
    if flags &&& FLAG_LEB128 ≠ 0 then
      writeSize flags (type_ <<< 4 ||| k) ++ writeSize flags size
    else writeSize flags (type_ <<< 28 ||| k <<< 24 ||| size)

/-- Fields of several sizes, such as an offset and a length -/
def writeSizes (flags : ℕ) (sizes : List ℕ) : List UInt8 := sizes.flatMap (writeSize flags)

theorem fromLeBytes_toLeBytes {n : ℕ} (hn : n < 2 ^ 32) (rest : List UInt8) :
    fromLeBytes (toLeBytes n ++ rest) = n := by
  simp only [fromLeBytes, toLeBytes, List.cons_append, List.getD_cons_zero,
    List.getD_cons_succ, UInt8.toNat_ofNat', Nat.shiftRight_eq_div_pow]
  omega

/-- The fields of a word do not overlap. -/
theorem metaWord_eq {type_ k size : ℕ} (hk : k < 2 ^ 4) (hsize : size < 2 ^ 24) :
    type_ <<< 28 ||| k <<< 24 ||| size = type_ * 2 ^ 28 + k * 2 ^ 24 + size := by
  have hinner : k * 2 ^ 24 < 2 ^ 28 := by omega
  rw [Nat.shiftLeft_eq, Nat.shiftLeft_eq, Nat.mul_comm type_,
    ← Nat.two_pow_add_eq_or_of_lt hinner,
    show 2 ^ 28 * type_ + k * 2 ^ 24 = 2 ^ 24 * (2 ^ 4 * type_ + k) by ring,
    ← Nat.two_pow_add_eq_or_of_lt hsize]

/-- What the loaders read from the word -/
theorem metaWord_fields {type_ k size : ℕ} (htype : type_ < 2 ^ 4) (hk : k < 2 ^ 4)
    (hsize : size < 2 ^ 24) : (type_ <<< 28 ||| k <<< 24 ||| size) < 2 ^ 32 ∧
      0xf &&& ((type_ <<< 28 ||| k <<< 24 ||| size) >>> 24) = k ∧
        0x00ffffff &&& (type_ <<< 28 ||| k <<< 24 ||| size) = size := by
  rw [metaWord_eq hk hsize, Nat.and_comm, Nat.and_comm 0x00ffffff,
    show (0xf : ℕ) = 2 ^ 4 - 1 from rfl, show (0x00ffffff : ℕ) = 2 ^ 24 - 1 from rfl,
    Nat.and_two_pow_sub_one_eq_mod, Nat.and_two_pow_sub_one_eq_mod, Nat.shiftRight_eq_div_pow]
  omega

/-! ## Section 3: The summary -/

/-- `n as i32` -/
def toI32 (n : ℕ) : ℤ := (n : ℤ).bmod (2 ^ 32)

/-- An `i32` result, or the overflow panic -/
def checkI32 (n : ℤ) : Res ℤ :=
  if -2 ^ 31 ≤ n ∧ n < 2 ^ 31 then pure n else panic .arithmetic

/-- `(100*(before as i32 - after as i32)) / before as i32` -/
def percent (before after : ℕ) : Res ℤ := do
  let diff ← checkI32 (toI32 before - toI32 after)
  let scaled ← checkI32 (100 * diff)
  if toI32 before = 0 then panic .divisionByZero
  else checkI32 (scaled.tdiv (toI32 before))

/-- A line of `print_files`: name, offset and size -/
structure Listed where
  name : List UInt8
  off : ℕ
  size : ℕ
  deriving Repr, DecidableEq

/-- The order of `(off, name, j)` -/
def Listed.le (a b : Listed × ℕ) : Bool :=
  decide (a.1.off < b.1.off ∨ a.1.off = b.1.off ∧
    (a.1.name < b.1.name ∨ a.1.name = b.1.name ∧ a.2 ≤ b.2))

/-- `files_after`: the room up to the next file of the blob, in bytes. -/
def filesAfter (files : List Listed) (blobSize : ℕ) : List (ℕ × ℕ) :=
  let offs := files.zipIdx.mergeSort Listed.le
  offs.zipIdx.map fun entry =>
    let noff := (offs[entry.2 + 1]?.map fun next => next.1.off).getD blobSize
    (entry.1.2, (noff - entry.1.1.off + 8 - 1) / 8)

/-- `print_files`: what is computed for it -/
def printFiles (files : List Listed) (blobSize : ℕ) : Res Unit := do
  let after := filesAfter files blobSize
  files.zipIdx.forM fun entry => do
    let _ ← percent entry.1.size ((after.lookup entry.2).getD 0)
    pure ()

/-! ## Section 4: The file -/

/-- What is compressed: the files, and their names behind them if there is an archive of them -/
def inputs (opt : CommonOpt) (paths : List InputFile) : List (List UInt8) :=
  paths.map InputFile.data ++ if opt.archive then paths.map InputFile.path else []

/-- The codec of `encode`: with a table of its own, or with the one that is given -/
def codec (opt : CommonOpt) (paths : List InputFile) : Res (Option GLZ) :=
  match opt.k, opt.table with
  | k, [] => do
    let g ← GLZ.twoPass k opt.l opt.m (inputs opt paths)
    pure (some g)
  | some k, table => do
    let g ← GLZ.withTable k opt.l opt.m table
    pure (some g)
  -- "can't solve for just K, please provide --table"
  | none, _ :: _ => pure none

/-- The width of the table in the blob, in bits -/
def tableSize (opt : CommonOpt) (g : GLZ) : ℕ :=
  if !opt.noTable then (1 + GLZ.WIDTH) * g.decodeTable.length else 0

/-- "adjust offsets for start-of-table?" -/
def adjust (opt : CommonOpt) (g : GLZ) (ranges : List (ℕ × ℕ)) : List (ℕ × ℕ) :=
  ranges.map fun range => (tableSize opt g + range.1, range.2)

/-- The headers, for the files and the ranges of all that has been compressed -/
def headers (opt : CommonOpt) (g : GLZ) (paths : List InputFile) (ranges : List (ℕ × ℕ)) :
    List UInt8 :=
  let flags := mkflags opt 0
  let type_ := mktype opt
  if opt.noHeaders then []
  else if type_ = TYPE_ARCHIVE then
    writeMeta opt flags type_ g.k paths.length ++
      ((paths.zip (ranges.drop paths.length)).zip (ranges.take paths.length)).flatMap fun entry =>
        writeSizes flags [entry.1.2.1, entry.1.2.2, entry.2.1, entry.2.2]
  else if type_ = TYPE_INDEX then
    writeMeta opt flags type_ g.k paths.length ++
      (paths.zip ranges).flatMap fun entry => writeSizes flags [entry.2.1, entry.2.2]
  else if type_ = TYPE_LEN then
    writeMeta opt flags type_ g.k (tableSize opt g) ++
      writeSize flags ((inputs opt paths).map List.length).sum
  else writeMeta opt flags type_ g.k (tableSize opt g)

/-- The blob behind the headers -/
def GLZ.writeBody (opt : CommonOpt) (g : GLZ) (output : Bits) : Res (List UInt8) :=
  if !opt.noTable then g.writeBlob output else pure (packBytes output)

/-- `encode` with a codec, up to the output file -/
def GLZ.encodeFile (opt : CommonOpt) (g : GLZ) (paths : List InputFile) :
    Res (List UInt8) := do
  let (output, ranges) ← g.encodeAll (inputs opt paths)
  let ranges := adjust opt g ranges
  let files := (paths.zip ranges).map fun entry =>
    (⟨entry.1.path, entry.2.1, entry.2.2⟩ : Listed)
  printFiles files (tableSize opt g + output.length)
  let body ← g.writeBody opt output
  pure (headers opt g paths ranges ++ body)

end BentoLinker.Glz
