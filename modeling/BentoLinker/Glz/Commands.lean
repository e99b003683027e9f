import BentoLinker.Glz.Leb128
import BentoLinker.Lib.PrefixReader

/-!
# The Commands

Model of `encode`, `decode` and `ls` in `main.rs`, from the files that are read to those that are
written.

1. How a command ends
2. What `encode` prints: the names of the progress bars, and the drawing of the histogram
3. `encode`
4. `readMeta`, `readIndex`: the headers
5. `decode`
6. `ls`

What is printed is left out where nothing in it can fail. The table is built in one pass, as it
is by default.
-/

namespace BentoLinker.Glz

open BitCode PrefixReader

/-! ## Section 1: Ends -/

/-- `bail!` and the errors of files -/
inductive Bail where
  /-- "can't solve for just K, please provide --table" -/
  | unsolvable
  /-- `UnexpectedEof` of `read_exact` -/
  | unexpectedEof
  /-- "bad magic number" -/
  | badMagic
  /-- "unknown type {type_}?" -/
  | unknownType (type_ : ℕ)
  /-- "unknown table size?" -/
  | unknownTableSize
  /-- "unknown K, provide -K?" -/
  | unknownK
  /-- "unknown table, provide --table?" -/
  | unknownTable
  /-- "utf8 error in name field" -/
  | utf8
  /-- "file {file} not found?" -/
  | notFound (file : List UInt8)
  /-- "what am I decompressing? need either --file or --off and --len" -/
  | noTarget
  deriving Repr, DecidableEq

/-- Why a command does not complete -/
inductive Stop where
  | bail (b : Bail)
  | fault (f : Fault)
  deriving Repr, DecidableEq

abbrev Cmd (α : Type) := Except Stop α

/-- What the crate does as part of a command -/
def lift {α : Type} : Res α → Cmd α
  | .ok a => .ok a
  | .error f => .error (.fault f)

theorem lift_eq_ok {α : Type} {x : Res α} {a : α} : lift x = .ok a ↔ x = .ok a := by
  cases x with
  | ok b => exact ⟨fun h => (by cases h; rfl), fun h => (by cases h; rfl)⟩
  | error f => exact ⟨fun h => (by cases h), fun h => (by cases h)⟩

/-! ## Section 2: What is printed -/

/-- `str::is_char_boundary`: a continuation byte is in the midst of a character. -/
def isCharBoundary (s : List UInt8) (i : ℕ) : Bool :=
  i == 0 || i == s.length || (s[i]?.map fun b => b &&& 0xc0 != 0x80).getD false

/-- `&path[path.len()-cmp::min(path.len(), 20)..]` -/
def setMessage (path : List UInt8) : Res Unit :=
  if isCharBoundary path (path.length - min path.length 20) then pure ()
  else panic .sliceIndex

/-- The messages of the second bar in `with_prog_all`, which there is for several inputs. The
bar gets to every path, in the order in which the inputs are encoded. -/
def showFiles (quiet : Bool) (opt : CommonOpt) (paths : List InputFile) : Res Unit :=
  if quiet || (inputs opt paths).length ≤ 1 then pure ()
  else paths.forM fun path => setMessage path.path

/-- A symbol in the drawing of `Hist::draw`, 54 columns wide and 9 rows high -/
def drawSymbol (length upper lower : ℕ) (xy : ℕ × ℕ) : Res Unit := do
  let last ← subUsize length 1
  if last = 0 then panic .divisionByZero
  else do
    let above ← subUsize xy.2 lower
    let range ← subUsize upper lower
    let row ← subUsize 8 (8 * above / max range 1)
    -- `output[height-1-y][x]`
    if row < 9 ∧ 53 * xy.1 / last < 54 then pure () else panic .sliceIndex

/-- `Hist::draw` -/
def Hist.draw (h : Hist) : Res Unit := do
  let hits ← h.iter
  let upper := ((hits.map Prod.snd).max?).getD 0
  let lower := ((hits.map Prod.snd).min?).getD 0
  let length ← h.bound
  hits.forM (drawSymbol length upper lower)

/-! ## Section 3: `encode` -/

/-- "estimate k/table if necessary" -/
def chooseCodec (quiet : Bool) (opt : CommonOpt) (paths : List InputFile) : Cmd GLZ :=
  match opt.k, opt.table with
  | k, [] => lift do
    let first := GLZ.withConfig GLZ.DEFAULT_K opt.l opt.m
    showFiles quiet opt paths
    let (bits, _) ← first.encodeAll (inputs opt paths)
    let syms ← first.traverseSyms bits
    let hist ← Hist.collect syms
    if quiet then pure () else do
      let sorted ← hist.sort
      sorted.draw
    GLZ.fromHist k opt.l opt.m hist
  | some k, table => lift (GLZ.withTable k opt.l opt.m table)
  | none, _ :: _ => .error (.bail .unsolvable)

/-- The size of the files, which `encode` compares to that of its output -/
def sizeBefore (paths : List InputFile) : ℕ := (paths.map fun path => path.data.length).sum

/-- `encode` with an output file: what is in it when the command has completed -/
def encode (quiet : Bool) (opt : CommonOpt) (paths : List InputFile) : Cmd (List UInt8) := do
  let g ← chooseCodec quiet opt paths
  lift (showFiles quiet opt paths)
  let file ← lift (g.encodeFile opt paths)
  -- the last line of the summary, when the file has been written
  let _ ← lift (percent (sizeBefore paths) file.length)
  pure file

/-! ## Section 4: Headers -/

/-- What is left of the input file -/
abbrev Input (α : Type) := Reader UInt8 Stop α

/-- The crate's work on what has been read -/
def work {α : Type} (x : Cmd α) : Input α := fun s => x.map fun a => (a, s)

def eof : Stop := .bail .unexpectedEof

/-- The loop of `read_size`: bytes up to the first one without a continuation bit -/
def readGroups : List UInt8 → Cmd (List UInt8 × List UInt8)
  | [] => .error eof
  | c :: rest =>
    if c &&& 0x80 = 0 then .ok ([c], rest)
    else (readGroups rest).map fun br => (c :: br.1, br.2)

/-- `read_size` -/
def readSize (flags : ℕ) : Input ℕ :=
  if flags &&& FLAG_LEB128 ≠ 0 then do
    let buf ← (readGroups : Input (List UInt8))
    let bits ← work (lift (encodeSyms (fun b : UInt8 => encodeSym 8 8 b.toNat) buf))
    let (n, _) ← work (lift (LEB128.decodeSym UInt32 bits))
    pure n.toNat
  else do
    let buf ← readExact eof 4
    pure (fromLeBytes buf)

/-- The flags that `read_meta` reads behind the magic string -/
def readMagic (opt : CommonOpt) : Input ℕ :=
  if !opt.noHeaders && !opt.noMagic then do
    let buf ← readExact eof 8
    -- another version is tried anyways
    if buf.take 4 ≠ MAGIC then work (.error (.bail .badMagic))
    else pure ((buf.getD 6 0).toNat + (buf.getD 7 0).toNat * 2 ^ 8)
  else pure 0

/-- Type, `k` and the size, for the flags -/
def readFields (opt : CommonOpt) (flags : ℕ) : Input (ℕ × Option ℕ × ℕ) :=
  if !opt.noHeaders && flags &&& FLAG_LEB128 = 0 then do
    let buf ← readExact eof 4
    let x := fromLeBytes buf
    pure (0xf &&& (x >>> 28), some (0xf &&& (x >>> 24)), 0x00ffffff &&& x)
  else if !opt.noHeaders && flags &&& FLAG_LEB128 = FLAG_LEB128 then do
    let x ← readSize flags
    let size ← readSize flags
    pure (0xf &&& (x >>> 4), some (0xf &&& x), size)
  else pure (TYPE_NONE, none, 0)

/-- `read_meta`: flags, type, `k` and a size -/
def readMeta (opt : CommonOpt) : Input (ℕ × ℕ × Option ℕ × ℕ) := do
  let word ← readMagic opt
  let flags := mkflags opt word
  let fields ← readFields opt flags
  pure (flags, fields)

/-- What `decode` collects from the headers -/
structure Index where
  /-- offsets and lengths of the names and of the files -/
  archiveFiles : List ((ℕ × ℕ) × (ℕ × ℕ))
  indexFiles : List (ℕ × ℕ)
  size : Option ℕ
  tableSize : Option ℕ
  deriving Repr, DecidableEq

/-- The smallest of the offsets, as the loops of `decode` keep it -/
def smallest (offs : List ℕ) : Option ℕ :=
  offs.foldl (fun size off => some (match size with
    | some size => min off size
    | none => off)) none

/-- "load files?" -/
def readIndex (opt : CommonOpt) (flags type_ len : ℕ) : Input Index :=
  if opt.noHeaders then pure ⟨[], [], none, none⟩
  else if type_ = TYPE_ARCHIVE then do
    let files ← readMany (do
      let poff ← readSize flags
      let plen ← readSize flags
      let off ← readSize flags
      let len ← readSize flags
      pure ((poff, plen), (off, len))) len
    pure ⟨files, [], none, smallest (files.map fun file => min file.1.1 file.2.1)⟩
  else if type_ = TYPE_INDEX then do
    let files ← readMany (do
      let off ← readSize flags
      let len ← readSize flags
      pure (off, len)) len
    pure ⟨[], files, none, smallest (files.map Prod.fst)⟩
  else if type_ = TYPE_LEN then do
    let size ← readSize flags
    pure ⟨[], [], some size, some len⟩
  else if type_ = TYPE_NONE then pure ⟨[], [], none, some len⟩
  else work (.error (.bail (.unknownType type_)))

/-! ## Section 5: `decode` -/

/-- `DecodeOpt`; names are UTF-8 and stand as bytes. -/
structure DecodeOpt where
  file : Option (List UInt8)
  off : Option ℕ
  len : Option ℕ
  common : CommonOpt
  deriving Repr, DecidableEq

/-- The loop of `decode_with_prog` for symbols of `width` bits -/
def decodeSymsLoop (width : ℕ) (bits : Bits) : ℕ → ℕ → Res (List ℕ)
  | 0, _ => .error .outOfFuel
  | fuel + 1, off =>
    if off < bits.length then do
      let rest ← sliceFrom bits off
      let n ← Glz.decodeSym 32 width rest
      let words ← decodeSymsLoop width bits fuel (off + width)
      pure (n :: words)
    else pure []

/-- `width.decode::<u32>(bits)` -/
def decodeSyms (width : ℕ) (bits : Bits) : Res (List ℕ) :=
  decodeSymsLoop width bits (bits.length + 1) 0

/-- `&bits[..n]` -/
def sliceTo (bits : Bits) (n : ℕ) : Res Bits :=
  if n ≤ bits.length then pure (bits.take n) else panic .sliceIndex

/-- "load table/blob?": the table, and where the blob starts in the bits -/
def loadTable (opt : CommonOpt) (tableSize : Option ℕ) (blob : Bits) : Cmd (List ℕ × ℕ) :=
  if !opt.noTable then
    match tableSize with
    | none => .error (.bail .unknownTableSize)
    | some tableSize => lift do
      let front ← sliceTo blob tableSize
      let table ← decodeSyms (1 + GLZ.WIDTH) front
      pure (table, tableSize)
  else pure ([], 0)

/-- "have everything we need?" -/
def loadCodec (opt : CommonOpt) (k : Option ℕ) (table : List ℕ) : Cmd GLZ := do
  let k ← match k, opt.k with
    | _, some k => pure k
    | some k, none => pure k
    | none, none => .error (.bail .unknownK)
  let table ← if 0 < opt.table.length then pure opt.table
    else if 0 < table.length then pure table
    else .error (.bail .unknownTable)
  lift (GLZ.withTable k opt.l opt.m table)

/-- `String::from_utf8` -/
def fromUtf8 (name : List UInt8) : Cmd (List UInt8) :=
  if (ByteArray.mk name.toArray).IsValidUTF8 then pure name else .error (.bail .utf8)

/-- `format!("{}", n)` -/
def decimal (n : ℕ) : List UInt8 := (Nat.toDigits 10 n).map Char.toUInt8

/-- The search for a name in an archive -/
def findName (g : GLZ) (blob : Bits) (file : List UInt8) :
    List ((ℕ × ℕ) × (ℕ × ℕ)) → Cmd (Option (ℕ × ℕ))
  | [] => pure none
  | ((poff, plen), range) :: files => do
    let bytes ← lift (g.decodeAt (U := UInt8) blob poff plen)
    let name ← fromUtf8 bytes
    if name = file then pure (some range) else findName g blob file files

/-- The search for the number of a file -/
def findNumber (file : List UInt8) (files : List (ℕ × ℕ)) : Option (ℕ × ℕ) :=
  (files.zipIdx.find? fun entry => decimal entry.2 == file).map Prod.fst

/-- "lookup what we want to decompress" -/
def findTarget (opt : DecodeOpt) (g : GLZ) (blob : Bits) (index : Index) (off : ℕ) :
    Cmd (ℕ × ℕ) :=
  match opt.off, opt.len, opt.file, index.size with
  | some off, some len, _, _ => pure (off, len)
  | _, _, some file, _ => do
    match ← findName g blob file index.archiveFiles with
    | some range => pure range
    | none =>
      match findNumber file index.indexFiles with
      | some range => pure range
      | none => .error (.bail (.notFound file))
  | _, _, _, some size => pure (off, size)
  | _, _, _, _ => .error (.bail .noTarget)

/-- `decode` after the headers -/
def decodeBody (opt : DecodeOpt) (k : Option ℕ) (index : Index) (buf : List UInt8) :
    Cmd (List UInt8) := do
  let blob := unpackBytes buf
  let (table, off) ← loadTable opt.common index.tableSize blob
  let g ← loadCodec opt.common k table
  let (off, len) ← findTarget opt g blob index off
  lift (g.decodeAt blob off len)

/-- What is read from an input file: `k`, what the headers say, and the bytes behind them -/
def readFront (opt : CommonOpt) : Input (Option ℕ × Index × List UInt8) := do
  let (flags, type_, k, len) ← readMeta opt
  let index ← readIndex opt flags type_ len
  let buf ← readRest
  pure (k, index, buf)

/-- `decode` of an input file: what is written to the output file -/
def decode (opt : DecodeOpt) (input : List UInt8) : Cmd (List UInt8) := do
  let ((k, index, buf), _) ← readFront opt.common input
  decodeBody opt k index buf

/-! ## Section 6: `ls` -/

/-- "decompress path info": files of an index are called by their offsets. -/
def listFiles (g : GLZ) (blob : Bits) (index : Index) (off : ℕ) : Cmd (List Listed) := do
  let archived ← index.archiveFiles.mapM fun file => do
    let bytes ← lift (g.decodeAt (U := UInt8) blob file.1.1 file.1.2)
    let name ← fromUtf8 bytes
    pure (⟨name, file.2.1, file.2.2⟩ : Listed)
  let indexed := index.indexFiles.map fun range => (⟨decimal range.1, range.1, range.2⟩ : Listed)
  let single := index.size.toList.map fun size => (⟨decimal 0, off, size⟩ : Listed)
  pure (archived ++ indexed ++ single)

/-- `noff - off` in `print_files`. The offsets are sorted, so it is the one behind the last file
that the blob may be too short for. -/
def checkOffs (files : List Listed) (blobSize : ℕ) : Res Unit :=
  files.forM fun file => do
    let _ ← subUsize blobSize file.off
    pure ()

/-- `ls` after the headers, for an input file of `after` bytes -/
def lsBody (opt : CommonOpt) (k : Option ℕ) (index : Index) (buf : List UInt8) (after : ℕ) :
    Cmd (List Listed) := do
  let blob := unpackBytes buf
  let (table, off) ← loadTable opt index.tableSize blob
  let g ← loadCodec opt k table
  let files ← listFiles g blob index off
  lift (checkOffs files blob.length)
  lift (printFiles files blob.length)
  let _ ← lift (percent (files.map Listed.size).sum after)
  pure files

/-- `ls`: the files that it prints -/
def ls (opt : CommonOpt) (input : List UInt8) : Cmd (List Listed) := do
  let ((k, index, buf), _) ← readFront opt input
  lsBody opt k index buf input.length

end BentoLinker.Glz
