import BentoLinker.Lib.Fueled
import BentoLinker.Lib.PercentFormat
import BentoLinker.Loader.DeviceImage

/-!
# Images with Several Regions

The load functions for boxes with several memory regions: `BOX_DECODE_MULTI` of `glz.py`, and
`BOX_LOAD_DECODE_MULTI` of `bd.py` and `fs.py`. Each is a template in front of which a table of
the regions is printed.

1. `Reader`: the templates and the table, as far as they can be wrong
2. `loadRegions`: the loop over the regions, and the load functions
3. The words that `glz encode -I` writes
4. What the load functions make of them
5. None of them is ever compiled
-/

namespace BentoLinker.Loader

open BitCode PercentFormat
open Glz (GLZ GLZSym CommonOpt InputFile)

/-! ## Section 1: Templates -/

/-- The loaders that decompress -/
inductive Reader where
  | glz
  | bd
  | fs
  deriving Repr, DecidableEq

def boxName : Directive := ⟨"box", 's'⟩

def upperName : Directive := ⟨"BOX", 's'⟩

def count : Directive := ⟨"n", 'd'⟩

/-- `__box_%(box)s_buffer_read` and what is in front of it, up to the load function -/
def bufferDirectives : List Directive :=
  [upperName, ⟨"block_size", 'd'⟩, upperName, ⟨"buffer_size", 'd'⟩, upperName,
    ⟨"read_size", 'd'⟩, boxName, boxName, boxName, upperName, boxName, ⟨"size", 'd'⟩, upperName,
    upperName, boxName, boxName, boxName, upperName, upperName, boxName, boxName, boxName, upperName,
    ⟨"alias", 's'⟩, boxName, upperName, boxName, boxName]

/-- The directives of the templates, in order -/
def Reader.directives : Reader → List Directive
  | .glz => [boxName, boxName, boxName, boxName, count, count, boxName, boxName, boxName, boxName,
      boxName, count, boxName, boxName, count, boxName]
  | .bd => bufferDirectives ++ [boxName, boxName,
      -- `__box_%(box)_buffer_read(NULL, %(addr)d, x, sizeof(x))`
      ⟨"box", '_'⟩, ⟨"addr", 'd'⟩, count, count, boxName, ⟨"addr", 'd'⟩, boxName, boxName, boxName,
      boxName, boxName, ⟨"addr", 'd'⟩, count, boxName]
  | .fs => [boxName, boxName, boxName, ⟨"seek_alias", 's'⟩, ⟨"read_alias", 's'⟩, boxName,
      ⟨"open_alias", 's'⟩, ⟨"path", 's'⟩, ⟨"read_alias", 's'⟩, count, count, ⟨"seek_alias", 's'⟩,
      ⟨"read_alias", 's'⟩, boxName, boxName, boxName, boxName, count, boxName,
      ⟨"close_alias", 's'⟩]

/-- Tokens of C, as far as an initializer needs them -/
inductive CToken where
  | lbrace
  | rbrace
  | comma
  | ampersand
  | name (s : String)
  deriving Repr, DecidableEq

/-- The line that is printed for a memory:
`{&__box_%(box)s_%(memory)s_start, &__box_%(box)s_%(memory)s_end}` -/
def regionEntry (box memory : String) : List CToken :=
  [.lbrace, .ampersand, .name s!"__box_{box}_{memory}_start", .comma, .ampersand,
    .name s!"__box_{box}_{memory}_end", .rbrace]

/-- The initializer of `__box_X_loadregions` -/
def loadregions (box : String) (memories : List String) : List CToken :=
  .lbrace :: memories.flatMap (regionEntry box) ++ [.rbrace]

/-- The rest of an initializer list, from one of its initializers on -/
def parseEntries : List CToken → Option (List (String × String))
  | [.lbrace, .ampersand, .name s, .comma, .ampersand, .name e, .rbrace, .rbrace] =>
    some [(s, e)]
  | .lbrace :: .ampersand :: .name s :: .comma :: .ampersand :: .name e :: .rbrace :: .comma ::
      rest => (parseEntries rest).map ((s, e) :: ·)
  -- a comma may end the list
  | [.rbrace] => some []
  | _ => none

/-- An initializer for an array of pairs of addresses -/
def parseTable : List CToken → Option (List (String × String))
  | .lbrace :: rest => parseEntries rest
  | _ => none

/-- The template can be formatted, and C compilers accept the table in front of it. -/
structure Reader.Generated (reader : Reader) (attrs : String → Option Value) (box : String)
    (memories : List String) : Prop where
  template : format attrs reader.directives = .ok ()
  table : (parseTable (loadregions box memories)).isSome

/-! ## Section 2: Load functions -/

/-- Word `i` of an array of `uint32_t` -/
def wordAt (bytes : List UInt8) (i : ℕ) : ℕ := Glz.fromLeBytes (bytes.drop (4 * i))

section Loop

variable {σ : Type} (W fuel k : ℕ) (entry : ℕ → Run σ (ℕ × ℕ)) (before : ℕ → ℕ → Run σ Unit)
  (fetch : ℕ → ℕ → Run σ (List UInt8))

/-- `for (uint32_t i = 0; i < %(n)d; i++)`, for the sizes of the regions from `i` on: the offset and
the size of a file, the check of the size, and the decoder -/
def loadRegions : ℕ → List ℕ → Run σ (List (List UInt8))
  | _, [] => pure []
  | i, limit :: limits => do
    let (off, size) ← entry i
    if limit < size then
      -- can't allow overwrites now can we
      throw (.err (-enoexec))
    else do
      before off size
      let output ← decode W fetch fuel k off size
      let outputs ← loadRegions (i + 1) limits
      pure (output :: outputs)

end Loop

/-- `__box_X_load` of the glz loader -/
def glzLoadMulti (W fuel : ℕ) (blob : List UInt8) (limits : List ℕ) :
    Except Stop (List (List UInt8)) :=
  let n := limits.length
  let x := wordAt blob 0
  let k := 0xf &&& (x >>> 24)
  let count := 0x00ffffff &&& x
  if count ≠ n then .error (.err (-enoexec))
  else
    (loadRegions W fuel k
      (fun i => pure (wordAt blob (1 + 2 * i + 0), wordAt blob (1 + 2 * i + 1)))
      (fun _ _ => pure ()) (readBlob (blob.drop (4 * (1 + 2 * n)))) 0 limits).run' ()

/-- `read(fd, buffer, size)` on a file, from the current position on -/
def fsRead (file : List UInt8) (size : ℕ) : Run ℕ (List UInt8) := fun pos =>
  let bytes := (file.drop pos).take size
  .ok (bytes, pos + bytes.length)

/-- `seek(fd, off, 0)` -/
def fsSeek (off : ℕ) : Run ℕ Unit := fun _ => .ok ((), off)

/-- `__box_X_seekread`, with the offset of its context -/
def fsSeekread (file : List UInt8) (off addr size : ℕ) : Run ℕ (List UInt8) := do
  fsSeek ((addr + off) % 2 ^ 32)
  let bytes ← fsRead file size
  if bytes.length < size then throw (.err (-einval)) else pure bytes

/-- Two words from the current position on -/
def fsWords (file : List UInt8) : Run ℕ (List UInt8) := do
  let x ← fsRead file 8
  if x.length < 8 then throw (.err (-enoexec)) else pure x

/-- `__box_X_load` of the fs loader, for hooks that succeed -/
def fsLoadMulti (W fuel : ℕ) (file : List UInt8) (limits : List ℕ) :
    Except Stop (List (List UInt8)) :=
  let n := limits.length
  let load : Run ℕ (List (List UInt8)) := do
    let x ← fsWords file
    let k := 0xf &&& (wordAt x 0 >>> 24)
    let count := wordAt x 1
    if count ≠ n then throw (.err (-enoexec))
    else
      let entry := fun i => do
        fsSeek ((1 + i) * 2 * 4)
        let x ← fsWords file
        pure (wordAt x 0, wordAt x 1)
      loadRegions W fuel k entry (fun _ _ => pure ()) (fsSeekread file ((1 + n) * 2 * 4)) 0 limits
  load.run' 0

/-- The buffer, `x` of the load function and `x` of the decoder -/
abbrev MultiReading := Buffer × List UInt8 × List UInt8

/-- `__box_X_buffer_read(NULL, addr, x, sizeof(x))` -/
def bdWords (c : BDLoader) (bdread : Bdread) (fuel addr : ℕ) : Run MultiReading (List UInt8) :=
  fun s => match bufferRead c bdread fuel 0 addr 8 (s.1, s.2.1) with
    | .error e => .error e
    | .ok (buffer, x) => .ok (x, (buffer, x, s.2.2))

/-- `__box_X_buffer_read(NULL, off, region, size)`, whose output the decoder then overwrites -/
def bdRegion (c : BDLoader) (bdread : Bdread) (fuel off size : ℕ) : Run MultiReading Unit :=
  fun s => match bufferRead c bdread fuel 0 off size (s.1, List.replicate size 0) with
    | .error e => .error e
    | .ok (buffer, _) => .ok ((), (buffer, s.2))

/-- The decoder's callback -/
def bdFetch (c : BDLoader) (bdread : Bdread) (fuel ctx addr n : ℕ) :
    Run MultiReading (List UInt8) :=
  fun s => match bufferFetch c bdread fuel ctx addr n (s.1, s.2.2) with
    | .error e => .error e
    | .ok (bytes, (buffer, y)) => .ok (bytes, (buffer, s.2.1, y))

/-- `__box_X_load` of the bd loader -/
def bdLoadMulti (c : BDLoader) (W : ℕ) (bdread : Bdread) (fuel : ℕ) (buffer : Buffer)
    (x y : List UInt8) (limits : List ℕ) : Except Stop (List (List UInt8)) :=
  let n := limits.length
  let load : Run MultiReading (List (List UInt8)) := do
    let x ← bdWords c bdread fuel c.addr
    let k := 0xf &&& (wordAt x 0 >>> 24)
    let count := wordAt x 1
    if count ≠ n then throw (.err (-enoexec))
    else
      let entry := fun i => do
        let x ← bdWords c bdread fuel (c.addr + (1 + i) * 2 * 4)
        pure (wordAt x 0, wordAt x 1)
      loadRegions W fuel k entry (bdRegion c bdread fuel)
        (bdFetch c bdread fuel ((c.addr + (1 + n) * 2 * 4) % 2 ^ 32)) 0 limits
  load.run' ({ buffer with block := 2 ^ 32 - 1 }, x, y)

/-! ## Section 3: The words of the tool -/

/-- The options of `-n -I` -/
structure ManyFiles (opt : CommonOpt) : Prop where
  archive : opt.archive = false
  index : opt.index = true
  noMagic : opt.noMagic = true
  noHeaders : opt.noHeaders = false
  noTable : opt.noTable = false
  leb128 : opt.leb128 = false

/-- The header, and the offset and length of each file -/
def indexWords (g : GLZ) (offs : List (ℕ × ℕ)) : List ℕ :=
  (2 <<< 28 ||| g.k <<< 24 ||| offs.length) ::
    offs.flatMap fun range => [9 * g.decodeTable.length + range.1, range.2]

theorem length_offs {g : GLZ} {slices : List (List UInt8)} {bits : Bits} {offs : List (ℕ × ℕ)}
    (henc : g.encodeAll slices = .ok (bits, offs)) : offs.length = slices.length := by
  obtain ⟨_, -, hread⟩ := Glz.GLZ.readable_encodeAll henc
  exact hread.length_eq.symm

/-- What a file contributes to the output depends on its range only. -/
theorem flatMap_zip_snd {α β γ : Type} (f : β → List γ) {xs : List α} {ys : List β}
    (h : xs.length = ys.length) : (xs.zip ys).flatMap (fun entry => f entry.2) = ys.flatMap f := by
  induction xs generalizing ys with
  | nil =>
    obtain rfl := List.length_eq_zero_iff.mp h.symm
    rfl
  | cons x xs ih =>
    cases ys with
    | nil => cases h
    | cons y ys =>
      rw [List.zip_cons_cons, List.flatMap_cons, List.flatMap_cons,
        ih (Nat.succ.inj h)]

theorem encodeFile_manyFiles {opt : CommonOpt} (hopt : ManyFiles opt) {g : GLZ}
    {paths : List InputFile} {bits : Bits} {offs : List (ℕ × ℕ)} {file : List UInt8}
    (henc : g.encodeAll (paths.map InputFile.data) = .ok (bits, offs))
    (hfile : g.encodeFile opt paths = .ok file) :
    ∃ body, g.writeBlob bits = .ok body ∧
      file = ((indexWords g offs).flatMap fun w => Glz.toLeBytes (w % 2 ^ 32)) ++ body := by
  obtain ⟨harchive, hindex, hmagic, hheaders, htable, hleb⟩ := hopt
  have hlength := length_offs henc
  rw [List.length_map] at hlength
  have hinputs : Glz.inputs opt paths = paths.map InputFile.data := by simp [Glz.inputs, harchive]
  rw [GLZ.encodeFile, hinputs] at hfile
  obtain ⟨_, henc', hfile⟩ := Glz.Res.bind_eq_ok.mp hfile
  rw [henc] at henc'
  cases henc'
  obtain ⟨_, -, hfile⟩ := Glz.Res.bind_eq_ok.mp hfile
  obtain ⟨body, hbody, hfile⟩ := Glz.Res.bind_eq_ok.mp hfile
  cases hfile
  rw [GLZ.writeBody, htable] at hbody
  refine ⟨body, hbody, ?_⟩
  have hwritten : Glz.headers opt g paths (Glz.adjust opt g offs) =
      Glz.toLeBytes ((2 <<< 28 ||| g.k <<< 24 ||| offs.length) % 2 ^ 32) ++
        (paths.zip (Glz.adjust opt g offs)).flatMap fun entry =>
          Glz.toLeBytes (entry.2.1 % 2 ^ 32) ++ Glz.toLeBytes (entry.2.2 % 2 ^ 32) := by
    simp [Glz.headers, Glz.mktype, Glz.mkflags, Glz.writeMeta, Glz.writeSize, Glz.writeSizes,
      Glz.TYPE_INDEX, Glz.TYPE_ARCHIVE, Glz.FLAG_LEB128, harchive, hindex, hmagic, hheaders, hleb,
      hlength]
  have hranges : paths.length = (Glz.adjust opt g offs).length := by
    rw [Glz.adjust, List.length_map, hlength]
  have hentries := flatMap_zip_snd (fun range : ℕ × ℕ => Glz.toLeBytes (range.1 % 2 ^ 32) ++
    Glz.toLeBytes (range.2 % 2 ^ 32)) hranges
  rw [hwritten, hentries, Glz.adjust, Glz.tableSize, htable, indexWords, List.flatMap_cons,
    List.flatMap_map, List.flatMap_assoc]
  simp [GLZ.WIDTH]

/-- Words are read as they were written. -/
theorem wordAt_flatMap {ws : List ℕ} {i w : ℕ} (rest : List UInt8) (h : ws[i]? = some w)
    (hw : w < 2 ^ 32) :
    wordAt ((ws.flatMap fun w => Glz.toLeBytes (w % 2 ^ 32)) ++ rest) i = w := by
  induction ws generalizing i with
  | nil => cases h
  | cons x ws ih =>
    rw [List.flatMap_cons, List.append_assoc]
    cases i with
    | zero =>
      cases h
      rw [wordAt, Nat.mul_zero, List.drop_zero, Nat.mod_eq_of_lt hw]
      exact Glz.fromLeBytes_toLeBytes hw _
    | succ i =>
      have hdrop : ∀ bytes : List UInt8,
          wordAt (Glz.toLeBytes (x % 2 ^ 32) ++ bytes) (i + 1) = wordAt bytes i := fun _ => rfl
      rw [hdrop]
      exact ih h

/-- The entry of file `i` -/
theorem indexWords_entry {g : GLZ} {offs : List (ℕ × ℕ)} {i off size : ℕ}
    (h : offs[i]? = some (off, size)) :
    (indexWords g offs)[1 + 2 * i]? = some (9 * g.decodeTable.length + off) ∧
      (indexWords g offs)[1 + 2 * i + 1]? = some size := by
  have hflat : ∀ (rs : List (ℕ × ℕ)) (j : ℕ), rs[j]? = some (off, size) →
      (rs.flatMap fun r => [9 * g.decodeTable.length + r.1, r.2])[2 * j]? =
          some (9 * g.decodeTable.length + off) ∧
        (rs.flatMap fun r => [9 * g.decodeTable.length + r.1, r.2])[2 * j + 1]? =
          some size := by
    intro rs
    induction rs with
    | nil =>
      intro j hj
      cases hj
    | cons r rs ih =>
      intro j hj
      cases j with
      | zero =>
        cases hj
        exact ⟨rfl, rfl⟩
      | succ j => exact ih j hj
  obtain ⟨hoff, hsize⟩ := hflat offs i h
  rw [Nat.add_comm 1, indexWords, List.getElem?_cons_succ, List.getElem?_cons_succ]
  exact ⟨hoff, hsize⟩

theorem length_indexWords (g : GLZ) (offs : List (ℕ × ℕ)) :
    (indexWords g offs).length = 1 + 2 * offs.length := by
  have hflat : ∀ rs : List (ℕ × ℕ),
      (rs.flatMap fun r => [9 * g.decodeTable.length + r.1, r.2]).length = 2 * rs.length := by
    intro rs
    induction rs with
    | nil => rfl
    | cons r rs ih =>
      rw [List.flatMap_cons, List.length_append, ih, List.length_cons]
      simp only [List.length_cons, List.length_nil]
      omega
  rw [indexWords, List.length_cons, hflat]
  omega

theorem length_flatMap_toLeBytes (ws : List ℕ) :
    (ws.flatMap fun w => Glz.toLeBytes (w % 2 ^ 32)).length = 4 * ws.length := by
  induction ws with
  | nil => rfl
  | cons w ws ih =>
    rw [List.flatMap_cons, List.length_append, ih, List.length_cons]
    simp only [Glz.toLeBytes, List.length_cons, List.length_nil]
    omega

/-! ## Section 4: What is read -/

/-- The loop over the regions returns what the decoder yields for each. -/
theorem yields_loadRegions {σ : Type} {I : σ → Prop} {W fuel k : ℕ}
    {entry : ℕ → Run σ (ℕ × ℕ)} {before : ℕ → ℕ → Run σ Unit}
    {fetch : ℕ → ℕ → Run σ (List UInt8)} {limits : List ℕ} {outs : List (List UInt8)} (i : ℕ)
    (hlength : limits.length = outs.length)
    (h : ∀ j limit out, limits[j]? = some limit → outs[j]? = some out →
      ∃ off size, Yields I (entry (i + j)) (off, size) ∧ size ≤ limit ∧
        Yields I (before off size) () ∧ Yields I (decode W fetch fuel k off size) out) :
    Yields I (loadRegions W fuel k entry before fetch i limits) outs := by
  induction limits generalizing i outs with
  | nil =>
    obtain rfl := List.length_eq_zero_iff.mp hlength.symm
    exact Yields.pure _ _
  | cons limit limits ih =>
    cases outs with
    | nil => cases hlength
    | cons out outs =>
      obtain ⟨off, size, hentry, hle, hbefore, hdecode⟩ := h 0 limit out rfl rfl
      refine Yields.bind hentry ?_
      dsimp only
      rw [if_neg (by omega)]
      refine Yields.bind hbefore (Yields.bind hdecode (Yields.bind ?_ (Yields.pure _ _)))
      refine ih (i + 1) (Nat.succ.inj hlength) fun j limit out hlimit hout => ?_
      rw [Nat.add_assoc, Nat.add_comm 1]
      exact h (j + 1) limit out hlimit hout

/-- A longer blob serves what its front does. -/
theorem Serves.of_append {σ : Type} {I : σ → Prop} {read : ℕ → ℕ → Run σ (List UInt8)}
    {blob tail : List UInt8} (h : Serves I read (blob ++ tail)) : Serves I read blob := by
  intro addr n hn hle
  have hserved := h addr n hn (by rw [List.length_append]; omega)
  rwa [List.drop_append_of_le_length (by omega),
    List.take_append_of_le_length (by rw [List.length_drop]; omega)] at hserved

/-- Word `i` of the file, for any memory behind it -/
theorem wordAt_file {g : GLZ} {offs : List (ℕ × ℕ)} {i w : ℕ} (body tail : List UInt8)
    (h : (indexWords g offs)[i]? = some w) (hw : w < 2 ^ 32) :
    wordAt (((indexWords g offs).flatMap fun w => Glz.toLeBytes (w % 2 ^ 32)) ++ body ++ tail) i =
      w := by
  rw [List.append_assoc]
  exact wordAt_flatMap _ h hw

/-- The glz loader, given its table, reads the files as the tool has written them. -/
theorem glzLoadMulti_eq {opt : CommonOpt} {W : ℕ} {g : GLZ} {paths : List InputFile}
    {bits : Bits} {offs : List (ℕ × ℕ)} {file : List UInt8} {limits : List ℕ}
    (hopt : ManyFiles opt) (hm : opt.m = glzM) (hl : opt.l ≤ 8)
    (hcodec : Glz.codec opt paths = .ok (some g))
    (henc : g.encodeAll (paths.map InputFile.data) = .ok (bits, offs))
    (hfile : g.encodeFile opt paths = .ok file) (hk : g.k < 16) (hn : paths.length < 2 ^ 24)
    (hfits : 9 * g.decodeTable.length + bits.length < 2 ^ 32 - 1)
    (hindex : g.decodeTable.length ≤ 2 ^ W) (hentries : HasEntries g bits)
    (hdata : ∀ path ∈ paths, path.data.length < 2 ^ 32)
    (hlimits : List.Forall₂ (fun path limit => path.data.length ≤ limit) paths limits) :
    ∃ enough, ∀ fuel, enough ≤ fuel → ∀ tail,
      glzLoadMulti W fuel (file ++ tail) limits = .ok (paths.map InputFile.data) := by
  obtain ⟨body, hbody, rfl⟩ := encodeFile_manyFiles hopt henc hfile
  obtain ⟨hl', hm', h₀, hset⟩ := setTable_of_codec hcodec
  obtain ⟨vals, hvals, -⟩ := id hentries
  have hlength := length_offs henc
  rw [List.length_map] at hlength
  have hcount : limits.length = paths.length := hlimits.length_eq.symm
  have hread := Glz.GLZ.readable_encodeAll henc
  obtain ⟨_, -, hread⟩ := hread
  obtain ⟨hword, hkfield, hcountfield⟩ := Glz.metaWord_fields (show 2 < 2 ^ 4 by decide) hk
    (show offs.length < 2 ^ 24 by omega)
  refine ⟨8 * body.length + 2 ^ 33, fun fuel hfuel tail => ?_⟩
  -- the fields of the header, as they are read
  have hzero : wordAt (((indexWords g offs).flatMap fun w => Glz.toLeBytes (w % 2 ^ 32)) ++ body ++
      tail) 0 = 2 <<< 28 ||| g.k <<< 24 ||| offs.length := wordAt_file body tail rfl hword
  have hdrop : (((indexWords g offs).flatMap fun w => Glz.toLeBytes (w % 2 ^ 32)) ++ body ++
      tail).drop (4 * (1 + 2 * limits.length)) = body ++ tail := by
    rw [List.append_assoc, List.drop_left']
    rw [length_flatMap_toLeBytes, length_indexWords]
    omega
  have hserves : Serves (fun _ => True) (readBlob (body ++ tail)) body :=
    (serves_readBlob (body ++ tail)).of_append
  rw [glzLoadMulti]
  simp only [hzero, hkfield, hcountfield, hdrop]
  rw [if_neg (by omega)]
  -- from here on each region by itself
  refine Yields.run' (I := fun _ => True)
    (yields_loadRegions 0 (by rw [List.length_map, hcount]) ?_) trivial
  intro j limit out hlimit hout
  obtain ⟨path, hpath, rfl⟩ : ∃ path, paths[j]? = some path ∧ path.data = out := by
    rw [List.getElem?_map] at hout
    exact Option.map_eq_some_iff.mp hout
  have hmem : path ∈ paths := List.mem_of_getElem? hpath
  have hslice := hdata path hmem
  obtain ⟨off, hoff, -, hyields⟩ := yields_decode_encodeAll hset (hm'.trans hm)
    (hl'.trans_le hl) hk henc hbody hfits hindex hentries hvals j path.data hout hslice
  obtain ⟨hoffword, hsizeword⟩ := indexWords_entry (g := g) hoff
  have hbound : off ≤ bits.length := by
    obtain ⟨hj, hget⟩ := List.getElem?_eq_some_iff.mp hoff
    have hat := hread.get (by rw [hread.length_eq]; exact hj) hj
    simp only [List.get_eq_getElem, hget] at hat
    exact hat.2.1
  have hle : path.data.length ≤ limit := by
    obtain ⟨hj, rfl⟩ := List.getElem?_eq_some_iff.mp hpath
    obtain ⟨hj', rfl⟩ := List.getElem?_eq_some_iff.mp hlimit
    exact hlimits.get hj hj'
  refine ⟨9 * g.decodeTable.length + off, path.data.length, ?_, hle, Yields.pure _ _,
    hyields fuel (by omega) (hserves.fetches g vals)⟩
  rw [Nat.zero_add, Nat.add_zero, wordAt_file body tail hoffword (by omega),
    wordAt_file body tail hsizeword hslice]
  exact Yields.pure _ _

theorem fsWords_eq {file x : List UInt8} {pos : ℕ} (h : (file.drop pos).take 8 = x)
    (hx : x.length = 8) : fsWords file pos = .ok (x, pos + 8) := by
  have hread : fsRead file 8 pos = .ok (x, pos + 8) := by
    rw [fsRead, h, hx]
  rw [fsWords, Fueled.bind_of_ok hread, if_neg (by omega)]
  rfl

/-- The words at the front of a file -/
theorem fsWords_front (a b : ℕ) (rest : List UInt8) :
    fsWords (Glz.toLeBytes a ++ (Glz.toLeBytes b ++ rest)) 0 =
      .ok (Glz.toLeBytes a ++ (Glz.toLeBytes b ++ []), 8) :=
  fsWords_eq rfl rfl

/-- The second one -/
theorem wordAt_second (a : ℕ) {b : ℕ} (hb : b < 2 ^ 32) :
    wordAt (Glz.toLeBytes a ++ (Glz.toLeBytes b ++ [])) 1 = b := by
  have hdrop : wordAt (Glz.toLeBytes a ++ (Glz.toLeBytes b ++ [])) 1 =
      Glz.fromLeBytes (Glz.toLeBytes b ++ []) := rfl
  rw [hdrop, Glz.fromLeBytes_toLeBytes hb]

theorem fsLoadMulti_of_count {W fuel : ℕ} {file x : List UInt8} {limits : List ℕ} {pos : ℕ}
    (h : fsWords file 0 = .ok (x, pos)) (hcount : wordAt x 1 ≠ limits.length) :
    fsLoadMulti W fuel file limits = .error (.err (-enoexec)) := by
  simp only [fsLoadMulti, StateT.run', bind, StateT.bind, h, Except.bind]
  rw [if_pos hcount]
  rfl

/-- The fs loader, given its table, takes the offset of the first file for the number of files. -/
theorem fsLoadMulti_eq {opt : CommonOpt} {W fuel : ℕ} {g : GLZ} {paths : List InputFile}
    {bits : Bits} {offs : List (ℕ × ℕ)} {file : List UInt8} {limits : List ℕ} {off size : ℕ}
    (hopt : ManyFiles opt) (henc : g.encodeAll (paths.map InputFile.data) = .ok (bits, offs))
    (hfile : g.encodeFile opt paths = .ok file) (hoff : offs[0]? = some (off, size))
    (hword : 9 * g.decodeTable.length + off < 2 ^ 32)
    (hcount : 9 * g.decodeTable.length + off ≠ limits.length) :
    fsLoadMulti W fuel file limits = .error (.err (-enoexec)) := by
  obtain ⟨body, -, rfl⟩ := encodeFile_manyFiles hopt henc hfile
  obtain ⟨hoffword, -⟩ := indexWords_entry (g := g) hoff
  obtain ⟨w, ws, hwords⟩ : ∃ w ws, indexWords g offs =
      w :: (9 * g.decodeTable.length + off) :: ws := by
    obtain ⟨range, offs, rfl⟩ : ∃ range rest, offs = range :: rest := by
      cases offs with
      | nil => cases hoff
      | cons range rest => exact ⟨range, rest, rfl⟩
    cases hoff
    exact ⟨_, _, rfl⟩
  rw [hwords]
  rw [List.flatMap_cons, List.flatMap_cons, List.append_assoc, List.append_assoc,
    Nat.mod_eq_of_lt hword]
  refine fsLoadMulti_of_count (fsWords_front _ _ _) ?_
  rwa [wordAt_second _ hword]

/-! ## Section 5: No load function -/

/-- `%(box)_` is no directive. -/
theorem not_generated_bd {attrs : String → Option Value} {box : String} {memories : List String} :
    ¬Reader.bd.Generated attrs box memories := by
  intro h
  have hall := format_eq_ok.mp h.template
  apply formatDirective_ne_ok (d := ⟨"box", '_'⟩) (by decide) (by decide)
  exact hall _ (by decide)

/-- There is no comma between the regions. -/
theorem parseTable_loadregions (box : String) {memories : List String}
    (hn : 2 ≤ memories.length) : parseTable (loadregions box memories) = none := by
  match memories, hn with
  | first :: second :: rest, _ =>
    simp [loadregions, regionEntry, parseTable, parseEntries]

/-- A loader is generated and compiled, and its load function sets the regions to the files. -/
def Reader.LoadsFiles (reader : Reader) (attrs : String → Option Value) (box : String)
    (memories : List String) (W : ℕ) (c : BDLoader) (device : ℕ → UInt8) (file : List UInt8)
    (limits : List ℕ) (contents : List (List UInt8)) : Prop :=
  reader.Generated attrs box memories ∧
    match reader with
    | .glz => ∃ enough, ∀ fuel, enough ≤ fuel → ∀ tail,
        glzLoadMulti W fuel (file ++ tail) limits = .ok contents
    | .bd => ∀ bdread, HookServes c device bdread → ∀ (buffer : Buffer) (x y : List UInt8),
        x.length = 8 → y.length = 2 → ∃ enough, ∀ fuel, enough ≤ fuel →
          bdLoadMulti c W bdread fuel buffer x y limits = .ok contents
    | .fs => ∃ enough, ∀ fuel, enough ≤ fuel → fsLoadMulti W fuel file limits = .ok contents

/-- No loader loads two regions or more. -/
theorem not_loadsFiles (reader : Reader) (attrs : String → Option Value) (box : String)
    (memories : List String) (W : ℕ) (c : BDLoader) (device : ℕ → UInt8) (file : List UInt8)
    (limits : List ℕ) (contents : List (List UInt8)) (hn : 2 ≤ memories.length) :
    ¬reader.LoadsFiles attrs box memories W c device file limits contents := by
  rintro ⟨⟨-, htable⟩, -⟩
  rw [parseTable_loadregions box hn] at htable
  cases htable

/-- Two memories -/
theorem not_loadsFiles_ram :
    ¬Reader.glz.LoadsFiles (fun _ => none) "box1" ["flash", "ram"] 32 (twoBlocks 0) (fun _ => 0)
      [2, 0, 0, 32, 9, 0, 0, 0, 1, 0, 0, 0, 9, 0, 0, 0, 1, 0, 0, 0, 0, 0] [16, 16] [[0], [0]] :=
  not_loadsFiles .glz (fun _ => none) "box1" ["flash", "ram"] 32 (twoBlocks 0) (fun _ => 0) _
    [16, 16] [[0], [0]] (by decide)

/-- Two files of one zero byte, which the tool compresses and no template for a block device
can load. -/
theorem not_loadsFiles_zeros : ∃ opt g file, ManyFiles opt ∧
    Glz.codec opt [⟨[0x61], [0]⟩, ⟨[0x62], [0]⟩] = .ok (some g) ∧
    g.encodeFile opt [⟨[0x61], [0]⟩, ⟨[0x62], [0]⟩] = .ok file ∧
    ∀ attrs W c device,
      ¬∀ reader : Reader, reader.LoadsFiles attrs "box1" ["flash", "ram"] W c device file [16, 16]
        [[0], [0]] := by
  refine ⟨{ shortOpt with index := true }, ⟨5, 4, ⟨⟨0⟩, [1], some ([0], [0])⟩⟩,
    [2, 0, 0, 32, 9, 0, 0, 0, 1, 0, 0, 0, 9, 0, 0, 0, 1, 0, 0, 0, 0, 0],
    ⟨rfl, rfl, rfl, rfl, rfl, rfl⟩, ?_, ?_, ?_⟩
  · have hfirst : (GLZ.withConfig GLZ.DEFAULT_K 5 4).encodeAll (U := UInt8) [[0], [0]] =
        .ok (List.replicate 10 false, [(0, 1), (0, 1)]) := by
      rw [GLZ.encodeAll, List.mergeSort_of_pairwise (by decide)]
      decide +kernel
    have htwo : GLZ.twoPass none 5 4 [[0], [0]] = .ok ⟨5, 4, ⟨⟨0⟩, [1], some ([0], [0])⟩⟩ :=
      Glz.Res.bind_eq_ok.mpr ⟨_, hfirst, Glz.Res.bind_eq_ok.mpr ⟨[0], by decide +kernel,
        Glz.Res.bind_eq_ok.mpr ⟨⟨[1], none⟩, by decide +kernel, fromHist_zero⟩⟩⟩
    exact Glz.Res.bind_eq_ok.mpr ⟨_, htwo, rfl⟩
  · have henc : GLZ.encodeAll (U := UInt8) ⟨5, 4, ⟨⟨0⟩, [1], some ([0], [0])⟩⟩ [[0], [0]] =
        .ok ([false], [(0, 1), (0, 1)]) := by
      rw [GLZ.encodeAll, List.mergeSort_of_pairwise (by decide)]
      decide +kernel
    refine Glz.Res.bind_eq_ok.mpr ⟨_, henc, Glz.Res.bind_eq_ok.mpr ⟨(), ?_,
      Glz.Res.bind_eq_ok.mpr ⟨[0, 0], by decide +kernel, by decide +kernel⟩⟩⟩
    unfold Glz.printFiles Glz.filesAfter
    rw [List.mergeSort_of_pairwise (by decide +kernel)]
    decide +kernel
  · intro attrs W c device h
    exact not_generated_bd (h .bd).1

end BentoLinker.Loader
