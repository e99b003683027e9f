import BentoLinker.Loader.BlockDevice

/-!
# Compressed Images on a Block Device

When the load function of `bd.py` puts exactly the image into RAM that `glz encode -n` has
compressed, for all hooks that behave inside the configured region.

1. `OneFile`: what the tool writes for one file
2. `LoadsExactly`: the image, or `-ENOEXEC` if it does not fit
3. `HeaderFits`, `BlobFits`: no read is cut by a buffer or leaves the region
4. Loads whose reads are not cut are exact
-/

namespace BentoLinker.Loader

open BitCode
open Glz (GLZ GLZSym CommonOpt InputFile)

/-! ## Section 1: The file -/

/-- The options of `-n`: a header with the length, and a blob with its table -/
structure OneFile (opt : CommonOpt) : Prop where
  archive : opt.archive = false
  index : opt.index = false
  noMagic : opt.noMagic = true
  noLen : opt.noLen = false
  noHeaders : opt.noHeaders = false
  noTable : opt.noTable = false
  leb128 : opt.leb128 = false

/-- Two words, and the blob behind them -/
theorem encodeFile_oneFile {opt : CommonOpt} (hopt : OneFile opt) {g : GLZ}
    {path image file : List UInt8} {bits : Bits} {offs : List (ℕ × ℕ)}
    (henc : g.encodeAll [image] = .ok (bits, offs))
    (hfile : g.encodeFile opt [⟨path, image⟩] = .ok file) :
    ∃ body, g.writeBlob bits = .ok body ∧
      file = Glz.toLeBytes ((1 <<< 28 ||| g.k <<< 24 ||| 9 * g.decodeTable.length) % 2 ^ 32) ++
        (Glz.toLeBytes (image.length % 2 ^ 32) ++ body) := by
  obtain ⟨harchive, hindex, hmagic, hlen, hheaders, htable, hleb⟩ := hopt
  have hinputs : Glz.inputs opt [⟨path, image⟩] = [image] := by simp [Glz.inputs, harchive]
  rw [GLZ.encodeFile, hinputs] at hfile
  obtain ⟨_, henc', hfile⟩ := Glz.Res.bind_eq_ok.mp hfile
  rw [henc] at henc'
  cases henc'
  obtain ⟨_, -, hfile⟩ := Glz.Res.bind_eq_ok.mp hfile
  obtain ⟨body, hbody, hfile⟩ := Glz.Res.bind_eq_ok.mp hfile
  cases hfile
  rw [GLZ.writeBody, htable] at hbody
  refine ⟨body, hbody, ?_⟩
  simp [Glz.headers, Glz.mktype, Glz.mkflags, Glz.writeMeta, Glz.writeSize, Glz.tableSize,
    Glz.TYPE_LEN, Glz.TYPE_INDEX, Glz.TYPE_ARCHIVE, Glz.FLAG_LEB128, GLZ.WIDTH, hinputs, harchive,
    hindex, hmagic, hlen, hheaders, htable, hleb]

/-! ## Section 2: What is asked for -/

/-- The load function returns 0 with exactly the image in RAM if that fits, and `-ENOEXEC`
otherwise. As this is so for every hook that serves the region, there is no read outside: a hook
may fail there. -/
def LoadsExactly (c : BDLoader) (W mem : ℕ) (device : ℕ → UInt8) (image : List UInt8) : Prop :=
  ∀ bdread, HookServes c device bdread → ∀ (buffer : Buffer) (x y : List UInt8),
    x.length = 8 → y.length = 2 → ∃ enough, ∀ fuel, enough ≤ fuel →
      bdLoad c W mem bdread fuel buffer x y =
        if image.length ≤ mem then .ok image else .error (.err (-enoexec))

/-! ## Section 3: When reads are not cut -/

/-- The header stands in the first buffer of the region. -/
structure HeaderFits (c : BDLoader) (length : ℕ) : Prop where
  aligned : c.bufferSize ∣ c.addr
  buffer : 8 ≤ c.bufferSize
  room : c.bufferSize ≤ c.size
  /-- the bounds check takes the size of the region for its end -/
  bound : c.addr + 8 ≤ c.size
  word : c.addr + 8 < 2 ^ 32
  block : c.blockSize < 2 ^ 32
  /-- rounding up to the read size does not overflow -/
  rounded : length + c.readSize ≤ 2 ^ 32

/-- The decoder finds the table and the stream that `bits` are written with. -/
structure BlobFits (c : BDLoader) (W : ℕ) (g : GLZ) (bits : Bits) (file image : List UInt8) :
    Prop where
  /-- rounding up to the read size changes nothing -/
  aligned : c.readSize ∣ image.length
  bound : c.addr + file.length ≤ c.size
  word : c.addr + file.length < 2 ^ 32
  room : (file.length + c.bufferSize - 1) / c.bufferSize * c.bufferSize ≤ c.size
  /-- no entry that is used stands at the end of a buffer -/
  entries : ∀ vals, g.traverseSyms bits = .ok vals → ∀ i n, g.decodeTable[i]? = some n →
    n ∈ vals → (8 + 9 * i / 8) % c.bufferSize + 2 ≤ c.bufferSize
  hasEntries : HasEntries g bits
  k : g.k < 16
  fits : 9 * g.decodeTable.length + bits.length < 2 ^ 32 - 1
  table : 9 * g.decodeTable.length < 2 ^ 24
  index : g.decodeTable.length ≤ 2 ^ W

/-! ## Section 4: Loads -/

/-- The buffers over a part of an aligned region stay in the part, rounded up. -/
theorem aligndown_within {base a n size : ℕ} (hbase : size ∣ base) (hsize : 0 < size)
    (hle : base ≤ a) (hlt : a < base + n) :
    base ≤ bdAligndown a size ∧
      bdAligndown a size + size ≤ base + (n + size - 1) / size * size := by
  obtain ⟨q, rfl⟩ := hbase
  obtain ⟨i, rfl⟩ : ∃ i, a = size * q + i := ⟨a - size * q, by omega⟩
  have hdown : bdAligndown (size * q + i) size = size * q + size * (i / size) := by
    have := Nat.div_add_mod i size
    rw [bdAligndown, Nat.mul_add_mod]
    omega
  have hup : i / size + 1 ≤ (n + size - 1) / size := by
    rw [Nat.le_div_iff_mul_le hsize, Nat.add_mul, Nat.one_mul]
    have := Nat.div_mul_le_self i size
    omega
  have := Nat.mul_le_mul_left size hup
  rw [Nat.mul_add, Nat.mul_one] at this
  rw [hdown, Nat.mul_comm _ size]
  omega

theorem le_bdAlignup {n size : ℕ} (hsize : 0 < size) (hn : n + size ≤ 2 ^ 32) :
    n ≤ bdAlignup n size := by
  rw [bdAlignup, Nat.mod_eq_of_lt (by omega), bdAligndown]
  have := Nat.mod_lt (n + size - 1) hsize
  omega

theorem bdAlignup_of_dvd {n size : ℕ} (hsize : 0 < size) (hn : n + size ≤ 2 ^ 32)
    (hdvd : size ∣ n) : bdAlignup n size = n := by
  obtain ⟨q, rfl⟩ := hdvd
  rw [bdAlignup, Nat.mod_eq_of_lt (by omega), bdAligndown, Nat.add_sub_assoc hsize,
    Nat.mul_add_mod, Nat.mod_eq_of_lt (by omega)]
  omega

section Loads

variable {c : BDLoader} {W mem : ℕ} {device : ℕ → UInt8} {bdread : Bdread}

/-- The two words of the header are read as they were written. -/
theorem bufferRead_header (hhook : HookServes c device bdread) (buffer : Buffer) {x : List UInt8}
    (hx : x.length = 8) {fuel n : ℕ} (hfuel : 2 ≤ fuel) (hfits : HeaderFits c n) :
    ∃ b, bufferRead c bdread fuel 0 c.addr 8 ({ buffer with block := 2 ^ 32 - 1 }, x) =
      .ok (b, span device c.addr 8) ∧ b.Valid c device := by
  have hbuffer := hfits.buffer
  have hroom := hfits.room
  have hcut : (c.addr + 0) % c.bufferSize = 0 := Nat.mod_eq_zero_of_dvd hfits.aligned
  have hdown : bdAligndown (c.addr + 0) c.bufferSize = c.addr := by
    rw [bdAligndown, hcut]
    omega
  have hempty : Buffer.Valid { buffer with block := 2 ^ 32 - 1 } c device := .inl rfl
  have hspec : ∃ b, bufferRead c bdread fuel 0 c.addr 8 ({ buffer with block := 2 ^ 32 - 1 }, x) =
      .ok (b, copyTo x (span device (c.addr + 0) 8)) ∧ b.Valid c device :=
    bufferRead_eq hhook hempty hfuel (by decide) hfits.block hfits.word hfits.bound (by omega)
      (by omega) (by omega)
  obtain ⟨b, hread, hvalid⟩ := hspec
  refine ⟨b, ?_, hvalid⟩
  rw [hread, copyTo, length_span, List.drop_eq_nil_of_le (by omega), List.append_nil]
  rfl

/-- The decoder's callback fetches the bytes of the blob behind the header. -/
theorem fetches_bufferFetch (hhook : HookServes c device bdread) {g : GLZ} {bits : Bits}
    {vals : List ℕ} {file image body : List UInt8} {fuel : ℕ} (hfuel : 2 ≤ fuel)
    (hheader : HeaderFits c image.length) (hfits : BlobFits c W g bits file image)
    (hvals : g.traverseSyms bits = .ok vals) (hlength : file.length = 8 + body.length)
    (hbody : span device (c.addr + 8) body.length = body) :
    Fetches (fun s : Reading => s.1.Valid c device ∧ s.2.length = 2)
      (bufferFetch c bdread fuel ((c.addr + 8) % 2 ^ 32)) g vals body := by
  have hword := hfits.word
  have hbound := hfits.bound
  have hroom := hfits.room
  -- a fetch that one buffer can serve
  have hfetch : ∀ addr n, 0 < n → n ≤ 2 → addr + n ≤ body.length →
      (8 + addr) % c.bufferSize + n ≤ c.bufferSize →
      Yields (fun s : Reading => s.1.Valid c device ∧ s.2.length = 2)
        (bufferFetch c bdread fuel ((c.addr + 8) % 2 ^ 32) addr n)
        ((body.drop addr).take n) := by
    rintro addr n hpos hle haddr hcut ⟨b, y⟩ ⟨hvalid, hy⟩
    obtain ⟨hlow, hhigh⟩ := aligndown_within (a := addr + (c.addr + 8)) (n := file.length)
      hheader.aligned c.buffer_pos (by omega) (by omega)
    have hcut' : (addr + (c.addr + 8)) % c.bufferSize + n ≤ c.bufferSize := by
      obtain ⟨q, hq⟩ := hheader.aligned
      rwa [show addr + (c.addr + 8) = 8 + addr + c.bufferSize * q by omega,
        Nat.add_mul_mod_self_left]
    have hspec : ∃ b', bufferRead c bdread fuel (c.addr + 8) addr n (b, y) =
        .ok (b', copyTo y (span device (addr + (c.addr + 8)) n)) ∧ b'.Valid c device :=
      bufferRead_eq hhook hvalid hfuel hpos hheader.block (by omega) (by omega) hcut' hlow
        (by omega)
    obtain ⟨b', hread, hvalid'⟩ := hspec
    have hcopied : (copyTo y (span device (addr + (c.addr + 8)) n)).take n =
        (body.drop addr).take n := by
      rw [copyTo, List.take_left' (length_span _ _ _), ← hbody, take_drop_span haddr,
        Nat.add_comm addr]
    refine ⟨(b', copyTo y (span device (addr + (c.addr + 8)) n)), ?_, hvalid', ?_⟩
    · simp only [bufferFetch]
      rw [Nat.mod_eq_of_lt (show c.addr + 8 < 2 ^ 32 by omega),
        Nat.mod_eq_of_lt (show addr < 2 ^ 32 by omega), hread]
      simp only [hcopied]
    · have hlen : y.length = 2 := hy
      rw [copyTo, List.length_append, length_span, List.length_drop]
      omega
  constructor
  · intro addr haddr
    exact hfetch addr 1 one_pos (by decide) haddr (Nat.mod_lt _ c.buffer_pos)
  · intro i n hentry hmem hle
    exact hfetch (9 * i / 8) 2 two_pos le_rfl hle (hfits.entries vals hvals i n hentry hmem)

/-- What the header says of the blob -/
theorem header_eq (k table : ℕ) {length : ℕ} (body : List UInt8) (hlength : length < 2 ^ 32) :
    Glz.fromLeBytes (((Glz.toLeBytes ((1 <<< 28 ||| k <<< 24 ||| table) % 2 ^ 32) ++
        (Glz.toLeBytes (length % 2 ^ 32) ++ body)).take 8).drop 4) = length ∧
      (k < 16 → table < 2 ^ 24 →
        0xf &&& (Glz.fromLeBytes ((Glz.toLeBytes ((1 <<< 28 ||| k <<< 24 ||| table) % 2 ^ 32) ++
          (Glz.toLeBytes (length % 2 ^ 32) ++ body)).take 8) >>> 24) = k ∧
        0x00ffffff &&& Glz.fromLeBytes ((Glz.toLeBytes ((1 <<< 28 ||| k <<< 24 ||| table) % 2 ^ 32)
          ++ (Glz.toLeBytes (length % 2 ^ 32) ++ body)).take 8) = table) := by
  have htake : ∀ (a b : ℕ), (Glz.toLeBytes a ++ (Glz.toLeBytes b ++ body)).take 8 =
      Glz.toLeBytes a ++ (Glz.toLeBytes b ++ []) := fun a b => rfl
  have hdrop : ∀ (a : ℕ) (rest : List UInt8), (Glz.toLeBytes a ++ rest).drop 4 = rest :=
    fun a rest => rfl
  rw [htake, hdrop, Glz.fromLeBytes_toLeBytes (Nat.mod_lt _ (by decide)),
    Glz.fromLeBytes_toLeBytes (Nat.mod_lt _ (by decide)), Nat.mod_eq_of_lt hlength]
  refine ⟨rfl, fun hk htable => ?_⟩
  obtain ⟨hword, hfields⟩ := Glz.metaWord_fields (show 1 < 2 ^ 4 by decide) hk htable
  rw [Nat.mod_eq_of_lt hword]
  exact hfields

end Loads

/-- The codec of the tool has its table from `set_table`. -/
theorem setTable_of_codec {opt : CommonOpt} {paths : List InputFile} {g : GLZ}
    (h : Glz.codec opt paths = .ok (some g)) :
    g.l = opt.l ∧ g.m = opt.m ∧
      ∃ h₀ : Glz.Hist, h₀.setTable g.decodeTable = .ok g.rice.bijecter := by
  unfold Glz.codec at h
  split at h
  · obtain ⟨_, hg, h⟩ := Glz.Res.bind_eq_ok.mp h
    cases h
    obtain ⟨_, -, hg⟩ := Glz.Res.bind_eq_ok.mp hg
    obtain ⟨_, -, hg⟩ := Glz.Res.bind_eq_ok.mp hg
    obtain ⟨_, -, hg⟩ := Glz.Res.bind_eq_ok.mp hg
    exact setTable_of_fromHist hg
  · obtain ⟨_, hg, h⟩ := Glz.Res.bind_eq_ok.mp h
    cases h
    obtain ⟨hist, hset, hg⟩ := Glz.Res.bind_eq_ok.mp hg
    cases hg
    refine ⟨rfl, rfl, Glz.Hist.new, ?_⟩
    obtain ⟨-, rfl⟩ := Glz.Hist.setTable_eq_ok hset
    exact hset
  · cases h

/-- Behind the header: the check of the size, and the decoder -/
theorem bdLoad_eq {c : BDLoader} {W mem : ℕ} {bdread : Bdread} {fuel : ℕ} {buffer b : Buffer}
    {x x' y : List UInt8} (h : bufferRead c bdread fuel 0 c.addr 8
      ({ buffer with block := 2 ^ 32 - 1 }, x) = .ok (b, x')) :
    bdLoad c W mem bdread fuel buffer x y =
      if mem < bdAlignup (Glz.fromLeBytes (x'.drop 4)) c.readSize then .error (.err (-enoexec))
      else (decode W (bufferFetch c bdread fuel ((c.addr + 8) % 2 ^ 32)) fuel
        (0xf &&& (Glz.fromLeBytes x' >>> 24)) (0x00ffffff &&& Glz.fromLeBytes x')
        (bdAlignup (Glz.fromLeBytes (x'.drop 4)) c.readSize)).run' (b, y) := by
  simp only [bdLoad, h, bind, Except.bind]

/-- `-n -L 5` -/
def shortOpt : CommonOpt := { CommonOpt.default with l := 5, noMagic := true }

theorem oneFile_shortOpt : OneFile shortOpt := ⟨rfl, rfl, rfl, rfl, rfl, rfl, rfl⟩

/-- What the tool finds for an image of one zero byte -/
theorem codec_zero : Glz.codec shortOpt [⟨[0x61], [0]⟩] =
    .ok (some ⟨5, 4, ⟨⟨0⟩, [1], some ([0], [0])⟩⟩) := by
  have hfirst : (GLZ.withConfig GLZ.DEFAULT_K 5 4).encodeAll (U := UInt8) [[0]] =
      .ok (List.replicate 10 false, [(0, 1)]) := by
    rw [GLZ.encodeAll, List.mergeSort_singleton]
    decide +kernel
  have htwo : GLZ.twoPass none 5 4 [[0]] = .ok ⟨5, 4, ⟨⟨0⟩, [1], some ([0], [0])⟩⟩ :=
    Glz.Res.bind_eq_ok.mpr ⟨_, hfirst, Glz.Res.bind_eq_ok.mpr ⟨[0], by decide +kernel,
      Glz.Res.bind_eq_ok.mpr ⟨⟨[1], none⟩, by decide +kernel, fromHist_zero⟩⟩⟩
  exact Glz.Res.bind_eq_ok.mpr ⟨_, htwo, rfl⟩

theorem encodeAll_zero : GLZ.encodeAll (U := UInt8) ⟨5, 4, ⟨⟨0⟩, [1], some ([0], [0])⟩⟩ [[0]] =
    .ok ([false], [(0, 1)]) := by
  rw [GLZ.encodeAll, List.mergeSort_singleton]
  decide +kernel

theorem encodeFile_zero :
    GLZ.encodeFile shortOpt ⟨5, 4, ⟨⟨0⟩, [1], some ([0], [0])⟩⟩ [⟨[0x61], [0]⟩] =
      .ok [9, 0, 0, 16, 1, 0, 0, 0, 0, 0] := by
  refine Glz.Res.bind_eq_ok.mpr ⟨_, encodeAll_zero, Glz.Res.bind_eq_ok.mpr ⟨(), ?_,
    Glz.Res.bind_eq_ok.mpr ⟨[0, 0], by decide +kernel, by decide +kernel⟩⟩⟩
  simp only [Glz.printFiles, Glz.filesAfter]
  decide +kernel

/-- A region of two blocks, with the default sizes of reads and of the buffer -/
def twoBlocks (addr : ℕ) : BDLoader := .fourKiB addr 0x2000

theorem init_twoBlocks (addr : ℕ) :
    BDLoader.init addr 0x2000 none none (some 0x1000) = some (twoBlocks addr) := by
  unfold BDLoader.init
  rw [dif_pos (by decide)]
  rfl

end BentoLinker.Loader
