import BentoLinker.Glz.Completion
import BentoLinker.Glz.RoundTrip

/-!
# Output Files Decoded

What `encode` has written, `decode` reads: each file of an archive by its name, each file of an
index by its number, and a single file without a choice.

1. A codec with the same table writes the same codes
2. The first file of the blob stands behind the table
3. `Written`: what is in an output file
4. `decode` up to the choice of a file
5. The choice, and the round trip
-/

namespace BentoLinker.Glz

open BitCode CopyStream FallibleFold PrefixReader

namespace GLZ

/-! ## Section 1: Tables -/

/-- Counts have no part in a code. -/
theorem encodeSym_congr {U : Type} [Sym U] (l m k : ℕ) (hist hist' : List ℕ)
    (table : Option (List ℕ × List ℕ)) (sym : GLZSym U) :
    encodeSym ⟨l, m, ⟨⟨k⟩, hist, table⟩⟩ sym = encodeSym ⟨l, m, ⟨⟨k⟩, hist', table⟩⟩ sym := by
  cases sym with
  | imm x => rfl
  | ref off size => rfl

theorem codeReader_congr {U : Type} [Sym U] (l m k : ℕ) (hist hist' : List ℕ)
    (table : Option (List ℕ × List ℕ)) (syms : List (GLZSym U)) :
    codeReader ⟨l, m, ⟨⟨k⟩, hist, table⟩⟩ syms = codeReader ⟨l, m, ⟨⟨k⟩, hist', table⟩⟩ syms := by
  unfold codeReader StartsWith
  simp only [encodeSym_congr l m k hist hist' table]

/-- Codes are read off the front of a stream, so they stand whatever follows it. -/
theorem codeReader_goesOn {U : Type} [Sym U] (g : GLZ) (syms : List (GLZSym U)) (P : Bits) :
    (g.codeReader syms).GoesOn P := by
  have hstarts : ∀ {S : Bits} {sym : GLZSym U} {d : ℕ}, g.StartsWith S sym d →
      d ≤ S.length ∧ g.StartsWith (S ++ P) sym d := by
    intro S sym d h
    refine ⟨h.length_le.2, ?_⟩
    obtain ⟨code, rest, rfl, hcode, rfl⟩ := h
    exact ⟨code, rest ++ P, List.append_assoc _ _ _, hcode, rfl⟩
  exact ⟨fun h => ⟨(hstarts h.2).1, h.1, (hstarts h.2).2⟩,
    fun h => ⟨(hstarts h.2).1, h.1, (hstarts h.2).2⟩⟩

/-- The codec of the decoder has the table, and no counts. -/
theorem withTable_of_table {g : GLZ} {t : List ℕ}
    (htable : g.rice.bijecter.table = some (Hist.invert t (t.max?.getD 0 + 1), t))
    (ht : ∀ n ∈ t, n < 2 ^ 9) :
    withTable g.k g.l g.m t = .ok ⟨g.l, g.m, ⟨⟨g.k⟩, [], g.rice.bijecter.table⟩⟩ := by
  have hmax : t.max?.getD 0 < 2 ^ 9 := by
    cases hmax : t.max? with
    | none => exact Nat.two_pow_pos 9
    | some n => exact ht n (List.max?_mem hmax)
  have hsize : addU32 (t.max?.getD 0) 1 = .ok (t.max?.getD 0 + 1) :=
    addU32_eq_ok.mpr ⟨by omega, rfl⟩
  rw [htable]
  exact Res.bind_eq_ok.mpr ⟨_, Res.bind_eq_ok.mpr ⟨_, hsize, rfl⟩, rfl⟩

end GLZ

/-- The search for a parameter goes up to the width of the largest code. -/
theorem GolombRice.fromHist_k_le {hist : Hist} {gr : GolombRice} {b : ℕ}
    (hbound : hist.bound = .ok b) (hb : b < 2 ^ 32) (h : fromHist hist = .ok gr) :
    gr.k ≤ (b - 1).size := by
  rw [fromHist, hbound] at h
  change (if b % 2 ^ 32 = 0 then _ else _) = _ at h
  rw [Nat.mod_eq_of_lt hb] at h
  split at h
  · cases h
    exact Nat.zero_le _
  obtain ⟨hits, -, h⟩ := Res.bind_eq_ok.mp h
  obtain ⟨sizes, hsizes, h⟩ := Res.bind_eq_ok.mp h
  have hks : ∀ sk ∈ sizes, sk.2 ≤ (b - 1).size := by
    intro sk hsk
    obtain ⟨k, hk, hsk⟩ := exists_left_of_mem (forall₂_of_mapM hsizes) hsk
    obtain ⟨size, -, hpure⟩ := Res.bind_eq_ok.mp hsk
    cases hpure
    exact Nat.le_of_lt_succ (List.mem_range.mp hk)
  have hfold : ∀ (others : List (ℕ × ℕ)) (first : ℕ × ℕ),
      others.foldl minSizeK first ∈ first :: others := by
    intro others
    induction others with
    | nil => exact fun first => List.mem_singleton_self first
    | cons other others ih =>
      intro first
      have hmem := ih (minSizeK first other)
      rw [List.foldl_cons]
      rcases List.mem_cons.mp hmem with heq | hmem
      · rw [heq, minSizeK]
        split
        · exact List.mem_cons_of_mem _ List.mem_cons_self
        · exact List.mem_cons_self
      · exact List.mem_cons_of_mem _ (List.mem_cons_of_mem _ hmem)
  cases sizes with
  | nil => cases h
  | cons first others =>
    cases h
    exact hks _ (hfold others first)

namespace GLZ

/-- A table of the tool has 512 entries at most, so nine bits are enough. -/
theorem k_le_of_twoPass {g : GLZ} {slices : List (List UInt8)} {syms t : List ℕ} {l m : ℕ}
    (h : twoPass none l m slices = .ok g) (hp : Prepared g slices syms t) : g.k ≤ 9 := by
  have hrice : GolombRice.fromHist g.rice.bijecter = .ok g.rice.encoder := by
    clear hp
    obtain ⟨_, -, h⟩ := Res.bind_eq_ok.mp h
    obtain ⟨_, -, h⟩ := Res.bind_eq_ok.mp h
    obtain ⟨_, -, h⟩ := Res.bind_eq_ok.mp h
    obtain ⟨_, -, h⟩ := Res.bind_eq_ok.mp h
    obtain ⟨_, -, h⟩ := Res.bind_eq_ok.mp h
    obtain ⟨rice, hrice, h⟩ := Res.bind_eq_ok.mp h
    cases h
    exact hrice
  have hbound : g.rice.bijecter.bound = .ok t.length := by
    rw [Hist.bound, hp.sorted.table]
    rfl
  refine (GolombRice.fromHist_k_le hbound hp.sorted.length hrice).trans (Nat.size_le.mpr ?_)
  have := hp.length_le
  omega

theorem config_of_twoPass {k : Option ℕ} {g : GLZ} {slices : List (List UInt8)} {l m : ℕ}
    (h : twoPass k l m slices = .ok g) : g.l = l ∧ g.m = m := by
  obtain ⟨_, -, h⟩ := Res.bind_eq_ok.mp h
  obtain ⟨_, -, h⟩ := Res.bind_eq_ok.mp h
  obtain ⟨_, -, h⟩ := Res.bind_eq_ok.mp h
  obtain ⟨_, -, h⟩ := Res.bind_eq_ok.mp h
  obtain ⟨_, -, h⟩ := Res.bind_eq_ok.mp h
  cases k with
  | some k =>
    cases h
    exact ⟨rfl, rfl⟩
  | none =>
    obtain ⟨_, -, h⟩ := Res.bind_eq_ok.mp h
    cases h
    exact ⟨rfl, rfl⟩

/-! ## Section 2: The front of the blob -/

section Front

variable {g : GLZ} {slices : List (List UInt8)} {a a' : AllEncoder UInt8} {slice : List UInt8}

/-- Some slice starts where the stream does. -/
def HasFront (slices : List (List UInt8)) (a : AllEncoder UInt8) : Prop :=
  ∃ s ∈ slices, a.offs s = some a.off

/-- The slice that is encoded last does, and there is one. -/
theorem hasFront_encodeAllStep (hslice : slice ∈ slices)
    (ha : HasFront slices a ∨ ∀ s, a.offs s = none ∧ a.history s = none)
    (h : g.encodeAllStep a slice = .ok a') : HasFront slices a' := by
  rw [encodeAllStep] at h
  split at h
  · next hsome =>
    cases h
    refine ha.resolve_right fun hnone => ?_
    rw [(hnone slice).1] at hsome
    cases hsome
  · next hnew =>
    split at h
    · next off hhistory =>
      cases h
      obtain ⟨s, hs, hoff⟩ := ha.resolve_right fun hnone => by
        rw [(hnone slice).2] at hhistory
        cases hhistory
      have hne : s ≠ slice := by
        rintro rfl
        exact hnew (hoff ▸ rfl)
      refine ⟨s, hs, ?_⟩
      change a.offs.insert slice off s = _
      rw [History.insert_apply, if_neg hne]
      exact hoff
    · obtain ⟨⟨blob, history, off⟩, -, h⟩ := Res.bind_eq_ok.mp h
      cases h
      refine ⟨slice, hslice, ?_⟩
      change a.offs.insert slice off slice = some off
      rw [History.insert_apply, if_pos rfl]

theorem hasFront_foldlM {l : List (List UInt8)} (hl : ∀ s ∈ l, s ∈ slices)
    (ha : HasFront slices a ∨ l ≠ [] ∧ ∀ s, a.offs s = none ∧ a.history s = none)
    (h : l.foldlM g.encodeAllStep a = .ok a') : HasFront slices a' := by
  induction l generalizing a with
  | nil =>
    cases h
    exact ha.resolve_right fun hnone => hnone.1 rfl
  | cons s l ih =>
    rw [List.foldlM_cons, Res.bind_eq_ok] at h
    obtain ⟨a₁, hstep, h⟩ := h
    have hfront := hasFront_encodeAllStep (hl s List.mem_cons_self) (ha.imp_right And.right) hstep
    exact ih (fun s' hs' => hl s' (List.mem_cons_of_mem _ hs')) (.inl hfront) h

/-- Some range starts with the stream. -/
theorem exists_range_zero {bits : Bits} {offs : List (ℕ × ℕ)} (hne : slices ≠ [])
    (h : g.encodeAll slices = .ok (bits, offs)) : ∃ range ∈ offs, range.1 = 0 := by
  obtain ⟨a, hfold, h⟩ := Res.bind_eq_ok.mp h
  obtain ⟨entries, hentries, h⟩ := Res.bind_eq_ok.mp h
  cases h
  obtain ⟨S, syms, hsound⟩ := allSound_foldlM (allSound_start g) hfold
  have hperm := List.mergeSort_perm slices fun a b => decide (b.length ≤ a.length)
  have hsorted : (slices.mergeSort fun a b => decide (b.length ≤ a.length)) ≠ [] := by
    intro hnil
    rw [hnil] at hperm
    exact hne hperm.nil_eq.symm
  obtain ⟨s, hs, hoff⟩ := hasFront_foldlM (fun s hs => hperm.mem_iff.mp hs)
    (.inr ⟨hsorted, fun _ => ⟨rfl, rfl⟩⟩) hfold
  obtain ⟨range, hrange, hentry⟩ := exists_right_of_mem (forall₂_of_mapM hentries) hs
  rw [hoff] at hentry
  obtain ⟨start, hstart, hentry⟩ := Res.bind_eq_ok.mp hentry
  cases hentry
  obtain ⟨-, rfl⟩ := subUsize_eq_ok.mp hstart
  have htotal : (a.blobs.map List.length).sum = S.length := by
    rw [← hsound.stream, List.length_flatten, List.map_reverse, List.sum_reverse]
  refine ⟨_, hrange, ?_⟩
  rw [htotal, hsound.off, Nat.sub_self]

end Front

end GLZ

/-! ## Section 3: Output files -/

/-- What the fields of a header can hold, for files that are no longer than a `u32` can say -/
structure HeaderFits (opt : CommonOpt) (paths : List InputFile) : Prop where
  k : ∀ k, opt.k = some k → k < 2 ^ 4
  count : paths.length < sizeLimit opt
  lengths : ∀ slice ∈ inputs opt paths, slice.length < 2 ^ 32

/-- The range of a slice, in a blob behind a table of `start` bits -/
structure Located (g : GLZ) (blob : Bits) (start : ℕ) (slice : List UInt8) (range : ℕ × ℕ) :
    Prop where
  size : range.2 = slice.length
  behind : start ≤ range.1
  inside : range.1 ≤ blob.length
  off_lt : range.1 < 2 ^ 32
  size_lt : range.2 < 2 ^ 32
  short : slice.length < 2 ^ 31 → g.decodeAt blob range.1 range.2 = .ok slice
  long : 2 ^ 31 ≤ slice.length → ∀ xs : List UInt8, g.decodeAt blob range.1 range.2 ≠ .ok xs

/-- An output file: headers and a body, for the codec `g` of `encode` and `g'` of `decode` -/
structure Written (opt : CommonOpt) (paths : List InputFile) (file : List UInt8) (g g' : GLZ)
    (ranges : List (ℕ × ℕ)) (body : List UInt8) : Prop where
  file : file = headers opt g paths ranges ++ body
  k : g.k < 2 ^ 4
  givenK : ∀ k, opt.k = some k → g.k = k
  entries : g.decodeTable ≠ [] ∧ ∀ n ∈ g.decodeTable, n < 2 ^ 9
  room : tableSize opt g < sizeLimit opt
  front : ∃ rest, unpackBytes body = tableBits opt g ++ rest
  codec : GLZ.withTable g.k opt.l opt.m g.decodeTable = .ok g'
  located : List.Forall₂ (Located g' (unpackBytes body) (tableSize opt g)) (inputs opt paths) ranges
  first : ∃ range ∈ ranges, range.1 = tableSize opt g

theorem le_sizeLimit (opt : CommonOpt) : 2 ^ 24 ≤ sizeLimit opt := by
  rw [sizeLimit]
  split <;> decide

/-- A slice that can be read in the stream is located in the blob. -/
theorem located_of_readable {g g' : GLZ} {syms : List (GLZSym UInt8)} {tbits bits pad : Bits}
    {slice : List UInt8} {off : ℕ} (hl : g'.l ≤ 8)
    (hreader : g'.codeReader syms = g.codeReader syms) (hoff : off ≤ bits.length)
    (hread : Readable (g.codeReader syms) (bits.drop off) slice)
    (hblob : (tbits ++ bits ++ pad).length < 2 ^ 32 - 1) (hslice : slice.length < 2 ^ 32) :
    Located g' (tbits ++ bits ++ pad) tbits.length slice (tbits.length + off, slice.length) := by
  have hlength : tbits.length + bits.length ≤ (tbits ++ bits ++ pad).length := by
    rw [List.length_append, List.length_append]
    exact Nat.le_add_right _ _
  refine ⟨rfl, Nat.le_add_right _ _, by dsimp only; omega, by dsimp only; omega, hslice, fun hshort => ?_,
    fun hlong xs => GLZ.decode1_ne_ok (by rwa [Nat.mod_eq_of_lt hslice])⟩
  · have hdrop : (tbits ++ bits ++ pad).drop (tbits.length + off) = bits.drop off ++ pad := by
      rw [List.append_assoc, ← List.drop_drop, List.drop_left,
        List.drop_append_of_le_length hoff]
    have hread' := hread.append (GLZ.codeReader_goesOn g syms pad)
    rw [← hdrop, ← hreader] at hread'
    exact GLZ.decodeAt_of_readable le_rfl hl hblob hread' (by omega) hshort

theorem exists_written {quiet : Bool} {opt : CommonOpt} {paths : List InputFile}
    {file : List UInt8} (hl : opt.l ≤ 8) (hm : opt.m < 32) (htable : opt.table = [])
    (hfits : HeaderFits opt paths) (hfile : file.length < 2 ^ 29)
    (h : encode quiet opt paths = .ok file) :
    ∃ g g' ranges body, Written opt paths file g g' ranges body := by
  have hc := completes_of_encode hl hm htable h
  obtain ⟨g, hg, -, hencoded, -⟩ := encode_eq_ok.mp h
  obtain ⟨-, -, htwo⟩ := (chooseCodec_eq_ok hl htable).mp hg
  obtain ⟨bits, offs, body, henc, -, hbody, hparts⟩ := encodeFile_eq_ok.mp hencoded
  obtain ⟨first, hfirst, -⟩ := Res.bind_eq_ok.mp htwo
  obtain ⟨g₁, symbols, t, htwo₁, hp, hsome, -⟩ := GLZ.exists_twoPass opt.k hl hm hfirst
  obtain rfl : g₁ = g := Except.ok.inj (htwo₁.symm.trans htwo)
  -- the table
  have htableSyms := decodeTable_of_prepared hp
  have hentries := entries_lt_of_prepared hp
  obtain ⟨path, hpath⟩ := List.exists_mem_of_ne_nil paths hc.files
  obtain ⟨x, hx⟩ := List.exists_mem_of_ne_nil path.data (hc.data path hpath)
  have hne : g₁.decodeTable ≠ [] := by
    rw [htableSyms]
    exact List.ne_nil_of_mem (hp.bytes path.data (data_mem_inputs hpath) x hx)
  have hk : g₁.k < 2 ^ 4 := by
    cases hopt : opt.k with
    | none =>
      rw [hopt] at htwo
      exact (GLZ.k_le_of_twoPass htwo hp).trans_lt (by decide)
    | some k => exact hsome k hopt ▸ hfits.k k hopt
  have hsize := tableSize_le_of_prepared hp
  -- the blob
  obtain rfl : body = packBytes (tableBits opt g₁ ++ bits) :=
    Except.ok.inj (hbody.symm.trans (writeBody_eq bits hentries))
  have hblob := unpackBytes_packBytes (tableBits opt g₁ ++ bits)
  have hlength : (unpackBytes (packBytes (tableBits opt g₁ ++ bits))).length < 2 ^ 32 - 1 := by
    rw [hparts, List.length_append] at hfile
    rw [length_unpackBytes]
    omega
  have hcodec := GLZ.withTable_of_table hp.sorted.table (htableSyms ▸ hentries)
  obtain ⟨syms, -, hread⟩ := GLZ.readable_encodeAll henc
  have hcongr : GLZ.codeReader ⟨g₁.l, g₁.m, ⟨⟨g₁.k⟩, [], g₁.rice.bijecter.table⟩⟩ syms =
      g₁.codeReader syms :=
    GLZ.codeReader_congr _ _ _ _ g₁.rice.bijecter.hist _ syms
  obtain ⟨hgl, hgm⟩ := GLZ.config_of_twoPass htwo
  have hlocated : List.Forall₂ (Located ⟨g₁.l, g₁.m, ⟨⟨g₁.k⟩, [], g₁.rice.bijecter.table⟩⟩
      (unpackBytes (packBytes (tableBits opt g₁ ++ bits))) (tableSize opt g₁)) (inputs opt paths)
      (adjust opt g₁ offs) := by
    rw [hblob, padBytes] at hlength ⊢
    refine List.forall₂_map_right_iff.mpr ?_
    rw [← length_tableBits]
    refine List.Forall₂.imp ?_ ((List.forall₂_and_left _ _).mpr ⟨hfits.lengths, hread⟩)
    rintro slice ⟨off, len⟩ ⟨hslice, rfl, hoff, hreadable⟩
    exact located_of_readable (hgl ▸ hl) hcongr hoff hreadable hlength hslice
  obtain ⟨range, hrange, hzero⟩ := GLZ.exists_range_zero
    (List.ne_nil_of_mem (data_mem_inputs hpath)) henc
  refine ⟨g₁, _, adjust opt g₁ offs, _, hparts, hk, hsome, ⟨hne, hentries⟩,
    hsize.trans_lt ((show 9 * 2 ^ 9 < 2 ^ 24 by decide).trans_le (le_sizeLimit opt)),
    ⟨_, hblob.trans (List.append_assoc _ _ _)⟩, ?_, hlocated, ?_⟩
  · rw [htableSyms, ← hgl, ← hgm]
    exact hcodec
  · refine ⟨_, List.mem_map_of_mem hrange, ?_⟩
    rw [hzero]
    rfl

/-! ## Section 4: Up to the choice -/

section Read

variable {o : DecodeOpt} {opt : CommonOpt} {paths : List InputFile} {file : List UInt8} {g g' : GLZ}
  {ranges : List (ℕ × ℕ)} {body : List UInt8} {d : CommonOpt}

/-- With the start of the blob known, there is the table. -/
theorem loadTable_of_written (hw : Written opt paths file g g' ranges body)
    (hd : Reads d opt) (hnoTable : opt.noTable = false) :
    loadTable d (some (tableSize opt g)) (unpackBytes body) =
      .ok (g.decodeTable, tableSize opt g) := by
  obtain ⟨rest, hfront⟩ := hw.front
  have hbits : tableBits opt g = g.decodeTable.flatMap (toBits (1 + GLZ.WIDTH)) := by
    rw [tableBits, hnoTable]
    rfl
  have hslice : sliceTo (unpackBytes body) (tableSize opt g) = .ok (tableBits opt g) := by
    rw [sliceTo, hfront, ← length_tableBits, if_pos (by rw [List.length_append]; omega),
      List.take_left]
    rfl
  have htable : decodeSyms (1 + GLZ.WIDTH) (tableBits opt g) = .ok g.decodeTable := by
    rw [hbits]
    exact (decodeSyms_encodeSyms (by decide) (by decide) hw.entries.2).2
  rw [loadTable.eq_def, hd.noTable]
  refine lift_eq_ok.mpr (Res.bind_eq_ok.mpr ⟨_, hslice, ?_⟩)
  exact Res.bind_eq_ok.mpr ⟨_, htable, rfl⟩

theorem loadCodec_of_written (hw : Written opt paths file g g' ranges body)
    (hd : Reads d opt) : loadCodec d (some g.k) g.decodeTable = .ok g' := by
  have hnonempty := List.length_pos_iff.mpr hw.entries.1
  have hnil : ¬ 0 < ([] : List ℕ).length := Nat.lt_irrefl 0
  -- a `k` that is given is the one of the header
  have hgiven : d.k = none ∨ d.k = some g.k := by
    cases hopt : d.k with
    | none => exact .inl rfl
    | some k => exact .inr (congrArg some (hw.givenK k (hd.k k hopt)).symm)
  unfold loadCodec
  rw [hd.table, hd.l, hd.m]
  rcases hgiven with hk | hk
  all_goals
    rw [hk]
    refine bind_ok.mpr ⟨g.k, rfl, ?_⟩
    dsimp only
    rw [if_neg hnil, if_pos hnonempty]
    exact lift_eq_ok.mpr hw.codec

/-- With the start of the blob known, `decode` has the codec. -/
theorem decodeBody_eq {index : Index} (hw : Written opt paths file g g' ranges body)
    (hd : Reads o.common opt) (hnoTable : opt.noTable = false)
    (hindex : index.tableSize = some (tableSize opt g)) :
    decodeBody o (some g.k) index body = (do
      let (off, len) ← findTarget o g' (unpackBytes body) index (tableSize opt g)
      lift (g'.decodeAt (unpackBytes body) off len)) := by
  rw [decodeBody, hindex]
  simp only [bind, Except.bind, loadTable_of_written hw hd hnoTable, loadCodec_of_written hw hd]

theorem decode_of_front {k : Option ℕ} {index : Index} {buf rest : List UInt8}
    (h : readFront o.common file = .ok ((k, index, buf), rest)) :
    decode o file = decodeBody o k index buf := by
  rw [decode, h]
  rfl

theorem mktype_archive : mktype opt = TYPE_ARCHIVE ↔ opt.archive = true := by
  unfold mktype
  cases opt.archive <;> cases opt.index <;> cases opt.noLen <;> decide

theorem archive_eq_false (htype : mktype opt ≠ TYPE_ARCHIVE) : opt.archive = false :=
  Bool.eq_false_iff.mpr fun harchive => htype (mktype_archive.mpr harchive)

/-- Names are only stored in an archive. -/
theorem length_inputs : (inputs opt paths).length =
    if mktype opt = TYPE_ARCHIVE then paths.length + paths.length else paths.length := by
  rw [inputs, List.length_append, List.length_map]
  cases harchive : opt.archive with
  | true =>
    rw [if_pos rfl, if_pos (mktype_archive.mpr harchive), List.length_map]
  | false =>
    have hother : mktype opt ≠ TYPE_ARCHIVE := fun h =>
      Bool.false_ne_true (harchive.symm.trans (mktype_archive.mp h))
    rw [if_neg Bool.false_ne_true, if_neg hother]
    rfl

/-- Ranges of the names and of the data, as an archive has them -/
def archived (paths : List InputFile) (ranges : List (ℕ × ℕ)) : List ((ℕ × ℕ) × (ℕ × ℕ)) :=
  (ranges.drop paths.length).zip (ranges.take paths.length)

theorem map_archived (hlength : ranges.length = paths.length + paths.length) :
    (archived paths ranges).map Prod.fst = ranges.drop paths.length ∧
      (archived paths ranges).map Prod.snd = ranges.take paths.length := by
  have hdrop : (ranges.drop paths.length).length = paths.length := by
    rw [List.length_drop]
    omega
  have htake : (ranges.take paths.length).length = paths.length := by
    rw [List.length_take]
    omega
  exact ⟨List.map_fst_zip (by omega), List.map_snd_zip (by omega)⟩

theorem Written.of_mem_ranges (hw : Written opt paths file g g' ranges body) {range : ℕ × ℕ}
    (h : range ∈ ranges) : tableSize opt g ≤ range.1 ∧ range.1 < 2 ^ 32 ∧ range.2 < 2 ^ 32 := by
  obtain ⟨slice, -, hlocated⟩ := exists_left_of_mem hw.located h
  exact ⟨hlocated.behind, hlocated.off_lt, hlocated.size_lt⟩

variable (hw : Written opt paths file g g' ranges body) (hd : Reads d opt)
  (hheaders : opt.noHeaders = false)

include hw hd hheaders

/-- The table of an archive ends where the first of its files or names starts. -/
theorem readFront_archive (htype : mktype opt = TYPE_ARCHIVE)
    (hcount : paths.length < sizeLimit opt) : readFront d file =
      .ok ((some g.k, ⟨archived paths ranges, [], none, some (tableSize opt g)⟩, body), []) := by
  have hlength : ranges.length = paths.length + paths.length := by
    rw [← hw.located.length_eq, length_inputs, if_pos htype]
  have hdrop : (ranges.drop paths.length).length = paths.length := by
    rw [List.length_drop]
    omega
  have htake : (ranges.take paths.length).length = paths.length := by
    rw [List.length_take]
    omega
  have hfiles : (archived paths ranges).length = paths.length := by
    rw [archived, List.length_zip, hdrop, htake, Nat.min_self]
  obtain ⟨hnames, hdata⟩ := map_archived hlength
  have hmem : ∀ entry ∈ archived paths ranges, entry.1 ∈ ranges ∧ entry.2 ∈ ranges :=
    fun entry hentry => ⟨List.mem_of_mem_drop (List.of_mem_zip hentry).1,
      List.mem_of_mem_take (List.of_mem_zip hentry).2⟩
  -- what the fields say
  have hfields : ((paths.zip (ranges.drop paths.length)).zip (ranges.take paths.length)).flatMap
      (fun entry => writeSizes (mkflags opt 0)
        [entry.1.2.1, entry.1.2.2, entry.2.1, entry.2.2]) =
      (archived paths ranges).flatMap fun entry => writeSizes (mkflags opt 0)
        [entry.1.1, entry.1.2, entry.2.1, entry.2.2] := by
    have hzip : archived paths ranges = ((paths.zip (ranges.drop paths.length)).zip
        (ranges.take paths.length)).map (Prod.map Prod.snd id) := by
      rw [← List.zip_map_left, List.map_snd_zip (by omega), archived]
    rw [hzip, List.flatMap_map]
    rfl
  have hsmallest : smallest ((archived paths ranges).map fun entry => min entry.1.1 entry.2.1) =
      some (tableSize opt g) := by
    have hle : ∀ range ∈ ranges, tableSize opt g ≤ range.1 := fun range hrange =>
      (hw.of_mem_ranges hrange).1
    obtain ⟨range, hrange, hfirst⟩ := hw.first
    apply smallest_eq
    · rw [← List.take_append_drop paths.length ranges] at hrange
      rcases List.mem_append.mp hrange with hrange | hrange
      · rw [← hdata] at hrange
        obtain ⟨entry, hentry, rfl⟩ := List.mem_map.mp hrange
        have hbehind := hle _ (hmem entry hentry).1
        exact List.mem_map.mpr ⟨entry, hentry, by rw [hfirst, Nat.min_eq_right hbehind]⟩
      · rw [← hnames] at hrange
        obtain ⟨entry, hentry, rfl⟩ := List.mem_map.mp hrange
        have hbehind := hle _ (hmem entry hentry).2
        exact List.mem_map.mpr ⟨entry, hentry, by rw [hfirst, Nat.min_eq_left hbehind]⟩
    · intro off hoff
      obtain ⟨entry, hentry, rfl⟩ := List.mem_map.mp hoff
      exact Nat.le_min.mpr ⟨hle _ (hmem entry hentry).1, hle _ (hmem entry hentry).2⟩
  have hmeta := takes_readMeta hd (show TYPE_ARCHIVE < 2 ^ 4 by decide) hw.k hcount
  have hindex : Takes (readIndex d (mkflags opt 0) TYPE_ARCHIVE _) _ _ :=
    takes_readIndex_archive hd.noHeaders (archived paths ranges) fun entry hentry =>
      ⟨(hw.of_mem_ranges (hmem entry hentry).1).2, (hw.of_mem_ranges (hmem entry hentry).2).2⟩
  rw [hfiles, hsmallest] at hindex
  rw [hw.file, headers, hheaders, htype, if_neg Bool.false_ne_true, if_pos rfl, hfields,
    List.append_assoc]
  exact readFront_of_takes hmeta hindex body

/-- The table of an index ends where the first of its files starts. -/
theorem readFront_index (htype : mktype opt = TYPE_INDEX)
    (hcount : paths.length < sizeLimit opt) : readFront d file =
      .ok ((some g.k, ⟨[], ranges, none, some (tableSize opt g)⟩, body), []) := by
  have hlength : ranges.length = paths.length := by
    rw [← hw.located.length_eq, length_inputs, htype]
    rfl
  have hfields : (paths.zip ranges).flatMap
      (fun entry => writeSizes (mkflags opt 0) [entry.2.1, entry.2.2]) =
      ranges.flatMap fun range => writeSizes (mkflags opt 0) [range.1, range.2] := by
    conv_rhs => rw [← List.map_snd_zip hlength.le, List.flatMap_map]
  have hsmallest : smallest (ranges.map Prod.fst) = some (tableSize opt g) := by
    obtain ⟨range, hrange, hfirst⟩ := hw.first
    apply smallest_eq
    · exact List.mem_map.mpr ⟨range, hrange, hfirst⟩
    · intro off hoff
      obtain ⟨range, hrange, rfl⟩ := List.mem_map.mp hoff
      exact (hw.of_mem_ranges hrange).1
  have hmeta := takes_readMeta hd (show TYPE_INDEX < 2 ^ 4 by decide) hw.k hcount
  have hindex : Takes (readIndex d (mkflags opt 0) TYPE_INDEX _) _ _ :=
    takes_readIndex_index hd.noHeaders ranges fun range hrange => (hw.of_mem_ranges hrange).2
  rw [hlength, hsmallest] at hindex
  rw [hw.file, headers, hheaders, htype, if_neg Bool.false_ne_true, if_neg (by decide), if_pos rfl,
    hfields, List.append_assoc]
  exact readFront_of_takes hmeta hindex body

theorem readFront_len (htype : mktype opt = TYPE_LEN)
    (hsize : ((inputs opt paths).map List.length).sum < 2 ^ 32) : readFront d file =
      .ok ((some g.k, ⟨[], [], some ((inputs opt paths).map List.length).sum,
        some (tableSize opt g)⟩, body), []) := by
  have hmeta := takes_readMeta hd (show TYPE_LEN < 2 ^ 4 by decide) hw.k hw.room
  have hindex : Takes (readIndex d (mkflags opt 0) TYPE_LEN (tableSize opt g)) _ _ :=
    takes_readIndex_len hd.noHeaders hsize
  rw [hw.file, headers, hheaders, htype, if_neg Bool.false_ne_true, if_neg (by decide),
    if_neg (by decide), if_pos rfl, List.append_assoc]
  exact readFront_of_takes hmeta hindex body

/-- Without a length there is nothing behind the word. -/
theorem readFront_none (htype : mktype opt = TYPE_NONE) : readFront d file =
    .ok ((some g.k, ⟨[], [], none, some (tableSize opt g)⟩, body), []) := by
  have hmeta := takes_readMeta hd (show TYPE_NONE < 2 ^ 4 by decide) hw.k hw.room
  have hindex : Takes (readIndex d (mkflags opt 0) TYPE_NONE (tableSize opt g)) [] _ :=
    takes_readIndex_none hd.noHeaders
  rw [hw.file, headers, hheaders, htype, if_neg Bool.false_ne_true, if_neg (by decide),
    if_neg (by decide), if_neg (by decide)]
  exact readFront_of_takes hmeta hindex body

end Read

/-! ## Section 5: The choice -/

/-- Digits are bytes, so the numbers of files are told apart. -/
theorem decimal_injective : Function.Injective decimal := by
  have hback : ∀ n, (decimal n).map (fun b => Char.ofNat b.toNat) = Nat.toDigits 10 n := by
    intro n
    rw [decimal, List.map_map]
    refine (List.map_congr_left fun c hc => ?_).trans (List.map_id _)
    have hdigit := Nat.isDigit_of_mem_toDigits (by decide) (by decide) hc
    have hlt : c.toNat < 2 ^ 8 := (Char.isDigit_iff_toNat.mp hdigit).2.trans_lt (by decide)
    have hvalue : c.toUInt8.toNat = c.toNat := by
      rw [← Char.toUInt8_val, UInt32.toNat_toUInt8]
      exact Nat.mod_eq_of_lt hlt
    exact (congrArg Char.ofNat hvalue).trans (Char.ofNat_toNat c)
  intro m n h
  rw [← Nat.ofDigitChars_ten_toDigits (n := m), ← hback, h, hback, Nat.ofDigitChars_ten_toDigits]

theorem findNumber_decimal (files : List (ℕ × ℕ)) (i : ℕ) :
    findNumber (decimal i) files = files[i]? := by
  have hfind : ∀ (files : List (ℕ × ℕ)) (k i : ℕ), ((files.zipIdx k).find?
      fun entry => decimal entry.2 == decimal (k + i)).map Prod.fst = files[i]? := by
    intro files
    induction files with
    | nil => exact fun _ _ => rfl
    | cons range files ih =>
      intro k i
      rw [List.zipIdx_cons, List.find?_cons]
      cases i with
      | zero =>
        rw [Nat.add_zero, beq_self_eq_true]
        rfl
      | succ i =>
        have hne : (decimal k == decimal (k + (i + 1))) = false := by
          rw [beq_eq_false_iff_ne]
          exact fun h => absurd (decimal_injective h) (by omega)
        rw [hne, ← Nat.add_assoc, Nat.add_right_comm]
        exact ih (k + 1) i
  have h := hfind files 0 i
  rwa [Nat.zero_add] at h

section Names

variable {g : GLZ} {blob : Bits} {start : ℕ} {names : List (List UInt8)}
  {files : List ((ℕ × ℕ) × (ℕ × ℕ))} {i : ℕ} {name : List UInt8} {range : ℕ × ℕ}

/-- The file with the name is found, if the names can be read. -/
theorem findName_eq
    (hlocated : List.Forall₂ (fun name file => Located g blob start name file.1) names files)
    (hshort : ∀ name ∈ names, name.length < 2 ^ 31) (hutf8 : ∀ name ∈ names, fromUtf8 name = .ok name)
    (hnodup : names.Nodup) (hname : names[i]? = some name)
    (hrange : (files.map Prod.snd)[i]? = some range) :
    findName g blob name files = .ok (some range) := by
  induction hlocated generalizing i with
  | nil => cases hname
  | @cons first file names files hfirst _ ih =>
    obtain ⟨⟨poff, plen⟩, found⟩ := file
    have hdecode := hfirst.short (hshort first List.mem_cons_self)
    rw [findName, lift_eq_ok.mpr hdecode]
    simp only [bind, Except.bind, hutf8 first List.mem_cons_self]
    cases i with
    | zero =>
      cases hname
      cases hrange
      rw [if_pos rfl]
      rfl
    | succ i =>
      rw [List.getElem?_cons_succ] at hname
      have hne : first ≠ name := by
        rintro rfl
        exact (List.nodup_cons.mp hnodup).1 (List.mem_of_getElem? hname)
      rw [if_neg hne]
      exact ih (fun n hn => hshort n (List.mem_cons_of_mem _ hn))
        (fun n hn => hutf8 n (List.mem_cons_of_mem _ hn)) (List.nodup_cons.mp hnodup).2 hname hrange

/-- The search reads the name that it finds. -/
theorem short_of_findName
    (hlocated : List.Forall₂ (fun name file => Located g blob start name file.1) names files)
    (hnodup : names.Nodup) (hname : names[i]? = some name) {r : Option (ℕ × ℕ)}
    (h : findName g blob name files = .ok r) : name.length < 2 ^ 31 := by
  induction hlocated generalizing i with
  | nil => cases hname
  | @cons first file names files hfirst _ ih =>
    obtain ⟨⟨poff, plen⟩, found⟩ := file
    rw [findName, bind_ok] at h
    obtain ⟨bytes, hbytes, h⟩ := h
    have hshort : first.length < 2 ^ 31 := by
      by_contra hlong
      exact hfirst.long (Nat.le_of_not_lt hlong) bytes (lift_eq_ok.mp hbytes)
    obtain rfl : first = bytes :=
      Except.ok.inj ((hfirst.short hshort).symm.trans (lift_eq_ok.mp hbytes))
    cases i with
    | zero =>
      cases hname
      exact hshort
    | succ i =>
      rw [List.getElem?_cons_succ] at hname
      rw [bind_ok] at h
      obtain ⟨found, hfound, h⟩ := h
      have hne : found ≠ name := by
        rintro rfl
        have hsame : first = found := by
          rw [fromUtf8] at hfound
          split at hfound
          · exact Except.ok.inj hfound
          · cases hfound
        exact (List.nodup_cons.mp hnodup).1 (hsame ▸ List.mem_of_getElem? hname)
      rw [if_neg hne] at h
      exact ih (List.nodup_cons.mp hnodup).2 hname h

end Names

/-- The names of an archive -/
structure NamesFit (paths : List InputFile) : Prop where
  distinct : (paths.map InputFile.path).Nodup
  utf8 : ∀ path ∈ paths, fromUtf8 path.path = .ok path.path

/-- Each file can be chosen: by its name, by its number, or as the only one. -/
def Choosable (opt : CommonOpt) (paths : List InputFile) : Prop :=
  mktype opt = TYPE_ARCHIVE ∧ NamesFit paths ∨ mktype opt = TYPE_INDEX ∨
    mktype opt = TYPE_LEN ∧ paths.length = 1

/-- What is given to `decode` for file `i` -/
def choice (opt : CommonOpt) (paths : List InputFile) (i : ℕ) : Option (List UInt8) :=
  if mktype opt = TYPE_ARCHIVE then paths[i]?.map InputFile.path
  else if mktype opt = TYPE_INDEX then some (decimal i)
  else none

section Choice

variable {o : DecodeOpt} {opt : CommonOpt} {paths : List InputFile} {file : List UInt8} {g g' : GLZ}
  {ranges : List (ℕ × ℕ)} {body : List UInt8} {i : ℕ} {path : InputFile}

/-- A file is looked for by name and by number, unless its range is given. -/
theorem findTarget_some {blob : Bits} {index : Index} {off : ℕ} {name : List UInt8}
    (hrange : o.off = none ∨ o.len = none) (hfile : o.file = some name) :
    findTarget o g blob index off = (do
      match ← findName g blob name index.archiveFiles with
      | some range => pure range
      | none =>
        match findNumber name index.indexFiles with
        | some range => pure range
        | none => .error (.bail (.notFound name))) := by
  rw [findTarget.eq_def, hfile]
  generalize o.off = off?, o.len = len? at hrange ⊢
  rcases hrange with rfl | rfl
  · cases len? <;> rfl
  · cases off? <;> rfl

theorem findTarget_none {blob : Bits} {index : Index} {off size : ℕ}
    (hrange : o.off = none ∨ o.len = none) (hfile : o.file = none) (hsize : index.size = some size) :
    findTarget o g blob index off = .ok (off, size) := by
  rw [findTarget.eq_def, hfile, hsize]
  generalize o.off = off?, o.len = len? at hrange ⊢
  rcases hrange with rfl | rfl
  · cases len? <;> rfl
  · cases off? <;> rfl

/-- The ranges of the names and of the data, in an archive -/
theorem Written.archived_located (hw : Written opt paths file g g' ranges body)
    (htype : mktype opt = TYPE_ARCHIVE) :
    List.Forall₂ (fun name file => Located g' (unpackBytes body) (tableSize opt g) name file.1)
        (paths.map InputFile.path) (archived paths ranges) ∧
      List.Forall₂ (Located g' (unpackBytes body) (tableSize opt g)) (paths.map InputFile.data)
        ((archived paths ranges).map Prod.snd) := by
  have hlength : ranges.length = paths.length + paths.length := by
    rw [← hw.located.length_eq, length_inputs, if_pos htype]
  obtain ⟨hnames, hdata⟩ := map_archived hlength
  have hlocated := hw.located
  rw [inputs, if_pos (mktype_archive.mp htype)] at hlocated
  have htake := List.forall₂_take paths.length hlocated
  have hdrop := List.forall₂_drop paths.length hlocated
  rw [List.take_left' (List.length_map _), ← hdata] at htake
  rw [List.drop_left' (List.length_map _), ← hnames] at hdrop
  exact ⟨List.forall₂_map_right_iff.mp hdrop, htake⟩

variable (hw : Written opt paths file g g' ranges body) (hd : Reads o.common opt)
  (hheaders : opt.noHeaders = false) (hnoTable : opt.noTable = false)
  (hrange : o.off = none ∨ o.len = none)

include hw hd hheaders hnoTable hrange

/-- In an archive the names are searched, and then the file is decoded. -/
theorem decode_by_name (htype : mktype opt = TYPE_ARCHIVE) (hcount : paths.length < sizeLimit opt)
    {name : List UInt8} (hfile : o.file = some name) :
    decode o file = (do
      match ← findName g' (unpackBytes body) name (archived paths ranges) with
      | some range => lift (g'.decodeAt (unpackBytes body) range.1 range.2)
      | none => .error (.bail (.notFound name))) := by
  rw [decode_of_front (readFront_archive hw hd hheaders htype hcount), decodeBody_eq hw hd hnoTable rfl,
    findTarget_some hrange hfile]
  cases findName g' (unpackBytes body) name (archived paths ranges) with
  | error stop => rfl
  | ok found =>
    cases found with
    | none => rfl
    | some range => rfl

/-- An index has no names. -/
theorem decode_by_number (htype : mktype opt = TYPE_INDEX) (hcount : paths.length < sizeLimit opt)
    (hfile : o.file = some (decimal i)) {range : ℕ × ℕ} (hi : ranges[i]? = some range) :
    decode o file = lift (g'.decodeAt (unpackBytes body) range.1 range.2) := by
  have hfind : findTarget o g' (unpackBytes body) ⟨[], ranges, none, some (tableSize opt g)⟩
      (tableSize opt g) = .ok range := by
    rw [findTarget_some hrange hfile]
    change (match findNumber (decimal i) ranges with
      | some range => pure range
      | none => .error (.bail (.notFound (decimal i))) : Cmd (ℕ × ℕ)) = .ok range
    rw [findNumber_decimal, hi]
    rfl
  rw [decode_of_front (readFront_index hw hd hheaders htype hcount), decodeBody_eq hw hd hnoTable rfl, hfind]
  rfl

/-- A single file takes all of the stream. -/
theorem decode_single (htype : mktype opt = TYPE_LEN) (hfile : o.file = none)
    (hpaths : paths = [path]) {range : ℕ × ℕ} (hranges : ranges = [range])
    (hlocated : Located g' (unpackBytes body) (tableSize opt g) path.data range) :
    decode o file = lift (g'.decodeAt (unpackBytes body) range.1 range.2) := by
  have hother : opt.archive = false := archive_eq_false (by rw [htype]; decide)
  have hsum : ((inputs opt paths).map List.length).sum = range.2 := by
    rw [inputs, hother, hpaths, hlocated.size]
    rfl
  have hfirst : range.1 = tableSize opt g := by
    obtain ⟨range', hmem, hfirst⟩ := hw.first
    rw [hranges] at hmem
    rwa [← List.mem_singleton.mp hmem]
  have hlen := decode_of_front (readFront_len hw hd hheaders htype (by rw [hsum]; exact hlocated.size_lt))
  rw [hlen, decodeBody_eq hw hd hnoTable rfl, findTarget_none hrange hfile rfl, hsum, ← hfirst]
  rfl

end Choice

/-- `decode` gives every file back that is chosen. -/
def GivesBack (opt : CommonOpt) (paths : List InputFile) (file : List UInt8) : Prop :=
  ∀ o i path, Reads o.common opt → (o.off = none ∨ o.len = none) → paths[i]? = some path →
    o.file = choice opt paths i → decode o file = .ok path.data

section GivesBack

variable {opt : CommonOpt} {paths : List InputFile} {file : List UInt8} {g g' : GLZ}
  {ranges : List (ℕ × ℕ)} {body : List UInt8}

theorem Located.lift_decodeAt {blob : Bits} {start : ℕ} {slice : List UInt8} {range : ℕ × ℕ}
    (hlocated : Located g blob start slice range) :
    lift (g.decodeAt blob range.1 range.2) = .ok slice ↔ slice.length < 2 ^ 31 :=
  ⟨fun hok => Nat.lt_of_not_le fun hlong => hlocated.long hlong _ (lift_eq_ok.mp hok),
    fun hshort => lift_eq_ok.mpr (hlocated.short hshort)⟩

/-- The options of `encode` are enough for `decode`. -/
theorem reads_self (htable : opt.table = []) (hheaders : opt.noHeaders = false)
    (hnoTable : opt.noTable = false) : Reads opt opt :=
  ⟨rfl, rfl, fun _ => id, htable, rfl, hheaders, hnoTable, id, fun _ => id⟩

variable (hw : Written opt paths file g g' ranges body) (hself : Reads opt opt)
  (hheaders : opt.noHeaders = false) (hnoTable : opt.noTable = false)

include hw hheaders hnoTable

/-- Once the names can be read, a file is given back if it is short. -/
theorem decode_name_iff (htype : mktype opt = TYPE_ARCHIVE) (hcount : paths.length < sizeLimit opt)
    (hnames : NamesFit paths) (hshort : ∀ name ∈ paths.map InputFile.path, name.length < 2 ^ 31)
    {o : DecodeOpt} {i : ℕ} {path : InputFile} (hd : Reads o.common opt)
    (hrange : o.off = none ∨ o.len = none) (hi : paths[i]? = some path)
    (hfile : o.file = some path.path) :
    decode o file = .ok path.data ↔ path.data.length < 2 ^ 31 := by
  obtain ⟨hnameRanges, hdataRanges⟩ := hw.archived_located htype
  have hname : (paths.map InputFile.path)[i]? = some path.path := by
    rw [List.getElem?_map, hi]
    rfl
  have hdata : (paths.map InputFile.data)[i]? = some path.data := by
    rw [List.getElem?_map, hi]
    rfl
  have hutf8 : ∀ name ∈ paths.map InputFile.path, fromUtf8 name = .ok name := by
    intro name hmem
    obtain ⟨path, hpath, rfl⟩ := List.mem_map.mp hmem
    exact hnames.utf8 path hpath
  obtain ⟨range, hentry, hlocated⟩ := exists_right_of_getElem? hdataRanges hdata
  rw [decode_by_name hw hd hheaders hnoTable hrange htype hcount hfile,
    findName_eq hnameRanges hshort hutf8 hnames.distinct hname hentry]
  exact hlocated.lift_decodeAt

include hself

theorem givesBack_archive (htype : mktype opt = TYPE_ARCHIVE)
    (hcount : paths.length < sizeLimit opt) (hnames : NamesFit paths) :
    GivesBack opt paths file ↔ ∀ slice ∈ inputs opt paths, slice.length < 2 ^ 31 := by
  have hinputs : inputs opt paths = paths.map InputFile.data ++ paths.map InputFile.path := by
    rw [inputs, if_pos (mktype_archive.mp htype)]
  have hchoice : ∀ {i : ℕ} {path : InputFile}, paths[i]? = some path →
      choice opt paths i = some path.path := fun hi => by
    rw [choice, if_pos htype, hi]
    rfl
  rw [hinputs]
  constructor
  · intro hall
    have hpick : ∀ {i : ℕ} {path : InputFile}, paths[i]? = some path →
        decode ⟨some path.path, none, none, opt⟩ file = .ok path.data := fun {i path} hi =>
      hall ⟨some path.path, none, none, opt⟩ i path hself (.inl rfl) hi (hchoice hi).symm
    -- the search for a name comes to it
    have hshort : ∀ name ∈ paths.map InputFile.path, name.length < 2 ^ 31 := by
      intro name hmem
      obtain ⟨path, hpath, rfl⟩ := List.mem_map.mp hmem
      obtain ⟨i, hi⟩ := List.getElem?_of_mem hpath
      have hname : (paths.map InputFile.path)[i]? = some path.path := by
        rw [List.getElem?_map, hi]
        rfl
      have hok := hpick hi
      rw [decode_by_name hw hself hheaders hnoTable (.inl rfl) htype hcount rfl, bind_ok] at hok
      obtain ⟨found, hsearch, -⟩ := hok
      exact short_of_findName (hw.archived_located htype).1 hnames.distinct hname hsearch
    intro slice hslice
    rcases List.mem_append.mp hslice with hslice | hslice
    · obtain ⟨path, hpath, rfl⟩ := List.mem_map.mp hslice
      obtain ⟨i, hi⟩ := List.getElem?_of_mem hpath
      exact (decode_name_iff hw hheaders hnoTable htype hcount hnames hshort hself (.inl rfl) hi
        rfl).mp (hpick hi)
    · exact hshort slice hslice
  · intro hshort o i path hd hrange hi hpick
    refine (decode_name_iff hw hheaders hnoTable htype hcount hnames
      (fun name hmem => hshort name (List.mem_append_right _ hmem)) hd hrange hi
      (hpick.trans (hchoice hi))).mpr (hshort _ (List.mem_append_left _ ?_))
    exact List.mem_map_of_mem (List.mem_of_getElem? hi)

theorem givesBack_index (htype : mktype opt = TYPE_INDEX) (hcount : paths.length < sizeLimit opt) :
    GivesBack opt paths file ↔ ∀ slice ∈ inputs opt paths, slice.length < 2 ^ 31 := by
  have hchoice : ∀ i, choice opt paths i = some (decimal i) := fun i => by
    rw [choice, htype]
    rfl
  have hother : opt.archive = false := archive_eq_false (by rw [htype]; decide)
  have hinputs : inputs opt paths = paths.map InputFile.data := by
    rw [inputs, hother]
    exact List.append_nil _
  have hiff : ∀ {o : DecodeOpt} {i : ℕ} {path : InputFile}, Reads o.common opt →
      (o.off = none ∨ o.len = none) → paths[i]? = some path → o.file = some (decimal i) →
        (decode o file = .ok path.data ↔ path.data.length < 2 ^ 31) := by
    intro o i path hd hrange hi hfile
    have hdata : (inputs opt paths)[i]? = some path.data := by
      rw [hinputs, List.getElem?_map, hi]
      rfl
    obtain ⟨range, hentry, hlocated⟩ := exists_right_of_getElem? hw.located hdata
    rw [decode_by_number hw hd hheaders hnoTable hrange htype hcount hfile hentry]
    exact hlocated.lift_decodeAt
  rw [hinputs]
  constructor
  · intro hall slice hslice
    obtain ⟨path, hpath, rfl⟩ := List.mem_map.mp hslice
    obtain ⟨i, hi⟩ := List.getElem?_of_mem hpath
    exact (hiff (o := ⟨some (decimal i), none, none, opt⟩) hself (.inl rfl) hi rfl).mp
      (hall ⟨some (decimal i), none, none, opt⟩ i path hself (.inl rfl) hi (hchoice i).symm)
  · intro hshort o i path hd hrange hi hpick
    exact (hiff hd hrange hi (hpick.trans (hchoice i))).mpr
      (hshort _ (List.mem_map_of_mem (List.mem_of_getElem? hi)))

theorem givesBack_single (htype : mktype opt = TYPE_LEN) (hone : paths.length = 1) :
    GivesBack opt paths file ↔ ∀ slice ∈ inputs opt paths, slice.length < 2 ^ 31 := by
  obtain ⟨path, rfl⟩ := List.length_eq_one_iff.mp hone
  have hchoice : ∀ i, choice opt [path] i = none := fun i => by
    rw [choice, htype]
    rfl
  have hother : opt.archive = false := archive_eq_false (by rw [htype]; decide)
  have hinputs : inputs opt [path] = [path.data] := by
    rw [inputs, hother]
    rfl
  have hlocated := hw.located
  rw [hinputs] at hlocated ⊢
  obtain ⟨range, hranges, hlocated⟩ : ∃ range, ranges = [range] ∧
      Located g' (unpackBytes body) (tableSize opt g) path.data range := by
    cases hlocated with
    | cons hrange hrest =>
      cases hrest
      exact ⟨_, rfl, hrange⟩
  have hiff : ∀ {o : DecodeOpt}, Reads o.common opt → (o.off = none ∨ o.len = none) →
      o.file = none → (decode o file = .ok path.data ↔ path.data.length < 2 ^ 31) := by
    intro o hd hrange hfile
    rw [decode_single hw hd hheaders hnoTable hrange htype hfile rfl hranges hlocated]
    exact hlocated.lift_decodeAt
  rw [List.forall_mem_singleton]
  constructor
  · intro hall
    exact (hiff (o := ⟨none, none, none, opt⟩) hself (.inl rfl) rfl).mp
      (hall ⟨none, none, none, opt⟩ 0 path hself (.inl rfl) rfl (hchoice 0).symm)
  · intro hshort o i path' hd hrange hi hpick
    obtain rfl : path = path' := by
      exact (List.mem_singleton.mp (List.mem_of_getElem? hi)).symm
    exact (hiff hd hrange (hpick.trans (hchoice i))).mpr hshort

end GivesBack

theorem Written.givesBack_iff {opt : CommonOpt} {paths : List InputFile} {file : List UInt8}
    {g g' : GLZ} {ranges : List (ℕ × ℕ)} {body : List UInt8}
    (hw : Written opt paths file g g' ranges body) (htable : opt.table = [])
    (hheaders : opt.noHeaders = false) (hnoTable : opt.noTable = false)
    (hchoosable : Choosable opt paths) (hcount : paths.length < sizeLimit opt) :
    GivesBack opt paths file ↔ ∀ slice ∈ inputs opt paths, slice.length < 2 ^ 31 := by
  have hself := reads_self htable hheaders hnoTable
  rcases hchoosable with ⟨htype, hnames⟩ | htype | ⟨htype, hone⟩
  · exact givesBack_archive hw hself hheaders hnoTable htype hcount hnames
  · exact givesBack_index hw hself hheaders hnoTable htype hcount
  · exact givesBack_single hw hself hheaders hnoTable htype hone

/-- Two files, and an archive of them -/
def pair : List InputFile := [⟨[0x61], [1]⟩, ⟨[0x62], [2, 2]⟩]

def pairOpt : CommonOpt := { CommonOpt.default with archive := true }

theorem namesFit_pair : NamesFit pair :=
  ⟨by decide, by decide +kernel⟩

theorem completes_pair : Completes false pairOpt pair := by
  refine ⟨by decide, by decide, fun _ h => (by cases h), fun _ _ => by decide, fun _ syms hsyms => ?_⟩
  have hslice : [1] ∈ inputs pairOpt pair := List.mem_cons_self
  exact drawn_of_byte (by decide) hslice (List.mem_singleton_self 1) (by decide) hsyms

/-- Files of less than 128 KiB in all are compressed, and every one of them is given back. -/
theorem exists_encode_givesBack {quiet : Bool} {opt : CommonOpt} {paths : List InputFile}
    (hl : opt.l ≤ 8) (hm : opt.m < 32) (htable : opt.table = [])
    (hheaders : opt.noHeaders = false) (hnoTable : opt.noTable = false)
    (hchoosable : Choosable opt paths) (hk : ∀ k, opt.k = some k → k < 2 ^ 4)
    (hsmall : GLZ.totalBytes (inputs opt paths) < 2 ^ 17) (hc : Completes quiet opt paths) :
    ∃ file, encode quiet opt paths = .ok file ∧ GivesBack opt paths file := by
  obtain ⟨file, h⟩ := exists_encode_of_completes hl hm htable hsmall hc
  have hlength : ∀ slice ∈ inputs opt paths, slice.length < 2 ^ 17 := fun slice hslice =>
    (length_le_totalBytes hslice).trans_lt hsmall
  have hcount : paths.length < sizeLimit opt := by
    have hpaths := (length_paths_le hc.data).trans (sizeBefore_le opt paths)
    have hlimit := le_sizeLimit opt
    omega
  have hfits : HeaderFits opt paths :=
    ⟨hk, hcount, fun slice hslice => (hlength slice hslice).trans (by decide)⟩
  have hfile := (length_encode_lt hl hm htable hsmall h).trans (show 2 ^ 24 < 2 ^ 29 by decide)
  obtain ⟨g, g', ranges, body, hw⟩ := exists_written hl hm htable hfits hfile h
  refine ⟨file, h, (hw.givesBack_iff htable hheaders hnoTable hchoosable hcount).mpr ?_⟩
  exact fun slice hslice => (hlength slice hslice).trans (by decide)

end BentoLinker.Glz
