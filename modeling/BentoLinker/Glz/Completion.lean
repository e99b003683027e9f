import BentoLinker.Glz.Printing
import BentoLinker.Glz.StreamLength

/-!
# When `encode` Completes

For files of less than 128 KiB in all nothing in the compression fails, and what remains is what
`encode` prints.

1. `firstSyms`: the symbols that the table is made from, and what has to be in order for it
2. The size of the output file
3. `encode` step by step
4. `Completes`: what `encode` asks of its files and options
-/

namespace BentoLinker.Glz

open BitCode FallibleFold GLZ

/-! ## Section 1: The first pass -/

/-- What the first pass collects in its histogram -/
def firstSyms (opt : CommonOpt) (paths : List InputFile) : Res (List ℕ) := do
  let first := GLZ.withConfig GLZ.DEFAULT_K opt.l opt.m
  let (bits, _) ← first.encodeAll (inputs opt paths)
  first.traverseSyms bits

theorem firstSyms_eq_ok {opt : CommonOpt} {paths : List InputFile} {syms : List ℕ} :
    firstSyms opt paths = .ok syms ↔ ∃ r,
      (GLZ.withConfig GLZ.DEFAULT_K opt.l opt.m).encodeAll (inputs opt paths) = .ok r ∧
        (GLZ.withConfig GLZ.DEFAULT_K opt.l opt.m).traverseSyms r.1 = .ok syms :=
  Res.bind_eq_ok

/-- The symbols are those that have been written. -/
theorem exists_firstSyms {opt : CommonOpt} {paths : List InputFile} {r : Bits × List (ℕ × ℕ)}
    (hl : opt.l ≤ 8)
    (h : (GLZ.withConfig GLZ.DEFAULT_K opt.l opt.m).encodeAll (inputs opt paths) = .ok r) :
    ∃ syms, firstSyms opt paths = .ok syms ∧ (∀ s ∈ syms, s < 2 ^ 9) ∧
      ∀ slice ∈ inputs opt paths, ∀ x ∈ slice, x.toNat ∈ syms := by
  obtain ⟨bits, offs⟩ := r
  obtain ⟨syms, hcoded, hread⟩ := readable_encodeAll h
  refine ⟨syms.map GLZSym.value, firstSyms_eq_ok.mpr ⟨_, h, traverseSyms_of_coded le_rfl hl hcoded⟩,
    value_lt hl hcoded, fun slice hslice x hx => ?_⟩
  obtain ⟨at_, -, -, -, hreadable⟩ := exists_right_of_mem hread hslice
  obtain ⟨_, _, hmem, -⟩ := hreadable.emitted x hx
  exact List.mem_map_of_mem (f := GLZSym.value) hmem

/-- The table is made, unless a name cannot be cut or nothing but zeros can be drawn. -/
theorem chooseCodec_eq_ok {quiet : Bool} {opt : CommonOpt} {paths : List InputFile} {g : GLZ}
    (hl : opt.l ≤ 8) (htable : opt.table = []) :
    chooseCodec quiet opt paths = .ok g ↔ showFiles quiet opt paths = .ok () ∧
      (∀ syms, firstSyms opt paths = .ok syms → quiet = false → syms ≠ [] → ∃ s ∈ syms, s ≠ 0) ∧
      GLZ.twoPass opt.k opt.l opt.m (inputs opt paths) = .ok g := by
  have hcodec : chooseCodec quiet opt paths = lift (do
      let first := GLZ.withConfig GLZ.DEFAULT_K opt.l opt.m
      showFiles quiet opt paths
      let (bits, _) ← first.encodeAll (inputs opt paths)
      let syms ← first.traverseSyms bits
      let hist ← Hist.collect syms
      if quiet then pure () else do
        let sorted ← hist.sort
        sorted.draw
      GLZ.fromHist opt.k opt.l opt.m hist) := by
    rw [chooseCodec, htable]
  have hdrawn : ∀ {syms : List ℕ} {hist : Hist}, (∀ s ∈ syms, s < 2 ^ 9) →
      Hist.collect syms = .ok hist →
        ((if quiet then GLZ.fromHist opt.k opt.l opt.m hist else do
            let sorted ← hist.sort
            sorted.draw
            GLZ.fromHist opt.k opt.l opt.m hist) = .ok g ↔
          (quiet = false → syms ≠ [] → ∃ s ∈ syms, s ≠ 0) ∧
            GLZ.fromHist opt.k opt.l opt.m hist = .ok g) := by
    intro syms hist hsmall hcollect
    obtain ⟨hist', hcollect', hcounts⟩ := Hist.exists_collect syms
    obtain rfl : hist' = hist := Except.ok.inj (hcollect'.symm.trans hcollect)
    obtain ⟨sorted, hsort, hiff⟩ := Hist.exists_draw_iff hcounts fun s hs => by
      have := hsmall s hs
      omega
    cases quiet with
    | true => exact ⟨fun h => ⟨fun h => (nomatch h), h⟩, And.right⟩
    | false =>
      rw [if_neg Bool.false_ne_true, ← hiff]
      constructor
      · intro h
        obtain ⟨sorted', hsort', h⟩ := Res.bind_eq_ok.mp h
        obtain rfl : sorted = sorted' := Except.ok.inj (hsort.symm.trans hsort')
        obtain ⟨_, hdraw, h⟩ := Res.bind_eq_ok.mp h
        exact ⟨fun _ => hdraw, h⟩
      · rintro ⟨hdraw, h⟩
        exact Res.bind_eq_ok.mpr ⟨sorted, hsort, Res.bind_eq_ok.mpr ⟨(), hdraw rfl, h⟩⟩
  rw [hcodec, lift_eq_ok]
  simp only [GLZ.twoPass, Res.bind_eq_ok]
  constructor
  · rintro ⟨_, hshow, ⟨bits, offs⟩, hbits, syms, hsyms, hist, hcollect, h⟩
    obtain ⟨syms', hfirst, hsmall, -⟩ := exists_firstSyms hl hbits
    obtain rfl : syms = syms' := Except.ok.inj
      ((firstSyms_eq_ok.mpr ⟨_, hbits, hsyms⟩).symm.trans hfirst)
    obtain ⟨hdraw, hfrom⟩ := (hdrawn hsmall hcollect).mp h
    refine ⟨hshow, fun syms' hsyms' => ?_, _, hbits, syms, hsyms, hist, hcollect, hfrom⟩
    obtain rfl : syms = syms' := Except.ok.inj (hfirst.symm.trans hsyms')
    exact hdraw
  · rintro ⟨hshow, hall, ⟨bits, offs⟩, hbits, syms, hsyms, hist, hcollect, hfrom⟩
    obtain ⟨syms', hfirst, hsmall, -⟩ := exists_firstSyms hl hbits
    obtain rfl : syms = syms' := Except.ok.inj
      ((firstSyms_eq_ok.mpr ⟨_, hbits, hsyms⟩).symm.trans hfirst)
    exact ⟨(), hshow, _, hbits, syms, hsyms, hist, hcollect,
      (hdrawn hsmall hcollect).mpr ⟨hall syms hfirst, hfrom⟩⟩

/-! ## Section 2: The size of the output -/

theorem length_writeSize_le (flags size : ℕ) : (writeSize flags size).length ≤ 5 := by
  rw [writeSize]
  split
  · obtain ⟨ds, -, -, hlength, hle⟩ := LEB128.exists_groups_leb128Sym (size % 2 ^ 32) []
    have hds := hle 4 ((Nat.mod_lt _ (by decide)).trans (by decide))
    rw [length_packBytes, hlength]
    omega
  · exact Nat.le_succ 4

theorem length_writeMeta_le (opt : CommonOpt) (flags type_ k size : ℕ) :
    (writeMeta opt flags type_ k size).length ≤ 18 := by
  have hsize := length_writeSize_le flags
  have hmagic : (if !opt.noMagic then MAGIC ++ VERSION ++ toLeBytes16 flags else []).length ≤ 8 := by
    cases opt.noMagic with
    | true => exact Nat.zero_le _
    | false => exact Nat.le_refl _
  have hfields : (if flags &&& FLAG_LEB128 ≠ 0 then
      writeSize flags (type_ <<< 4 ||| k) ++ writeSize flags size
      else writeSize flags (type_ <<< 28 ||| k <<< 24 ||| size)).length ≤ 10 := by
    split
    · rw [List.length_append]
      exact Nat.add_le_add (hsize _) (hsize _)
    · exact (hsize _).trans (by decide)
  rw [writeMeta, List.length_append]
  exact Nat.add_le_add hmagic hfields

theorem length_flatMap_le {α β : Type} {f : α → List β} {c : ℕ} (l : List α)
    (h : ∀ a, (f a).length ≤ c) : (l.flatMap f).length ≤ l.length * c := by
  rw [List.length_flatMap, ← List.length_map (f := fun a => (f a).length)]
  exact List.sum_le_card_nsmul _ c fun n hn => by
    obtain ⟨a, -, rfl⟩ := List.mem_map.mp hn
    exact h a

theorem length_writeSizes_le (flags : ℕ) (sizes : List ℕ) :
    (writeSizes flags sizes).length ≤ sizes.length * 5 :=
  length_flatMap_le sizes (length_writeSize_le flags)

/-- The headers have four fields for a file at most. -/
theorem length_headers_le (opt : CommonOpt) (g : GLZ) (paths : List InputFile)
    (ranges : List (ℕ × ℕ)) : (headers opt g paths ranges).length ≤ 23 + paths.length * 20 := by
  have hmeta := length_writeMeta_le opt (mkflags opt 0) (mktype opt) g.k
  have hzip : ∀ {α β : Type} (xs : List α) (ys : List β), (xs.zip ys).length ≤ xs.length :=
    fun xs ys => by rw [List.length_zip]; exact Nat.min_le_left _ _
  rw [headers]
  split
  · exact Nat.zero_le _
  split
  · have hflat := length_flatMap_le (c := 20)
      (f := fun entry : (InputFile × ℕ × ℕ) × ℕ × ℕ => writeSizes (mkflags opt 0)
        [entry.1.2.1, entry.1.2.2, entry.2.1, entry.2.2])
      ((paths.zip (ranges.drop paths.length)).zip (ranges.take paths.length))
      fun entry => length_writeSizes_le (mkflags opt 0) _
    have hcount := (hzip (paths.zip (ranges.drop paths.length)) (ranges.take paths.length)).trans
      (hzip paths _)
    have := hmeta paths.length
    rw [List.length_append]
    have hscaled := Nat.mul_le_mul_right 20 hcount
    exact (Nat.add_le_add this (hflat.trans hscaled)).trans (by omega)
  split
  · have hflat := length_flatMap_le (c := 10)
      (f := fun entry : InputFile × ℕ × ℕ => writeSizes (mkflags opt 0) [entry.2.1, entry.2.2])
      (paths.zip ranges) fun entry => length_writeSizes_le (mkflags opt 0) _
    have hscaled := Nat.mul_le_mul_right 10 (hzip paths ranges)
    have := hmeta paths.length
    rw [List.length_append]
    exact (Nat.add_le_add this (hflat.trans hscaled)).trans (by omega)
  split
  · have hsize := length_writeSize_le (mkflags opt 0) ((inputs opt paths).map List.length).sum
    have := hmeta (tableSize opt g)
    rw [List.length_append]
    omega
  · have := hmeta (tableSize opt g)
    omega

/-- The room for a file ends inside the blob. -/
theorem filesAfter_le {files : List Listed} {blobSize : ℕ} (hoff : ∀ file ∈ files, file.off ≤ blobSize)
    (i : ℕ) : ((filesAfter files blobSize).lookup i).getD 0 ≤ (blobSize + 7) / 8 := by
  cases hroom : (filesAfter files blobSize).lookup i with
  | none => exact Nat.zero_le _
  | some room =>
    obtain ⟨_, _, hsplit, -⟩ := List.lookup_eq_some_iff.mp hroom
    have hmem : (i, room) ∈ filesAfter files blobSize := by
      rw [hsplit]
      exact List.mem_append_right _ List.mem_cons_self
    obtain ⟨entry, -, hentry⟩ := List.mem_map.mp hmem
    cases hentry
    have hend : (((files.zipIdx.mergeSort Listed.le)[entry.2 + 1]?.map
        fun next => next.1.off).getD blobSize) ≤ blobSize := by
      cases hnext : (files.zipIdx.mergeSort Listed.le)[entry.2 + 1]? with
      | none => exact Nat.le_refl _
      | some next =>
        have hnext := (List.mergeSort_perm _ _).mem_iff.mp (List.mem_of_getElem? hnext)
        exact hoff next.1 (List.fst_mem_of_mem_zipIdx hnext)
    exact Nat.div_le_div_right (by omega)

/-- The percentages of sizes up to 16 MiB are in range. -/
theorem percentFits_iff {before after : ℕ} (hbefore : before < 2 ^ 24) (hafter : after < 2 ^ 24) :
    PercentFits before after ↔ 0 < before := by
  have hvalue : ∀ n < 2 ^ 24, toI32 n = n := fun n hn => Int.bmod_eq_of_le (by omega) (by omega)
  rw [PercentFits, hvalue before hbefore, hvalue after hafter]
  omega

/-! ## Section 3: Step by step -/

/-- The files of the summary -/
def listed (opt : CommonOpt) (g : GLZ) (paths : List InputFile) (offs : List (ℕ × ℕ)) :
    List Listed :=
  (paths.zip (adjust opt g offs)).map fun entry => ⟨entry.1.path, entry.2.1, entry.2.2⟩

/-- The table in the blob -/
def tableBits (opt : CommonOpt) (g : GLZ) : Bits :=
  if !opt.noTable then g.decodeTable.flatMap (toBits (1 + GLZ.WIDTH)) else []

theorem length_tableBits (opt : CommonOpt) (g : GLZ) :
    (tableBits opt g).length = tableSize opt g := by
  have hflat : ∀ ns : List ℕ,
      (ns.flatMap (toBits (1 + GLZ.WIDTH))).length = (1 + GLZ.WIDTH) * ns.length := by
    intro ns
    induction ns with
    | nil => rfl
    | cons n ns ih =>
      rw [List.flatMap_cons, List.length_append, ih, length_toBits, List.length_cons, Nat.mul_succ,
        Nat.add_comm]
  rw [tableBits, tableSize]
  cases opt.noTable with
  | true => rfl
  | false => exact hflat g.decodeTable

/-- The blob is the table, if it is not left out, with the stream behind it. -/
theorem writeBody_eq {opt : CommonOpt} {g : GLZ} (bits : Bits)
    (hentries : ∀ n ∈ g.decodeTable, n < 2 ^ 9) :
    g.writeBody opt bits = .ok (packBytes (tableBits opt g ++ bits)) := by
  rw [GLZ.writeBody, tableBits]
  cases opt.noTable with
  | true => rfl
  | false =>
    have htable : encodeSyms (Glz.encodeSym 32 (1 + GLZ.WIDTH)) g.decodeTable = .ok _ :=
      (decodeSyms_encodeSyms (by decide) (by decide) hentries).1
    exact Res.bind_eq_ok.mpr ⟨_, htable, rfl⟩

theorem encodeFile_eq_ok {opt : CommonOpt} {g : GLZ} {paths : List InputFile} {file : List UInt8} :
    g.encodeFile opt paths = .ok file ↔ ∃ bits offs body,
      g.encodeAll (inputs opt paths) = .ok (bits, offs) ∧
        printFiles (listed opt g paths offs) (tableSize opt g + bits.length) = .ok () ∧
          g.writeBody opt bits = .ok body ∧ file = headers opt g paths (adjust opt g offs) ++ body := by
  simp only [GLZ.encodeFile, Res.bind_eq_ok]
  constructor
  · rintro ⟨⟨bits, offs⟩, henc, _, hprint, body, hbody, h⟩
    cases h
    exact ⟨bits, offs, body, henc, hprint, hbody, rfl⟩
  · rintro ⟨bits, offs, body, henc, hprint, hbody, rfl⟩
    exact ⟨(bits, offs), henc, (), hprint, body, hbody, rfl⟩

theorem encode_eq_ok {quiet : Bool} {opt : CommonOpt} {paths : List InputFile} {file : List UInt8} :
    encode quiet opt paths = .ok file ↔ ∃ g, chooseCodec quiet opt paths = .ok g ∧
      showFiles quiet opt paths = .ok () ∧ g.encodeFile opt paths = .ok file ∧
        PercentFits (sizeBefore paths) file.length := by
  simp only [encode, bind_ok, lift_eq_ok, ← exists_percent_iff]
  constructor
  · rintro ⟨g, hg, _, hshow, file', hfile, p, hp, h⟩
    cases h
    exact ⟨g, hg, hshow, hfile, p, hp⟩
  · rintro ⟨g, hg, hshow, hfile, p, hp⟩
    exact ⟨g, hg, (), hshow, file, hfile, p, hp, rfl⟩

/-- In the summary each path has the size of its data. -/
theorem forall₂_listed {opt : CommonOpt} {g : GLZ} {paths : List InputFile} {bits : Bits}
    {offs : List (ℕ × ℕ)} (henc : g.encodeAll (inputs opt paths) = .ok (bits, offs)) :
    List.Forall₂ (fun path file => file.size = path.data.length ∧
      file.off ≤ tableSize opt g + bits.length) paths (listed opt g paths offs) := by
  obtain ⟨_, -, hread⟩ := readable_encodeAll henc
  rw [inputs] at hread
  clear henc
  generalize (if opt.archive then paths.map InputFile.path else []) = names at hread
  induction paths generalizing offs with
  | nil => exact .nil
  | cons path paths ih =>
    cases hread with
    | @cons _ at_ _ offs hat hrest =>
      exact .cons ⟨hat.1, Nat.add_le_add_left hat.2.1 _⟩ (ih hrest)

/-! ## Section 4: What `encode` asks for -/

/-- What has to be in order for `encode` to complete, for files of less than 128 KiB in all. -/
structure Completes (quiet : Bool) (opt : CommonOpt) (paths : List InputFile) : Prop where
  files : paths ≠ []
  data : ∀ path ∈ paths, path.data ≠ []
  k : ∀ k, opt.k = some k → k < 32
  /-- the messages of the progress bars -/
  names : quiet = false → 1 < (inputs opt paths).length → ∀ path ∈ paths, CutsFit path.path
  /-- the drawing of the histogram -/
  drawn : quiet = false → ∀ syms, firstSyms opt paths = .ok syms → ∃ s ∈ syms, s ≠ 0

section Small

variable {quiet : Bool} {opt : CommonOpt} {paths : List InputFile}

theorem data_mem_inputs {path : InputFile} (hpath : path ∈ paths) :
    path.data ∈ inputs opt paths :=
  List.mem_append_left _ (List.mem_map_of_mem hpath)

theorem length_le_totalBytes {slices : List (List UInt8)} {slice : List UInt8}
    (h : slice ∈ slices) : slice.length ≤ totalBytes slices :=
  List.single_le_sum (fun _ _ => Nat.zero_le _) _ (List.mem_map_of_mem h)

theorem sizeBefore_le (opt : CommonOpt) (paths : List InputFile) :
    sizeBefore paths ≤ totalBytes (inputs opt paths) := by
  rw [totalBytes, inputs, List.map_append, List.sum_append, List.map_map]
  exact Nat.le_add_right _ _

theorem length_paths_le (hdata : ∀ path ∈ paths, path.data ≠ []) :
    paths.length ≤ sizeBefore paths := by
  rw [sizeBefore]
  induction paths with
  | nil => exact Nat.le_refl 0
  | cons path paths ih =>
    have hpos := List.length_pos_iff.mpr (hdata path List.mem_cons_self)
    have hrest := ih fun p hp => hdata p (List.mem_cons_of_mem _ hp)
    rw [List.length_cons, List.map_cons, List.sum_cons]
    omega

/-- Where the output is there, it has been compressed, and something has been printed of it. -/
theorem completes_of_encode {file : List UInt8} (hl : opt.l ≤ 8) (hm : opt.m < 32)
    (htable : opt.table = []) (h : encode quiet opt paths = .ok file) :
    Completes quiet opt paths := by
  obtain ⟨g, hg, hshow, hfile, hsummary⟩ := encode_eq_ok.mp h
  obtain ⟨-, hdrawn, htwo⟩ := (chooseCodec_eq_ok hl htable).mp hg
  obtain ⟨bits, offs, body, henc, hprint, -, -⟩ := encodeFile_eq_ok.mp hfile
  obtain ⟨first, hfirst, -⟩ := Res.bind_eq_ok.mp htwo
  have hfiles : paths ≠ [] := by
    rintro rfl
    exact hsummary.1 rfl
  have hdata : ∀ path ∈ paths, path.data ≠ [] := by
    intro path hpath hnil
    obtain ⟨entry, hentry, hsize, -⟩ := exists_right_of_mem (forall₂_listed henc) hpath
    obtain ⟨i, hi⟩ := List.getElem?_of_mem hentry
    have hpercent := printFiles_eq_ok.mp hprint (entry, i) (List.mem_zipIdx_iff_getElem?.mpr hi)
    rw [hsize, hnil] at hpercent
    exact hpercent.1 rfl
  obtain ⟨path, hpath⟩ := List.exists_mem_of_ne_nil paths hfiles
  obtain ⟨g', _, _, htwo', -, hk, -⟩ := exists_twoPass opt.k hl hm hfirst
  obtain rfl : g' = g := Except.ok.inj (htwo'.symm.trans htwo)
  obtain ⟨syms, hsyms, -, hbytes⟩ := exists_firstSyms hl hfirst
  refine ⟨hfiles, hdata, fun k hsome => ?_, showFiles_eq_ok.mp hshow, fun hquiet syms' hsyms' => ?_⟩
  · rw [← hk k hsome]
    exact k_lt_of_encodeAll henc (data_mem_inputs hpath) (hdata path hpath)
  · obtain rfl : syms = syms' := Except.ok.inj (hsyms.symm.trans hsyms')
    obtain ⟨x, hx⟩ := List.exists_mem_of_ne_nil path.data (hdata path hpath)
    exact hdrawn syms hsyms hquiet
      (List.ne_nil_of_mem (hbytes path.data (data_mem_inputs hpath) x hx))

section Prepared

variable {g : GLZ} {syms t : List ℕ} (hp : Prepared g (inputs opt paths) syms t)

include hp

theorem decodeTable_of_prepared : g.decodeTable = t := by
  rw [GLZ.decodeTable, Hist.decodeTable, hp.sorted.table]

/-- Entries of the table are symbols, which nine bits are enough for. -/
theorem entries_lt_of_prepared : ∀ n ∈ g.decodeTable, n < 2 ^ 9 := by
  rw [decodeTable_of_prepared hp]
  exact fun n hn => hp.small n ((hp.sorted.mem n).mp hn)

theorem tableSize_le_of_prepared : tableSize opt g ≤ 9 * 2 ^ 9 := by
  rw [tableSize, decodeTable_of_prepared hp]
  split
  · exact Nat.mul_le_mul_left _ hp.length_le
  · exact Nat.zero_le _

variable (hsmall : totalBytes (inputs opt paths) < 2 ^ 17) {bits : Bits} {offs : List (ℕ × ℕ)}
  (henc : g.encodeAll (inputs opt paths) = .ok (bits, offs))

include hsmall henc

theorem length_blob_le : tableSize opt g + bits.length ≤ 9 * 2 ^ 9 + 2 ^ 26 := by
  have hbits := length_encodeAll_le hp.immWithin henc
  have htableSize := tableSize_le_of_prepared hp
  omega

theorem length_output_lt (hdata : ∀ path ∈ paths, path.data ≠ []) :
    (headers opt g paths (adjust opt g offs) ++ packBytes (tableBits opt g ++ bits)).length <
      2 ^ 24 := by
  have hblob := length_blob_le hp hsmall henc
  have hcount := length_paths_le hdata
  have hbefore := sizeBefore_le opt paths
  have hheaders := length_headers_le opt g paths (adjust opt g offs)
  rw [List.length_append, length_packBytes, List.length_append, length_tableBits]
  omega

end Prepared

/-- Both passes write short streams, and all sizes have a percentage. -/
theorem exists_encode_of_completes (hl : opt.l ≤ 8) (hm : opt.m < 32) (htable : opt.table = [])
    (hsmall : totalBytes (inputs opt paths) < 2 ^ 17) (hc : Completes quiet opt paths) :
    ∃ file, encode quiet opt paths = .ok file := by
  -- the first pass
  have hshort := immWithin_withConfig opt.l opt.m (inputs opt paths)
  obtain ⟨first, hfirst⟩ :=
    (writes_withConfig (show DEFAULT_K < 32 by decide) hl hm _).exists_encodeAll_iff.mpr
      (fits_of_short hshort (by omega))
  obtain ⟨g, syms, t, htwo, hp, hsome, hnone⟩ := exists_twoPass opt.k hl hm hfirst
  have hk : g.k < 32 := by
    cases hopt : opt.k with
    | none => exact hnone hopt
    | some k => exact hsome k hopt ▸ hc.k k hopt
  -- the second one
  obtain ⟨⟨bits, offs⟩, henc⟩ :=
    (hp.writes hk).exists_encodeAll_iff.mpr (fits_of_short hp.immWithin (by omega))
  have hblob := length_blob_le hp hsmall henc
  have hshow := showFiles_eq_ok.mpr hc.names
  have hprint : printFiles (listed opt g paths offs) (tableSize opt g + bits.length) = .ok () := by
    refine printFiles_eq_ok.mpr fun entry hentry => ?_
    have hall := forall₂_listed henc
    obtain ⟨path, hpath, hsize, -⟩ := exists_left_of_mem hall (List.fst_mem_of_mem_zipIdx hentry)
    have hroom := filesAfter_le (fun file hfile => by
      obtain ⟨_, -, -, hoff⟩ := exists_left_of_mem hall hfile
      exact hoff) entry.2
    have hmem : path.data ∈ inputs opt paths := data_mem_inputs hpath
    have hlength := length_le_totalBytes hmem
    rw [hsize, percentFits_iff (by omega) (by omega)]
    exact List.length_pos_iff.mpr (hc.data path hpath)
  have hbefore := sizeBefore_le opt paths
  have hsummary : PercentFits (sizeBefore paths)
      (headers opt g paths (adjust opt g offs) ++ packBytes (tableBits opt g ++ bits)).length := by
    rw [percentFits_iff (by omega) (length_output_lt hp hsmall henc hc.data)]
    exact (List.length_pos_iff.mpr hc.files).trans_le (length_paths_le hc.data)
  have hchoose : chooseCodec quiet opt paths = .ok g :=
    (chooseCodec_eq_ok hl htable).mpr
      ⟨hshow, fun syms hsyms hquiet _ => hc.drawn hquiet syms hsyms, htwo⟩
  exact ⟨_, encode_eq_ok.mpr ⟨g, hchoose, hshow, encodeFile_eq_ok.mpr
    ⟨bits, offs, _, henc, hprint, writeBody_eq bits (entries_lt_of_prepared hp), rfl⟩, hsummary⟩⟩

/-- Output files of such files have less than 16 MiB. -/
theorem length_encode_lt {file : List UInt8} (hl : opt.l ≤ 8) (hm : opt.m < 32)
    (htable : opt.table = []) (hsmall : totalBytes (inputs opt paths) < 2 ^ 17)
    (h : encode quiet opt paths = .ok file) : file.length < 2 ^ 24 := by
  have hc := completes_of_encode hl hm htable h
  obtain ⟨g, hg, -, hencoded, -⟩ := encode_eq_ok.mp h
  obtain ⟨-, -, htwo⟩ := (chooseCodec_eq_ok hl htable).mp hg
  obtain ⟨bits, offs, body, henc, -, hbody, rfl⟩ := encodeFile_eq_ok.mp hencoded
  obtain ⟨first, hfirst, -⟩ := Res.bind_eq_ok.mp htwo
  obtain ⟨g', _, _, htwo', hp, -⟩ := exists_twoPass opt.k hl hm hfirst
  obtain rfl : g' = g := Except.ok.inj (htwo'.symm.trans htwo)
  obtain rfl : body = _ :=
    Except.ok.inj (hbody.symm.trans (writeBody_eq bits (entries_lt_of_prepared hp)))
  exact length_output_lt hp hsmall henc hc.data

/-- A byte that is not 0 is drawn. -/
theorem drawn_of_byte {slice : List UInt8} (hl : opt.l ≤ 8) (hslice : slice ∈ inputs opt paths)
    {x : UInt8} (hx : x ∈ slice) (hne : x ≠ 0) {syms : List ℕ}
    (h : firstSyms opt paths = .ok syms) : ∃ s ∈ syms, s ≠ 0 := by
  obtain ⟨r, hr, -⟩ := firstSyms_eq_ok.mp h
  obtain ⟨syms', hsyms', -, hbytes⟩ := exists_firstSyms hl hr
  obtain rfl : syms' = syms := Except.ok.inj (hsyms'.symm.trans h)
  exact ⟨x.toNat, hbytes slice hslice x hx, fun h => hne (UInt8.toNat_inj.mp h)⟩

end Small

end BentoLinker.Glz
