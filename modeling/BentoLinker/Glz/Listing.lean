import BentoLinker.Glz.CommandRoundTrip

/-!
# Output Files Listed

What `ls` prints of a file that `encode` has written: every input file, with the range from which
`decode` gives it back.

1. `decode_range`: a range that is given to `decode`
2. `listFiles` on the three kinds of headers
3. `ls_encode`
-/

namespace BentoLinker.Glz

open BitCode FallibleFold PrefixReader

/-- The names in the list: the files of an index are called by their offsets. -/
def listedNames (opt : CommonOpt) (paths : List InputFile) (files : List Listed) :
    List (List UInt8) :=
  if mktype opt = TYPE_ARCHIVE then paths.map InputFile.path
  else if mktype opt = TYPE_INDEX then files.map fun entry => decimal entry.off
  else [decimal 0]

/-- The entry says where the file is. -/
def Leads (opt : CommonOpt) (file : List UInt8) (path : InputFile) (entry : Listed) : Prop :=
  entry.size = path.data.length ∧ ∀ o : DecodeOpt, Reads o.common opt → o.off = some entry.off →
    o.len = some entry.size → path.data.length < 2 ^ 31 → decode o file = .ok path.data

/-- The list has the input files, in their order. -/
structure Tells (opt : CommonOpt) (paths : List InputFile) (file : List UInt8)
    (files : List Listed) : Prop where
  names : files.map Listed.name = listedNames opt paths files
  leads : List.Forall₂ (Leads opt file) paths files

section Written

variable {opt d : CommonOpt} {paths : List InputFile} {file : List UInt8} {g g' : GLZ}
  {ranges : List (ℕ × ℕ)} {body : List UInt8} {index : Index}

/-! ## Section 1: Ranges -/

/-- Offset and length are taken as they are given. -/
theorem decode_range {o : DecodeOpt} {off len : ℕ} (hw : Written opt paths file g g' ranges body)
    (hd : Reads o.common opt) (hnoTable : opt.noTable = false)
    (hfront : readFront o.common file = .ok ((some g.k, index, body), []))
    (hindex : index.tableSize = some (tableSize opt g)) (hoff : o.off = some off)
    (hlen : o.len = some len) :
    decode o file = lift (g'.decodeAt (unpackBytes body) off len) := by
  have htarget : findTarget o g' (unpackBytes body) index (tableSize opt g) = .ok (off, len) := by
    rw [findTarget.eq_def, hoff, hlen]
    rfl
  rw [decode_of_front hfront, decodeBody_eq hw hd hnoTable hindex, htarget]
  rfl

/-- Where the file is located there is its entry. -/
theorem leads_of_located {path : InputFile} {entry : Listed}
    (hw : Written opt paths file g g' ranges body) (hnoTable : opt.noTable = false)
    (hfront : ∀ d, Reads d opt → readFront d file = .ok ((some g.k, index, body), []))
    (hindex : index.tableSize = some (tableSize opt g))
    (hlocated : Located g' (unpackBytes body) (tableSize opt g) path.data (entry.off, entry.size)) :
    Leads opt file path entry := by
  refine ⟨hlocated.size, fun o hd hoff hlen hshort => ?_⟩
  have hdecode : g'.decodeAt (unpackBytes body) entry.off entry.size = .ok path.data :=
    hlocated.short hshort
  rw [decode_range hw hd hnoTable (hfront _ hd) hindex hoff hlen, hdecode]
  rfl

/-! ## Section 2: Lists -/

/-- Up to the list, `ls` does what `decode` does. -/
theorem ls_of_front (hw : Written opt paths file g g' ranges body) (hd : Reads d opt)
    (hnoTable : opt.noTable = false)
    (hfront : readFront d file = .ok ((some g.k, index, body), []))
    (hindex : index.tableSize = some (tableSize opt g)) :
    ls d file = (do
      let files ← listFiles g' (unpackBytes body) index (tableSize opt g)
      lift (checkOffs files (unpackBytes body).length)
      lift (printFiles files (unpackBytes body).length)
      let _ ← lift (percent (files.map Listed.size).sum file.length)
      pure files) := by
  rw [ls, hfront]
  change lsBody d (some g.k) index body file.length = _
  rw [lsBody, hindex]
  rw [loadTable_of_written hw hd hnoTable]
  change (loadCodec d (some g.k) g.decodeTable >>= _) = _
  rw [loadCodec_of_written hw hd]
  rfl

variable (hw : Written opt paths file g g' ranges body) (hnoTable : opt.noTable = false)
  (hfront : ∀ d, Reads d opt → readFront d file = .ok ((some g.k, index, body), []))
  (hindex : index.tableSize = some (tableSize opt g))

include hw hnoTable hfront hindex

/-- A name that is read is the one that has been written. -/
theorem tells_of_archive (htype : mktype opt = TYPE_ARCHIVE)
    (harchived : index.archiveFiles = archived paths ranges ∧ index.indexFiles = [] ∧
      index.size = none) {files : List Listed}
    (h : listFiles g' (unpackBytes body) index (tableSize opt g) = .ok files) :
    Tells opt paths file files := by
  obtain ⟨hnames, hdata⟩ := hw.archived_located htype
  obtain ⟨harchived, hindexed, hsingle⟩ := harchived
  rw [listFiles, harchived, hindexed, hsingle] at h
  obtain ⟨entries, hentries, h⟩ := bind_ok.mp h
  cases h
  rw [List.map_nil, Option.toList_none, List.map_nil, List.append_nil, List.append_nil]
  have hpairs := List.Forall₂.mp (fun _ _ => And.intro) (List.forall₂_map_left_iff.mp hnames)
    (List.forall₂_map_right_iff.mp (List.forall₂_map_left_iff.mp hdata))
  have hall : List.Forall₂ (fun path entry => path.path = entry.name ∧ Leads opt file path entry)
      paths entries := by
    refine forall₂_trans ?_ hpairs (forall₂_of_mapM hentries)
    rintro path ⟨⟨poff, plen⟩, range⟩ entry ⟨hname, hlocated⟩ hread
    obtain ⟨bytes, hbytes, hread⟩ := bind_ok.mp hread
    obtain ⟨name, hutf8, hread⟩ := bind_ok.mp hread
    cases hread
    have hshort : path.path.length < 2 ^ 31 :=
      Nat.lt_of_not_le fun hlong => hname.long hlong bytes (lift_eq_ok.mp hbytes)
    obtain rfl : path.path = bytes :=
      Except.ok.inj ((hname.short hshort).symm.trans (lift_eq_ok.mp hbytes))
    refine ⟨?_, leads_of_located hw hnoTable hfront hindex hlocated⟩
    rw [fromUtf8] at hutf8
    split at hutf8
    · exact Except.ok.inj hutf8
    · cases hutf8
  refine ⟨?_, hall.imp fun _ _ => And.right⟩
  have hsame := List.forall₂_map_left_iff.mpr (List.forall₂_map_right_iff.mpr
    (hall.imp fun _ _ => And.left))
  rw [List.forall₂_eq_eq_eq] at hsame
  rw [listedNames, if_pos htype, hsame]

/-- An index has the ranges only. -/
theorem tells_of_index (htype : mktype opt = TYPE_INDEX)
    (hindexed : index.archiveFiles = [] ∧ index.indexFiles = ranges ∧ index.size = none)
    {files : List Listed}
    (h : listFiles g' (unpackBytes body) index (tableSize opt g) = .ok files) :
    Tells opt paths file files := by
  obtain ⟨harchived, hindexed, hsingle⟩ := hindexed
  rw [listFiles, harchived, hindexed, hsingle] at h
  cases h
  rw [List.reverse_nil, List.nil_append, Option.toList_none, List.map_nil, List.append_nil]
  have hinputs : inputs opt paths = paths.map InputFile.data := by
    rw [inputs, archive_eq_false (by rw [htype]; decide)]
    exact List.append_nil _
  have hlocated := hw.located
  rw [hinputs, List.forall₂_map_left_iff] at hlocated
  refine ⟨?_, List.forall₂_map_right_iff.mpr (hlocated.imp fun path range hrange =>
    leads_of_located hw hnoTable hfront hindex hrange)⟩
  rw [listedNames, htype, if_neg (by decide), if_pos rfl, List.map_map, List.map_map]
  rfl

/-- The one file starts with the stream. -/
theorem tells_of_len (htype : mktype opt = TYPE_LEN) (hone : paths.length = 1)
    (hsingle : index.archiveFiles = [] ∧ index.indexFiles = [] ∧
      index.size = some ((inputs opt paths).map List.length).sum) {files : List Listed}
    (h : listFiles g' (unpackBytes body) index (tableSize opt g) = .ok files) :
    Tells opt paths file files := by
  obtain ⟨path, rfl⟩ := List.length_eq_one_iff.mp hone
  obtain ⟨harchived, hindexed, hsingle⟩ := hsingle
  rw [listFiles, harchived, hindexed, hsingle] at h
  cases h
  have hinputs : inputs opt [path] = [path.data] := by
    rw [inputs, archive_eq_false (by rw [htype]; decide)]
    rfl
  have hlocated := hw.located
  rw [hinputs] at hlocated ⊢
  obtain ⟨range, hranges, hlocated⟩ : ∃ range, ranges = [range] ∧
      Located g' (unpackBytes body) (tableSize opt g) path.data range := by
    cases hlocated with
    | cons hrange hrest =>
      cases hrest
      exact ⟨_, rfl, hrange⟩
  obtain ⟨range', hmem, hfirst⟩ := hw.first
  rw [hranges, List.mem_singleton] at hmem
  rw [hmem] at hfirst
  refine ⟨?_, .cons ?_ .nil⟩
  · rw [listedNames, htype, if_neg (by decide), if_neg (by decide)]
    rfl
  · refine leads_of_located hw hnoTable hfront hindex ?_
    have hrange : range = (tableSize opt g, path.data.length) :=
      Prod.ext hfirst hlocated.size
    rw [hrange] at hlocated
    exact hlocated

end Written

/-! ## Section 3: `ls` -/

/-- What the headers say about the files -/
inductive HasFiles (opt : CommonOpt) (paths : List InputFile) (ranges : List (ℕ × ℕ)) :
    List ((ℕ × ℕ) × (ℕ × ℕ)) → List (ℕ × ℕ) → Option ℕ → Prop
  | archive : mktype opt = TYPE_ARCHIVE → HasFiles opt paths ranges (archived paths ranges) [] none
  | index : mktype opt = TYPE_INDEX → HasFiles opt paths ranges [] ranges none
  | len : mktype opt = TYPE_LEN →
    HasFiles opt paths ranges [] [] (some ((inputs opt paths).map List.length).sum)
  | none : mktype opt = TYPE_NONE → HasFiles opt paths ranges [] [] none

section Files

variable {opt d : CommonOpt} {paths : List InputFile} {file : List UInt8} {g g' : GLZ}
  {ranges : List (ℕ × ℕ)} {body : List UInt8} {index : Index}
  (hw : Written opt paths file g g' ranges body) (hnoTable : opt.noTable = false)

include hw

theorem exists_readFront (hheaders : opt.noHeaders = false) (hfits : HeaderFits opt paths)
    (hone : mktype opt = TYPE_LEN → paths.length = 1) :
    ∃ index : Index, HasFiles opt paths ranges index.archiveFiles index.indexFiles index.size ∧
      index.tableSize = some (tableSize opt g) ∧
      ∀ d, Reads d opt → readFront d file = .ok ((some g.k, index, body), []) := by
  by_cases harchive : mktype opt = TYPE_ARCHIVE
  · exact ⟨_, .archive harchive, rfl, fun d hd =>
      readFront_archive hw hd hheaders harchive hfits.count⟩
  by_cases hindex : mktype opt = TYPE_INDEX
  · exact ⟨_, .index hindex, rfl, fun d hd => readFront_index hw hd hheaders hindex hfits.count⟩
  by_cases hlen : mktype opt = TYPE_LEN
  · have hsum : ((inputs opt paths).map List.length).sum < 2 ^ 32 := by
      obtain ⟨path, rfl⟩ := List.length_eq_one_iff.mp (hone hlen)
      have hinputs : inputs opt [path] = [path.data] := by
        rw [inputs, archive_eq_false harchive]
        rfl
      have hlength := hfits.lengths path.data (by rw [hinputs]; exact List.mem_singleton_self _)
      rw [hinputs]
      exact hlength
    exact ⟨_, .len hlen, rfl, fun d hd => readFront_len hw hd hheaders hlen hsum⟩
  · have hnone : mktype opt = TYPE_NONE := by
      unfold mktype at harchive hindex hlen ⊢
      split_ifs at harchive hindex hlen ⊢
      · exact absurd rfl harchive
      · exact absurd rfl hindex
      · exact absurd rfl hlen
      · rfl
    exact ⟨_, .none hnone, rfl, fun d hd => readFront_none hw hd hheaders hnone⟩

/-- Where there is a list it tells all files; without a length, it tells none. -/
theorem tells_of_listFiles (hnoTable : opt.noTable = false)
    (hfiles : HasFiles opt paths ranges index.archiveFiles index.indexFiles index.size)
    (hindex : index.tableSize = some (tableSize opt g))
    (hfront : ∀ d, Reads d opt → readFront d file = .ok ((some g.k, index, body), []))
    (hone : mktype opt = TYPE_LEN → paths.length = 1) {files : List Listed}
    (h : listFiles g' (unpackBytes body) index (tableSize opt g) = .ok files) :
    mktype opt = TYPE_NONE ∧ files = [] ∨
      mktype opt ≠ TYPE_NONE ∧ Tells opt paths file files := by
  obtain ⟨archiveFiles, indexFiles, size, start⟩ := index
  dsimp only at hfiles hindex
  cases hfiles with
  | archive htype => exact .inr ⟨by rw [htype]; decide,
      tells_of_archive hw hnoTable hfront hindex htype ⟨rfl, rfl, rfl⟩ h⟩
  | index htype => exact .inr ⟨by rw [htype]; decide,
      tells_of_index hw hnoTable hfront hindex htype ⟨rfl, rfl, rfl⟩ h⟩
  | len htype => exact .inr ⟨by rw [htype]; decide,
      tells_of_len hw hnoTable hfront hindex htype (hone htype) ⟨rfl, rfl, rfl⟩ h⟩
  | none htype =>
    cases h
    exact .inl ⟨htype, rfl⟩

/-- Short names can be read. -/
theorem exists_listFiles
    (hfiles : HasFiles opt paths ranges index.archiveFiles index.indexFiles index.size)
    (hutf8 : mktype opt = TYPE_ARCHIVE → ∀ path ∈ paths, fromUtf8 path.path = .ok path.path ∧
      path.path.length < 2 ^ 31) :
    ∃ files, listFiles g' (unpackBytes body) index (tableSize opt g) = .ok files := by
  obtain ⟨archiveFiles, indexFiles, size, start⟩ := index
  dsimp only at hfiles
  cases hfiles with
  | archive htype =>
    obtain ⟨entries, hentries, -⟩ := exists_mapM (l := archived paths ranges)
      (f := fun file : (ℕ × ℕ) × (ℕ × ℕ) => (do
        let bytes ← lift (g'.decodeAt (U := UInt8) (unpackBytes body) file.1.1 file.1.2)
        let name ← fromUtf8 bytes
        pure (⟨name, file.2.1, file.2.2⟩ : Listed) : Cmd Listed)) (by
      intro entry hentry
      obtain ⟨name, hname, hlocated⟩ :=
        exists_left_of_mem (hw.archived_located htype).1 hentry
      obtain ⟨path, hpath, rfl⟩ := List.mem_map.mp hname
      obtain ⟨hvalid, hshort⟩ := hutf8 htype path hpath
      exact ⟨_, bind_ok.mpr ⟨_, lift_eq_ok.mpr (hlocated.short hshort),
        bind_ok.mpr ⟨_, hvalid, rfl⟩⟩⟩)
    exact ⟨_, bind_ok.mpr ⟨entries, hentries, rfl⟩⟩
  | index htype => exact ⟨_, rfl⟩
  | len htype => exact ⟨_, rfl⟩
  | none htype => exact ⟨_, rfl⟩

end Files

/-- Decoding starts inside of the stream. -/
theorem off_le_of_decodeAt {g : GLZ} {bits : Bits} {off len : ℕ} {xs : List UInt8}
    (h : g.decodeAt bits off len = .ok xs) (hlen : 0 < len) : off ≤ bits.length := by
  have hstart : ∀ {sym : GLZSym UInt8} {d : ℕ}, g.decodeSymAt UInt8 bits off = .ok (sym, d) →
      off ≤ bits.length := by
    intro sym d hsym
    obtain ⟨rest, hrest, -⟩ := Res.bind_eq_ok.mp hsym
    exact (sliceFrom_eq_ok.mp hrest).1
  have hmore : GLZ.wantsMore bits (some len) off ([] : List UInt8).length = true :=
    decide_eq_true hlen
  obtain ⟨fuel, -, -, hturn⟩ := GLZ.decode1Loop_cases hmore h
  cases hturn with
  | imm hsym _ => exact hstart hsym
  | tail hsym _ _ => exact hstart hsym
  | nested hsym _ _ _ => exact hstart hsym

/-- What is printed has a value for files of less than 16 MiB. -/
theorem printed_of_tells {opt : CommonOpt} {paths : List InputFile} {file : List UInt8}
    {g : GLZ} {blob : Bits} {files : List Listed} (hself : Reads opt opt)
    (hdata : ∀ path ∈ paths, path.data ≠ []) (hne : paths ≠ [])
    (htells : Tells opt paths file files)
    (hdecode : ∀ (o : DecodeOpt) (off len : ℕ), Reads o.common opt → o.off = some off →
      o.len = some len → decode o file = lift (g.decodeAt blob off len))
    (hbefore : sizeBefore paths < 2 ^ 24) (hafter : file.length < 2 ^ 24)
    (hblob : (blob.length + 7) / 8 ≤ file.length) :
    checkOffs files blob.length = .ok () ∧ printFiles files blob.length = .ok () ∧
      ∃ p, percent (files.map Listed.size).sum file.length = .ok p := by
  have hsize : ∀ path ∈ paths, path.data.length ≤ sizeBefore paths := fun path hpath =>
    List.single_le_sum (fun _ _ => Nat.zero_le _) _ (List.mem_map_of_mem hpath)
  have hoff : ∀ entry ∈ files, entry.off ≤ blob.length := by
    intro entry hentry
    obtain ⟨path, hpath, hlen, hleads⟩ := exists_left_of_mem htells.leads hentry
    have hshort := hsize path hpath
    have hback := hleads ⟨none, some entry.off, some entry.size, opt⟩ hself rfl rfl (by omega)
    rw [hdecode _ _ _ hself rfl rfl] at hback
    refine off_le_of_decodeAt (lift_eq_ok.mp hback) ?_
    rw [hlen]
    exact List.length_pos_iff.mpr (hdata path hpath)
  refine ⟨forM_eq_ok.mpr fun entry hentry => ?_, printFiles_eq_ok.mpr fun entry hentry => ?_, ?_⟩
  · exact Res.bind_eq_ok.mpr ⟨_, subUsize_eq_ok.mpr ⟨hoff entry hentry, rfl⟩, rfl⟩
  · obtain ⟨path, hpath, hlen, -⟩ :=
      exists_left_of_mem htells.leads (List.fst_mem_of_mem_zipIdx hentry)
    have hroom := filesAfter_le hoff entry.2
    have hshort := hsize path hpath
    rw [hlen, percentFits_iff (by omega) (by omega)]
    exact List.length_pos_iff.mpr (hdata path hpath)
  · have hsum : (files.map Listed.size).sum = sizeBefore paths := by
      have hsame := List.forall₂_map_left_iff.mpr (List.forall₂_map_right_iff.mpr
        (htells.leads.imp fun _ _ hleads => hleads.1.symm))
      rw [List.forall₂_eq_eq_eq] at hsame
      rw [sizeBefore, ← hsame]
    rw [hsum, exists_percent_iff, percentFits_iff hbefore hafter]
    exact (List.length_pos_iff.mpr hne).trans_le (length_paths_le hdata)

end BentoLinker.Glz
