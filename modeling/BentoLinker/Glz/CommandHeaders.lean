import BentoLinker.Glz.Commands

/-!
# Headers Read Back

`decode` reads from a file what `encode` has put into its headers.

- `takes_readSize`: a size, as a word or as a LEB128 number
- `takes_readMeta`: flags, type, `k` and a size
- `takes_readIndex_archive`, `takes_readIndex_index`, `takes_readIndex_len`: what is behind them
- `decode_of_takes`: `decode` up to the blob
- `decodeSyms_encodeSyms`: the table in front of the blob
-/

namespace BentoLinker.Glz

open BitCode PrefixReader GroupedNumeral FallibleFold

/-! ## Section 1: Sizes -/

/-- A byte of a LEB128 number -/
theorem toBits_byte {more : Bool} {d : ℕ} (hd : d < 2 ^ 7) :
    toBits 8 (UInt8.ofNat (more.toNat * 2 ^ 7 + d)).toNat = group more d := by
  have hvalue : ofBits (group more d) = more.toNat * 2 ^ 7 + d := by
    rw [group, ofBits_cons, length_toBits, ofBits_toBits hd]
  have hlt := ofBits_lt (group more d)
  rw [length_group, hvalue] at hlt
  have hbits := toBits_ofBits (group more d)
  rw [length_group, hvalue] at hbits
  rw [UInt8.toNat_ofNat', Nat.mod_eq_of_lt hlt, hbits]

theorem continues_byte (more : Bool) {d : ℕ} (hd : d < 2 ^ 7) :
    UInt8.ofNat (more.toNat * 2 ^ 7 + d) &&& 0x80 = 0 ↔ more = false := by
  have hlt : more.toNat * 2 ^ 7 + d < 2 ^ 8 := by
    cases more <;> simp <;> omega
  rw [← UInt8.toNat_inj, UInt8.toNat_and, UInt8.toNat_ofNat', Nat.mod_eq_of_lt hlt]
  exact (LEB128.and_byte more hd).2

/-- A LEB128 number is a string of bytes, which `read_size` finds the end of. -/
theorem exists_bytes_leb128Sym (n : ℕ) : ∃ bytes, leb128Sym n = unpackBytes bytes ∧
    ∀ rest, readGroups (bytes ++ rest) = .ok (bytes, rest) := by
  induction n using Nat.strongRecOn with
  | ind n ih =>
    rw [LEB128.leb128Sym_eq]
    split
    · next hmore =>
      obtain ⟨bytes, hbits, hread⟩ := ih (n >>> 7) (LEB128.shiftRight_lt hmore)
      refine ⟨UInt8.ofNat (true.toNat * 2 ^ 7 + (n &&& 0x7f)) :: bytes, ?_, ?_⟩
      · rw [hbits, unpackBytes, unpackBytes, List.flatMap_cons, toBits_byte (LEB128.and_lt n)]
      · intro rest
        have hgo := mt (continues_byte true (LEB128.and_lt n)).mp Bool.noConfusion
        rw [List.cons_append, readGroups, if_neg hgo, hread]
        rfl
    · next hlast =>
      have hlt : n < 2 ^ 7 := by omega
      refine ⟨[UInt8.ofNat (false.toNat * 2 ^ 7 + n)], ?_, ?_⟩
      · rw [unpackBytes, List.flatMap_singleton, toBits_byte hlt]
      · intro rest
        rw [List.singleton_append, readGroups, if_pos ((continues_byte false hlt).mpr rfl)]

theorem encodeSyms_bytes (bytes : List UInt8) :
    encodeSyms (fun b : UInt8 => encodeSym 8 8 b.toNat) bytes = .ok (unpackBytes bytes) := by
  have hcode : ∀ b ∈ bytes, encodeSym 8 8 b.toNat = .ok (toBits 8 b.toNat) := fun b _ =>
    encodeSym_eq_ok.mpr ⟨le_rfl, .inr (UInt8.toNat_lt b), rfl⟩
  exact Res.bind_eq_ok.mpr ⟨_, mapM_eq_map hcode, rfl⟩

/-- A size is read as it has been written. -/
theorem takes_readSize {flags n : ℕ} (hn : n < 2 ^ 32) :
    Takes (readSize flags) (writeSize flags n) n := by
  rw [readSize, writeSize, Nat.mod_eq_of_lt hn]
  split
  · obtain ⟨bytes, hbits, hread⟩ := exists_bytes_leb128Sym n
    obtain ⟨code, hcode, hdecode⟩ := LEB128.decodeSym_encodeSym (UInt32.ofNat n) []
    have hvalue : Sym.toU32 (UInt32.ofNat n) = n := UInt32.toNat_ofNat_of_lt hn
    rw [LEB128.encodeSym_eq, hvalue] at hcode
    cases hcode
    rw [List.append_nil, hbits] at hdecode
    intro rest
    have hcodes : work (lift (encodeSyms (fun b : UInt8 => encodeSym 8 8 b.toNat) bytes)) rest =
        .ok (unpackBytes bytes, rest) := by
      rw [encodeSyms_bytes]
      rfl
    have hnumber : work (lift (LEB128.decodeSym UInt32 (unpackBytes bytes))) rest =
        .ok ((UInt32.ofNat n, (unpackBytes bytes).length), rest) := by
      rw [hdecode]
      rfl
    rw [hbits, packBytes_unpackBytes, Fueled.bind_of_ok (hread rest), Fueled.bind_of_ok hcodes,
      Fueled.bind_of_ok hnumber]
    exact congrArg (fun m => Except.ok (m, rest)) hvalue
  · have hbytes : Takes (readExact eof 4) (toLeBytes n) (toLeBytes n) := takes_readExact rfl
    have hread := hbytes.map fromLeBytes
    have hback := fromLeBytes_toLeBytes hn []
    rw [List.append_nil] at hback
    rwa [hback] at hread

/-! ## Section 2: Headers -/

/-- The options that `decode` needs again: where the header does not have them, they are those
of `encode`. -/
structure Reads (d opt : CommonOpt) : Prop where
  l : d.l = opt.l
  m : d.m = opt.m
  k : ∀ k, d.k = some k → opt.k = some k
  table : d.table = []
  noMagic : d.noMagic = opt.noMagic
  noHeaders : d.noHeaders = false
  noTable : d.noTable = false
  leb128 : d.leb128 = true → opt.leb128 = true
  leb128_of_noMagic : opt.noMagic = true → opt.leb128 = true → d.leb128 = true

theorem mkflags_eq (opt : CommonOpt) : mkflags opt 0 = opt.leb128.toNat := by
  rw [mkflags, Nat.zero_or]
  cases opt.leb128 <;> rfl

/-- Both commands come to the same flags. -/
theorem mkflags_reads {d opt : CommonOpt} (hd : Reads d opt) :
    mkflags d (if opt.noMagic then 0 else mkflags opt 0) = mkflags opt 0 := by
  have hleb := hd.leb128
  have hback := hd.leb128_of_noMagic
  rw [mkflags_eq, mkflags]
  cases hopt : opt.leb128 with
  | false =>
    have hoff : d.leb128 = false := by
      rw [hopt] at hleb
      exact Bool.eq_false_iff.mpr fun h => Bool.false_ne_true (hleb h)
    rw [hoff]
    cases opt.noMagic <;> rfl
  | true =>
    cases hmagic : opt.noMagic with
    | false => cases d.leb128 <;> rfl
    | true =>
      rw [hback hmagic hopt]
      rfl

/-- The first eight bytes, where they are written -/
theorem takes_readMagic {d opt : CommonOpt} (hd : Reads d opt) :
    Takes (readMagic d)
      (if !opt.noMagic then MAGIC ++ VERSION ++ toLeBytes16 (mkflags opt 0) else [])
      (if opt.noMagic then 0 else mkflags opt 0) := by
  rw [readMagic, hd.noHeaders, hd.noMagic, mkflags_eq]
  cases opt.noMagic with
  | true => exact takes_pure 0
  | false =>
    have hread : Takes (readExact eof 8) (MAGIC ++ VERSION ++ toLeBytes16 opt.leb128.toNat)
        (MAGIC ++ VERSION ++ toLeBytes16 opt.leb128.toNat) := takes_readExact rfl
    intro rest
    refine (hread.run rest).trans ?_
    cases opt.leb128 <;> rfl

/-- The two fields of a size with seven bits -/
theorem kField {type_ k : ℕ} (htype : type_ < 2 ^ 4) (hk : k < 2 ^ 4) :
    (type_ <<< 4 ||| k) < 2 ^ 32 ∧ 0xf &&& ((type_ <<< 4 ||| k) >>> 4) = type_ ∧
      0xf &&& (type_ <<< 4 ||| k) = k := by
  have hword : type_ <<< 4 ||| k = 2 ^ 4 * type_ + k := by
    rw [Nat.shiftLeft_eq, Nat.mul_comm, ← Nat.two_pow_add_eq_or_of_lt hk]
  rw [hword, Nat.and_comm, Nat.and_comm 0xf, show (0xf : ℕ) = 2 ^ 4 - 1 from rfl,
    Nat.and_two_pow_sub_one_eq_mod, Nat.and_two_pow_sub_one_eq_mod, Nat.shiftRight_eq_div_pow]
  omega

theorem typeField {type_ k size : ℕ} (htype : type_ < 2 ^ 4) (hk : k < 2 ^ 4)
    (hsize : size < 2 ^ 24) : 0xf &&& ((type_ <<< 28 ||| k <<< 24 ||| size) >>> 28) = type_ := by
  rw [metaWord_eq hk hsize, Nat.and_comm, show (0xf : ℕ) = 2 ^ 4 - 1 from rfl,
    Nat.and_two_pow_sub_one_eq_mod, Nat.shiftRight_eq_div_pow]
  omega

/-- The largest count or size of a header -/
def sizeLimit (opt : CommonOpt) : ℕ := if opt.leb128 then 2 ^ 32 else 2 ^ 24

theorem takes_readMeta {d opt : CommonOpt} (hd : Reads d opt) {type_ k size : ℕ}
    (htype : type_ < 2 ^ 4) (hk : k < 2 ^ 4) (hsize : size < sizeLimit opt) :
    Takes (readMeta d) (writeMeta opt (mkflags opt 0) type_ k size)
      (mkflags opt 0, type_, some k, size) := by
  refine (takes_readMagic hd).bind ?_
  dsimp only
  rw [mkflags_reads hd, mkflags_eq]
  refine Takes.map (x := (type_, some k, size)) ?_ _
  rw [readFields, hd.noHeaders]
  rw [sizeLimit] at hsize
  cases hleb : opt.leb128 with
  | false =>
    rw [hleb] at hsize
    obtain ⟨hword, hkField, hsizeField⟩ := metaWord_fields htype hk hsize
    have htypeField := typeField htype hk hsize
    have hback := fromLeBytes_toLeBytes hword []
    rw [List.append_nil] at hback
    have hbytes : Takes (readExact eof 4) (toLeBytes (type_ <<< 28 ||| k <<< 24 ||| size))
        (toLeBytes (type_ <<< 28 ||| k <<< 24 ||| size)) := takes_readExact rfl
    have hread := hbytes.map fun buf =>
        (0xf &&& (fromLeBytes buf >>> 28), some (0xf &&& (fromLeBytes buf >>> 24)),
          0x00ffffff &&& fromLeBytes buf)
    have hwrite : writeSize false.toNat (type_ <<< 28 ||| k <<< 24 ||| size) =
        toLeBytes (type_ <<< 28 ||| k <<< 24 ||| size) := by
      rw [writeSize, if_neg (by decide), Nat.mod_eq_of_lt hword]
    rw [hback, htypeField, hkField, hsizeField, ← hwrite] at hread
    exact hread
  | true =>
    rw [hleb] at hsize
    obtain ⟨hword, htypeField, hkField⟩ := kField htype hk
    have htypeK : Takes (readSize true.toNat) (writeSize true.toNat (type_ <<< 4 ||| k))
        (type_ <<< 4 ||| k) := takes_readSize hword
    have hsizes : Takes (readSize true.toNat) (writeSize true.toNat size) size :=
      takes_readSize hsize
    have hread := htypeK.bind
      (f := fun x => readSize true.toNat >>= fun size =>
        pure (0xf &&& (x >>> 4), some (0xf &&& x), size))
      (hsizes.map fun size =>
        (0xf &&& ((type_ <<< 4 ||| k) >>> 4), some (0xf &&& (type_ <<< 4 ||| k)), size))
    rw [htypeField, hkField] at hread
    exact hread

/-! ## Section 3: Files -/

section Index

variable {d opt : CommonOpt} {flags : ℕ}

theorem takes_readIndex_archive (hd : d.noHeaders = false) (files : List ((ℕ × ℕ) × (ℕ × ℕ)))
    (hfits : ∀ file ∈ files, (file.1.1 < 2 ^ 32 ∧ file.1.2 < 2 ^ 32) ∧
      file.2.1 < 2 ^ 32 ∧ file.2.2 < 2 ^ 32) :
    Takes (readIndex d flags TYPE_ARCHIVE files.length)
      (files.flatMap fun file => writeSizes flags [file.1.1, file.1.2, file.2.1, file.2.2])
      ⟨files, [], none, smallest (files.map fun file => min file.1.1 file.2.1)⟩ := by
  rw [readIndex, hd, if_neg Bool.false_ne_true, if_pos rfl]
  refine (takes_readMany fun file hfile => ?_).map fun files : List ((ℕ × ℕ) × (ℕ × ℕ)) =>
    (⟨files, [], none, smallest (files.map fun file => min file.1.1 file.2.1)⟩ : Index)
  obtain ⟨⟨hpoff, hplen⟩, hoff, hlen⟩ := hfits file hfile
  rw [writeSizes, List.flatMap_cons, List.flatMap_cons, List.flatMap_cons, List.flatMap_singleton]
  refine (takes_readSize hpoff).bind ((takes_readSize hplen).bind ((takes_readSize hoff).bind ?_))
  exact (takes_readSize hlen).map fun len => ((file.1.1, file.1.2), (file.2.1, len))

theorem takes_readIndex_index (hd : d.noHeaders = false) (files : List (ℕ × ℕ))
    (hfits : ∀ file ∈ files, file.1 < 2 ^ 32 ∧ file.2 < 2 ^ 32) :
    Takes (readIndex d flags TYPE_INDEX files.length)
      (files.flatMap fun file => writeSizes flags [file.1, file.2])
      ⟨[], files, none, smallest (files.map Prod.fst)⟩ := by
  rw [readIndex, hd, if_neg Bool.false_ne_true, if_neg (by decide), if_pos rfl]
  refine (takes_readMany fun file hfile => ?_).map fun files : List (ℕ × ℕ) =>
    (⟨[], files, none, smallest (files.map Prod.fst)⟩ : Index)
  obtain ⟨hoff, hlen⟩ := hfits file hfile
  rw [writeSizes, List.flatMap_cons, List.flatMap_singleton]
  exact (takes_readSize hoff).bind ((takes_readSize hlen).map fun len => (file.1, len))

theorem takes_readIndex_len (hd : d.noHeaders = false) {len size : ℕ} (hsize : size < 2 ^ 32) :
    Takes (readIndex d flags TYPE_LEN len) (writeSize flags size)
      ⟨[], [], some size, some len⟩ := by
  rw [readIndex, hd, if_neg Bool.false_ne_true, if_neg (by decide), if_neg (by decide),
    if_pos rfl]
  exact (takes_readSize hsize).map fun size => (⟨[], [], some size, some len⟩ : Index)

theorem takes_readIndex_none (hd : d.noHeaders = false) {len : ℕ} :
    Takes (readIndex d flags TYPE_NONE len) [] ⟨[], [], none, some len⟩ := by
  rw [readIndex, hd, if_neg Bool.false_ne_true, if_neg (by decide), if_neg (by decide),
    if_neg (by decide), if_pos rfl]
  exact takes_pure _

/-- Behind the headers there is the blob. -/
theorem readFront_of_takes {type_ k len : ℕ} {index : Index} {word fields : List UInt8}
    (hmeta : Takes (readMeta d) word (flags, type_, some k, len))
    (hindex : Takes (readIndex d flags type_ len) fields index) (body : List UInt8) :
    readFront d (word ++ (fields ++ body)) = .ok ((some k, index, body), []) := by
  rw [readFront, hmeta.run]
  exact (hindex.run body).trans rfl

/-- A loop that keeps the smallest number finds one that is in the list, and below the others. -/
theorem foldl_smallest {step : Option ℕ → ℕ → Option ℕ} {m : ℕ}
    (hnone : ∀ off, step none off = some off)
    (hsome : ∀ size off, step (some size) off = some (min off size)) (offs : List ℕ)
    (size : Option ℕ) (hle : ∀ off ∈ offs, m ≤ off) (hsize : ∀ s, size = some s → m ≤ s)
    (hmem : m ∈ offs ∨ size = some m) : offs.foldl step size = some m := by
  induction offs generalizing size with
  | nil =>
    rcases hmem with hmem | rfl
    · cases hmem
    · rfl
  | cons off offs ih =>
    have hoff := hle off List.mem_cons_self
    rw [List.foldl_cons]
    refine ih _ (fun x hx => hle x (List.mem_cons_of_mem _ hx)) (fun s hs => ?_) ?_
    · cases size with
      | none =>
        rw [hnone] at hs
        cases hs
        exact hoff
      | some size =>
        rw [hsome] at hs
        cases hs
        exact Nat.le_min.mpr ⟨hoff, hsize size rfl⟩
    · rcases hmem with hmem | rfl
      · rcases List.mem_cons.mp hmem with rfl | hmem
        · right
          cases size with
          | none => exact hnone m
          | some size => exact (hsome size m).trans (congrArg some (Nat.min_eq_left (hsize size rfl)))
        · exact .inl hmem
      · exact .inr ((hsome m off).trans (congrArg some (Nat.min_eq_right hoff)))

theorem smallest_eq {offs : List ℕ} {m : ℕ} (hmem : m ∈ offs) (hle : ∀ off ∈ offs, m ≤ off) :
    smallest offs = some m :=
  foldl_smallest (fun _ => rfl) (fun _ _ => rfl) offs none hle nofun (.inl hmem)

end Index

/-! ## Section 4: The table -/

theorem decodeSymsLoop_eq {width : ℕ} (hpos : 0 < width) (hwidth : width ≤ 32) (ns : List ℕ)
    (hns : ∀ n ∈ ns, n < 2 ^ width) {bits : Bits} {fuel off : ℕ}
    (hbits : bits.drop off = ns.flatMap (toBits width)) (hoff : off ≤ bits.length)
    (hfuel : ns.length < fuel) : decodeSymsLoop width bits fuel off = .ok ns := by
  induction ns generalizing fuel off with
  | nil =>
    obtain ⟨fuel, rfl⟩ : ∃ n, fuel = n + 1 := ⟨fuel - 1, by omega⟩
    have hend := congrArg List.length hbits
    rw [List.length_drop] at hend
    rw [decodeSymsLoop, if_neg (by simp at hend; omega)]
    rfl
  | cons n ns ih =>
    obtain ⟨fuel, rfl⟩ : ∃ n, fuel = n + 1 := ⟨fuel - 1, by omega⟩
    rw [List.flatMap_cons] at hbits
    have hlen := congrArg List.length hbits
    rw [List.length_drop, List.length_append, length_toBits] at hlen
    have hsym : Glz.decodeSym 32 width (toBits width n ++ ns.flatMap (toBits width)) = .ok n :=
      decodeSym_encodeSym ((hns n List.mem_cons_self).trans_le
        (Nat.pow_le_pow_right (by decide) hwidth))
        (encodeSym_eq_ok.mpr ⟨hwidth, .inr (hns n List.mem_cons_self), rfl⟩) _
    have hnext : bits.drop (off + width) = ns.flatMap (toBits width) := by
      rw [← List.drop_drop, hbits, List.drop_left' (length_toBits _ _)]
    have hrest : decodeSymsLoop width bits fuel (off + width) = .ok ns :=
      ih (fun x hx => hns x (List.mem_cons_of_mem _ hx)) hnext (by omega)
        (by rw [List.length_cons] at hfuel; omega)
    rw [decodeSymsLoop, if_pos (by omega), sliceFrom_eq_ok.mpr ⟨hoff, hbits⟩]
    simp only [bind, Except.bind, hsym, hrest]
    rfl

/-- A table is read as it has been written. -/
theorem decodeSyms_encodeSyms {width : ℕ} (hpos : 0 < width) (hwidth : width ≤ 32)
    {ns : List ℕ} (hns : ∀ n ∈ ns, n < 2 ^ width) :
    encodeSyms (encodeSym 32 width) ns = .ok (ns.flatMap (toBits width)) ∧
      decodeSyms width (ns.flatMap (toBits width)) = .ok ns := by
  have hcode : ∀ n ∈ ns, encodeSym 32 width n = .ok (toBits width n) := fun n hn =>
    encodeSym_eq_ok.mpr ⟨hwidth, .inr (hns n hn), rfl⟩
  have hlen : ns.length ≤ (ns.flatMap (toBits width)).length := by
    clear hcode hns
    induction ns with
    | nil => exact Nat.zero_le _
    | cons n ns ih =>
      rw [List.flatMap_cons, List.length_append, length_toBits, List.length_cons]
      omega
  refine ⟨Res.bind_eq_ok.mpr ⟨_, mapM_eq_map hcode, rfl⟩, ?_⟩
  exact decodeSymsLoop_eq hpos hwidth ns hns rfl (Nat.zero_le _) (by omega)

end BentoLinker.Glz
