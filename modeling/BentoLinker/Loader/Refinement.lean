import BentoLinker.Glz.RoundTrip
import BentoLinker.Glz.Traverse
import BentoLinker.Loader.GlzDecode

/-!
# The On-Target Decoders Refine the Codec

The C decoders, run on a blob that starts with the symbol table, read what can be
read from the stream behind it.

1. `Yields`: a computation returns a value from every context a callback accepts
2. Bits, numbers and table entries of a packed blob
3. One symbol: the C decoder steps as the code it stands at says
4. Patterns and texts: one return address is enough
5. The blob of the compressor, and the refinement for all three decoders
-/

namespace BentoLinker.Loader

open BitCode BijectiveNumeral CopyStream
open Glz (GLZ GLZSym Sym Hist)

/-! ## Section 1: Computations that return -/

/-- From every context in `I`, `m` returns `a` and a context in `I`. -/
def Yields {σ α : Type} (I : σ → Prop) (m : Run σ α) (a : α) : Prop :=
  ∀ s, I s → ∃ s', m s = .ok (a, s') ∧ I s'

section Yields

variable {σ α β : Type} {I : σ → Prop} {m : Run σ α} {f : α → Run σ β} {a : α} {b : β}

theorem Yields.pure (I : σ → Prop) (a : α) : Yields I (pure a) a :=
  fun s hs => ⟨s, rfl, hs⟩

theorem Yields.bind (hm : Yields I m a) (hf : Yields I (f a) b) : Yields I (m >>= f) b := by
  intro s hs
  obtain ⟨s', hrun, hs'⟩ := hm s hs
  obtain ⟨s'', hrun', hs''⟩ := hf s' hs'
  refine ⟨s'', ?_, hs''⟩
  change (m s >>= fun p => f p.1 p.2) = _
  rw [hrun]
  exact hrun'

theorem Yields.run' {s : σ} (hm : Yields I m a) (hs : I s) : m.run' s = .ok a := by
  obtain ⟨s', hrun, -⟩ := hm s hs
  change (fun p : α × σ => p.1) <$> m s = _
  rw [hrun]
  rfl

end Yields

/-- `read` fetches the bytes of `blob`. -/
def Serves {σ : Type} (I : σ → Prop) (read : ℕ → ℕ → Run σ (List UInt8))
    (blob : List UInt8) : Prop :=
  ∀ addr n, 0 < n → addr + n ≤ blob.length →
    Yields I (read addr n) ((blob.drop addr).take n)

theorem serves_readBlob (blob : List UInt8) : Serves (fun _ => True) (readBlob blob) blob := by
  intro addr n hn hle
  rw [readBlob, if_neg (by omega)]
  exact Yields.pure _ _

/-- `read` fetches what a decoder asks for: single bytes, and the two bytes of an entry that one
of the symbols has in the table. -/
structure Fetches {σ : Type} (I : σ → Prop) (read : ℕ → ℕ → Run σ (List UInt8)) (g : GLZ)
    (vals : List ℕ) (blob : List UInt8) : Prop where
  byte : ∀ addr, addr < blob.length → Yields I (read addr 1) ((blob.drop addr).take 1)
  entry : ∀ c n, g.decodeTable[c]? = some n → n ∈ vals → 9 * c / 8 + 2 ≤ blob.length →
    Yields I (read (9 * c / 8) 2) ((blob.drop (9 * c / 8)).take 2)

theorem Serves.fetches {σ : Type} {I : σ → Prop} {read : ℕ → ℕ → Run σ (List UInt8)}
    {blob : List UInt8} (h : Serves I read blob) (g : GLZ) (vals : List ℕ) :
    Fetches I read g vals blob where
  byte addr haddr := h addr 1 one_pos haddr
  entry _ _ _ _ hle := h _ 2 two_pos hle

/-- A read callback that returns the blob's bytes, as long as it is asked for such. -/
def CallbackServes {σ : Type} (I : σ → Prop) (read : ReadCallback σ) (blob : List UInt8) :
    Prop :=
  ∀ addr n ctx, I ctx → addr + n ≤ blob.length →
    ∃ ctx', read addr n ctx = .ok ((blob.drop addr).take n, ctx') ∧ I ctx'

theorem serves_readCallback {σ : Type} {I : σ → Prop} {read : ReadCallback σ}
    {blob : List UInt8} (h : CallbackServes I read blob) (hblob : blob.length < 2 ^ 32) :
    Serves I (readCallback read) blob := by
  intro addr n hn hle ctx hctx
  obtain ⟨ctx', hread, hctx'⟩ := h addr n ctx hctx hle
  refine ⟨ctx', ?_, hctx'⟩
  rw [readCallback, Nat.mod_eq_of_lt (by omega), hread]

/-! ## Section 2: Bits, numbers and table entries -/

section Fields

variable {σ : Type} {I : σ → Prop} {W : ℕ} {read : ℕ → ℕ → Run σ (List UInt8)} {bits : Bits}
  (hread : ∀ addr, addr < (packBytes bits).length →
    Yields I (read addr 1) (((packBytes bits).drop addr).take 1))
  (hbits : bits.length < 2 ^ 32)

include hread

theorem yields_readBit {off : ℕ} {b : Bool} {rest : Bits} (h : bits.drop off = b :: rest) :
    Yields I (readBit read off) b.toNat := by
  have hlen := congrArg List.length h
  rw [List.length_drop, List.length_cons] at hlen
  have hget : ((((packBytes bits).drop (off / 8)).take 1).getD 0 0) =
      (packBytes bits).getD (off / 8) 0 := by
    simp [List.getD_eq_getElem?_getD]
  refine Yields.bind (hread (off / 8) (by rw [length_packBytes]; omega)) ?_
  rw [hget, bit_packBytes h]
  exact Yields.pure _ _

include hbits

theorem yields_riceUnary {q off : ℕ} (fuel rice : ℕ) {rest : Bits}
    (h : bits.drop off = unary q ++ rest) (hfuel : q < fuel) (hrice : rice + q < 2 ^ W) :
    Yields I (riceUnary W read fuel off rice) (rice + q, off + (q + 1)) := by
  have hlen := congrArg List.length h
  simp only [List.length_drop, List.length_append, length_unary] at hlen
  induction q generalizing fuel off rice with
  | zero =>
    obtain ⟨fuel, rfl⟩ : ∃ n, fuel = n + 1 := ⟨fuel - 1, by omega⟩
    refine Yields.bind (yields_readBit hread (show bits.drop off = false :: rest from h)) ?_
    rw [Bool.toNat_false, if_pos rfl, Nat.mod_eq_of_lt (by omega)]
    exact Yields.pure _ _
  | succ q ih =>
    obtain ⟨fuel, rfl⟩ : ∃ n, fuel = n + 1 := ⟨fuel - 1, by omega⟩
    have hcons : bits.drop off = true :: (unary q ++ rest) := by
      rw [h]; simp [unary, List.replicate_succ]
    have htail : bits.drop (off + 1) = unary q ++ rest := by
      rw [← List.drop_drop, hcons]; rfl
    refine Yields.bind (yields_readBit hread hcons) ?_
    rw [Bool.toNat_true, if_neg one_ne_zero, Nat.mod_eq_of_lt (by omega),
      Nat.mod_eq_of_lt (by omega)]
    have hih : Yields I (riceUnary W read fuel (off + 1) (rice + 1))
        (rice + 1 + q, off + 1 + (q + 1)) := ih fuel _ htail (by omega) (by omega) (by omega)
    rwa [show rice + 1 + q = rice + (q + 1) by omega,
      show off + 1 + (q + 1) = off + (q + 1 + 1) by omega] at hih

theorem yields_readBits (width : ℕ) {off n : ℕ} {field rest : Bits}
    (h : bits.drop off = field ++ rest)
    (hn : n * 2 ^ field.length + ofBits field < 2 ^ width) :
    Yields I (readBits read width field.length off n)
      (n * 2 ^ field.length + ofBits field, off + field.length) := by
  induction field generalizing off n with
  | nil =>
    rw [List.length_nil, pow_zero, Nat.mul_one, ofBits_nil]
    exact Yields.pure _ _
  | cons b field ih =>
    have hlen := congrArg List.length h
    simp only [List.length_drop, List.length_append, List.length_cons] at hlen
    have htail : bits.drop (off + 1) = field ++ rest := by
      rw [← List.drop_drop, h]; rfl
    have hvalue : n * 2 ^ (b :: field).length + ofBits (b :: field) =
        (2 * n + b.toNat) * 2 ^ field.length + ofBits field := by
      rw [ofBits_cons, List.length_cons]; ring
    have hor : n <<< 1 ||| b.toNat = 2 * n + b.toNat := by
      rw [Nat.shiftLeft_eq, Nat.mul_comm]
      exact (Nat.two_pow_add_eq_or_of_lt (i := 1) (Bool.toNat_lt b) n).symm
    rw [hvalue] at hn ⊢
    have hle : 2 * n + b.toNat ≤ (2 * n + b.toNat) * 2 ^ field.length :=
      Nat.le_mul_of_pos_right _ (Nat.two_pow_pos _)
    refine Yields.bind (yields_readBit hread h) ?_
    rw [hor, Nat.mod_eq_of_lt (by omega), Nat.mod_eq_of_lt (by omega)]
    have hih := ih htail hn
    rwa [show off + 1 + field.length = off + (b :: field).length by
      rw [List.length_cons]; omega] at hih

omit hread in
/-- Entry `c` of a table of nine-bit entries at the front of the blob -/
theorem yields_mapTable {c : ℕ} (hc : 9 * c + 9 ≤ bits.length)
    (hentry : Yields I (read (9 * c / 8) 2) (((packBytes bits).drop (9 * c / 8)).take 2)) :
    Yields I (mapTable W read c) (ofBits ((bits.drop (9 * c)).take 9)) := by
  have hmod : 9 * c % 2 ^ max W 32 = 9 * c :=
    Nat.mod_eq_of_lt (lt_of_lt_of_le (by omega)
      (Nat.pow_le_pow_right (by decide) (le_max_right W 32)))
  have hget : ∀ i, i < 2 → ((((packBytes bits).drop (9 * c / 8)).take 2).getD i 0) =
      (packBytes bits).getD (9 * c / 8 + i) 0 := by
    intro i hi
    rw [List.getD_eq_getElem?_getD, List.getElem?_take_of_lt hi, List.getElem?_drop,
      List.getD_eq_getElem?_getD]
  rw [mapTable, hmod]
  refine Yields.bind hentry ?_
  rw [hget 0 two_pos, hget 1 one_lt_two, Nat.add_zero, window_packBytes hc]
  exact Yields.pure _ _

theorem yields_offLoop {off : ℕ} (fuel noff : ℕ) {ds : List ℕ} {rest : Bits}
    (h : bits.drop off = Glz.GLZ.offCode glzM ds ++ rest) (hne : ds ≠ [])
    (hds : ∀ d ∈ ds, d < 2 ^ glzM) (hfuel : ds.length ≤ fuel)
    (hval : bijValueFrom (2 ^ glzM) noff ds < 2 ^ 32) :
    Yields I (offLoop read fuel off noff)
      (bijValueFrom (2 ^ glzM) noff ds, off + (Glz.GLZ.offCode glzM ds).length) := by
  induction ds generalizing fuel off noff with
  | nil => exact absurd rfl hne
  | cons d ds ih =>
    obtain ⟨fuel, rfl⟩ : ∃ n, fuel = n + 1 := ⟨fuel - 1, by simp at hfuel; omega⟩
    have hd : d < 16 := hds d (by simp)
    rw [bijValueFrom_cons] at hval ⊢
    have hle : noff * 2 ^ glzM + 1 + d < 2 ^ 32 :=
      (le_bijValueFrom (Nat.two_pow_pos _) _ ds).trans_lt hval
    -- one nibble with its continuation bit in front
    have hstep : ∀ (more : Bool) {rest : Bits},
        bits.drop off = toBits (glzM + 1) (more.toNat * 2 ^ glzM + d) ++ rest →
        Yields I (readBits read 32 (glzM + 1) off 0)
          (more.toNat * 2 ^ glzM + d, off + (glzM + 1)) := by
      intro more rest hmore
      have hlt : more.toNat * 2 ^ glzM + d < 2 ^ (glzM + 1) := by
        cases more <;> simp [glzM] <;> omega
      have hread' := yields_readBits hread hbits 32 (n := 0) hmore
        (by rw [Nat.zero_mul, Nat.zero_add, ofBits_toBits hlt]; exact hlt.trans (by decide))
      rwa [Nat.zero_mul, Nat.zero_add, ofBits_toBits hlt, length_toBits] at hread'
    have hnoff : ∀ more : Bool, ((noff <<< glzM) + 1 +
        ((more.toNat * 2 ^ glzM + d) &&& (1 <<< glzM) - 1)) % 2 ^ 32 =
          noff * 2 ^ glzM + 1 + d := by
      intro more
      have hlow : (more.toNat * 2 ^ glzM + d) &&& (1 <<< glzM) - 1 = d := by
        rw [Nat.one_shiftLeft, Nat.and_two_pow_sub_one_eq_mod, Nat.mul_comm,
          Nat.mul_add_mod, Nat.mod_eq_of_lt (show d < 2 ^ glzM from hd)]
      rw [hlow, Nat.shiftLeft_eq, Nat.mod_eq_of_lt hle]
    cases ds with
    | nil =>
      have hcode : bits.drop off = toBits (glzM + 1) (false.toNat * 2 ^ glzM + d) ++ rest := by
        simpa [Glz.GLZ.offCode] using h
      refine Yields.bind (hstep false hcode) ?_
      dsimp only
      rw [hnoff false, if_pos (by simpa [glzM] using hd)]
      simpa [Glz.GLZ.offCode] using Yields.pure I _
    | cons e ds =>
      have hcode : bits.drop off = toBits (glzM + 1) (true.toNat * 2 ^ glzM + d) ++
          (Glz.GLZ.offCode glzM (e :: ds) ++ rest) := by
        simpa [Glz.GLZ.offCode] using h
      have htail : bits.drop (off + (glzM + 1)) = Glz.GLZ.offCode glzM (e :: ds) ++ rest := by
        rw [← List.drop_drop, hcode, List.drop_left' (length_toBits _ _)]
      refine Yields.bind (hstep true hcode) ?_
      dsimp only
      rw [hnoff true, if_neg (by simp [glzM])]
      have hih := ih fuel _ htail (by simp) (fun x hx => hds x (List.mem_cons_of_mem _ hx))
        (by simpa using hfuel) hval
      rw [Glz.GLZ.offCode, List.length_append, length_toBits, ← Nat.add_assoc off (glzM + 1)]
      exact hih

end Fields

/-! ## Section 3: One symbol -/

/-- A blob as the decoders expect it: nine-bit entries, then a stream whose symbols all
have one. -/
structure Layout (W : ℕ) (g : GLZ) (tbits S : Bits) (syms : List (GLZSym UInt8)) : Prop where
  m : g.m = glzM
  l : g.l ≤ 8
  fits : tbits.length + S.length < 2 ^ 32 - 1
  index : g.decodeTable.length ≤ 2 ^ W
  entry : ∀ c n, g.decodeTable[c]? = some n →
    9 * c + 9 ≤ tbits.length ∧ ofBits ((tbits.drop (9 * c)).take 9) = n
  mapped : ∀ n ∈ g.decodeTable, ∀ c, g.rice.bijecter.mapEncode n = .ok c →
    g.decodeTable[c]? = some n
  hasEntry : ∀ sym ∈ syms, sym.value ∈ g.decodeTable

section Symbols

variable {σ : Type} {I : σ → Prop} {W : ℕ} {read : ℕ → ℕ → Run σ (List UInt8)} {g : GLZ}
  {tbits S : Bits} {syms : List (GLZSym UInt8)} {fuel : ℕ}
  (hread : Fetches I read g (syms.map GLZSym.value) (packBytes (tbits ++ S)))
  (hlay : Layout W g tbits S syms) (hfuel : tbits.length + S.length < fuel)

include hread hlay hfuel

/-- The code of a symbol with an entry reads as its value. -/
theorem yields_readSym {n off : ℕ} {code rest : Bits}
    (hoff : (tbits ++ S).drop off = code ++ rest) (hcode : g.rice.encodeSym n = .ok code)
    (hn : n ∈ syms.map GLZSym.value) :
    Yields I (readSym W read fuel g.k off) (n, off + code.length) := by
  obtain ⟨c, hmap, hcode⟩ := Glz.BijectEncoder.encodeSym_eq_ok.mp hcode
  obtain ⟨-, rfl⟩ := Glz.GolombRice.encodeSym_eq_ok hcode
  have hmem : n ∈ g.decodeTable := by
    obtain ⟨sym, hsym, rfl⟩ := List.mem_map.mp hn
    exact hlay.hasEntry sym hsym
  have hentry := hlay.mapped n hmem c hmap
  obtain ⟨hc, -⟩ := List.getElem?_eq_some_iff.mp hentry
  obtain ⟨hbound, hvalue⟩ := hlay.entry c n hentry
  have hfits := hlay.fits
  have hindex := hlay.index
  have hbits : (tbits ++ S).length < 2 ^ 32 := by rw [List.length_append]; omega
  have hlen := congrArg List.length hoff
  simp only [List.length_drop, List.length_append, length_unary] at hlen
  change (tbits ++ S).drop off = (unary (c / 2 ^ g.k) ++ toBits g.k (c % 2 ^ g.k)) ++ rest
    at hoff
  rw [List.append_assoc] at hoff
  have hq : c / 2 ^ g.k ≤ c := Nat.div_le_self _ _
  have hsplit : c / 2 ^ g.k * 2 ^ g.k + c % 2 ^ g.k = c := Nat.div_add_mod' c _
  have hlow : ofBits (toBits g.k (c % 2 ^ g.k)) = c % 2 ^ g.k :=
    ofBits_toBits (Nat.mod_lt _ (Nat.two_pow_pos _))
  have hq' := yields_riceUnary (W := W) hread.byte hbits fuel 0 hoff (by omega) (by omega)
  have hoff' : (tbits ++ S).drop (off + (c / 2 ^ g.k + 1)) =
      toBits g.k (c % 2 ^ g.k) ++ rest := by
    rw [← List.drop_drop, hoff, List.drop_left' (length_unary _)]
  have hr := yields_readBits hread.byte hbits W (n := c / 2 ^ g.k) hoff'
    (by rw [length_toBits, hlow, hsplit]; omega)
  rw [length_toBits, hlow, hsplit] at hr
  have htable := yields_mapTable (W := W) hbits (c := c)
    (by rw [List.length_append]; omega)
    (hread.entry c _ hentry hn (by rw [length_packBytes, List.length_append]; omega))
  rw [List.drop_append_of_le_length (by omega),
    List.take_append_of_le_length (by rw [List.length_drop]; omega), hvalue] at htable
  rw [Nat.zero_add] at hq'
  refine Yields.bind hq' (Yields.bind hr (Yields.bind htable ?_))
  rw [List.length_append, length_unary, length_toBits]
  change Yields I _ (n, off + (c / 2 ^ g.k + 1 + g.k))
  rw [← Nat.add_assoc off (c / 2 ^ g.k + 1)]
  exact Yields.pure _ _

/-- An immediate is written to the output. -/
theorem yields_decodeSym_emit {s : DecodeState} {x : UInt8} {d : ℕ}
    (h : (g.codeReader syms).emit ((tbits ++ S).drop s.off) x d) :
    Yields I (decodeSym W read fuel g.k s)
      { s with off := s.off + d, size := s.size - 1, output := s.output ++ [x] } := by
  obtain ⟨hmem, code, rest, hoff, hcode, rfl⟩ := h
  rw [GLZ.encodeSym, Glz.chainErr_eq_ok] at hcode
  refine Yields.bind (yields_readSym hread hlay hfuel hoff hcode (List.mem_map_of_mem hmem)) ?_
  have hx : Sym.toU32 x < 0x100 := UInt8.toNat_lt x
  dsimp only
  rw [if_pos hx, show UInt8.ofNat (Sym.toU32 x) = x from UInt8.ofNat_toNat]
  exact Yields.pure _ _

/-- A reference moves to its pattern; the place behind it is kept unless it ends the text. -/
theorem yields_decodeSym_copy {s : DecodeState} {refoff refsize d : ℕ}
    (h : (g.codeReader syms).copy ((tbits ++ S).drop s.off) refoff refsize d)
    (hbound : s.off + d + refoff ≤ tbits.length + S.length) :
    Yields I (decodeSym W read fuel g.k s)
      (if s.size ≤ refsize then { s with off := s.off + d + refoff }
      else ⟨s.off + d + refoff, refsize, s.off + d, s.size - refsize, s.output⟩) := by
  obtain ⟨hmem, _, rest, hoff, henc, rfl⟩ := h
  obtain ⟨code, hsize, hsizele, -, -, -, -, hcode, rfl⟩ := Glz.GLZ.encodeSym_ref_eq_ok henc
  have hfits := hlay.fits
  have hpow : 2 ^ g.l ≤ 2 ^ 8 := Nat.pow_le_pow_right (by decide) hlay.l
  have hvalue := List.mem_map_of_mem (f := GLZSym.value) hmem
  rw [hlay.m, Nat.mod_eq_of_lt (show refoff < 2 ^ 32 by omega)] at hoff hbound ⊢
  rw [Nat.mod_eq_of_lt (show refsize - 2 < 2 ^ 32 by omega)] at hcode
  set ds := (bijDigits (2 ^ glzM) (refoff + 1) (refoff + 1)).reverse with hds
  have hval : bijValue (2 ^ glzM) ds = refoff + 1 := bijValue_reverse_bijDigits le_rfl
  have hne : ds ≠ [] := by
    rw [hds, ne_eq, List.reverse_eq_nil_iff]
    exact bijDigits_ne_nil (by omega) le_rfl
  have hdigits : ∀ d ∈ ds, d < 2 ^ glzM := fun d hd =>
    bijDigits_lt (Nat.two_pow_pos glzM) _ _ d (List.mem_reverse.mp hd)
  rw [List.append_assoc] at hoff
  have hoff' : (tbits ++ S).drop (s.off + code.length) = Glz.GLZ.offCode glzM ds ++ rest := by
    rw [← List.drop_drop, hoff, List.drop_left]
  have hlen := congrArg List.length hoff
  simp only [List.length_drop, List.length_append] at hlen
  have hdslen := Glz.GLZ.length_le_length_offCode glzM ds
  have hfield := yields_offLoop hread.byte (by rw [List.length_append]; omega) fuel 0 hoff' hne
    hdigits (by omega) (by change bijValue _ _ < _; omega)
  change Yields I _ (bijValue _ _, _) at hfield
  rw [hval] at hfield
  refine Yields.bind (yields_readSym hread hlay hfuel hoff hcode hvalue) ?_
  dsimp only
  have hlow : (refsize - 2 + 2 ^ 8 &&& 0xff) + 2 = refsize := by
    rw [show (0xff : ℕ) = 2 ^ 8 - 1 from rfl, Nat.and_two_pow_sub_one_eq_mod]
    omega
  rw [if_neg (by omega), hlow]
  refine Yields.bind hfield ?_
  dsimp only
  rw [List.length_append, ← Nat.add_assoc] at hbound ⊢
  rw [show (refoff + 1 + 2 ^ 32 - 1) % 2 ^ 32 = refoff by omega,
    Nat.mod_eq_of_lt (show s.off + code.length + (Glz.GLZ.offCode glzM ds).length + refoff <
      2 ^ 32 by omega)]
  split
  · exact Yields.pure _ _
  · exact Yields.pure _ _

/-! ## Section 4: Patterns and texts -/

omit hread hlay hfuel in
theorem yields_decodeLoop_done {steps : ℕ} (off poff psize : ℕ) (output : List UInt8) :
    Yields I (decodeLoop W read fuel g.k steps ⟨off, 0, poff, psize, output⟩) output := by
  cases steps with
  | zero => exact Yields.pure _ _
  | succ steps => exact Yields.pure _ _

omit hread hlay hfuel in
/-- An iteration of the loop: a symbol, then the return from a reference that is done. -/
theorem yields_decodeLoop_step {steps : ℕ} {s s' : DecodeState} {output : List UInt8}
    (hsize : 0 < s.size) (hstep : Yields I (decodeSym W read fuel g.k s) s')
    (hrest : Yields I (decodeLoop W read fuel g.k steps (resume s')) output) :
    Yields I (decodeLoop W read fuel g.k (steps + 1) s) output := by
  rw [decodeLoop, if_pos hsize]
  exact Yields.bind hstep hrest

/-- A pattern is read without touching the return address, which is then taken. -/
theorem yields_decodeLoop_of_plays {b : Bool} {T : Bits} {xs : List UInt8} {off : ℕ}
    (poff psize : ℕ) (output result : List UInt8) (h : Plays (g.codeReader syms) b T xs)
    (hT : (tbits ++ S).drop off = T) (hoff : off ≤ tbits.length + S.length) (hne : xs ≠ []) :
    ∃ n, n + (!b).toNat ≤ 2 * xs.length ∧ ∀ steps,
      Yields I (decodeLoop W read fuel g.k steps ⟨poff, psize, 0, 0, output ++ xs⟩) result →
      Yields I (decodeLoop W read fuel g.k (steps + n) ⟨off, xs.length, poff, psize, output⟩)
        result := by
  induction h generalizing off output with
  | done => exact absurd rfl hne
  | @emit b T x d xs hx _ ih =>
    have hb : (!b).toNat ≤ 1 := Bool.toNat_le _
    obtain ⟨-, hd⟩ := Glz.GLZ.emit_length_le hx
    rw [← hT, List.length_drop, List.length_append] at hd
    have hstep := yields_decodeSym_emit (s := ⟨off, xs.length + 1, poff, psize, output⟩)
      hread hlay hfuel (hT ▸ hx)
    cases hxs : xs with
    | nil =>
      subst hxs
      refine ⟨1, by simp; omega, fun steps hrest => ?_⟩
      exact yields_decodeLoop_step (by simp) hstep hrest
    | cons y ys =>
      obtain ⟨n, hn, hrun⟩ := ih (output ++ [x])
        (show (tbits ++ S).drop (off + d) = _ by rw [← hT, List.drop_drop]) (by omega)
        (by simp [hxs])
      rw [← hxs]
      refine ⟨n + 1, by simp at hn ⊢; omega, fun steps hrest => ?_⟩
      have hnot : xs.length ≠ 0 := by simp [hxs]
      refine yields_decodeLoop_step (by simp) hstep ?_
      rw [resume, if_neg (by simpa using hnot)]
      exact hrun steps (by simpa using hrest)
  | @jump T refoff refsize d xs hne' hlen hcopy hd _ ih =>
    obtain ⟨-, hdT⟩ := Glz.GLZ.copy_length_le hcopy
    rw [← hT, List.length_drop, List.length_append] at hd hdT
    have hpos : 0 < xs.length := List.length_pos_iff.mpr hne'
    have hstep := yields_decodeSym_copy (s := ⟨off, xs.length, poff, psize, output⟩)
      hread hlay hfuel (hT ▸ hcopy) (by dsimp only; omega)
    rw [if_pos (by exact hlen)] at hstep
    obtain ⟨n, hn, hrun⟩ := ih output
      (show (tbits ++ S).drop (off + d + refoff) = _ by
        rw [← hT, List.drop_drop, Nat.add_assoc]) (by omega) hne
    refine ⟨n + 1, by simp at hn ⊢; omega, fun steps hrest => ?_⟩
    refine yields_decodeLoop_step (by exact hpos) hstep ?_
    rw [resume, if_neg (by dsimp only; omega)]
    exact hrun steps hrest

/-- A text is read to its end; the return address is free between its copies. -/
theorem yields_decodeLoop_of_spells {T E : Bits} {xs output : List UInt8} {off steps : ℕ}
    (h : Spells (g.codeReader syms) T E xs) (hT : (tbits ++ S).drop off = T)
    (hoff : off ≤ tbits.length + S.length) (hsteps : 2 * xs.length ≤ steps) :
    Yields I (decodeLoop W read fuel g.k steps ⟨off, xs.length, 0, 0, output⟩)
      (output ++ xs) := by
  induction h generalizing off output steps with
  | done =>
    rw [List.append_nil]
    exact yields_decodeLoop_done off 0 0 output
  | @emit T E x d xs hx _ ih =>
    rw [List.length_cons] at hsteps
    obtain ⟨steps, rfl⟩ : ∃ n, steps = n + 1 := ⟨steps - 1, by omega⟩
    obtain ⟨-, hd⟩ := Glz.GLZ.emit_length_le hx
    rw [← hT, List.length_drop, List.length_append] at hd
    have hstep := yields_decodeSym_emit (s := ⟨off, xs.length + 1, 0, 0, output⟩)
      hread hlay hfuel (hT ▸ hx)
    refine yields_decodeLoop_step (by simp) hstep ?_
    have hih : Yields I (decodeLoop W read fuel g.k steps
        ⟨off + d, xs.length, 0, 0, output ++ [x]⟩) (output ++ [x] ++ xs) :=
      ih (by rw [← hT, List.drop_drop]) (by omega) (by omega)
    rw [List.append_assoc, List.singleton_append] at hih
    rw [resume]
    split
    · next hzero =>
      obtain rfl : xs = [] := List.length_eq_zero_iff.mp (by simpa using hzero)
      exact yields_decodeLoop_done _ _ _ _
    · exact hih
  | @copy T E refoff d ys xs hne hcopy hd hplays _ ih =>
    obtain ⟨-, hdT⟩ := Glz.GLZ.copy_length_le hcopy
    rw [← hT, List.length_drop, List.length_append] at hd hdT
    rw [List.length_append] at hsteps
    have hpos : 0 < ys.length := List.length_pos_iff.mpr hne
    have hstep := yields_decodeSym_copy (s := ⟨off, ys.length + xs.length, 0, 0, output⟩)
      hread hlay hfuel (hT ▸ hcopy) (by dsimp only; omega)
    rw [List.length_append]
    have hat : (tbits ++ S).drop (off + d + refoff) = T.drop (d + refoff) := by
      rw [← hT, List.drop_drop, Nat.add_assoc]
    rw [← hat] at hplays
    cases hxs : xs with
    | nil =>
      -- the reference ends the text: nothing to return to
      subst hxs
      rw [if_pos (by simp)] at hstep
      obtain ⟨n, hn, hrun⟩ := yields_decodeLoop_of_plays hread hlay hfuel 0 0 output
        (output ++ (ys ++ [])) hplays rfl (by omega) hne
      simp only [Bool.not_false, Bool.toNat_true] at hn
      obtain ⟨rest, rfl⟩ : ∃ rest, steps = rest + n + 1 := ⟨steps - (n + 1), by omega⟩
      refine yields_decodeLoop_step (by dsimp only; omega) hstep ?_
      rw [resume, if_neg (by dsimp only; omega)]
      refine hrun rest ?_
      rw [List.append_nil]
      exact yields_decodeLoop_done _ _ _ _
    | cons x xs' =>
      rw [← hxs]
      have hmore : 0 < xs.length := by simp [hxs]
      rw [if_neg (by dsimp only; omega)] at hstep
      obtain ⟨n, hn, hrun⟩ := yields_decodeLoop_of_plays hread hlay hfuel (off + d)
        xs.length output (output ++ (ys ++ xs)) hplays rfl (by omega) hne
      simp only [Bool.not_false, Bool.toNat_true] at hn
      obtain ⟨rest, rfl⟩ : ∃ rest, steps = rest + n + 1 := ⟨steps - (n + 1), by omega⟩
      refine yields_decodeLoop_step (by dsimp only; omega) hstep ?_
      rw [resume, if_neg (by dsimp only; omega)]
      dsimp only
      rw [Nat.add_sub_cancel_left]
      refine hrun rest ?_
      rw [← List.append_assoc]
      exact ih (by rw [← hT, List.drop_drop]) (by omega) (by omega)

/-- What can be read from the stream, a C decoder reads. -/
theorem yields_decode {xs : List UInt8} {off : ℕ}
    (h : Readable (g.codeReader syms) (S.drop off) xs) (hoff : off ≤ S.length)
    (hk : g.k < 2 ^ 8) (hxs : xs.length < 2 ^ 32) (hsteps : 2 * xs.length ≤ fuel) :
    Yields I (decode W read fuel g.k (tbits.length + off) xs.length) xs := by
  have hfits := hlay.fits
  rw [decode, Nat.mod_eq_of_lt hk, Nat.mod_eq_of_lt hxs, Nat.mod_eq_of_lt (by omega)]
  have hat : (tbits ++ S).drop (tbits.length + off) = S.drop off := by
    rw [List.drop_append]; simp
  cases h with
  | text E h => exact yields_decodeLoop_of_spells hread hlay hfuel h hat (by omega) hsteps
  | pattern h =>
    cases hxs : xs with
    | nil => exact yields_decodeLoop_done _ _ _ _
    | cons x xs' =>
      obtain ⟨n, hn, hrun⟩ := yields_decodeLoop_of_plays hread hlay hfuel 0 0 [] xs h
        hat (by omega) (by simp [hxs])
      obtain ⟨rest, hrest⟩ : ∃ rest, fuel = rest + n := ⟨fuel - n, by omega⟩
      have := hrun rest (yields_decodeLoop_done _ _ _ _)
      rwa [← hrest, hxs] at this

end Symbols

/-! ## Section 5: The compressor's blob -/

/-- The table of a codec made from a histogram comes from `set_table`. -/
theorem setTable_of_fromHist {k : Option ℕ} {l m : ℕ} {hist : Hist} {g : GLZ}
    (h : GLZ.fromHist k l m hist = .ok g) :
    g.l = l ∧ g.m = m ∧ ∃ h₀ : Hist, h₀.setTable g.decodeTable = .ok g.rice.bijecter := by
  obtain ⟨h₁, hsort, h⟩ := Glz.Res.bind_eq_ok.mp h
  obtain ⟨h₂, hcompact, h⟩ := Glz.Res.bind_eq_ok.mp h
  obtain ⟨rice, rfl⟩ : ∃ rice, g = ⟨l, m, rice, h₂⟩ := by
    cases k with
    | none =>
      obtain ⟨rice, -, h⟩ := Glz.Res.bind_eq_ok.mp h
      cases h
      exact ⟨rice, rfl⟩
    | some k =>
      cases h
      exact ⟨⟨k⟩, rfl⟩
  refine ⟨rfl, rfl, ?_⟩
  simp only [Hist.sort, Hist.sortBounded, Glz.Res.bind_eq_ok] at hsort
  obtain ⟨_, -, _, -, hsort⟩ := hsort
  obtain ⟨-, rfl⟩ := Hist.setTable_eq_ok hsort
  simp only [Hist.compact, Hist.compactBounded, Glz.Res.bind_eq_ok] at hcompact
  obtain ⟨_, -, _, -, hcompact⟩ := hcompact
  obtain ⟨-, rfl⟩ := Hist.setTable_eq_ok hcompact
  exact ⟨_, hcompact⟩

/-- Entries of the encoded table stand at multiples of their width. -/
theorem entry_mapM_encodeSym {width c n : ℕ} {table : List ℕ} {codes : List Bits}
    (hwidth : width < 32) (hcodes : table.mapM (Glz.encodeSym 32 width) = .ok codes) :
    codes.flatten.length = width * table.length ∧ (table[c]? = some n →
      width * c + width ≤ codes.flatten.length ∧
        ofBits ((codes.flatten.drop (width * c)).take width) = n) := by
  induction table generalizing codes c with
  | nil =>
    cases hcodes
    exact ⟨rfl, fun h => by simp at h⟩
  | cons m table ih =>
    simp only [List.mapM_cons, Glz.Res.bind_eq_ok] at hcodes
    obtain ⟨code, hcode, codes, hrest, h⟩ := hcodes
    cases h
    obtain ⟨-, hlt, rfl⟩ := Glz.encodeSym_eq_ok.mp hcode
    obtain ⟨hlen, -⟩ := ih (c := 0) hrest
    rw [List.flatten_cons, List.length_append, length_toBits, List.length_cons, hlen]
    refine ⟨by ring, fun hc => ?_⟩
    cases c with
    | zero =>
      cases hc
      refine ⟨by rw [Nat.mul_zero]; omega, ?_⟩
      rw [Nat.mul_zero, List.drop_zero, List.take_left' (length_toBits _ _)]
      exact ofBits_toBits (hlt.resolve_left (by omega))
    | succ c =>
      obtain ⟨hbound, hvalue⟩ := (ih (c := c) hrest).2 (by simpa using hc)
      rw [show width * (c + 1) = width + width * c by ring]
      refine ⟨by omega, ?_⟩
      rw [List.drop_append, length_toBits, Nat.add_sub_cancel_left,
        List.drop_eq_nil_of_le (by rw [length_toBits]; omega), List.nil_append, hvalue]

theorem entry_encodeSyms {width c n : ℕ} {table : List ℕ} {tbits : Bits} (hwidth : width < 32)
    (h : Glz.encodeSyms (Glz.encodeSym 32 width) table = .ok tbits) :
    tbits.length = width * table.length ∧ (table[c]? = some n →
      width * c + width ≤ tbits.length ∧
        ofBits ((tbits.drop (width * c)).take width) = n) := by
  obtain ⟨codes, hcodes, h⟩ := Glz.Res.bind_eq_ok.mp h
  cases h
  exact entry_mapM_encodeSym hwidth hcodes

/-- Every symbol that `traverse_syms` finds in a stream has an entry in the table. -/
def HasEntries (g : GLZ) (bits : Bits) : Prop :=
  ∃ syms, g.traverseSyms bits = .ok syms ∧ ∀ n ∈ syms, n ∈ g.decodeTable

/-- A blob whose stream only has symbols with an entry is laid out as the decoders expect. -/
theorem layout_of_setTable {W : ℕ} {h₀ : Hist} {g : GLZ} {bits tbits : Bits}
    {syms : List (GLZSym UInt8)} (hset : h₀.setTable g.decodeTable = .ok g.rice.bijecter)
    (hm : g.m = glzM) (hl : g.l ≤ 8)
    (htable : Glz.encodeSyms (Glz.encodeSym 32 9) g.decodeTable = .ok tbits)
    (hcoded : Glz.GLZ.Coded g bits syms)
    (hfits : 9 * g.decodeTable.length + bits.length < 2 ^ 32 - 1)
    (hindex : g.decodeTable.length ≤ 2 ^ W) (hentries : HasEntries g bits) :
    Layout W g tbits bits syms := by
  obtain ⟨vals, hvals, hmem⟩ := hentries
  rw [Glz.GLZ.traverseSyms_of_coded le_rfl hl hcoded] at hvals
  cases hvals
  exact {
    m := hm
    l := hl
    fits := by rw [(entry_encodeSyms (c := 0) (n := 0) (by decide) htable).1]; exact hfits
    index := hindex
    entry := fun c n => (entry_encodeSyms (by decide) htable).2
    mapped := fun n hn c hc => Hist.getElem?_of_mapEncode hset (by omega) hn hc
    hasEntry := fun sym hsym => hmem _ (List.mem_map_of_mem hsym) }

/-- Every slice that the compressor put into the blob is what a C decoder yields, as long as the
bytes that it asks for are fetched. -/
theorem yields_decode_encodeAll {W : ℕ} {h₀ : Hist} {g : GLZ} {slices : List (List UInt8)}
    {bits : Bits} {offs : List (ℕ × ℕ)} {blob : List UInt8} {vals : List ℕ}
    (hset : h₀.setTable g.decodeTable = .ok g.rice.bijecter) (hm : g.m = glzM) (hl : g.l ≤ 8)
    (hk : g.k < 16) (henc : g.encodeAll slices = .ok (bits, offs))
    (hblob : g.writeBlob bits = .ok blob)
    (hfits : 9 * g.decodeTable.length + bits.length < 2 ^ 32 - 1)
    (hindex : g.decodeTable.length ≤ 2 ^ W) (hentries : HasEntries g bits)
    (hvals : g.traverseSyms bits = .ok vals) (i : ℕ) (slice : List UInt8)
    (hi : slices[i]? = some slice) (hslice : slice.length < 2 ^ 32) :
    ∃ off, offs[i]? = some (off, slice.length) ∧
      (slice.length < 2 ^ 31 → g.decodeAt bits off slice.length = .ok slice) ∧
      ∀ fuel, 8 * blob.length + 2 * slice.length < fuel →
        ∀ {σ : Type} {I : σ → Prop} {read : ℕ → ℕ → Run σ (List UInt8)},
          Fetches I read g vals blob →
          Yields I (decode W read fuel g.k (9 * g.decodeTable.length + off) slice.length)
            slice := by
  obtain ⟨tbits, htable, hblob⟩ := Glz.Res.bind_eq_ok.mp hblob
  cases hblob
  obtain ⟨syms, hcoded, hread⟩ := Glz.GLZ.readable_encodeAll henc
  have hlay := layout_of_setTable hset hm hl htable hcoded hfits hindex hentries
  rw [Glz.GLZ.traverseSyms_of_coded le_rfl hl hcoded] at hvals
  cases hvals
  have htlen : tbits.length = 9 * g.decodeTable.length :=
    (entry_encodeSyms (c := 0) (n := 0) (by decide) htable).1
  obtain ⟨hlt, rfl⟩ := List.getElem?_eq_some_iff.mp hi
  have hlt' : i < offs.length := by rw [← hread.length_eq]; exact hlt
  obtain ⟨hlen, hoff, hreadable⟩ := hread.get hlt hlt'
  simp only [List.get_eq_getElem] at hlen hoff hreadable
  refine ⟨offs[i].1, ?_, ?_, fun fuel hfuel σ I read hfetches => ?_⟩
  · rw [List.getElem?_eq_getElem hlt', ← hlen]
  · exact Glz.GLZ.decodeAt_of_readable le_rfl hlay.l (by omega) hreadable hoff
  · simp only [length_packBytes, List.length_append] at hfuel
    rw [← htlen]
    exact yields_decode hfetches hlay (by omega) hreadable hoff (by omega) hslice (by omega)

/-- If every symbol of the stream has an entry in the table, the C decoders return every
slice that the compressor put into the blob. -/
theorem decoders_refine {k : Option ℕ} {l W : ℕ} {hist : Hist} {g : GLZ}
    {slices : List (List UInt8)} {bits : Bits} {offs : List (ℕ × ℕ)} {blob : List UInt8}
    (hg : GLZ.fromHist k l glzM hist = .ok g) (hl : l ≤ 8) (hk : g.k < 16)
    (henc : g.encodeAll slices = .ok (bits, offs)) (hblob : g.writeBlob bits = .ok blob)
    (hfits : 9 * g.decodeTable.length + bits.length < 2 ^ 32 - 1)
    (hindex : g.decodeTable.length ≤ 2 ^ W) (hentries : HasEntries g bits) (i : ℕ)
    (slice : List UInt8) (hi : slices[i]? = some slice) (hslice : slice.length < 2 ^ 32) :
    ∃ off, offs[i]? = some (off, slice.length) ∧
      (slice.length < 2 ^ 31 → g.decodeAt bits off slice.length = .ok slice) ∧
      ∀ fuel, 8 * blob.length + 2 * slice.length < fuel →
        boxGlzDecode W fuel g.k blob (9 * g.decodeTable.length + off) slice.length =
          .ok slice ∧
        ∀ (σ : Type) (I : σ → Prop) (read : ReadCallback σ) (ctx : σ),
          CallbackServes I read blob → I ctx →
          boxGlzBddecode W fuel g.k read ctx (9 * g.decodeTable.length + off) slice.length =
            .ok slice ∧
          boxGlzFsdecode W fuel g.k read ctx (9 * g.decodeTable.length + off) slice.length =
            .ok slice := by
  obtain ⟨rfl, hm, h₀, hset⟩ := setTable_of_fromHist hg
  obtain ⟨vals, hvals, -⟩ := id hentries
  have hlength : blob.length < 2 ^ 32 := by
    obtain ⟨tbits, htable, hpack⟩ := Glz.Res.bind_eq_ok.mp hblob
    cases hpack
    have htlen := (entry_encodeSyms (c := 0) (n := 0) (by decide) htable).1
    rw [length_packBytes, List.length_append, htlen]
    change (9 * g.decodeTable.length + bits.length + 7) / 8 < 2 ^ 32
    omega
  obtain ⟨off, hoff, hrust, hyields⟩ := yields_decode_encodeAll hset hm hl hk henc hblob hfits
    hindex hentries hvals i slice hi hslice
  refine ⟨off, hoff, hrust, fun fuel hfuel => ⟨?_, fun σ I read ctx hserves hctx => ?_⟩⟩
  · exact (hyields fuel hfuel ((serves_readBlob blob).fetches g vals)).run' trivial
  · have hfetches := (serves_readCallback hserves hlength).fetches g vals
    exact ⟨(hyields fuel hfuel hfetches).run' hctx, (hyields fuel hfuel hfetches).run' hctx⟩

/-- A codec of two symbols, the more frequent one first. -/
theorem fromHist_two : GLZ.fromHist none 5 glzM ⟨[3, 2], none⟩ =
    .ok ⟨5, 4, ⟨⟨0⟩, [3, 2], some ([0, 1], [0, 1])⟩⟩ := by
  have hsort : Hist.sort ⟨[3, 2], none⟩ = .ok ⟨[3, 2], some ([0, 1], [0, 1])⟩ := by
    have hbound : Hist.bound ⟨[3, 2], none⟩ = .ok 2 := by decide
    have hcount : (List.range 2).mapM (fun k => do
        let count ← Hist.getBounded ⟨[3, 2], none⟩ k 2
        pure (k, count)) = (.ok [(0, 3), (1, 2)] : Glz.Res _) := by decide
    rw [Hist.sort, hbound]
    refine Glz.Res.bind_eq_ok.mpr ⟨_, rfl, Glz.Res.bind_eq_ok.mpr ⟨_, hcount, ?_⟩⟩
    rw [List.mergeSort_of_pairwise (by decide)]
    decide
  rw [GLZ.fromHist, hsort]
  decide

/-- The second of two slices, decoded from the blob of both. -/
theorem decoders_refine_two :
    ∃ g bits offs blob, GLZ.fromHist none 5 glzM ⟨[3, 2], none⟩ = .ok g ∧
      g.encodeAll (U := UInt8) [[0, 1, 0], [1, 0, 0]] = .ok (bits, offs) ∧
      g.writeBlob bits = .ok blob ∧ ∃ off, offs[1]? = some (off, 3) ∧
        g.decodeAt bits off 3 = .ok ([1, 0, 0] : List UInt8) ∧
        boxGlzDecode 16 64 g.k blob (9 * g.decodeTable.length + off) 3 = .ok [1, 0, 0] := by
  have henc : GLZ.encodeAll (U := UInt8) ⟨5, 4, ⟨⟨0⟩, [3, 2], some ([0, 1], [0, 1])⟩⟩
      [[0, 1, 0], [1, 0, 0]] =
        .ok ([true, false, false, false, false, true, false, false], [(4, 3), (0, 3)]) := by
    rw [GLZ.encodeAll, List.mergeSort_of_pairwise (by decide)]
    decide +kernel
  have hblob : GLZ.writeBlob ⟨5, 4, ⟨⟨0⟩, [3, 2], some ([0, 1], [0, 1])⟩⟩
      [true, false, false, false, false, true, false, false] = .ok [0, 0, 97, 0] := by
    decide +kernel
  obtain ⟨off, hoff, hrust, hrun⟩ := decoders_refine (W := 16) fromHist_two (by decide)
    (by decide) henc hblob (by decide) (by decide) ⟨[1, 0, 0, 0, 1, 0], by decide +kernel, by decide⟩ 1
    [1, 0, 0] rfl (by decide)
  exact ⟨_, _, _, _, fromHist_two, henc, hblob, off, hoff, hrust (by decide),
    (hrun 64 (by decide)).1⟩

/-- A codec whose only entry is the symbol 0 -/
theorem fromHist_zero : GLZ.fromHist none 5 glzM ⟨[1], none⟩ =
    .ok ⟨5, 4, ⟨⟨0⟩, [1], some ([0], [0])⟩⟩ := by
  have hsort : Hist.sort ⟨[1], none⟩ = .ok ⟨[1], some ([0], [0])⟩ := by
    have hbound : Hist.bound ⟨[1], none⟩ = .ok 1 := by decide
    have hcount : (List.range 1).mapM (fun k => do
        let count ← Hist.getBounded ⟨[1], none⟩ k 1
        pure (k, count)) = (.ok [(0, 1)] : Glz.Res _) := by decide
    rw [Hist.sort, hbound]
    refine Glz.Res.bind_eq_ok.mpr ⟨_, rfl, Glz.Res.bind_eq_ok.mpr ⟨_, hcount, ?_⟩⟩
    rw [List.mergeSort_singleton]
    decide
  rw [GLZ.fromHist, hsort]
  decide

/-- The compressor codes a byte past the end of its table, its own decoder reads it back,
and the C decoder looks for it behind the end of the blob. -/
theorem not_decoders_refine_one :
    ∃ g bits offs blob, GLZ.fromHist none 5 glzM ⟨[1], none⟩ = .ok g ∧ g.k < 16 ∧
      g.encodeAll (U := UInt8) [[1]] = .ok (bits, offs) ∧ offs = [(0, 1)] ∧
      g.writeBlob bits = .ok blob ∧ g.decodeAt bits 0 1 = .ok ([1] : List UInt8) ∧
      boxGlzDecode 16 64 g.k blob (9 * g.decodeTable.length + 0) 1 =
        .error (.err (-einval)) := by
  refine ⟨_, [true, false], [(0, 1)], [0, 64], fromHist_zero, by decide, ?_, rfl,
    by decide +kernel, by decide +kernel, by decide +kernel⟩
  rw [GLZ.encodeAll, List.mergeSort_singleton]
  decide +kernel

end BentoLinker.Loader
