import BentoLinker.Glz.Codec
import BentoLinker.Lib.BijectiveNumeral

/-!
# The GLZ Symbol Code

What the encoder writes for one symbol, `decodeSym` reads back, with exactly the
length written, whatever bits follow.

1. `offNibbles` are the digits of a bijective numeral in base `2 ^ m`
2. `decodeOff` reads a continuation-marked digit string back to its value
3. Round trip of immediates and of references
4. `prefix_code`: no code is the front of another one
-/

namespace BentoLinker.Glz.GLZ

open BitCode BijectiveNumeral

/-! ## Section 1: Offset fields -/

theorem offNibbles_eq_ok {m fuel n : ℕ} {ds : List ℕ} (hn : n ≤ fuel)
    (h : offNibbles m fuel n = .ok ds) : ds = bijDigits (2 ^ m) fuel n := by
  induction fuel generalizing n ds with
  | zero =>
    obtain rfl : n = 0 := by omega
    cases h
    rfl
  | succ fuel ih =>
    cases n with
    | zero => cases h; rfl
    | succ n =>
      simp only [offNibbles, Res.bind_eq_ok] at h
      obtain ⟨p, hp, next, hnext, rest, hrest, h⟩ := h
      obtain ⟨-, rfl⟩ := powU32_eq_ok.mp hp
      obtain ⟨-, rfl⟩ := shrU32_eq_ok.mp hnext
      have hle : n >>> m ≤ fuel := by
        rw [Nat.shiftRight_eq_div_pow]
        exact (Nat.div_le_self _ _).trans (by omega)
      have hih := ih hle hrest
      cases h
      rw [bijDigits, Nat.and_two_pow_sub_one_eq_mod, hih, Nat.shiftRight_eq_div_pow]

/-- Code of a digit string, every digit but the last marked with bit `m`. -/
def offCode (m : ℕ) : List ℕ → Bits
  | [] => []
  | [d] => toBits (m + 1) d
  | d :: e :: ds => toBits (m + 1) (2 ^ m + d) ++ offCode m (e :: ds)

/-- A nibble's code: fixed width, with the continuation bit in front of the digit. -/
theorem encodeNibble_eq_ok {m count d i : ℕ} {bits : Bits} (hd : d < 2 ^ m)
    (h : encodeNibble m count (d, i) = .ok bits) :
    m < 32 ∧ bits = toBits (m + 1) (if i = count - 1 then d else 2 ^ m + d) := by
  rw [encodeNibble, Res.bind_eq_ok] at h
  obtain ⟨more, hmore, h⟩ := h
  obtain ⟨hm, rfl⟩ := shlU32_eq_ok.mp hmore
  obtain ⟨_, _, rfl⟩ := Glz.encodeSym_eq_ok.mp h
  refine ⟨hm, ?_⟩
  dsimp only
  by_cases hlast : i = count - 1
  · simp [hlast]
  · have hpow : (1 <<< m) % 2 ^ 32 = 2 ^ m := by
      rw [Nat.one_shiftLeft, Nat.mod_eq_of_lt (Nat.pow_lt_pow_right (by decide) hm)]
    rw [if_neg hlast, if_neg hlast, hpow, Nat.or_comm]
    have hor := Nat.two_pow_add_eq_or_of_lt hd 1
    rw [Nat.mul_one] at hor
    rw [hor]

theorem mapM_encodeNibble_eq_ok {m count i : ℕ} {ds : List ℕ} {codes : List Bits}
    (hds : ∀ d ∈ ds, d < 2 ^ m) (hcount : count = i + ds.length)
    (h : (ds.zipIdx i).mapM (encodeNibble m count) = .ok codes) :
    codes.flatten = offCode m ds := by
  induction ds generalizing i codes with
  | nil => cases h; rfl
  | cons d ds ih =>
    simp only [List.zipIdx_cons, List.mapM_cons, Res.bind_eq_ok] at h
    obtain ⟨code, hcode, others, hothers, h⟩ := h
    cases h
    obtain ⟨-, rfl⟩ := encodeNibble_eq_ok (hds d (by simp)) hcode
    have hrest := ih (fun e he => hds e (List.mem_cons_of_mem _ he))
      (by simp only [List.length_cons] at hcount; omega) hothers
    cases ds with
    | nil =>
      simp only [List.length_cons, List.length_nil] at hcount
      simp only [List.flatten_cons, hrest, if_pos (show i = count - 1 by omega)]
      simp [offCode]
    | cons e ds =>
      simp only [List.length_cons] at hcount
      simp only [List.flatten_cons, hrest, if_neg (show i ≠ count - 1 by omega)]
      rfl

theorem length_offCode_pos {m : ℕ} {ds : List ℕ} (h : ds ≠ []) : 0 < (offCode m ds).length := by
  match ds, h with
  | [d], _ => simp [offCode]
  | d :: e :: ds, _ => simp only [offCode, List.length_append, length_toBits]; omega

/-- One iteration of the offset loop: a digit and its continuation bit are read. -/
theorem decodeOff_step {m arg d : ℕ} (fuel : ℕ) (pre post : Bits) (hm : m < 32)
    (hd : d < 2 ^ m) (more : Bool) (harg : arg * 2 ^ m + 1 + d < 2 ^ 32) :
    decodeOff m (pre ++ (toBits (m + 1) (more.toNat * 2 ^ m + d) ++ post)) (fuel + 1)
        pre.length arg =
      if more then
        decodeOff m (pre ++ (toBits (m + 1) (more.toNat * 2 ^ m + d) ++ post)) fuel
          (pre.length + (m + 1)) (arg * 2 ^ m + 1 + d)
      else .ok (arg * 2 ^ m + 1 + d, pre.length + (m + 1)) := by
  set sym := more.toNat * 2 ^ m + d with hsym
  have hpos : 0 < 2 ^ m := Nat.two_pow_pos m
  have hsymlt : sym < 2 ^ (m + 1) := by
    rw [pow_succ]
    cases more <;> simp_all <;> omega
  have hslice : sliceFrom (pre ++ (toBits (m + 1) sym ++ post)) pre.length
      = .ok (toBits (m + 1) sym ++ post) :=
    sliceFrom_eq_ok.mpr ⟨by simp, by simp⟩
  have hdec : Glz.decodeSym 32 (m + 1) (toBits (m + 1) sym ++ post) = .ok sym :=
    decodeSym_eq_ok.mpr ⟨by omega, by simp, by
      rw [List.take_left' (by simp), ofBits_toBits hsymlt]⟩
  have hlow : sym &&& (2 ^ m - 1) = d := by
    rw [Nat.and_two_pow_sub_one_eq_mod, hsym, Nat.mul_comm, Nat.mul_add_mod,
      Nat.mod_eq_of_lt hd]
  have hshl : shlU32 arg m = .ok (arg * 2 ^ m) := by
    refine shlU32_eq_ok.mpr ⟨hm, ?_⟩
    rw [Nat.shiftLeft_eq, Nat.mod_eq_of_lt (by omega)]
  have hlt : sym < 2 ^ m ↔ more = false := by
    cases more <;> simp_all
  rw [decodeOff]
  simp only [bind, Except.bind, hslice, hdec, powU32_eq_ok.mpr ⟨hm, rfl⟩, hshl,
    addU32_eq_ok.mpr (⟨by omega, rfl⟩ : arg * 2 ^ m + 1 < 2 ^ 32 ∧ _), hlow,
    addU32_eq_ok.mpr (⟨harg, rfl⟩ : arg * 2 ^ m + 1 + d < 2 ^ 32 ∧ _)]
  cases more
  · rw [if_pos (hlt.mpr rfl)]
    rfl
  · rw [if_neg (fun h => Bool.noConfusion (hlt.mp h))]
    rfl

/-- An offset field reads back to the value of its digits. -/
theorem decodeOff_offCode {m : ℕ} (fuel arg : ℕ) (pre post : Bits) {ds : List ℕ}
    (hm : m < 32) (hne : ds ≠ []) (hds : ∀ d ∈ ds, d < 2 ^ m) (hfuel : ds.length ≤ fuel)
    (hval : bijValueFrom (2 ^ m) arg ds < 2 ^ 32) :
    decodeOff m (pre ++ (offCode m ds ++ post)) fuel pre.length arg =
      .ok (bijValueFrom (2 ^ m) arg ds, pre.length + (offCode m ds).length) := by
  induction ds generalizing fuel arg pre with
  | nil => exact absurd rfl hne
  | cons d ds ih =>
    obtain ⟨fuel, rfl⟩ : ∃ n, fuel = n + 1 := ⟨fuel - 1, by simp at hfuel; omega⟩
    have hd := hds d (by simp)
    have hpos : 0 < 2 ^ m := Nat.two_pow_pos m
    rw [bijValueFrom_cons] at hval ⊢
    have harg : arg * 2 ^ m + 1 + d < 2 ^ 32 := (le_bijValueFrom hpos _ ds).trans_lt hval
    cases ds with
    | nil =>
      have hstep := decodeOff_step fuel pre post hm hd false harg
      simpa [offCode] using hstep
    | cons e ds =>
      have hstep := decodeOff_step fuel pre (offCode m (e :: ds) ++ post) hm hd true harg
      have hih := ih fuel _ (pre ++ toBits (m + 1) (2 ^ m + d)) (by simp)
        (fun x hx => hds x (List.mem_cons_of_mem _ hx)) (by simpa using hfuel) hval
      simp only [Bool.toNat_true, Nat.one_mul, if_true] at hstep
      simp only [List.length_append, length_toBits, List.append_assoc] at hih
      simp only [offCode, List.append_assoc, List.length_append, length_toBits]
      rw [hstep, hih]
      simp only [Nat.add_assoc]

/-! ## Section 2: Encoded references -/

variable {U : Type} [Sym U]

/-- What an encoded reference consists of: the code of its length and its offset field. -/
theorem encodeSym_ref_eq_ok {g : GLZ} {off size : ℕ} {bits : Bits}
    (h : g.encodeSym (U := U) (.ref off size) = .ok bits) :
    ∃ code, 2 ≤ size ∧ size ≤ 2 ^ g.l + 1 ∧ g.l < 64 ∧ g.m < 32 ∧
      off % 2 ^ 32 + 1 < 2 ^ 32 ∧ (size - 2) % 2 ^ 32 + 2 ^ 8 < 2 ^ 32 ∧
      g.rice.encodeSym ((size - 2) % 2 ^ 32 + 2 ^ 8) = .ok code ∧
      bits = code ++ offCode g.m
        (bijDigits (2 ^ g.m) (off % 2 ^ 32 + 1) (off % 2 ^ 32 + 1)).reverse := by
  rw [encodeSym, chainErr_eq_ok, encodeSymRaw] at h
  split at h
  · cases h
  next hsize =>
  simp only [Res.bind_eq_ok] at h
  obtain ⟨lim, hlim, _, hens, nsize, hnsize, noff, hnoff, offs, hoffs, code, hcode,
    nibbles, hnibbles, h⟩ := h
  obtain ⟨hl, rfl⟩ := powUsize_eq_ok.mp hlim
  obtain ⟨hnsizelt, rfl⟩ := addU32_eq_ok.mp hnsize
  obtain ⟨hnofflt, rfl⟩ := addU32_eq_ok.mp hnoff
  have hm : g.m < 32 := by
    obtain ⟨p, hp, _⟩ := Res.bind_eq_ok.mp hoffs
    exact (powU32_eq_ok.mp hp).1
  obtain rfl := offNibbles_eq_ok le_rfl hoffs
  have hdigits : ∀ d ∈ (bijDigits (2 ^ g.m) (off % 2 ^ 32 + 1) (off % 2 ^ 32 + 1)).reverse,
      d < 2 ^ g.m := fun d hd =>
    bijDigits_lt (Nat.two_pow_pos g.m) _ _ d (List.mem_reverse.mp hd)
  have hflat := mapM_encodeNibble_eq_ok (i := 0) hdigits (by simp) hnibbles
  rw [ensure_eq_ok, decide_eq_true_eq] at hens
  have hpos : 0 < 2 ^ g.l := Nat.two_pow_pos _
  cases h
  exact ⟨code, by omega, by omega, hl, hm, hnofflt, hnsizelt, hcode, by rw [hflat]⟩

/-- Rice-coded front of a symbol, as `decode_sym_raw` reads it. -/
theorem decodeSym_imm {g : GLZ} {sym len : ℕ} {x : U} {bits : Bits}
    (hrice : g.rice.decodeSym bits = .ok (sym, len)) (hsym : sym < 2 ^ 8)
    (hx : cast U sym = .ok x) : g.decodeSym U bits = .ok (.imm x, len) := by
  rw [decodeSym, chainErr_eq_ok, decodeSymRaw]
  refine Res.bind_eq_ok.mpr ⟨_, hrice, ?_⟩
  dsimp only
  rw [if_pos hsym]
  exact Res.bind_eq_ok.mpr ⟨x, hx, rfl⟩

theorem decodeSym_ref {g : GLZ} {sym len arg off : ℕ} {bits : Bits}
    (hrice : g.rice.decodeSym bits = .ok (sym, len)) (hsym : ¬ sym < 2 ^ 8)
    (hoff : decodeOff g.m bits (bits.length + 1) len 0 = .ok (arg, off)) :
    g.decodeSym U bits = .ok (.ref (arg - 1) (sym - 2 ^ 8 + 2), off) := by
  rw [decodeSym, chainErr_eq_ok, decodeSymRaw]
  refine Res.bind_eq_ok.mpr ⟨_, hrice, ?_⟩
  dsimp only
  rw [if_neg hsym]
  exact Res.bind_eq_ok.mpr ⟨_, hoff, rfl⟩

theorem length_le_length_offCode (m : ℕ) (ds : List ℕ) : ds.length ≤ (offCode m ds).length := by
  induction ds with
  | nil => simp
  | cons d ds ih =>
    cases ds with
    | nil => simp [offCode]
    | cons e ds =>
      simp only [offCode, List.length_append, length_toBits, List.length_cons] at ih ⊢
      omega

/-- A reference decodes to itself when its offset and length fit the format. -/
theorem decodeSym_encodeSym_ref {g : GLZ} {off size : ℕ} {bits : Bits} (hl : g.l < 32)
    (hoff : off < 2 ^ 32 - 1) (h : g.encodeSym (U := U) (.ref off size) = .ok bits)
    (rest : Bits) : g.decodeSym U (bits ++ rest) = .ok (.ref off size, bits.length) := by
  obtain ⟨code, hsize, hsizele, -, hm, -, hnsize, hcode, rfl⟩ := encodeSym_ref_eq_ok h
  have hlim : 2 ^ g.l ≤ 2 ^ 31 := Nat.pow_le_pow_right (by decide) (by omega)
  rw [Nat.mod_eq_of_lt (show size - 2 < 2 ^ 32 by omega)] at hnsize hcode
  rw [Nat.mod_eq_of_lt (show off < 2 ^ 32 by omega)]
  set ds := (bijDigits (2 ^ g.m) (off + 1) (off + 1)).reverse with hds
  have hval : bijValue (2 ^ g.m) ds = off + 1 := bijValue_reverse_bijDigits le_rfl
  have hne : ds ≠ [] := by
    rw [hds, ne_eq, List.reverse_eq_nil_iff]
    exact bijDigits_ne_nil (by omega) le_rfl
  have hdigits : ∀ d ∈ ds, d < 2 ^ g.m := fun d hd =>
    bijDigits_lt (Nat.two_pow_pos g.m) _ _ d (List.mem_reverse.mp hd)
  have hrice := BijectEncoder.decodeSym_encodeSym hnsize hcode (offCode g.m ds ++ rest)
  have hfield := decodeOff_offCode ((code ++ (offCode g.m ds ++ rest)).length + 1) 0 code rest
    hm hne hdigits
    (by have := length_le_length_offCode g.m ds; simp only [List.length_append]; omega)
    (by change bijValue _ _ < _; omega)
  change decodeOff _ _ _ _ _ = .ok (bijValue _ _, _) at hfield
  rw [hval] at hfield
  rw [List.append_assoc, decodeSym_ref hrice (by omega) hfield]
  simp only [Nat.add_sub_cancel, List.length_append, Except.ok.injEq, Prod.mk.injEq,
    GLZSym.ref.injEq, true_and, and_true]
  omega

/-- An immediate byte decodes to itself. -/
theorem decodeSym_encodeSym_imm {g : GLZ} {x : U} {bits : Bits} (hU : Sym.size U ≤ 8)
    (h : g.encodeSym (.imm x) = .ok bits) (rest : Bits) :
    g.decodeSym U (bits ++ rest) = .ok (.imm x, bits.length) := by
  rw [encodeSym, chainErr_eq_ok] at h
  have hx : Sym.toU32 x < 2 ^ 8 :=
    (Sym.toU32_lt x).trans_le (Nat.pow_le_pow_right (by decide) hU)
  have hrice := BijectEncoder.decodeSym_encodeSym (by omega) h rest
  exact decodeSym_imm hrice hx (cast_toU32 x)

theorem length_pos_of_encodeSym {g : GLZ} {sym : GLZSym U} {bits : Bits}
    (h : g.encodeSym sym = .ok bits) : 0 < bits.length := by
  cases sym with
  | imm x =>
    rw [encodeSym, chainErr_eq_ok] at h
    exact BijectEncoder.length_pos_of_encodeSym h
  | ref off size =>
    obtain ⟨code, -, -, -, -, -, -, hcode, rfl⟩ := encodeSym_ref_eq_ok h
    have := BijectEncoder.length_pos_of_encodeSym hcode
    simp only [List.length_append]
    omega

/-! ## Section 3: A prefix code -/

/-- Symbols of the format: bytes, and references whose offset and length it has room for -/
def SymFits (g : GLZ) : GLZSym U → Prop
  | .imm _ => True
  | .ref off size => off < 2 ^ 32 - 1 ∧ 2 ≤ size ∧ size ≤ 2 ^ g.l + 1

theorem decodeSym_encodeSym {g : GLZ} {sym : GLZSym U} {bits : Bits} (hU : Sym.size U ≤ 8)
    (hl : g.l < 32) (hfits : g.SymFits sym) (h : g.encodeSym sym = .ok bits) (rest : Bits) :
    g.decodeSym U (bits ++ rest) = .ok (sym, bits.length) := by
  cases sym with
  | imm x => exact decodeSym_encodeSym_imm hU h rest
  | ref off size => exact decodeSym_encodeSym_ref hl hfits.1 h rest

/-- The symbol code has an exact inverse: the code of a symbol decodes to the symbol and to the
length of its code, whatever follows it. So no code is the front of the code of another symbol. -/
theorem prefix_code (g : GLZ) (hl : g.l ≤ 8) (_hk : g.k < 32) (_hm : 1 ≤ g.m ∧ g.m < 32)
    (sym : GLZSym UInt8) (hfits : g.SymFits sym) {bits : Bits} (h : g.encodeSym sym = .ok bits) :
    (∀ rest, g.decodeSym UInt8 (bits ++ rest) = .ok (sym, bits.length)) ∧
      ∀ sym' bits', g.SymFits sym' → g.encodeSym sym' = .ok bits' → bits <+: bits' → sym' = sym := by
  have hl32 : g.l < 32 := by omega
  have hdecode := decodeSym_encodeSym (U := UInt8) (Nat.le_refl 8) hl32 hfits h
  refine ⟨hdecode, ?_⟩
  rintro sym' _ hfits' h' ⟨rest, rfl⟩
  have hdecode' := decodeSym_encodeSym (U := UInt8) (Nat.le_refl 8) hl32 hfits' h' []
  rw [List.append_nil, hdecode rest] at hdecode'
  exact (congrArg Prod.fst (Except.ok.inj hdecode')).symm

/-- A reference whose offset has two digits -/
theorem prefix_code_ref :
    (∀ rest, (withConfig 8 5 3).decodeSym UInt8
        (toBits 18 0b100000101010010101 ++ rest) = .ok (.ref 21 12, 18)) ∧
      ∀ sym' bits', (withConfig 8 5 3).SymFits (U := UInt8) sym' →
        (withConfig 8 5 3).encodeSym sym' = .ok bits' →
        toBits 18 0b100000101010010101 <+: bits' → sym' = .ref 21 12 :=
  prefix_code (withConfig 8 5 3) (by decide) (by decide) (by decide) (.ref 21 12)
    ⟨by decide, by decide, by decide⟩ (by decide)

end BentoLinker.Glz.GLZ
