import BentoLinker.Glz.Stream

/-!
# GLZ Round Trip

The decoder of `glz.rs` reads back what can be read from a stream, so it inverts the
encoder.

1. Codes and the runtime check
2. Iterations of `decode1`
3. `decode1` on patterns and on texts
4. The round trips, and what the runtime check does to slices of `2 ^ 31` symbols on
-/

namespace BentoLinker.Glz.GLZ

open BitCode CopyStream

section Decoder

variable {U : Type} [Sym U] {g : GLZ} {syms : List (GLZSym U)} {bits : Bits}
  {size : Option ℕ} {nested : ℕ → ℕ → Res (List U)} {fuel off cycles d : ℕ} {xs ys : List U}

/-! ## Section 1: Codes and the runtime check -/

theorem decodeSym_of_emit {S : Bits} {x : U} (hU : Sym.size U ≤ 8)
    (h : (g.codeReader syms).emit S x d) : g.decodeSym U S = .ok (.imm x, d) := by
  obtain ⟨-, code, rest, rfl, hcode, rfl⟩ := h
  exact decodeSym_encodeSym_imm hU hcode rest

theorem decodeSym_of_copy {S : Bits} {off n : ℕ} (hl : g.l ≤ 8) (hoff : off < 2 ^ 32 - 1)
    (h : (g.codeReader syms).copy S off n d) :
    g.decodeSym U S = .ok (.ref off n, d) := by
  obtain ⟨-, code, rest, rfl, hcode, rfl⟩ := h
  exact decodeSym_encodeSym_ref (by omega) hoff hcode rest

theorem emit_length_le {S : Bits} {x : U} (h : (g.codeReader syms).emit S x d) :
    0 < d ∧ d ≤ S.length :=
  h.2.length_le

theorem copy_length_le {S : Bits} {off n : ℕ} (h : (g.codeReader syms).copy S off n d) :
    0 < d ∧ d ≤ S.length :=
  h.2.length_le

/-- A reference of the format copies at most `2 ^ l + 1` symbols. -/
theorem copy_size_le {S : Bits} {off n : ℕ} (hl : g.l ≤ 8)
    (h : (g.codeReader syms).copy S off n d) : n < 2 ^ 31 := by
  obtain ⟨-, _, _, -, hcode, -⟩ := h
  obtain ⟨_, -, hn, -⟩ := encodeSym_ref_eq_ok hcode
  have hpow : 2 ^ g.l ≤ 2 ^ 8 := Nat.pow_le_pow_right (by decide) hl
  omega

theorem checkCycles_some {n c : ℕ} (hn : n < 2 ^ 31) (hc : c ≤ 2 * n) :
    checkCycles (some n) c = .ok () := by
  have hlimit : mulU32 2 (n % 2 ^ 32) = .ok (2 * n) := by
    rw [Nat.mod_eq_of_lt (by omega)]
    exact mulU32_eq_ok.mpr ⟨by omega, rfl⟩
  exact Res.bind_eq_ok.mpr ⟨_, hlimit, ensure_eq_ok.mpr (decide_eq_true hc)⟩

/-- From `2 ^ 31` on, twice the length does not fit the counter it is compared to. -/
theorem checkCycles_ne_ok {n c : ℕ} (hn : 2 ^ 31 ≤ n % 2 ^ 32) :
    checkCycles (some n) c ≠ .ok () := by
  intro h
  obtain ⟨limit, hlimit, -⟩ := Res.bind_eq_ok.mp h
  have := (mulU32_eq_ok.mp hlimit).1
  omega

/-! ## Section 2: Iterations of `decode1` -/

theorem decodeSymAt_eq {r : Res (GLZSym U × ℕ)} (hoff : off ≤ bits.length)
    (h : g.decodeSym U (bits.drop off) = r) : g.decodeSymAt U bits off = r := by
  rw [decodeSymAt, sliceFrom_eq_ok.mpr ⟨hoff, rfl⟩]
  exact h

theorem decode1Loop_done (h : wantsMore bits size off xs.length = false) :
    g.decode1Loop bits size nested (fuel + 1) off xs cycles = .ok xs := by
  rw [decode1Loop, h]
  rfl

variable (hmore : wantsMore bits size off xs.length = true)
  (hcycles : cycles + 1 < 2 ^ 32) (hcheck : checkCycles size (cycles + 1) = .ok ())

include hmore hcycles hcheck

theorem decode1Loop_imm {x : U} (hsym : g.decodeSymAt U bits off = .ok (.imm x, d)) :
    g.decode1Loop bits size nested (fuel + 1) off xs cycles =
      g.decode1Loop bits size nested fuel (off + d) (xs ++ [x]) (cycles + 1) := by
  rw [decode1Loop, if_pos hmore, hsym]
  simp only [bind, Except.bind, pure, Except.pure, addU32_eq_ok.mpr ⟨hcycles, rfl⟩, hcheck]

theorem decode1Loop_tail {refoff refsize : ℕ}
    (hsym : g.decodeSymAt U bits off = .ok (.ref refoff refsize, d))
    (htail : isTail size xs.length refsize = true) :
    g.decode1Loop bits size nested (fuel + 1) off xs cycles =
      g.decode1Loop bits size nested fuel (off + d + refoff) xs (cycles + 1) := by
  rw [decode1Loop, if_pos hmore, hsym]
  simp only [bind, Except.bind, pure, Except.pure, htail, if_true,
    addU32_eq_ok.mpr ⟨hcycles, rfl⟩, hcheck]

theorem decode1Loop_nested {refoff refsize : ℕ}
    (hsym : g.decodeSymAt U bits off = .ok (.ref refoff refsize, d))
    (htail : isTail size xs.length refsize = false)
    (hnested : nested (off + d + refoff) refsize = .ok ys) :
    g.decode1Loop bits size nested (fuel + 1) off xs cycles =
      g.decode1Loop bits size nested fuel (off + d) (xs ++ ys) (cycles + 1) := by
  rw [decode1Loop, if_pos hmore, hsym]
  simp only [bind, Except.bind, pure, Except.pure, htail, hnested,
    addU32_eq_ok.mpr ⟨hcycles, rfl⟩, hcheck, Bool.false_eq_true, if_false]

end Decoder

/-! ## Section 3: `decode1` on patterns and on texts -/

section Format

variable {U : Type} [Sym U] {g : GLZ} {syms : List (GLZSym U)} {bits : Bits}

variable (hU : Sym.size U ≤ 8) (hl : g.l ≤ 8) (hbits : bits.length < 2 ^ 32 - 1)

include hU hl hbits

/-- On a pattern the loop only jumps. Two codes yield at least one symbol, so the
runtime check passes; a jump that just happened is one code ahead. -/
theorem decode1Loop_of_plays {b : Bool} {S : Bits} {xs bytes : List U}
    {nested : ℕ → ℕ → Res (List U)} {n fuel off cycles : ℕ}
    (h : Plays (g.codeReader syms) b S xs) (hS : bits.drop off = S)
    (hoff : off ≤ bits.length) (hn : n < 2 ^ 31) (hcount : bytes.length + xs.length = n)
    (hcycles : cycles + 2 * xs.length ≤ 2 * n + (!b).toNat)
    (hfuel : 2 * n + 2 ≤ fuel + cycles) :
    g.decode1Loop bits (some n) nested fuel off bytes cycles = .ok (bytes ++ xs) := by
  induction h generalizing fuel off bytes cycles with
  | @done b S =>
    have hb : (!b).toNat ≤ 1 := Bool.toNat_le _
    obtain ⟨fuel, rfl⟩ : ∃ k, fuel = k + 1 := ⟨fuel - 1, by simp at hcycles; omega⟩
    rw [List.append_nil]
    exact decode1Loop_done (by simp [wantsMore] at hcount ⊢; omega)
  | @emit b S x d xs hx _ ih =>
    have hb : (!b).toNat ≤ 1 := Bool.toNat_le _
    rw [List.length_cons] at hcount hcycles
    obtain ⟨fuel, rfl⟩ : ∃ k, fuel = k + 1 := ⟨fuel - 1, by omega⟩
    obtain ⟨-, hd⟩ := emit_length_le hx
    rw [← hS, List.length_drop] at hd
    have hsym := decodeSymAt_eq hoff (hS ▸ decodeSym_of_emit hU hx)
    rw [decode1Loop_imm (by simp [wantsMore]; omega) (by omega)
      (checkCycles_some hn (by omega)) hsym,
      ih (by rw [← hS, List.drop_drop]) (by omega) (by simp; omega)
        (by simp; omega) (by omega)]
    simp
  | @jump S refoff refsize d xs hne hlen hcopy hd _ ih =>
    have hpos : 0 < xs.length := List.length_pos_iff.mpr hne
    simp only [Bool.not_true, Bool.toNat_false, Nat.add_zero] at hcycles
    obtain ⟨fuel, rfl⟩ : ∃ k, fuel = k + 1 := ⟨fuel - 1, by omega⟩
    rw [← hS, List.length_drop] at hd
    have hsym := decodeSymAt_eq hoff (hS ▸ decodeSym_of_copy hl (by omega) hcopy)
    rw [decode1Loop_tail (by simp [wantsMore]; omega) (by omega)
      (checkCycles_some hn (by omega)) hsym (by simp [isTail]; omega),
      ih (by rw [← hS, List.drop_drop]; congr 1; omega) (by omega) hcount
        (by simp; omega) (by omega)]

/-- A pattern is decoded at any depth. -/
theorem decode1_of_plays {xs : List U} {left off : ℕ}
    (h : Plays (g.codeReader syms) false (bits.drop off) xs) (hoff : off ≤ bits.length)
    (hxs : xs.length < 2 ^ 31) : g.decode1 bits (left + 1) off (some xs.length) = .ok xs := by
  rw [decode1, decode1Loop_of_plays hU hl hbits h rfl hoff hxs (by simp) (by simp)
    (by simp [decodeBudget])]
  rfl

/-- On a text of known length the loop recurses, but for a copy that ends the text. -/
theorem decode1Loop_of_spells {S E : Bits} {xs bytes : List U} {left n fuel off cycles : ℕ}
    (h : Spells (g.codeReader syms) S E xs) (hS : bits.drop off = S)
    (hoff : off ≤ bits.length) (hn : n < 2 ^ 31) (hcount : bytes.length + xs.length = n)
    (hcycles : cycles + 2 * xs.length ≤ 2 * n) (hfuel : 2 * n + 2 ≤ fuel + cycles) :
    g.decode1Loop bits (some n)
      (fun off size => g.decode1 bits (left + 1) off (some size)) fuel off bytes cycles =
        .ok (bytes ++ xs) := by
  induction h generalizing fuel off bytes cycles with
  | done =>
    obtain ⟨fuel, rfl⟩ : ∃ k, fuel = k + 1 := ⟨fuel - 1, by simp at hcycles; omega⟩
    rw [List.append_nil]
    exact decode1Loop_done (by simp [wantsMore] at hcount ⊢; omega)
  | @emit S E x d xs hx _ ih =>
    rw [List.length_cons] at hcount hcycles
    obtain ⟨fuel, rfl⟩ : ∃ k, fuel = k + 1 := ⟨fuel - 1, by omega⟩
    obtain ⟨-, hd⟩ := emit_length_le hx
    rw [← hS, List.length_drop] at hd
    have hsym := decodeSymAt_eq hoff (hS ▸ decodeSym_of_emit hU hx)
    rw [decode1Loop_imm (by simp [wantsMore]; omega) (by omega)
      (checkCycles_some hn (by omega)) hsym,
      ih (by rw [← hS, List.drop_drop]) (by omega) (by simp; omega) (by omega) (by omega)]
    simp
  | @copy S E refoff d ys xs hne hcopy hd hplays _ ih =>
    have hpos : 0 < ys.length := List.length_pos_iff.mpr hne
    rw [List.length_append] at hcount hcycles
    obtain ⟨fuel, rfl⟩ : ∃ k, fuel = k + 1 := ⟨fuel - 1, by omega⟩
    have hsize := copy_size_le hl hcopy
    rw [← hS, List.length_drop] at hd
    rw [← hS, List.drop_drop, ← Nat.add_assoc] at hplays
    have hsym := decodeSymAt_eq hoff (hS ▸ decodeSym_of_copy hl (by omega) hcopy)
    have hmore : wantsMore bits (some n) off bytes.length = true := by
      simp [wantsMore]; omega
    have hcheck := checkCycles_some hn (show cycles + 1 ≤ 2 * n by omega)
    cases hxs : xs with
    | nil =>
      -- the copy reaches the end: jump
      subst hxs
      rw [decode1Loop_tail hmore (by omega) hcheck hsym
          (by simp [isTail] at hcount ⊢; omega),
        decode1Loop_of_plays hU hl hbits hplays rfl (by omega) hn (by simpa using hcount)
          (by simp at hcycles ⊢; omega) (by omega), List.append_nil]
    | cons x xs' =>
      rw [← hxs]
      have hmore' : 0 < xs.length := by rw [hxs]; simp
      rw [decode1Loop_nested hmore (by omega) hcheck hsym (by simp [isTail]; omega)
          (decode1_of_plays hU hl hbits hplays (by omega) hsize),
        ih (by rw [← hS, List.drop_drop]) (by omega) (by simp; omega) (by omega) (by omega),
        List.append_assoc]

/-- What can be read from a place in the stream, `decodeAt` decodes from there. -/
theorem decodeAt_of_readable {xs : List U} {off : ℕ}
    (h : Readable (g.codeReader syms) (bits.drop off) xs) (hoff : off ≤ bits.length)
    (hxs : xs.length < 2 ^ 31) : g.decodeAt bits off xs.length = .ok xs := by
  cases h with
  | pattern h => exact decode1_of_plays hU hl hbits h hoff hxs
  | text E h =>
    rw [decodeAt, decode1, decode1Loop_of_spells hU hl hbits h rfl hoff hxs (by simp) (by simp)
      (by simp [decodeBudget])]
    rfl

/-- On a text that ends with the stream the loop needs no length. -/
theorem decode1Loop_of_spells_all {S : Bits} {xs bytes : List U} {left fuel off cycles : ℕ}
    (h : Spells (g.codeReader syms) S [] xs) (hS : bits.drop off = S)
    (hoff : off ≤ bits.length) (hcycles : cycles ≤ off)
    (hfuel : bits.length + 1 ≤ fuel + off) :
    g.decode1Loop bits none
      (fun off size => g.decode1 bits (left + 1) off (some size)) fuel off bytes cycles =
        .ok (bytes ++ xs) := by
  generalize hE : ([] : Bits) = E at h
  induction h generalizing fuel off bytes cycles with
  | done =>
    obtain rfl : off = bits.length := by
      have := congrArg List.length (hS.trans hE.symm)
      rw [List.length_drop, List.length_nil] at this
      omega
    obtain ⟨fuel, rfl⟩ : ∃ k, fuel = k + 1 := ⟨fuel - 1, by omega⟩
    rw [List.append_nil]
    exact decode1Loop_done (by simp [wantsMore])
  | @emit S E x d xs hx _ ih =>
    obtain ⟨hdpos, hd⟩ := emit_length_le hx
    rw [← hS, List.length_drop] at hd
    obtain ⟨fuel, rfl⟩ : ∃ k, fuel = k + 1 := ⟨fuel - 1, by omega⟩
    have hsym := decodeSymAt_eq hoff (hS ▸ decodeSym_of_emit hU hx)
    rw [decode1Loop_imm (by simp [wantsMore]; omega) (by omega) rfl hsym,
      ih (by rw [← hS, List.drop_drop]) (by omega) (by omega) (by omega) hE]
    simp
  | @copy S E refoff d ys xs hne hcopy hd hplays _ ih =>
    obtain ⟨hdpos, -⟩ := copy_length_le hcopy
    have hsize := copy_size_le hl hcopy
    rw [← hS, List.length_drop] at hd
    rw [← hS, List.drop_drop, ← Nat.add_assoc] at hplays
    obtain ⟨fuel, rfl⟩ : ∃ k, fuel = k + 1 := ⟨fuel - 1, by omega⟩
    have hsym := decodeSymAt_eq hoff (hS ▸ decodeSym_of_copy hl (by omega) hcopy)
    rw [decode1Loop_nested (by simp [wantsMore]; omega) (by omega) rfl hsym rfl
        (decode1_of_plays hU hl hbits hplays (by omega) hsize),
      ih (by rw [← hS, List.drop_drop]) (by omega) (by omega) (by omega) hE,
      List.append_assoc]

theorem decode_of_spells {xs : List U} (h : Spells (g.codeReader syms) bits [] xs) :
    g.decode bits = .ok xs := by
  rw [decode, decode1, decode1Loop_of_spells_all hU hl hbits h rfl (Nat.zero_le _) le_rfl
    (by simp [decodeBudget])]
  rfl

end Format

/-! ## Section 4: Round trips -/

section Statements

variable {U : Type} [Sym U] [DecidableEq U]

/-- What an iteration of a decoder that returns has done. -/
inductive Iterated (g : GLZ) (bits : Bits) (size : Option ℕ) (nested : ℕ → ℕ → Res (List U))
    (fuel off : ℕ) (bytes : List U) (cycles : ℕ) (xs : List U) : Prop
  | imm {x : U} {d : ℕ} : g.decodeSymAt U bits off = .ok (.imm x, d) →
      g.decode1Loop bits size nested fuel (off + d) (bytes ++ [x]) (cycles + 1) = .ok xs →
      Iterated g bits size nested fuel off bytes cycles xs
  | tail {refoff refsize d : ℕ} : g.decodeSymAt U bits off = .ok (.ref refoff refsize, d) →
      isTail size bytes.length refsize = true →
      g.decode1Loop bits size nested fuel (off + d + refoff) bytes (cycles + 1) = .ok xs →
      Iterated g bits size nested fuel off bytes cycles xs
  | nested {refoff refsize d : ℕ} {ys : List U} :
      g.decodeSymAt U bits off = .ok (.ref refoff refsize, d) →
      isTail size bytes.length refsize = false →
      nested (off + d + refoff) refsize = .ok ys →
      g.decode1Loop bits size nested fuel (off + d) (bytes ++ ys) (cycles + 1) = .ok xs →
      Iterated g bits size nested fuel off bytes cycles xs

omit [DecidableEq U] in
theorem decode1Loop_cases {g : GLZ} {bits : Bits} {size : Option ℕ}
    {nested : ℕ → ℕ → Res (List U)} {fuel off cycles : ℕ} {bytes xs : List U}
    (hmore : wantsMore bits size off bytes.length = true)
    (h : g.decode1Loop bits size nested fuel off bytes cycles = .ok xs) :
    ∃ fuel', fuel = fuel' + 1 ∧ checkCycles size (cycles + 1) = .ok () ∧
      Iterated g bits size nested fuel' off bytes cycles xs := by
  cases fuel with
  | zero => cases h
  | succ fuel =>
  refine ⟨fuel, rfl, ?_⟩
  rw [decode1Loop, if_pos hmore, Res.bind_eq_ok] at h
  obtain ⟨⟨sym, d⟩, hsym, h⟩ := h
  have hrest : ∀ {off' : ℕ} {bytes' : List U}, (do
      let cycles ← addU32 cycles 1
      checkCycles size cycles
      decode1Loop g bits size nested fuel off' bytes' cycles) = .ok xs →
      checkCycles size (cycles + 1) = .ok () ∧
        g.decode1Loop bits size nested fuel off' bytes' (cycles + 1) = .ok xs := by
    intro off' bytes' h
    simp only [Res.bind_eq_ok] at h
    obtain ⟨_, hadd, _, hcheck, h⟩ := h
    rw [← (addU32_eq_ok.mp hadd).2] at hcheck h
    exact ⟨hcheck, h⟩
  cases sym with
  | imm x =>
    obtain ⟨hcheck, h⟩ := hrest h
    exact ⟨hcheck, .imm hsym h⟩
  | ref refoff refsize =>
    dsimp only at h
    split at h
    · next htail =>
      obtain ⟨hcheck, h⟩ := hrest h
      exact ⟨hcheck, .tail hsym htail h⟩
    · next htail =>
      obtain ⟨ys, hys, h⟩ := Res.bind_eq_ok.mp h
      obtain ⟨hcheck, h⟩ := hrest h
      exact ⟨hcheck, .nested hsym (Bool.eq_false_iff.mpr htail) hys h⟩

omit [DecidableEq U] in
/-- From `2 ^ 31` symbols on, the runtime check fails at the first code. -/
theorem decode1_ne_ok {g : GLZ} {bits : Bits} {left off n : ℕ} {xs : List U}
    (hn : 2 ^ 31 ≤ n % 2 ^ 32) : g.decode1 bits left off (some n) ≠ .ok xs := by
  intro h
  cases left with
  | zero => cases h
  | succ left =>
    have hmore : wantsMore bits (some n) off ([] : List U).length = true := by
      simp only [wantsMore, List.length_nil, decide_eq_true_eq]
      exact Nat.pos_of_ne_zero fun h0 => by simp [h0] at hn
    obtain ⟨_, -, hcheck, -⟩ := decode1Loop_cases hmore h
    exact checkCycles_ne_ok hn hcheck

/-- `encodeAll` reports one entry for every slice, and the entry's place decodes to it. -/
theorem decodeAt_encodeAll {g : GLZ} (hU : Sym.size U ≤ 8) (hl : g.l ≤ 8)
    {slices : List (List U)} {bits : Bits} {offs : List (ℕ × ℕ)}
    (h : g.encodeAll slices = .ok (bits, offs)) (hbits : bits.length < 2 ^ 32 - 1) :
    List.Forall₂ (fun slice at_ => at_.2 = slice.length ∧
      (slice.length < 2 ^ 31 → g.decodeAt bits at_.1 at_.2 = .ok slice)) slices offs := by
  obtain ⟨syms, -, hread⟩ := readable_encodeAll h
  refine List.Forall₂.imp ?_ hread
  rintro slice ⟨off, len⟩ ⟨rfl, hoff, hslice⟩
  exact ⟨rfl, decodeAt_of_readable hU hl hbits hslice hoff⟩

theorem decode_encode {g : GLZ} (hU : Sym.size U ≤ 8) (hl : g.l ≤ 8) {slice : List U}
    {bits : Bits} (h : g.encode slice = .ok bits) (hbits : bits.length < 2 ^ 32 - 1) :
    g.decode bits = .ok slice := by
  obtain ⟨syms, -, hspells⟩ := spells_encode h
  exact decode_of_spells hU hl hbits hspells

end Statements

/-- What `encode_all` promises about its result: an entry for every slice, in order, from
which `decode_at` gets the slice back. -/
def RoundTrips (g : GLZ) (slices : List (List UInt8)) (bits : Bits) (offs : List (ℕ × ℕ)) :
    Prop :=
  offs.length = slices.length ∧ ∀ (i : ℕ) slice, slices[i]? = some slice →
    ∃ off : ℕ, offs[i]? = some (off, slice.length) ∧
      g.decodeAt bits off slice.length = .ok slice

/-- The codec inverts itself on all slices but those whose length the runtime check of
the decoder cannot double. -/
theorem roundTrips_of_short {g : GLZ} (hl : g.l ≤ 8) :
    (∀ slices bits offs, g.encodeAll slices = .ok (bits, offs) → bits.length < 2 ^ 32 - 1 →
      ((∀ slice ∈ slices, slice.length < 2 ^ 31) → g.RoundTrips slices bits offs) ∧
      ((∃ slice ∈ slices, 2 ^ 31 ≤ slice.length % 2 ^ 32) →
        ¬ g.RoundTrips slices bits offs)) ∧
    ∀ (slice : List UInt8) bits, g.encode slice = .ok bits → bits.length < 2 ^ 32 - 1 →
      g.decode bits = .ok slice := by
  refine ⟨fun slices bits offs h hbits => ⟨fun hshort => ?_, ?_⟩, fun slice bits h hbits =>
    decode_encode le_rfl hl h hbits⟩
  · have hentries := decodeAt_encodeAll le_rfl hl h hbits
    refine ⟨hentries.length_eq.symm, fun i slice hi => ?_⟩
    obtain ⟨hlt, rfl⟩ := List.getElem?_eq_some_iff.mp hi
    have hlt' : i < offs.length := by rw [← hentries.length_eq]; exact hlt
    obtain ⟨hlen, hdec⟩ := hentries.get hlt hlt'
    simp only [List.get_eq_getElem] at hlen hdec
    refine ⟨offs[i].1, ?_, ?_⟩
    · rw [List.getElem?_eq_getElem hlt', ← hlen]
    · rw [← hlen]
      exact hdec (hshort _ (List.getElem_mem hlt))
  · rintro ⟨slice, hmem, hlong⟩ ⟨-, htrips⟩
    obtain ⟨i, hi⟩ := List.getElem?_of_mem hmem
    obtain ⟨off, -, hdec⟩ := htrips i slice hi
    exact decode1_ne_ok hlong hdec

/-- Three slices, with a nested reference and a slice inside another one. -/
theorem roundTrips_pairs :
    ∃ g : GLZ, g = ⟨3, 2, ⟨⟨0⟩, [], some (Hist.invert [258, 257, 256, 259, 260, 0, 1] 261,
      [258, 257, 256, 259, 260, 0, 1])⟩⟩ ∧
    ∃ bits offs, g.RoundTrips [[0, 1, 0, 1, 0, 1, 0, 1], [1, 0, 1], [0, 1, 1]] bits offs ∧
      offs = [(16, 8), (28, 3), (0, 3)] := by
  refine ⟨_, rfl, [true, true, false, true, false, false, false, true, true, true, true, true,
    true, true, true, false, true, true, true, true, true, false, true, true, false, false,
    false, false, true, true, true, true, true, true, false, true, true, false, false, false,
    false, true, true, true, true, true, false, true, true, true, true, true, true, false],
    [(16, 8), (28, 3), (0, 3)], ?_, rfl⟩
  refine ((roundTrips_of_short (by decide)).1 _ _ _ ?_ (by decide)).1 (by decide)
  rw [encodeAll, List.mergeSort_of_pairwise (by decide)]
  decide +kernel

/-! ## Section 5: A slice too long for the runtime check -/

/-- Patterns of the history are longer than a single symbol. -/
def LongPatterns (history : History UInt8) : Prop :=
  ∀ t p, history t = some p → 2 ≤ t.length

theorem longPatterns_insertPrefixes {g : GLZ} {history : History UInt8} {slice : List UInt8}
    {i lastmatch : ℕ} (at_ : ℕ) (hlast : lastmatch ≤ slice.length) (h : LongPatterns history) :
    LongPatterns (g.insertPrefixes history slice i lastmatch at_) := by
  rw [insertPrefixes]
  have hmem : ∀ r ∈ (List.range' (i + 2) (lastmatch + 1 - (i + 2))).take (2 ^ g.l),
      i + 2 ≤ r ∧ r ≤ lastmatch := by
    intro r hr
    have hr := List.mem_of_mem_take hr
    rw [List.mem_range'_1] at hr
    omega
  generalize (List.range' (i + 2) (lastmatch + 1 - (i + 2))).take (2 ^ g.l) = rs at hmem
  induction rs generalizing history with
  | nil => exact h
  | cons r rs ih =>
    refine ih ?_ fun r' hr' => hmem r' (List.mem_cons_of_mem _ hr')
    intro t p hp
    change history.insert (subslice slice i r) at_ t = some p at hp
    rw [History.insert_apply] at hp
    split at hp
    · next ht =>
      have hr := hmem r (by simp)
      rw [ht, length_subslice (by omega)]
      omega
    · exact h t p hp

/-- Without references and with one bit for a zero, a zero is written. -/
theorem encode1Step_zeros {n : ℕ} {e : Encoder UInt8} (hlong : LongPatterns e.history)
    (hj : 0 < e.j) (hn : e.j ≤ n) :
    (withConfig 0 0 4).encode1Step (List.replicate n 0) e =
      .ok ⟨(withConfig 0 0 4).insertPrefixes e.history (List.replicate n 0) (e.j - 1)
        e.lastmatch (e.off + 1), e.off + 1, e.patterns ++ [[false]], e.j - 1, e.lastmatch,
        false⟩ := by
  have hnone : e.history (subslice (List.replicate n 0) (e.j - 1) e.j) = none := by
    cases hp : e.history (subslice (List.replicate n 0) (e.j - 1) e.j) with
    | none => rfl
    | some p =>
      have hlen := hlong _ _ hp
      rw [length_subslice (by rw [List.length_replicate]; exact hn)] at hlen
      omega
  have href : (withConfig 0 0 4).findRef e.history e.off (List.replicate n 0) e.j (e.j - 1) =
      .ok none := by
    rw [findRef, show e.j - (e.j - 1) = 1 by omega]
    simp only [List.range'_one, List.reverse_singleton, List.foldlM_cons, List.foldlM_nil,
      hnone, pure_bind]
    rfl
  have hget : (List.replicate n (0 : UInt8))[e.j - 1]? = some 0 :=
    List.getElem?_replicate_of_lt (by omega)
  have himm : (withConfig 0 0 4).encodeSym (U := UInt8) (.imm 0) = .ok [false] := rfl
  have hpow : powUsize (withConfig 0 0 4).l = .ok 1 := rfl
  rw [encode1Step, hpow]
  simp only [bind, Except.bind, href, hget, himm]
  cases e.forceimm <;> rfl

theorem encode1Loop_zeros {n : ℕ} (fuel : ℕ) {e : Encoder UInt8} (hlong : LongPatterns e.history)
    (hlast : e.lastmatch ≤ n) (hn : e.j ≤ n) (hfuel : e.j ≤ fuel) :
    ∃ e', (withConfig 0 0 4).encode1Loop (List.replicate n 0) fuel e = .ok e' ∧
      e'.patterns = e.patterns ++ List.replicate e.j [false] ∧ e'.off = e.off + e.j := by
  induction fuel generalizing e with
  | zero =>
    have hj : e.j = 0 := by omega
    exact ⟨e, by rw [encode1Loop, if_neg (by omega)]; rfl, by simp [hj], by omega⟩
  | succ fuel ih =>
    by_cases hj : 0 < e.j
    · have hlast' : e.lastmatch ≤ (List.replicate n (0 : UInt8)).length := by
        rwa [List.length_replicate]
      obtain ⟨e', hloop, hpatterns, hoff⟩ := ih
        (e := ⟨_, e.off + 1, e.patterns ++ [[false]], e.j - 1, e.lastmatch, false⟩)
        (longPatterns_insertPrefixes (g := withConfig 0 0 4) (i := e.j - 1) (e.off + 1)
          hlast' hlong) hlast (by dsimp only; omega) (by dsimp only; omega)
      refine ⟨e', ?_, ?_, ?_⟩
      · rw [encode1Loop, if_pos hj, encode1Step_zeros hlong hj hn]
        exact hloop
      · rw [hpatterns, List.append_assoc, List.singleton_append, ← List.replicate_succ,
          Nat.sub_add_cancel hj]
      · rw [hoff]
        dsimp only
        omega
    · have hj' : e.j = 0 := by omega
      exact ⟨e, by rw [encode1Loop, if_neg hj]; rfl, by simp [hj'], by omega⟩

/-- `n` zeros take `n` bits. -/
theorem encodeAll_zeros (n : ℕ) :
    (withConfig 0 0 4).encodeAll [List.replicate n (0 : UInt8)] =
      .ok (List.replicate n false, [(0, n)]) := by
  obtain ⟨e, hloop, hpatterns, hoff⟩ := encode1Loop_zeros (n := n) n
    (e := ⟨fun _ => none, 0, [], n, n, false⟩) (fun _ _ h => nomatch h) le_rfl le_rfl le_rfl
  have hflat : e.patterns.reverse.flatten = List.replicate n false := by
    rw [hpatterns, List.nil_append, List.reverse_replicate, List.flatten_replicate_singleton]
  have henc : (withConfig 0 0 4).encode1 (fun _ => none) 0 (List.replicate n (0 : UInt8)) =
      .ok (List.replicate n false, e.history, n) := by
    rw [encode1, List.length_replicate]
    simp only [bind, Except.bind, hloop, hflat, hoff, Nat.zero_add]
    rfl
  rw [encodeAll, List.mergeSort_singleton]
  simp only [bind, Except.bind, List.foldlM_cons, List.foldlM_nil, encodeAllStep, henc,
    Option.isSome_none, Bool.false_eq_true, if_false, pure, Except.pure, List.mapM_cons,
    List.mapM_nil, History.insert_apply, if_true]
  simp [subUsize, checked, pure, Except.pure]

/-- `2 ^ 31` zeros are encoded, and cannot be decoded. -/
theorem not_roundTrips_zeros :
    ∃ g : GLZ, g = withConfig 0 0 4 ∧
      ∃ bits offs, g.encodeAll [List.replicate (2 ^ 31) (0 : UInt8)] = .ok (bits, offs) ∧
        bits.length < 2 ^ 32 - 1 ∧
        ¬ g.RoundTrips [List.replicate (2 ^ 31) (0 : UInt8)] bits offs := by
  refine ⟨_, rfl, _, _, encodeAll_zeros (2 ^ 31), ?_, ?_⟩
  · rw [List.length_replicate]
    omega
  · rintro ⟨-, htrips⟩
    obtain ⟨off, -, hdec⟩ := htrips 0 _ rfl
    rw [List.length_replicate] at hdec
    exact decode1_ne_ok (by omega) hdec

end BentoLinker.Glz.GLZ
