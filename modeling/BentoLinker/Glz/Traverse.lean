import BentoLinker.Glz.Stream

/-!
# Traversing a GLZ Stream

`traverse_syms` finds exactly the symbols the encoder wrote, as the values the rice
code sees: a histogram made from it counts what the stream contains.
-/

namespace BentoLinker.Glz

open BitCode BijectiveNumeral

variable {U : Type} [Sym U]

/-- The value a symbol is coded by: a byte, or the length of a reference from `2 ^ 8` on. -/
def GLZSym.value : GLZSym U → ℕ
  | .imm x => Sym.toU32 x
  | .ref _ size => size - 2 + 2 ^ 8

namespace GLZ

/-- A step of the argument loop: past one nibble, and on if it is not the last. -/
theorem skipOff_step {m fuel off d : ℕ} {bits rest : Bits} (more : Bool) (hm : m < 32)
    (hd : d < 2 ^ m)
    (hoff : bits.drop off = toBits (m + 1) (more.toNat * 2 ^ m + d) ++ rest) :
    skipOff m bits (fuel + 1) off =
      if more then skipOff m bits fuel (off + (m + 1)) else .ok (off + (m + 1)) := by
  have hlt : more.toNat * 2 ^ m + d < 2 ^ (m + 1) := by
    rw [pow_succ]
    cases more <;> simp_all <;> omega
  have hlen := congrArg List.length hoff
  simp only [List.length_drop, List.length_append, length_toBits] at hlen
  have hslice : sliceFrom bits off = .ok (toBits (m + 1) (more.toNat * 2 ^ m + d) ++ rest) :=
    sliceFrom_eq_ok.mpr ⟨by omega, hoff⟩
  have hdec : Glz.decodeSym 32 (m + 1) (toBits (m + 1) (more.toNat * 2 ^ m + d) ++ rest) =
      .ok (more.toNat * 2 ^ m + d) :=
    decodeSym_eq_ok.mpr ⟨by omega, by simp, by
      rw [List.take_left' (by simp), ofBits_toBits hlt]⟩
  rw [skipOff]
  simp only [bind, Except.bind, hslice, hdec, powU32_eq_ok.mpr ⟨hm, rfl⟩]
  cases more with
  | false => rw [if_pos (by simpa using hd)]; rfl
  | true => rw [if_neg (by simp)]; rfl

theorem skipOff_offCode {m off : ℕ} (fuel : ℕ) {ds : List ℕ} {bits rest : Bits} (hm : m < 32)
    (hne : ds ≠ []) (hds : ∀ d ∈ ds, d < 2 ^ m) (hfuel : ds.length ≤ fuel)
    (hoff : bits.drop off = offCode m ds ++ rest) :
    skipOff m bits fuel off = .ok (off + (offCode m ds).length) := by
  induction ds generalizing fuel off with
  | nil => exact absurd rfl hne
  | cons d ds ih =>
    obtain ⟨fuel, rfl⟩ : ∃ n, fuel = n + 1 := ⟨fuel - 1, by simp at hfuel; omega⟩
    have hd := hds d (by simp)
    cases ds with
    | nil =>
      have hcode : bits.drop off = toBits (m + 1) (false.toNat * 2 ^ m + d) ++ rest := by
        simpa [offCode] using hoff
      rw [skipOff_step false hm hd hcode]
      simp [offCode]
    | cons e ds =>
      have hcode : bits.drop off =
          toBits (m + 1) (true.toNat * 2 ^ m + d) ++ (offCode m (e :: ds) ++ rest) := by
        simpa [offCode] using hoff
      have htail : bits.drop (off + (m + 1)) = offCode m (e :: ds) ++ rest := by
        rw [← List.drop_drop, hcode, List.drop_left' (length_toBits _ _)]
      rw [skipOff_step true hm hd hcode, if_pos rfl,
        ih fuel (by simp) (fun x hx => hds x (List.mem_cons_of_mem _ hx)) (by simpa using hfuel)
          htail,
        offCode, List.length_append, length_toBits, Nat.add_assoc off (m + 1)]

/-- The traversal passes over one symbol and reports its value. -/
theorem traverseLoop_cons {g : GLZ} {sym : GLZSym U} {code S bits : Bits} {fuel off : ℕ}
    (hU : Sym.size U ≤ 8) (hl : g.l ≤ 8) (henc : g.encodeSym sym = .ok code)
    (hoff : bits.drop off = code ++ S) :
    g.traverseLoop bits (fuel + 1) off = (do
      let syms ← g.traverseLoop bits fuel (off + code.length)
      pure (sym.value :: syms)) := by
  have hpos := length_pos_of_encodeSym henc
  have hlen := congrArg List.length hoff
  simp only [List.length_drop, List.length_append] at hlen
  have hslice : sliceFrom bits off = .ok (code ++ S) := sliceFrom_eq_ok.mpr ⟨by omega, hoff⟩
  rw [traverseLoop, if_pos (by omega)]
  simp only [bind, Except.bind, hslice]
  cases sym with
  | imm x =>
    rw [encodeSym, chainErr_eq_ok] at henc
    have hx : Sym.toU32 x < 2 ^ 8 :=
      (Sym.toU32_lt x).trans_le (Nat.pow_le_pow_right (by decide) hU)
    have hrice := BijectEncoder.decodeSym_encodeSym (by omega) henc S
    simp only [hrice, if_neg (show ¬ 2 ^ 8 ≤ Sym.toU32 x by omega)]
    rfl
  | ref refoff size =>
    obtain ⟨code, hsize, hsizele, -, hm, hrefoff, -, hcode, rfl⟩ := encodeSym_ref_eq_ok henc
    have hpow : 2 ^ g.l ≤ 2 ^ 8 := Nat.pow_le_pow_right (by decide) hl
    rw [Nat.mod_eq_of_lt (show size - 2 < 2 ^ 32 by omega)] at hcode
    set ds := (bijDigits (2 ^ g.m) (refoff % 2 ^ 32 + 1) (refoff % 2 ^ 32 + 1)).reverse with hds
    have hne : ds ≠ [] := by
      rw [hds, ne_eq, List.reverse_eq_nil_iff]
      exact bijDigits_ne_nil (by omega) le_rfl
    have hdigits : ∀ d ∈ ds, d < 2 ^ g.m := fun d hd =>
      bijDigits_lt (Nat.two_pow_pos g.m) _ _ d (List.mem_reverse.mp hd)
    have hrice := BijectEncoder.decodeSym_encodeSym (by omega) hcode (offCode g.m ds ++ S)
    have htail : bits.drop (off + code.length) = offCode g.m ds ++ S := by
      rw [← List.drop_drop, hoff, List.append_assoc, List.drop_left]
    have hdslen := length_le_length_offCode g.m ds
    simp only [List.length_append] at hlen
    have hskip := skipOff_offCode (bits.length + 1) hm hne hdigits (by omega) htail
    rw [List.append_assoc]
    simp only [hrice, if_pos (show 2 ^ 8 ≤ size - 2 + 2 ^ 8 by omega), hskip,
      List.length_append, Nat.add_assoc]
    rfl

/-- `traverseSyms` finds what has been encoded. -/
theorem traverseSyms_of_coded {g : GLZ} {bits : Bits} {syms : List (GLZSym U)}
    (hU : Sym.size U ≤ 8) (hl : g.l ≤ 8) (h : Coded g bits syms) :
    g.traverseSyms bits = .ok (syms.map GLZSym.value) := by
  suffices ∀ {S : Bits} {fuel off : ℕ}, Coded g S syms → bits.drop off = S →
      off ≤ bits.length → bits.length - off < fuel →
      g.traverseLoop bits fuel off = .ok (syms.map GLZSym.value) from
    this h rfl (Nat.zero_le _) (by omega)
  clear h
  intro S fuel off hS hoff hle hfuel
  induction hS generalizing fuel off with
  | nil =>
    obtain ⟨fuel, rfl⟩ : ∃ n, fuel = n + 1 := ⟨fuel - 1, by omega⟩
    have hlen := congrArg List.length hoff
    rw [List.length_drop, List.length_nil] at hlen
    rw [traverseLoop, if_neg (by omega)]
    rfl
  | @cons code S sym syms hcode _ ih =>
    obtain ⟨fuel, rfl⟩ : ∃ n, fuel = n + 1 := ⟨fuel - 1, by omega⟩
    have hpos := length_pos_of_encodeSym hcode
    have hlen := congrArg List.length hoff
    simp only [List.length_drop, List.length_append] at hlen
    have htail : bits.drop (off + code.length) = S := by
      rw [← List.drop_drop, hoff, List.drop_left]
    rw [traverseLoop_cons hU hl hcode hoff, ih htail (by omega) (by omega)]
    rfl

end GLZ

end BentoLinker.Glz
