import BentoLinker.Glz.Container
import BentoLinker.Lib.GroupedNumeral

/-!
# LEB128

Model of `leb128.rs`, the sizes in the headers of a container.

- `encodeSym`, `decodeSym`: a symbol in groups of seven bits, the lowest first
- `decodeLoop_spec`: which groups the decoder takes, and what it makes of them
- `NoLoss`: the five groups that fit the shifts fit 32 bits
- `exact_iff`: the decoder is exact, up to a fifth group whose high bits are shifted out
-/

namespace BentoLinker.Glz.LEB128

open BitCode GroupedNumeral

/-! ## Section 1: Encoder and decoder -/

/-- The loop of `LEB128::encode_sym` -/
def encodeLoop : ℕ → ℕ → Res Bits
  | 0, _ => .error .outOfFuel
  | fuel + 1, n =>
    if 0x7f < n then do
      let low ← Glz.encodeSym 32 7 (n &&& 0x7f)
      let rest ← encodeLoop fuel (n >>> 7)
      pure (true :: low ++ rest)
    else do
      let low ← Glz.encodeSym 32 7 n
      pure (false :: low)

/-- `LEB128::encode_sym` -/
def encodeSym {U : Type} [Sym U] (n : U) : Res Bits := encodeLoop (Sym.toU32 n + 1) (Sym.toU32 n)

/-- `a.checked_shl(k)` on `u32`, which checks the shift and not the bits that are shifted out -/
def checkedShl (a k : ℕ) : Option ℕ := if k < 32 then some ((a <<< k) % 2 ^ 32) else none

/-- The loop of `LEB128::decode_sym`: the number and the groups it has taken. Every turn takes a
byte of the slice. -/
def decodeLoop (bits : Bits) : ℕ → ℕ → ℕ → Res (ℕ × ℕ)
  | 0, _, _ => .error .outOfFuel
  | fuel + 1, count, res => do
    let rest ← sliceFrom bits (8 * count)
    let byte ← Glz.decodeSym 32 8 rest
    match checkedShl (byte &&& 0x7f) (7 * count) with
    | none => throwErr .leb128Limit
    | some part =>
      if byte &&& 0x80 = 0 then pure (res ||| part, count + 1)
      else decodeLoop bits fuel (count + 1) (res ||| part)

/-- `LEB128::decode_sym`: the value and the length of its code -/
def decodeSym (U : Type) [Sym U] (bits : Bits) : Res (U × ℕ) := do
  let (res, count) ← decodeLoop bits (bits.length + 1) 0 0
  let x ← cast U res
  pure (x, 8 * count)

/-! ## Section 2: What the encoder writes -/

theorem leb128Sym_eq (n : ℕ) : leb128Sym n =
    if 0x7f < n then group true (n &&& 0x7f) ++ leb128Sym (n >>> 7) else group false n := by
  rw [leb128Sym]
  rfl

theorem shiftRight_lt {n : ℕ} (h : 0x7f < n) : n >>> 7 < n := by
  rw [Nat.shiftRight_eq_div_pow]
  exact Nat.div_lt_self (by omega) (by decide)

theorem and_lt (n : ℕ) : n &&& 0x7f < 2 ^ 7 := Nat.and_lt_two_pow n (by decide)

theorem encodeLoop_eq {fuel n : ℕ} (h : n < fuel) : encodeLoop fuel n = .ok (leb128Sym n) := by
  induction fuel generalizing n with
  | zero => exact absurd h (Nat.not_lt_zero n)
  | succ fuel ih =>
    have hlow : ∀ {d : ℕ}, d < 2 ^ 7 → Glz.encodeSym 32 7 d = .ok (toBits 7 d) :=
      fun hd => encodeSym_eq_ok.mpr ⟨by decide, .inr hd, rfl⟩
    rw [encodeLoop, leb128Sym_eq]
    split
    · next hmore =>
      have hlt := shiftRight_lt hmore
      rw [hlow (and_lt n), ih (by omega)]
      rfl
    · next hlast =>
      rw [hlow (by omega)]
      rfl

theorem encodeSym_eq {U : Type} [Sym U] (x : U) :
    encodeSym x = .ok (leb128Sym (Sym.toU32 x)) :=
  encodeLoop_eq (Nat.lt_succ_self _)

/-- The groups are the digits of the number, and as many as it needs. -/
theorem exists_groups_leb128Sym (n : ℕ) (rest : Bits) :
    ∃ ds, groups (leb128Sym n ++ rest) = some (ds, rest) ∧ Nat.ofDigits 128 ds = n ∧
      (leb128Sym n).length = 8 * ds.length ∧ ∀ k, n < 128 ^ (k + 1) → ds.length ≤ k + 1 := by
  induction n using Nat.strongRecOn with
  | ind n ih =>
    rw [leb128Sym_eq]
    split
    · next hmore =>
      obtain ⟨ds, hgroups, hvalue, hlen, hcount⟩ := ih (n >>> 7) (shiftRight_lt hmore)
      have hdiv : n >>> 7 = n / 128 := Nat.shiftRight_eq_div_pow n 7
      have hmod : n &&& 0x7f = n % 128 := Nat.and_two_pow_sub_one_eq_mod n 7
      refine ⟨(n &&& 0x7f) :: ds, ?_, ?_, ?_, ?_⟩
      · rw [List.append_assoc, groups_group (and_lt n), if_pos rfl, hgroups]
        rfl
      · rw [Nat.ofDigits_cons, hvalue, hdiv, hmod]
        exact Nat.mod_add_div n 128
      · rw [List.length_append, length_group, hlen, List.length_cons]
        omega
      · intro k hk
        cases k with
        | zero => exact absurd hk (by omega)
        | succ k =>
          have hlt : n >>> 7 < 128 ^ (k + 1) := by
            rw [hdiv]
            exact Nat.div_lt_of_lt_mul (by rwa [Nat.mul_comm, ← Nat.pow_succ])
          exact Nat.succ_le_succ (hcount k hlt)
    · next hlast =>
      refine ⟨[n], ?_, ?_, length_group false n, fun k _ => Nat.succ_le_succ (Nat.zero_le k)⟩
      · rw [groups_group (by omega), if_neg Bool.false_ne_true]
      · exact Nat.ofDigits_singleton

/-! ## Section 3: What the decoder takes -/

/-- A byte of the slice -/
theorem decodeSym_group {more : Bool} {d : ℕ} (hd : d < 2 ^ 7) (rest : Bits) :
    Glz.decodeSym 32 8 (group more d ++ rest) = .ok (more.toNat * 2 ^ 7 + d) := by
  have htake : (group more d ++ rest).take 8 = group more d := by
    rw [← length_group more d, List.take_left]
  rw [decodeSym_eq_ok, htake]
  refine ⟨by decide, ?_, ?_⟩
  · rw [List.length_append, length_group]
    exact Nat.le_add_right 8 _
  · rw [group, ofBits_cons, length_toBits, ofBits_toBits hd]

theorem decodeSym_of_short {bits : Bits} (h : bits.length < 8) :
    Glz.decodeSym 32 8 bits = throwErr (.truncated 8) := by
  have hnot : decide (8 ≤ bits.length) = false := decide_eq_false (Nat.not_le_of_lt h)
  rw [Glz.decodeSym, hnot]
  rfl

theorem and_byte (more : Bool) {d : ℕ} (hd : d < 2 ^ 7) :
    (more.toNat * 2 ^ 7 + d) &&& 0x7f = d ∧
      ((more.toNat * 2 ^ 7 + d) &&& 0x80 = 0 ↔ more = false) := by
  constructor
  · have hmod := Nat.and_two_pow_sub_one_eq_mod (more.toNat * 2 ^ 7 + d) 7
    refine hmod.trans ?_
    exact Nat.mul_add_mod_of_lt hd
  · have hbit := Nat.and_two_pow (more.toNat * 2 ^ 7 + d) 7
    have htest : (more.toNat * 2 ^ 7 + d).testBit 7 = more := by
      rw [Nat.mul_comm, Nat.testBit_two_pow_mul_add _ hd]
      cases more <;> rfl
    rw [htest] at hbit
    rw [show (0x80 : ℕ) = 2 ^ 7 from rfl, hbit]
    cases more <;> decide

/-- Up to the fifth group, the or adds what has not been shifted out. -/
theorem or_checkedShl {count res d : ℕ} (hcount : count ≤ 4) (hres : res < 2 ^ (7 * count)) :
    checkedShl d (7 * count) = some ((d <<< (7 * count)) % 2 ^ 32) ∧
      res ||| (d <<< (7 * count)) % 2 ^ 32 = (res + 2 ^ (7 * count) * d) % 2 ^ 32 := by
  have hsplit : (2 : ℕ) ^ 32 = 2 ^ (7 * count) * 2 ^ (32 - 7 * count) := by
    rw [← Nat.pow_add, Nat.add_sub_of_le (by omega)]
  refine ⟨if_pos (by omega), ?_⟩
  calc res ||| (d <<< (7 * count)) % 2 ^ 32
      = res ||| 2 ^ (7 * count) * (d % 2 ^ (32 - 7 * count)) := by
        rw [Nat.shiftLeft_eq, Nat.mul_comm, hsplit, Nat.mul_mod_mul_left]
    _ = 2 ^ (7 * count) * (d % 2 ^ (32 - 7 * count)) + res := by
        rw [Nat.or_comm, ← Nat.two_pow_add_eq_or_of_lt hres]
    _ = (res + 2 ^ (7 * count) * d) % 2 ^ 32 := by
        rw [hsplit, Nat.add_comm res, Nat.mod_mul, Nat.mul_add_mod, Nat.mod_eq_of_lt hres,
          Nat.mul_add_div (Nat.two_pow_pos _), Nat.div_eq_of_lt hres, Nat.add_zero, Nat.add_comm]

/-- The value of the groups so far, modulo the width of the word -/
def joined (count res : ℕ) (ds : List ℕ) : ℕ := (res + 2 ^ (7 * count) * Nat.ofDigits 128 ds) % 2 ^ 32

theorem joined_cons {count res d : ℕ} (ds : List ℕ) :
    joined (count + 1) ((res + 2 ^ (7 * count) * d) % 2 ^ 32) ds = joined count res (d :: ds) := by
  have hpow : 2 ^ (7 * (count + 1)) = 2 ^ (7 * count) * 128 := by
    rw [Nat.mul_succ, Nat.pow_add]
  rw [joined, joined, Nat.ofDigits_cons, hpow, Nat.mod_add_mod]
  congr 1
  ring

section Loop

variable {bits : Bits} {fuel count res : ℕ}

/-- A turn, where a group is left -/
theorem decodeLoop_group {more : Bool} {d : ℕ} {rest : Bits} (hoff : 8 * count ≤ bits.length)
    (hd : d < 2 ^ 7) (hdrop : bits.drop (8 * count) = group more d ++ rest) :
    decodeLoop bits (fuel + 1) count res =
      match checkedShl d (7 * count) with
      | none => throwErr .leb128Limit
      | some part =>
        if more then decodeLoop bits fuel (count + 1) (res ||| part)
        else .ok (res ||| part, count + 1) := by
  obtain ⟨hlow, hhigh⟩ := and_byte more hd
  have hslice : sliceFrom bits (8 * count) = .ok (group more d ++ rest) :=
    sliceFrom_eq_ok.mpr ⟨hoff, hdrop⟩
  rw [decodeLoop]
  simp only [hslice, decodeSym_group hd, bind, Except.bind, hlow]
  cases more with
  | false =>
    simp only [if_pos (hhigh.mpr rfl)]
    rfl
  | true =>
    have hne := mt hhigh.mp Bool.noConfusion
    simp only [if_neg hne]
    rfl

theorem decodeLoop_short (hoff : 8 * count ≤ bits.length)
    (hshort : (bits.drop (8 * count)).length < 8) :
    decodeLoop bits (fuel + 1) count res = throwErr (.truncated 8) := by
  have hslice : sliceFrom bits (8 * count) = .ok (bits.drop (8 * count)) :=
    sliceFrom_eq_ok.mpr ⟨hoff, rfl⟩
  rw [decodeLoop]
  simp only [hslice, decodeSym_of_short hshort, bind, Except.bind, throwErr]

/-- The decoder takes up to five groups, and fails where they go on or break off. -/
theorem decodeLoop_spec (hoff : 8 * count ≤ bits.length)
    (hfuel : bits.length < 8 * (count + fuel)) (hres : count ≤ 4 → res < 2 ^ (7 * count)) :
    ((∃ e, decodeLoop bits fuel count res = .error (.err e)) ∧
        ∀ ds rest, groups (bits.drop (8 * count)) = some (ds, rest) → 5 < count + ds.length) ∨
      ∃ ds rest, groups (bits.drop (8 * count)) = some (ds, rest) ∧ count + ds.length ≤ 5 ∧
        decodeLoop bits fuel count res = .ok (joined count res ds, count + ds.length) := by
  -- one turn reads one group, and the rest is read with the bits that it has left
  induction fuel generalizing count res with
  | zero => omega
  | succ fuel ih =>
    by_cases hshort : (bits.drop (8 * count)).length < 8
    · left
      rw [decodeLoop_short hoff hshort, groups_eq_none hshort]
      exact ⟨⟨_, rfl⟩, fun _ _ h => nomatch h⟩
    · obtain ⟨more, d, rest, hd, htail⟩ := exists_group (Nat.le_of_not_lt hshort)
      have hlen := congrArg List.length htail
      rw [List.length_append, length_group, List.length_drop] at hlen
      have hnext : bits.drop (8 * (count + 1)) = rest := by
        rw [Nat.mul_succ, ← List.drop_drop, htail, ← length_group more d, List.drop_left]
      have hgroups : groups (bits.drop (8 * count)) =
          if more then (groups rest).map fun dsr => (d :: dsr.1, dsr.2) else some ([d], rest) := by
        rw [htail, groups_group hd]
      rw [decodeLoop_group hoff hd htail]
      -- the first five groups can be shifted
      by_cases hcount : count ≤ 4
      · obtain ⟨hshl, hor⟩ := or_checkedShl (d := d) hcount (hres hcount)
        rw [hshl]
        dsimp only
        rw [hor]
        cases more with
        | false =>
          right
          refine ⟨[d], rest, hgroups, Nat.succ_le_succ hcount, ?_⟩
          rw [joined, Nat.ofDigits_singleton]
          rfl
        | true =>
          -- the result stays below the place of the next group
          have hres' : count + 1 ≤ 4 →
              (res + 2 ^ (7 * count) * d) % 2 ^ 32 < 2 ^ (7 * (count + 1)) := by
            intro _
            have hlt := hres hcount
            have hmul : 2 ^ (7 * count) * (d + 1) ≤ 2 ^ (7 * count) * 2 ^ 7 :=
              Nat.mul_le_mul_left _ hd
            apply (Nat.mod_le _ _).trans_lt
            rw [Nat.mul_succ 7 count, Nat.pow_add]
            rw [Nat.mul_succ] at hmul
            omega
          have hspec := ih (by omega) (by omega) hres'
          rw [hnext] at hspec
          rcases hspec with ⟨herr, hmany⟩ | ⟨ds, rest', hrest, hfew, hrun⟩
          · left
            refine ⟨herr, ?_⟩
            intro ds rest' h
            rw [hgroups] at h
            obtain ⟨⟨ds', r⟩, hds', heq⟩ := Option.map_eq_some_iff.mp h
            cases heq
            have hlong := hmany ds' r hds'
            change 5 < count + (ds'.length + 1)
            omega
          · right
            refine ⟨d :: ds, rest', ?_, ?_, ?_⟩
            · rw [hgroups, hrest]
              rfl
            · rw [List.length_cons]
              omega
            · rw [joined_cons, Nat.add_right_comm] at hrun
              exact hrun
      · -- the shift is too large, and there is at least this group
        left
        have hshl : checkedShl d (7 * count) = none := if_neg (by omega)
        rw [hshl]
        refine ⟨⟨_, rfl⟩, ?_⟩
        intro ds rest' h
        have hpos := List.length_pos_iff.mpr (ne_nil_of_groups h)
        omega

/-- The loop from its start -/
theorem decodeLoop_start (bits : Bits) :
    ((∃ e, decodeLoop bits (bits.length + 1) 0 0 = .error (.err e)) ∧
        ∀ ds rest, groups bits = some (ds, rest) → 5 < ds.length) ∨
      ∃ ds rest, groups bits = some (ds, rest) ∧ ds.length ≤ 5 ∧
        decodeLoop bits (bits.length + 1) 0 0 =
          .ok (Nat.ofDigits 128 ds % 2 ^ 32, ds.length) := by
  have hoff : 8 * 0 ≤ bits.length := Nat.zero_le _
  have hfuel : bits.length < 8 * (0 + (bits.length + 1)) := by omega
  have hspec := decodeLoop_spec hoff hfuel fun _ => Nat.two_pow_pos _
  simpa [joined] using hspec

end Loop

/-! ## Section 4: Exactness -/

/-- What is decoded is the number that the groups stand for, or an error. -/
def Exact (U : Type) [Sym U] (bits : Bits) : Prop :=
  (∃ e, decodeSym U bits = .error (.err e)) ∨
    ∃ ds rest x, groups bits = some (ds, rest) ∧ Sym.toU32 x = Nat.ofDigits 128 ds ∧
      decodeSym U bits = .ok (x, 8 * ds.length)

/-- Up to five groups fit 32 bits, or what is left of them does not fit the symbol. -/
def NoLoss (U : Type) [Sym U] (bits : Bits) : Prop :=
  ∀ ds rest, groups bits = some (ds, rest) → ds.length ≤ 5 →
    Nat.ofDigits 128 ds < 2 ^ 32 ∨ Sym.tryFrom (U := U) (Nat.ofDigits 128 ds % 2 ^ 32) = none

section Decoded

variable {U : Type} [Sym U] {bits rest : Bits} {ds : List ℕ}

/-- Up to five groups are taken, and lose what is over 32 bits. -/
theorem decodeSym_of_groups (hgroups : groups bits = some (ds, rest)) (hfew : ds.length ≤ 5) :
    decodeSym U bits = cast U (Nat.ofDigits 128 ds % 2 ^ 32) >>= fun x => .ok (x, 8 * ds.length) := by
  rcases decodeLoop_start bits with ⟨-, hmany⟩ | ⟨ds', rest', hgroups', -, hrun⟩
  · have hlong := hmany ds rest hgroups
    omega
  · rw [hgroups] at hgroups'
    cases hgroups'
    rw [decodeSym, hrun]
    rfl

theorem decodeSym_eq_err (h : ∀ ds rest, groups bits = some (ds, rest) → 5 < ds.length) :
    ∃ e, decodeSym U bits = .error (.err e) := by
  rcases decodeLoop_start bits with ⟨⟨e, herr⟩, -⟩ | ⟨ds, rest, hgroups, hfew, -⟩
  · refine ⟨e, ?_⟩
    rw [decodeSym, herr]
    rfl
  · have hlong := h ds rest hgroups
    omega

/-- A symbol is read back, whatever follows it. -/
theorem decodeSym_encodeSym (x : U) (rest : Bits) :
    ∃ code, encodeSym x = .ok code ∧ decodeSym U (code ++ rest) = .ok (x, code.length) := by
  have hlt : Sym.toU32 x < 2 ^ 32 :=
    (Sym.toU32_lt x).trans_le (Nat.pow_le_pow_right (by decide) Sym.size_le)
  obtain ⟨ds, hgroups, hvalue, hlen, hcount⟩ := exists_groups_leb128Sym (Sym.toU32 x) rest
  refine ⟨_, encodeSym_eq x, ?_⟩
  rw [decodeSym_of_groups hgroups (hcount 4 (by omega)), hvalue, Nat.mod_eq_of_lt hlt, cast_toU32,
    hlen]
  rfl

/-- The decoder is exact just if nothing that it takes is lost. -/
theorem exact_iff_noLoss : Exact U bits ↔ NoLoss U bits := by
  constructor
  · intro hexact ds rest hgroups hfew
    by_cases hlt : Nat.ofDigits 128 ds < 2 ^ 32
    · exact .inl hlt
    · right
      have hrun := decodeSym_of_groups (U := U) hgroups hfew
      rw [cast] at hrun
      cases hcast : Sym.tryFrom (U := U) (Nat.ofDigits 128 ds % 2 ^ 32) with
      | none => rfl
      | some y =>
        rw [hcast] at hrun
        change decodeSym U bits = .ok (y, 8 * ds.length) at hrun
        rcases hexact with ⟨e, herr⟩ | ⟨ds', rest', x, hgroups', hx, -⟩
        · rw [hrun] at herr
          cases herr
        · -- the value of the groups is a symbol, so it is below `2 ^ 32`
          rw [hgroups] at hgroups'
          cases hgroups'
          have hx32 : Sym.toU32 x < 2 ^ 32 :=
            (Sym.toU32_lt x).trans_le (Nat.pow_le_pow_right (by decide) Sym.size_le)
          exact absurd (hx ▸ hx32) hlt
  · intro hloss
    by_cases hmany : ∀ ds rest, groups bits = some (ds, rest) → 5 < ds.length
    · exact .inl (decodeSym_eq_err hmany)
    · simp only [not_forall, Nat.not_lt] at hmany
      obtain ⟨ds, rest, hgroups, hfew⟩ := hmany
      have hrun := decodeSym_of_groups (U := U) hgroups hfew
      rw [cast] at hrun
      cases hcast : Sym.tryFrom (U := U) (Nat.ofDigits 128 ds % 2 ^ 32) with
      | none =>
        rw [hcast] at hrun
        exact .inl ⟨_, hrun⟩
      | some x =>
        rw [hcast] at hrun
        rcases hloss ds rest hgroups hfew with hlt | hnone
        · have hx := Sym.toU32_of_tryFrom _ _ hcast
          rw [Nat.mod_eq_of_lt hlt] at hx
          exact .inr ⟨ds, rest, x, hgroups, hx, hrun⟩
        · rw [hcast] at hnone
          cases hnone

end Decoded

/-- What has been encoded is read back, and a bit string is decoded to the number it stands for
or to an error just if five groups do not lose the high bits of the last one. -/
theorem exact_iff (U : Type) [Sym U] :
    (∀ (x : U) rest, ∃ code, encodeSym x = .ok code ∧
      decodeSym U (code ++ rest) = .ok (x, code.length)) ∧
    ∀ bits, Exact U bits ↔ NoLoss U bits :=
  ⟨decodeSym_encodeSym, fun _ => exact_iff_noLoss⟩

/-- `80 80 80 80 10` stands for `2 ^ 32`. -/
def overlong : Bits :=
  group true 0 ++ group true 0 ++ group true 0 ++ group true 0 ++ group false 16

theorem not_exact : groups overlong = some ([0, 0, 0, 0, 16], []) ∧
    Nat.ofDigits 128 [0, 0, 0, 0, 16] = 2 ^ 32 ∧
    decodeSym UInt32 overlong = .ok (0, 40) :=
  ⟨by decide, by decide, by decide +kernel⟩

end BentoLinker.Glz.LEB128
