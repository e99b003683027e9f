import BentoLinker.Glz.SymbolCode
import BentoLinker.Lib.FueledLoop

/-!
# GLZ Symbol Panics

When reading a symbol panics, on any bit string and with any table.

1. `Returns`: a computation ends in a value or in an `Err`
2. `SymInRange`: the arithmetic of a symbol
3. Symbols that are read
-/

namespace BentoLinker.Glz

open BitCode FueledLoop Relation

/-! ## Section 1: Computations that return -/

/-- The computation ends in a value with `P` or in an `Err`; it neither panics nor runs out
of steps. -/
def Returns {α : Type} (P : α → Prop) : Res α → Prop
  | .ok a => P a
  | .error (.err _) => True
  | .error (.panic _) => False
  | .error .outOfFuel => False

section Rules

variable {α β : Type} {P Q : α → Prop} {x : Res α}

@[simp] theorem returns_ok {a : α} : Returns P (.ok a) ↔ P a := Iff.rfl

@[simp] theorem returns_pure {a : α} : Returns P (pure a) ↔ P a := Iff.rfl

@[simp] theorem returns_throwErr {e : Error} : Returns P (throwErr e) ↔ True := Iff.rfl

@[simp] theorem returns_panic {p : Panic} : Returns P (panic p) ↔ False := Iff.rfl

@[simp] theorem returns_bind {P : β → Prop} {f : α → Res β} :
    Returns P (x >>= f) ↔ Returns (fun a => Returns P (f a)) x := by
  cases x with
  | ok a => exact Iff.rfl
  | error e => cases e <;> exact Iff.rfl

@[simp] theorem returns_ensure {P : Unit → Prop} {cond : Bool} {e : Error} :
    Returns P (ensure cond e) ↔ (cond = true → P ()) := by
  cases cond <;> simp [ensure]

@[simp] theorem returns_chainErr {context : String} :
    Returns P (chainErr context x) ↔ Returns P x := by
  cases x with
  | ok a => exact Iff.rfl
  | error e => cases e <;> exact Iff.rfl

@[simp] theorem returns_checked {P : ℕ → Prop} {p : Prop} [Decidable p] {n : ℕ} :
    Returns P (checked p n) ↔ p ∧ P n := by
  unfold checked
  split
  · next hp => simp [hp]
  · next hp => simp [hp]

@[simp] theorem returns_remU32 {P : ℕ → Prop} {a b : ℕ} :
    Returns P (remU32 a b) ↔ b ≠ 0 ∧ P (a % b) := by
  unfold remU32
  split
  · next hb => simp [hb]
  · next hb => simp [hb]

@[simp] theorem returns_sliceFrom {P : Bits → Prop} {bits : Bits} {off : ℕ} :
    Returns P (sliceFrom bits off) ↔ off ≤ bits.length ∧ P (bits.drop off) := by
  unfold sliceFrom
  split
  · next h => simp [h]
  · next h => simp [h]

@[simp] theorem returns_cast {U : Type} [Sym U] {P : U → Prop} {n : ℕ} :
    Returns P (cast U n) ↔ ∀ x, Sym.tryFrom n = some x → P x := by
  unfold cast
  split
  · next x hx => simp [hx]
  · next hx => simp [hx]

/-- What is asked of the value can be asked apart from whether there is one. -/
theorem returns_iff :
    Returns P x ↔ Returns (fun _ => True) x ∧ ∀ a, x = .ok a → P a := by
  cases x with
  | ok a => simp
  | error e => cases e <;> simp [Returns]

theorem Returns.mono (h : Returns P x) (hPQ : ∀ a, P a → Q a) : Returns Q x := by
  cases x with
  | ok a => exact hPQ a h
  | error e => cases e <;> exact h

theorem returns_congr (h : ∀ a, x = .ok a → (P a ↔ Q a)) : Returns P x ↔ Returns Q x := by
  cases x with
  | ok a => exact h a rfl
  | error e => cases e <;> exact Iff.rfl

end Rules

/-! ## Section 2: The arithmetic of a symbol -/

/-- Nibble and continuation bit at bit `off` -/
def nibble (m : ℕ) (bits : Bits) (off : ℕ) : ℕ := ofBits ((bits.drop off).take (m + 1))

/-- Value of an offset field up to the nibble at `off`, where it was `arg` before -/
def nextArg (m : ℕ) (bits : Bits) (off arg : ℕ) : ℕ :=
  (arg <<< m) % 2 ^ 32 + 1 + (nibble m bits off &&& (2 ^ m - 1))

/-- From one nibble of an offset field to the next one -/
def NextNibble (m : ℕ) (bits : Bits) (s s' : ℕ × ℕ) : Prop :=
  s.1 + (m + 1) ≤ bits.length ∧ 2 ^ m ≤ nibble m bits s.1 ∧
    s' = (s.1 + (m + 1), nextArg m bits s.1 s.2)

/-- All that is computed from the code of a symbol is in range. -/
structure SymInRange (g : GLZ) (rest : Bits) : Prop where
  /-- the unary quotient of the Rice code, times `2 ^ k` -/
  quotient : ∀ q, rest.findIdx? (· == false) = some q → q + 1 + g.k ≤ rest.length →
    q % 2 ^ 32 * 2 ^ g.k < 2 ^ 32
  /-- the decode table has entries, and the one looked up leaves room for the multiple of
  the table's length in front of it -/
  entry : ∀ n d, g.rice.encoder.decodeSym rest = .ok (n, d) →
    ∀ tables, g.rice.bijecter.table = some tables → tables.2.length % 2 ^ 32 ≠ 0 ∧
      n - n % (tables.2.length % 2 ^ 32) +
        (tables.2[n % (tables.2.length % 2 ^ 32)]?).getD (n % (tables.2.length % 2 ^ 32)) <
          2 ^ 32
  /-- the offset of a reference, nibble by nibble -/
  offset : ∀ sym d, g.rice.decodeSym rest = .ok (sym, d) → 2 ^ 8 ≤ sym →
    ∀ s, ReflTransGen (NextNibble g.m rest) (d, 0) s → s.1 + (g.m + 1) ≤ rest.length →
      nextArg g.m rest s.1 s.2 < 2 ^ 32

/-! ## Section 3: Symbols that are read -/

theorem returns_decodeSym {P : ℕ → Prop} {realwidth width : ℕ} {bits : Bits}
    (hwidth : width ≤ realwidth) :
    Returns P (Glz.decodeSym realwidth width bits) ↔
      (width ≤ bits.length → P (ofBits (bits.take width))) := by
  have hor : width ≤ bits.length →
      orBits width (bits.take width) = ofBits (bits.take width) :=
    fun hlen => orBits_eq_ofBits (by simpa using hlen)
  simp only [decodeSym, ensureWidth, returns_bind, returns_ensure, returns_pure, hwidth,
    decide_true, forall_const, decide_eq_true_eq]
  constructor
  · intro h hlen
    rw [← hor hlen]
    exact h hlen
  · intro h hlen
    rw [hor hlen]
    exact h hlen

theorem GolombRice.returns_decodeSym {gr : GolombRice} {rest : Bits} (hk : gr.k < 32) :
    Returns (fun _ => True) (gr.decodeSym rest) ↔
      ∀ q, rest.findIdx? (· == false) = some q → q + 1 + gr.k ≤ rest.length →
        q % 2 ^ 32 * 2 ^ gr.k < 2 ^ 32 := by
  have hshl : shlU32 1 gr.k = .ok (2 ^ gr.k) := shlU32_one_eq_ok.mpr ⟨hk, rfl⟩
  unfold decodeSym
  rw [returns_bind, hshl, returns_ok]
  cases hq : rest.findIdx? (· == false) with
  | none => simp
  | some q =>
    have hqlt : q < rest.length := (List.findIdx?_eq_some_iff_getElem.mp hq).1
    simp only [returns_bind, returns_sliceFrom, Glz.returns_decodeSym hk.le, mulU32, addU32,
      checkU32, returns_checked, returns_pure, and_true, Option.some.injEq, forall_eq',
      List.length_drop]
    constructor
    · rintro ⟨-, h⟩ hlen
      exact (h (by omega)).1
    · intro h
      refine ⟨hqlt, fun hlen => ?_⟩
      have hlt := h (by omega)
      refine ⟨hlt, ?_⟩
      -- the remainder has `k` bits, and the product is a multiple of `2 ^ k`
      have hr : ofBits ((rest.drop (q + 1)).take gr.k) < 2 ^ gr.k := by
        have := ofBits_lt ((rest.drop (q + 1)).take gr.k)
        rwa [List.length_take_of_le (by rw [List.length_drop]; omega)] at this
      have hpow : 2 ^ 32 = 2 ^ (32 - gr.k) * 2 ^ gr.k := by
        rw [← pow_add]
        congr 1
        omega
      generalize q % 2 ^ 32 = c at hlt ⊢
      rw [hpow] at hlt ⊢
      have hc : c + 1 ≤ 2 ^ (32 - gr.k) := Nat.lt_of_mul_lt_mul_right hlt
      calc c * 2 ^ gr.k + ofBits ((rest.drop (q + 1)).take gr.k)
          < c * 2 ^ gr.k + 2 ^ gr.k := by omega
        _ = (c + 1) * 2 ^ gr.k := by ring
        _ ≤ 2 ^ (32 - gr.k) * 2 ^ gr.k := Nat.mul_le_mul_right _ hc

theorem GolombRice.decodeSym_eq_ok {gr : GolombRice} {rest : Bits} {n d : ℕ}
    (h : gr.decodeSym rest = .ok (n, d)) : 0 < d ∧ d ≤ rest.length := by
  unfold decodeSym at h
  obtain ⟨m, -, h⟩ := Res.bind_eq_ok.mp h
  cases hq : rest.findIdx? (· == false) with
  | none =>
    rw [hq] at h
    cases h
  | some q =>
    simp only [hq] at h
    obtain ⟨low, hlow, h⟩ := Res.bind_eq_ok.mp h
    obtain ⟨hle, rfl⟩ := sliceFrom_eq_ok.mp hlow
    obtain ⟨r, hr, h⟩ := Res.bind_eq_ok.mp h
    obtain ⟨hi, -, h⟩ := Res.bind_eq_ok.mp h
    obtain ⟨v, -, h⟩ := Res.bind_eq_ok.mp h
    have hlen := (Glz.decodeSym_eq_ok.mp hr).2.1
    rw [List.length_drop] at hlen
    cases h
    omega

theorem Hist.returns_mapDecode {h : Hist} {n : ℕ} :
    Returns (fun _ => True) (h.mapDecode n) ↔
      ∀ tables, h.table = some tables → tables.2.length % 2 ^ 32 ≠ 0 ∧
        n - n % (tables.2.length % 2 ^ 32) +
          (tables.2[n % (tables.2.length % 2 ^ 32)]?).getD (n % (tables.2.length % 2 ^ 32)) <
            2 ^ 32 := by
  unfold mapDecode
  cases h.table with
  | none => simp
  | some tables =>
    simp only [lookup, addU32, checkU32, returns_bind, returns_remU32, returns_checked,
      and_true, Option.some.injEq, forall_eq']

namespace BijectEncoder

theorem decodeSym_eq_ok {be : BijectEncoder} {rest : Bits} {sym d : ℕ}
    (h : be.decodeSym rest = .ok (sym, d)) : 0 < d ∧ d ≤ rest.length := by
  obtain ⟨⟨n, d'⟩, hrice, h⟩ := Res.bind_eq_ok.mp h
  obtain ⟨s, -, h⟩ := Res.bind_eq_ok.mp h
  cases h
  exact GolombRice.decodeSym_eq_ok hrice

theorem returns_decodeSym {be : BijectEncoder} {rest : Bits} :
    Returns (fun _ => True) (be.decodeSym rest) ↔
      Returns (fun _ => True) (be.encoder.decodeSym rest) ∧
        ∀ n d, be.encoder.decodeSym rest = .ok (n, d) →
          Returns (fun _ => True) (be.bijecter.mapDecode n) := by
  unfold decodeSym
  rw [returns_bind, returns_iff]
  refine and_congr_right' ?_
  simp only [returns_bind, returns_pure, Prod.forall]

end BijectEncoder

namespace GLZ

theorem decodeOff_eq_ok {m : ℕ} {bits : Bits} {fuel off arg arg' off' : ℕ}
    (h : decodeOff m bits fuel off arg = .ok (arg', off')) : off < off' ∧ off' ≤ bits.length := by
  induction fuel generalizing off arg with
  | zero => cases h
  | succ fuel ih =>
    rw [decodeOff] at h
    obtain ⟨rest, hrest, h⟩ := Res.bind_eq_ok.mp h
    obtain ⟨hoff, rfl⟩ := sliceFrom_eq_ok.mp hrest
    obtain ⟨sym, hsym, h⟩ := Res.bind_eq_ok.mp h
    obtain ⟨p, -, h⟩ := Res.bind_eq_ok.mp h
    obtain ⟨hi, -, h⟩ := Res.bind_eq_ok.mp h
    obtain ⟨hi, -, h⟩ := Res.bind_eq_ok.mp h
    obtain ⟨arg, -, h⟩ := Res.bind_eq_ok.mp h
    have hlen := (Glz.decodeSym_eq_ok.mp hsym).2.1
    rw [List.length_drop] at hlen
    split at h
    · cases h
      omega
    · have := ih h
      omega

/-- A turn of the offset loop -/
theorem returns_decodeOff_succ {m fuel off arg : ℕ} {bits : Bits} (hm : m < 32)
    (hoff : off ≤ bits.length) :
    Returns (fun _ => True) (decodeOff m bits (fuel + 1) off arg) ↔
      (off + (m + 1) ≤ bits.length → nextArg m bits off arg < 2 ^ 32) ∧
        ∀ s, NextNibble m bits (off, arg) s →
          Returns (fun _ => True) (decodeOff m bits fuel s.1 s.2) := by
  have hwidth : m + 1 ≤ bits.length - off ↔ off + (m + 1) ≤ bits.length := by omega
  have hle : (arg <<< m) % 2 ^ 32 + 1 ≤ nextArg m bits off arg := Nat.le_add_right _ _
  have hstep : Returns (fun _ => True)
      (if nibble m bits off < 2 ^ m then (pure (nextArg m bits off arg, off + (m + 1)))
        else decodeOff m bits fuel (off + (m + 1)) (nextArg m bits off arg)) ↔
      (2 ^ m ≤ nibble m bits off → Returns (fun _ => True)
        (decodeOff m bits fuel (off + (m + 1)) (nextArg m bits off arg))) := by
    split
    · next hlt => simp [Nat.not_le.mpr hlt]
    · next hlt => simp [Nat.not_lt.mp hlt]
  rw [decodeOff]
  simp only [returns_bind, returns_sliceFrom, returns_decodeSym (Nat.succ_le_of_lt hm), powU32,
    shlU32, addU32, checkU32, returns_checked, hm, hoff, true_and, List.length_drop, hwidth]
  constructor
  · intro h
    refine ⟨fun hlen => (h hlen).2.1, ?_⟩
    rintro s ⟨hlen, hmore, rfl⟩
    exact hstep.mp (h hlen).2.2 hmore
  · rintro ⟨hfit, hnext⟩ hlen
    refine ⟨hle.trans_lt (hfit hlen), hfit hlen, hstep.mpr fun hmore => ?_⟩
    exact hnext _ ⟨hlen, hmore, rfl⟩

theorem returns_decodeOff {m off arg : ℕ} {bits : Bits} (hm : m < 32)
    (hoff : off ≤ bits.length) :
    Returns (fun _ => True) (decodeOff m bits (bits.length + 1) off arg) ↔
      ∀ s, ReflTransGen (NextNibble m bits) (off, arg) s → s.1 + (m + 1) ≤ bits.length →
        nextArg m bits s.1 s.2 < 2 ^ 32 := by
  apply forall_reached_iff
    (fun fuel (s : ℕ × ℕ) => Returns (fun _ => True) (decodeOff m bits fuel s.1 s.2))
    (fun s => s.1 ≤ bits.length) (fun s => bits.length - s.1 + 1)
    (fun s => s.1 + (m + 1) ≤ bits.length → nextArg m bits s.1 s.2 < 2 ^ 32)
    (fun s _ hzero => absurd hzero (Nat.succ_ne_zero _))
    (fun fuel s hs => returns_decodeOff_succ hm hs) ?_ (s := (off, arg)) hoff
    (Nat.succ_le_succ (Nat.sub_le _ _))
  rintro ⟨off, arg⟩ _ hs ⟨hlen, -, rfl⟩
  dsimp only at hlen ⊢
  exact ⟨hlen, by omega⟩

section Symbols

variable {U : Type} [Sym U] {g : GLZ} {bits rest : Bits} {sym : GLZSym U} {d : ℕ}

theorem decodeSym_eq_ok (h : g.decodeSym U rest = .ok (sym, d)) : 0 < d ∧ d ≤ rest.length := by
  obtain ⟨⟨s, d'⟩, hrice, h⟩ := Res.bind_eq_ok.mp (chainErr_eq_ok.mp h)
  have hd := BijectEncoder.decodeSym_eq_ok hrice
  dsimp only at h
  split at h
  · obtain ⟨x, -, h⟩ := Res.bind_eq_ok.mp h
    cases h
    exact hd
  · obtain ⟨⟨arg, off⟩, hoff, h⟩ := Res.bind_eq_ok.mp h
    cases h
    have := decodeOff_eq_ok hoff
    omega

/-- Reading a symbol panics exactly when some number in it is out of range. -/
theorem returns_decodeSym_iff (hk : g.k < 32) (hm : g.m < 32) :
    Returns (fun _ => True) (g.decodeSym U rest) ↔ SymInRange g rest := by
  have hsym : Returns (fun _ => True) (g.decodeSym U rest) ↔
      Returns (fun _ => True) (g.rice.decodeSym rest) ∧
        ∀ sym d, g.rice.decodeSym rest = .ok (sym, d) → 2 ^ 8 ≤ sym →
          Returns (fun _ => True) (decodeOff g.m rest (rest.length + 1) d 0) := by
    unfold decodeSym decodeSymRaw
    rw [returns_chainErr, returns_bind, returns_iff]
    refine and_congr_right' ?_
    simp only [Prod.forall]
    refine forall₂_congr fun sym d => forall_congr' fun _ => ?_
    split
    · next hlt =>
      simp only [returns_bind, returns_pure, returns_cast, implies_true, true_iff]
      exact fun hle => absurd hle (Nat.not_le.mpr hlt)
    · next hlt =>
      rw [returns_bind]
      exact ⟨fun h _ => h.mono fun _ _ => trivial,
        fun h => (h (Nat.not_lt.mp hlt)).mono fun _ _ => trivial⟩
  have hoffset : (∀ sym d, g.rice.decodeSym rest = .ok (sym, d) → 2 ^ 8 ≤ sym →
      Returns (fun _ => True) (decodeOff g.m rest (rest.length + 1) d 0)) ↔
      ∀ sym d, g.rice.decodeSym rest = .ok (sym, d) → 2 ^ 8 ≤ sym →
        ∀ s, ReflTransGen (NextNibble g.m rest) (d, 0) s → s.1 + (g.m + 1) ≤ rest.length →
          nextArg g.m rest s.1 s.2 < 2 ^ 32 :=
    forall₂_congr fun sym d => forall_congr' fun hrice => forall_congr' fun _ =>
      returns_decodeOff hm (BijectEncoder.decodeSym_eq_ok hrice).2
  rw [hsym, hoffset, BijectEncoder.returns_decodeSym, GolombRice.returns_decodeSym hk]
  simp only [Hist.returns_mapDecode]
  constructor
  · rintro ⟨⟨hquotient, hentry⟩, hoffset⟩
    exact ⟨hquotient, hentry, hoffset⟩
  · rintro ⟨hquotient, hentry, hoffset⟩
    exact ⟨⟨hquotient, hentry⟩, hoffset⟩

end Symbols

end GLZ

end BentoLinker.Glz
