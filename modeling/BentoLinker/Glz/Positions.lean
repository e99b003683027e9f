import BentoLinker.Glz.Panics
import BentoLinker.Glz.RoundTrip

/-!
# GLZ Decoder Positions

The positions of a bit string that `decode` and `decode_at` come to, without their
budgets, and what has to be in range there so that they return.

1. `Turn`: the turns of the loop of `decode1`
2. `Reads`: the symbols that a call returns
3. `InRange`: a call, and all calls nested in it
4. The decoder returns on what is in range, and only on that
-/

namespace BentoLinker.Glz.GLZ

open BitCode FueledLoop Relation

variable {U : Type} [Sym U]

/-! ## Section 1: Turns -/

/-- Locals of `decode1` -/
structure Position (U : Type) where
  off : ℕ
  bytes : List U
  cycles : ℕ

/-- What the symbol at bit `off` does to the offset and to the symbols so far; `reads` are
the nested calls that return. -/
inductive Effect (g : GLZ) (bits : Bits) (size : Option ℕ) (reads : ℕ → ℕ → List U → Prop)
    (off : ℕ) (bytes : List U) : ℕ → List U → Prop
  | imm {x : U} {d : ℕ} : g.decodeSymAt U bits off = .ok (.imm x, d) →
      Effect g bits size reads off bytes (off + d) (bytes ++ [x])
  | tail {refoff refsize d : ℕ} : g.decodeSymAt U bits off = .ok (.ref refoff refsize, d) →
      isTail size bytes.length refsize = true →
      Effect g bits size reads off bytes (off + d + refoff) bytes
  | nested {refoff refsize d : ℕ} {ys : List U} :
      g.decodeSymAt U bits off = .ok (.ref refoff refsize, d) →
      isTail size bytes.length refsize = false → reads (off + d + refoff) refsize ys →
      Effect g bits size reads off bytes (off + d) (bytes ++ ys)

/-- A turn of the loop of `decode1` after which it goes on -/
structure Turn (g : GLZ) (bits : Bits) (size : Option ℕ) (reads : ℕ → ℕ → List U → Prop)
    (s s' : Position U) : Prop where
  more : wantsMore bits size s.off s.bytes.length = true
  effect : Effect g bits size reads s.off s.bytes s'.off s'.bytes
  cycles : s'.cycles = s.cycles + 1
  check : checkCycles size s'.cycles = .ok ()

/-- The runtime check doubles the size as a `u32`, and the turns are counted in a `u32`. -/
def CountersFit (size : Option ℕ) (cycles : ℕ) : Prop :=
  match size with
  | some n => n % 2 ^ 32 < 2 ^ 31
  | none => cycles + 1 < 2 ^ 32

/-! ## Section 2: Calls that return -/

/-- The call of `decode1` at `start` for `size` symbols returns `ys`. -/
def Reads (g : GLZ) (bits : Bits) : ℕ → ℕ → ℕ → List U → Prop
  | 0, _, _, _ => False
  | left + 1, start, size, ys => ∃ s : Position U,
      ReflTransGen (Turn g bits (some size) (Reads g bits left)) ⟨start, [], 0⟩ s ∧
        wantsMore bits (some size) s.off s.bytes.length = false ∧ s.bytes = ys

/-! ## Section 3: Calls without a number out of range -/

/-- What is in range in a turn: the offset is not behind the end of the bits, the symbol
there is in range, so is the nested call of a reference, and so are the counters once the
symbol has been read. -/
def TurnInRange (g : GLZ) (bits : Bits) (size : Option ℕ) (reads : ℕ → ℕ → List U → Prop)
    (inRange : ℕ → ℕ → Prop) (s : Position U) : Prop :=
  wantsMore bits size s.off s.bytes.length = true →
    s.off ≤ bits.length ∧ SymInRange g (bits.drop s.off) ∧
    (∀ refoff refsize d, g.decodeSymAt U bits s.off = .ok (.ref refoff refsize, d) →
      isTail size s.bytes.length refsize = false → inRange (s.off + d + refoff) refsize) ∧
    ∀ off bytes, Effect g bits size reads s.off s.bytes off bytes → CountersFit size s.cycles

/-- Wherever the call of `decode1` at `start` comes to, the turn is in range. With no
call left there is only the depth check. -/
def InRange (U : Type) [Sym U] (g : GLZ) (bits : Bits) : ℕ → ℕ → Option ℕ → Prop
  | 0, _, _ => True
  | left + 1, start, size => ∀ s : Position U,
      ReflTransGen (Turn g bits size (Reads g bits left)) ⟨start, [], 0⟩ s →
        TurnInRange g bits size (Reads g bits left)
          (fun off n => InRange U g bits left off (some n)) s

/-! ## Section 4: The decoder returns on what is in range -/

section Turns

variable {g : GLZ} {bits : Bits} {size : Option ℕ} {reads : ℕ → ℕ → List U → Prop}
  {nested : ℕ → ℕ → Res (List U)} {s s' : Position U} {fuel : ℕ} {sym : GLZSym U} {d off : ℕ}
  {bytes xs : List U}

theorem decodeSymAt_bounds (h : g.decodeSymAt U bits off = .ok (sym, d)) :
    0 < d ∧ off + d ≤ bits.length := by
  obtain ⟨rest, hrest, h⟩ := Res.bind_eq_ok.mp h
  obtain ⟨hoff, rfl⟩ := sliceFrom_eq_ok.mp hrest
  have hd := decodeSym_eq_ok h
  rw [List.length_drop] at hd
  omega

/-- Turns that are left at most, with the one at the end of the loop -/
def turnsLeft (bits : Bits) (size : Option ℕ) (s : Position U) : ℕ :=
  match size with
  | some n => 2 * n - s.cycles + 1
  | none => bits.length - s.off + 1

/-- The runtime check has let the turns so far pass. -/
def Counted (size : Option ℕ) (s : Position U) : Prop :=
  ∀ n, size = some n → s.cycles ≤ 2 * (n % 2 ^ 32)

theorem checkCycles_some_eq_ok {n c : ℕ} {u : Unit} :
    checkCycles (some n) c = .ok u ↔ 2 * (n % 2 ^ 32) < 2 ^ 32 ∧ c ≤ 2 * (n % 2 ^ 32) := by
  simp only [checkCycles, Res.bind_eq_ok, mulU32_eq_ok, ensure_eq_ok, decide_eq_true_eq]
  constructor
  · rintro ⟨_, ⟨hlt, rfl⟩, hle⟩
    exact ⟨hlt, hle⟩
  · rintro ⟨hlt, hle⟩
    exact ⟨_, ⟨hlt, rfl⟩, hle⟩

theorem Turn.counted (h : Turn g bits size reads s s') : Counted size s' := by
  rintro n rfl
  exact (checkCycles_some_eq_ok.mp h.check).2

theorem Turn.turnsLeft_lt (h : Turn g bits size reads s s') :
    turnsLeft bits size s' < turnsLeft bits size s := by
  cases size with
  | some n =>
    have hcheck := (checkCycles_some_eq_ok.mp h.check).2
    have hmod := Nat.mod_le n (2 ^ 32)
    have hcycles := h.cycles
    unfold turnsLeft
    dsimp only
    omega
  | none =>
    -- without a size no reference is the last one, so every turn is behind its symbol
    suffices s.off < s'.off ∧ s'.off ≤ bits.length by
      unfold turnsLeft
      dsimp only
      omega
    generalize hoff : s'.off = off
    generalize hbytes : s'.bytes = bytes
    have heffect := h.effect
    rw [hoff, hbytes] at heffect
    cases heffect with
    | imm hsym =>
      have := decodeSymAt_bounds hsym
      omega
    | tail _ htail => cases htail
    | nested hsym _ _ =>
      have := decodeSymAt_bounds hsym
      omega

/-- The last turn of a loop that returns is at its end; the others come before it. -/
theorem decode1Loop_succ_eq_ok {n : ℕ} (hnested : ∀ a n ys, nested a n = .ok ys ↔ reads a n ys) :
    g.decode1Loop bits (some n) nested (fuel + 1) s.off s.bytes s.cycles = .ok xs ↔
      (wantsMore bits (some n) s.off s.bytes.length = false ∧ s.bytes = xs) ∨
        ∃ s', Turn g bits (some n) reads s s' ∧
          g.decode1Loop bits (some n) nested fuel s'.off s'.bytes s'.cycles = .ok xs := by
  cases hmore : wantsMore bits (some n) s.off s.bytes.length with
  | false =>
    rw [decode1Loop_done hmore]
    constructor
    · rintro ⟨⟩
      exact .inl ⟨rfl, rfl⟩
    · rintro (⟨-, rfl⟩ | ⟨s', hturn, -⟩)
      · rfl
      · rw [hturn.more] at hmore
        cases hmore
  | true =>
    constructor
    · intro h
      obtain ⟨_, ⟨⟩, hcheck, hiter⟩ := decode1Loop_cases hmore h
      refine .inr ?_
      cases hiter with
      | imm hsym hrest => exact ⟨⟨_, _, _⟩, ⟨hmore, .imm hsym, rfl, hcheck⟩, hrest⟩
      | tail hsym htail hrest =>
        exact ⟨⟨_, _, _⟩, ⟨hmore, .tail hsym htail, rfl, hcheck⟩, hrest⟩
      | nested hsym htail hys hrest =>
        have hreads := (hnested _ _ _).mp hys
        exact ⟨⟨_, _, _⟩, ⟨hmore, .nested hsym htail hreads, rfl, hcheck⟩, hrest⟩
    · rintro (⟨⟨⟩, -⟩ | ⟨⟨off', bytes', cycles'⟩, ⟨-, heffect, hcycles, hcheck⟩, hrest⟩)
      dsimp only at heffect hcycles hcheck hrest
      subst hcycles
      have hlt : s.cycles + 1 < 2 ^ 32 := by
        obtain ⟨hlt, hle⟩ := checkCycles_some_eq_ok.mp hcheck
        omega
      cases heffect with
      | imm hsym => exact (decode1Loop_imm hmore hlt hcheck hsym).trans hrest
      | tail hsym htail => exact (decode1Loop_tail hmore hlt hcheck hsym htail).trans hrest
      | nested hsym htail hreads =>
        have hys := (hnested _ _ _).mpr hreads
        exact (decode1Loop_nested hmore hlt hcheck hsym htail hys).trans hrest

/-- The end of a turn: it is counted, and the others follow. -/
def turnEnd (g : GLZ) (bits : Bits) (size : Option ℕ) (nested : ℕ → ℕ → Res (List U))
    (fuel cycles off : ℕ) (bytes : List U) : Res (List U) := do
  let cycles ← addU32 cycles 1
  checkCycles size cycles
  decode1Loop g bits size nested fuel off bytes cycles

theorem decode1Loop_eq_bind (hmore : wantsMore bits size off bytes.length = true) (cycles : ℕ) :
    g.decode1Loop bits size nested (fuel + 1) off bytes cycles =
      g.decodeSymAt U bits off >>= fun sd =>
        match sd.1 with
        | .imm x => turnEnd g bits size nested fuel cycles (off + sd.2) (bytes ++ [x])
        | .ref refoff refsize =>
          if isTail size bytes.length refsize then
            turnEnd g bits size nested fuel cycles (off + sd.2 + refoff) bytes
          else nested (off + sd.2 + refoff) refsize >>= fun ys =>
            turnEnd g bits size nested fuel cycles (off + sd.2) (bytes ++ ys) := by
  rw [decode1Loop, if_pos hmore]
  congr 1

theorem returns_turnEnd (hs : Counted size s) :
    Returns (fun _ => True) (turnEnd g bits size nested fuel s.cycles off bytes) ↔
      CountersFit size s.cycles ∧ (checkCycles size (s.cycles + 1) = .ok () →
        Returns (fun _ => True)
          (g.decode1Loop bits size nested fuel off bytes (s.cycles + 1))) := by
  cases size with
  | none =>
    simp only [turnEnd, addU32, checkU32, checkCycles, returns_bind, returns_checked,
      CountersFit, pure, Except.pure, forall_const, returns_ok]
  | some k =>
    have hle := hs k rfl
    rw [checkCycles_some_eq_ok]
    simp only [turnEnd, addU32, checkU32, checkCycles, mulU32, returns_bind, returns_checked,
      returns_ensure, decide_eq_true_eq, CountersFit]
    constructor
    · rintro ⟨-, hlt, hrest⟩
      exact ⟨by omega, fun h => hrest h.2⟩
    · rintro ⟨hlt, hrest⟩
      exact ⟨by omega, by omega, fun h => hrest ⟨by omega, h⟩⟩

theorem returns_decode1Loop_succ (hk : g.k < 32) (hm : g.m < 32) (hs : Counted size s)
    (hnested : ∀ a n ys, nested a n = .ok ys ↔ reads a n ys) :
    Returns (fun _ => True) (g.decode1Loop bits size nested (fuel + 1) s.off s.bytes s.cycles) ↔
      TurnInRange g bits size reads (fun a n => Returns (fun _ => True) (nested a n)) s ∧
        ∀ s', Turn g bits size reads s s' → Returns (fun _ => True)
          (g.decode1Loop bits size nested fuel s'.off s'.bytes s'.cycles) := by
  cases hmore : wantsMore bits size s.off s.bytes.length with
  | false =>
    rw [decode1Loop_done hmore, returns_ok, true_iff]
    constructor
    · intro h
      rw [hmore] at h
      cases h
    · intro s' hturn
      rw [hturn.more] at hmore
      cases hmore
  | true =>
    have hread : Returns (fun _ => True) (g.decodeSymAt U bits s.off) ↔
        s.off ≤ bits.length ∧ SymInRange g (bits.drop s.off) := by
      rw [decodeSymAt, returns_bind, returns_sliceFrom, returns_decodeSym_iff hk hm]
    rw [decode1Loop_eq_bind hmore, returns_bind, returns_iff, hread]
    constructor
    · rintro ⟨⟨hoff, hsym⟩, hrest⟩
      have heffect : ∀ off bytes, Effect g bits size reads s.off s.bytes off bytes →
          Returns (fun _ => True) (turnEnd g bits size nested fuel s.cycles off bytes) := by
        intro off bytes h
        cases h with
        | imm hsym => exact hrest _ hsym
        | tail hsym htail =>
          have := hrest _ hsym
          dsimp only at this
          rwa [if_pos htail] at this
        | nested hsym htail hreads =>
          have := hrest _ hsym
          dsimp only at this
          rw [if_neg (by rw [htail]; exact Bool.false_ne_true), returns_bind, returns_iff] at this
          exact this.2 _ ((hnested _ _ _).mpr hreads)
      refine ⟨fun _ => ⟨hoff, hsym, ?_, fun off bytes h =>
        ((returns_turnEnd hs).mp (heffect off bytes h)).1⟩, ?_⟩
      · intro refoff refsize d hsym htail
        have := hrest _ hsym
        dsimp only at this
        rw [if_neg (by rw [htail]; exact Bool.false_ne_true), returns_bind] at this
        exact this.mono fun _ _ => trivial
      · rintro ⟨off', bytes', cycles'⟩ ⟨-, h, hcycles, hcheck⟩
        dsimp only at h hcycles hcheck ⊢
        subst hcycles
        exact ((returns_turnEnd hs).mp (heffect off' bytes' h)).2 hcheck
    · rintro ⟨hrange, hnext⟩
      obtain ⟨hoff, hsym, hcall, hcount⟩ := hrange hmore
      have heffect : ∀ off bytes, Effect g bits size reads s.off s.bytes off bytes →
          Returns (fun _ => True) (turnEnd g bits size nested fuel s.cycles off bytes) :=
        fun off bytes h => (returns_turnEnd hs).mpr ⟨hcount off bytes h, fun hcheck =>
          hnext ⟨off, bytes, s.cycles + 1⟩ ⟨hmore, h, rfl, hcheck⟩⟩
      refine ⟨⟨hoff, hsym⟩, ?_⟩
      rintro ⟨sym, d⟩ hsym
      cases sym with
      | imm x => exact heffect _ _ (.imm hsym)
      | ref refoff refsize =>
        dsimp only
        split
        · next htail => exact heffect _ _ (.tail hsym htail)
        · next htail =>
          have htail := Bool.eq_false_iff.mpr htail
          rw [returns_bind, returns_iff]
          exact ⟨hcall _ _ _ hsym htail, fun ys hys =>
            heffect _ _ (.nested hsym htail ((hnested _ _ _).mp hys))⟩

end Turns

section Calls

variable {g : GLZ} {bits : Bits} {size : Option ℕ}

omit [Sym U] in
theorem counted_start (size : Option ℕ) (start : ℕ) : Counted (U := U) size ⟨start, [], 0⟩ :=
  fun _ _ => Nat.zero_le _

omit [Sym U] in
theorem turnsLeft_ne_zero (s : Position U) : turnsLeft bits size s ≠ 0 := by
  cases size with
  | some n => exact Nat.succ_ne_zero _
  | none => exact Nat.succ_ne_zero _

omit [Sym U] in
theorem turnsLeft_start_le (bits : Bits) (size : Option ℕ) (start : ℕ) :
    turnsLeft (U := U) bits size ⟨start, [], 0⟩ ≤ decodeBudget bits size := by
  cases size with
  | some n =>
    unfold turnsLeft decodeBudget
    dsimp only
    omega
  | none =>
    unfold turnsLeft decodeBudget
    dsimp only
    omega

/-- The calls that return, without their budgets -/
theorem decode1_eq_ok_iff {left start n : ℕ} {xs : List U} :
    g.decode1 bits left start (some n) = .ok xs ↔ Reads g bits left start n xs := by
  induction left generalizing start n xs with
  | zero =>
    constructor
    · rintro ⟨⟩
    · rintro ⟨⟩
  | succ left ih =>
    apply exists_reached_iff
      (fun fuel (s : Position U) => g.decode1Loop bits (some n)
        (fun off size => g.decode1 bits left off (some size)) fuel s.off s.bytes s.cycles = .ok xs)
      (fun _ => True) (turnsLeft bits (some n))
      (fun s => wantsMore bits (some n) s.off s.bytes.length = false ∧ s.bytes = xs)
      (fun s _ hzero => absurd hzero (turnsLeft_ne_zero s))
      (fun fuel s _ => decode1Loop_succ_eq_ok fun _ _ _ => ih)
      (fun s s' _ hturn => ⟨trivial, hturn.turnsLeft_lt⟩) trivial
      (turnsLeft_start_le bits (some n) start)

theorem returns_decode1_iff (hk : g.k < 32) (hm : g.m < 32) {left start : ℕ} :
    Returns (fun _ : List U => True) (g.decode1 bits left start size) ↔
      InRange U g bits left start size := by
  induction left generalizing start size with
  | zero => exact Iff.rfl
  | succ left ih =>
    have hloop := forall_reached_iff
      (fun fuel (s : Position U) => Returns (fun _ => True) (g.decode1Loop bits size
        (fun off size => g.decode1 bits left off (some size)) fuel s.off s.bytes s.cycles))
      (Counted size) (turnsLeft bits size) _
      (fun s _ hzero => absurd hzero (turnsLeft_ne_zero s))
      (fun fuel s hs => returns_decode1Loop_succ hk hm hs fun _ _ _ => decode1_eq_ok_iff)
      (fun s s' _ hturn => ⟨hturn.counted, hturn.turnsLeft_lt⟩) (counted_start size start)
      (turnsLeft_start_le bits size start)
    refine hloop.trans (forall₂_congr fun s _ => ?_)
    simp only [ih]

/-- A call for `n` symbols does not read more of them. -/
theorem Reads.length_eq {left start n : ℕ} {xs : List U} (h : Reads g bits left start n xs) :
    xs.length = n := by
  induction left generalizing start n xs with
  | zero => cases h
  | succ left ih =>
    obtain ⟨s, hreach, hdone, rfl⟩ := h
    suffices s.bytes.length ≤ n from
      Nat.le_antisymm this (Nat.not_lt.mp (of_decide_eq_false hdone))
    clear hdone
    induction hreach with
    | refl => exact Nat.zero_le n
    | @tail s s' _ hturn hle =>
      have hmore : s.bytes.length < n := of_decide_eq_true hturn.more
      have heffect := hturn.effect
      generalize s'.off = off, s'.bytes = bytes at heffect ⊢
      cases heffect with
      | imm =>
        rw [List.length_append, List.length_singleton]
        exact hmore
      | tail => exact hle
      | nested _ htail hreads =>
        -- a reference that reaches the end is not called
        have hrefsize := Nat.not_le.mp (of_decide_eq_false htail)
        have hys := ih hreads
        rw [List.length_append]
        omega

/-- The decoder returns, `decode_at` with as many symbols as it is asked for, exactly when
nothing is out of range wherever it comes to. -/
theorem decoders_return_iff (hk : g.k < 32) (hm : g.m < 32) :
    (Returns (fun _ : List U => True) (g.decode bits) ↔ InRange U g bits 2 0 none) ∧
    ∀ off len, (Returns (fun xs : List U => xs.length = len) (g.decodeAt bits off len) ↔
      InRange U g bits 2 off (some len)) := by
  refine ⟨returns_decode1_iff hk hm, fun off len => ?_⟩
  rw [← returns_decode1_iff hk hm, decodeAt]
  apply returns_congr
  intro xs hxs
  rw [iff_true]
  exact (decode1_eq_ok_iff.mp hxs).length_eq

end Calls

/-- Eight symbols with a reference nested in a reference are in range. -/
theorem decoders_return_pairs :
    ∃ g : GLZ, g = ⟨3, 2, ⟨⟨0⟩, [], some (Hist.invert [258, 257, 256, 259, 260, 0, 1] 261,
      [258, 257, 256, 259, 260, 0, 1])⟩⟩ ∧
    InRange UInt8 g [true, true, false, true, false, false, false, true, true, true, true, true,
      true, true, true, false, true, true, true, true, true, false, true, true, false, false,
      false, false, true, true, true, true, true, true, false, true, true, false, false,
      false, false, true, true, true, true, true, false, true, true, true, true, true, true,
      false] 2 16 (some 8) := by
  refine ⟨_, rfl, ((decoders_return_iff (by decide) (by decide)).2 16 8).mp ?_⟩
  have hread : decodeAt (U := UInt8) ⟨3, 2, ⟨⟨0⟩, [], some (Hist.invert
      [258, 257, 256, 259, 260, 0, 1] 261, [258, 257, 256, 259, 260, 0, 1])⟩⟩
      [true, true, false, true, false, false, false, true, true, true, true, true,
      true, true, true, false, true, true, true, true, true, false, true, true, false, false,
      false, false, true, true, true, true, true, true, false, true, true, false, false,
      false, false, true, true, true, true, true, false, true, true, true, true, true, true,
      false] 16 8 = .ok [0, 1, 0, 1, 0, 1, 0, 1] := by
    decide +kernel
  rw [hread]
  rfl

/-- A single reference, to a place behind the end of the bits -/
theorem decoders_panic :
    ¬ ∀ (g : GLZ) (bits : Bits), g.k < 32 → g.l ≤ 8 → 1 ≤ g.m → g.m < 32 →
      Returns (fun _ : List UInt8 => True) (g.decode bits) ∧
        ∀ off ≤ bits.length, ∀ len, Returns (fun xs : List UInt8 => xs.length = len)
          (g.decodeAt bits off len) := by
  intro h
  have hpanic : (withConfig 8 5 4).decode (U := UInt8) [true, false, false, false, false, false,
      false, false, false, false, false, false, true, true, true] = panic .sliceIndex := by decide +kernel
  have hreturns : Returns (fun _ : List UInt8 => True) (panic .sliceIndex) :=
    hpanic ▸ (h (withConfig 8 5 4) _ (by decide) (by decide) (by decide) (by decide)).1
  exact hreturns

end BentoLinker.Glz.GLZ
