import BentoLinker.Glz.CommandRoundTrip

/-!
# Truncated Files

A file of which the end is missing never decodes to anything else: what `decode` has read does
not depend on what stands behind it.

1. Symbols: `prefixStable_decodeSym`
2. Ranges: `prefixStable_decodeAt`
3. Headers: `leavesRest_readMeta`, `leavesRest_readIndex`
4. `decode_append`
-/

namespace BentoLinker.Glz

open BitCode FallibleFold PrefixReader

/-! ## Section 1: Symbols -/

theorem sliceFrom_append {bits rest : Bits} {off : ℕ} (h : sliceFrom bits off = .ok rest)
    (more : Bits) : sliceFrom (bits ++ more) off = .ok (rest ++ more) := by
  obtain ⟨hoff, rfl⟩ := sliceFrom_eq_ok.mp h
  refine sliceFrom_eq_ok.mpr ⟨?_, List.drop_append_of_le_length hoff⟩
  rw [List.length_append]
  omega

/-- What is read from an offset on -/
theorem prefixStable_sliceFrom {α : Type} {f : Bits → Res α} (hf : PrefixStable f) (off : ℕ) :
    PrefixStable fun bits => sliceFrom bits off >>= f := by
  intro bits x h more
  obtain ⟨rest, hrest, h⟩ := Res.bind_eq_ok.mp h
  exact Res.bind_eq_ok.mpr ⟨_, sliceFrom_append hrest more, hf h more⟩

theorem prefixStable_chainErr {α : Type} {f : Bits → Res α} (hf : PrefixStable f)
    (context : String) : PrefixStable fun bits => chainErr context (f bits) := by
  intro bits x h more
  exact chainErr_eq_ok.mpr (hf (chainErr_eq_ok.mp h) more)

theorem prefixStable_lift {α β : Type} {f : List β → Res α} (hf : PrefixStable f) :
    PrefixStable fun s => lift (f s) := by
  intro s x h more
  exact lift_eq_ok.mpr (hf (lift_eq_ok.mp h) more)

theorem prefixStable_decodeSym (realwidth width : ℕ) :
    PrefixStable (Glz.decodeSym realwidth width) := by
  intro bits n h more
  obtain ⟨hreal, hlen, hn⟩ := decodeSym_eq_ok.mp h
  refine decodeSym_eq_ok.mpr ⟨hreal, ?_, ?_⟩
  · rw [List.length_append]
    omega
  · rw [List.take_append_of_le_length hlen, hn]

/-- The quotient ends at the first zero. -/
theorem GolombRice.prefixStable_decodeSym (gr : GolombRice) : PrefixStable gr.decodeSym := by
  intro bits x h more
  unfold decodeSym at h ⊢
  obtain ⟨m, hm, h⟩ := Res.bind_eq_ok.mp h
  refine Res.bind_eq_ok.mpr ⟨m, hm, ?_⟩
  cases hq : bits.findIdx? (· == false) with
  | none =>
    rw [hq] at h
    cases h
  | some q =>
    have hq' : (bits ++ more).findIdx? (· == false) = some q := by
      rw [List.findIdx?_append, hq]
      rfl
    rw [hq] at h
    rw [hq']
    refine prefixStable_sliceFrom ?_ (q + 1) h more
    exact (Glz.prefixStable_decodeSym 32 gr.k).bind fun r => prefixStable_const _

theorem BijectEncoder.prefixStable_decodeSym (be : BijectEncoder) :
    PrefixStable be.decodeSym :=
  be.encoder.prefixStable_decodeSym.bind fun _ => prefixStable_const _

/-! ## Section 2: Ranges -/

namespace GLZ

/-- Longer streams give the offset loop more turns, which it does not need. -/
theorem decodeOff_append {m : ℕ} {bits : Bits} {fuel off arg : ℕ} {r : ℕ × ℕ}
    (h : decodeOff m bits fuel off arg = .ok r) (more : Bits) (turns : ℕ) :
    decodeOff m (bits ++ more) (fuel + turns) off arg = .ok r := by
  induction fuel generalizing off arg with
  | zero => cases h
  | succ fuel ih =>
    rw [decodeOff] at h
    rw [show fuel + 1 + turns = (fuel + turns) + 1 by omega, decodeOff]
    obtain ⟨rest, hrest, h⟩ := Res.bind_eq_ok.mp h
    obtain ⟨sym, hsym, h⟩ := Res.bind_eq_ok.mp h
    obtain ⟨p, hp, h⟩ := Res.bind_eq_ok.mp h
    obtain ⟨hi, hhi, h⟩ := Res.bind_eq_ok.mp h
    obtain ⟨hi', hhi', h⟩ := Res.bind_eq_ok.mp h
    obtain ⟨arg', harg, h⟩ := Res.bind_eq_ok.mp h
    refine Res.bind_eq_ok.mpr ⟨_, sliceFrom_append hrest more, Res.bind_eq_ok.mpr ⟨sym,
      Glz.prefixStable_decodeSym 32 (m + 1) hsym more, Res.bind_eq_ok.mpr ⟨p, hp,
      Res.bind_eq_ok.mpr ⟨hi, hhi, Res.bind_eq_ok.mpr ⟨hi', hhi',
      Res.bind_eq_ok.mpr ⟨arg', harg, ?_⟩⟩⟩⟩⟩⟩
    split at h
    · next hlast =>
      rw [if_pos hlast]
      exact h
    · next hlast =>
      rw [if_neg hlast]
      exact ih h

section Ranges

variable {U : Type} [Sym U] (g : GLZ)

theorem prefixStable_decodeSym : PrefixStable (g.decodeSym U) := by
  refine prefixStable_chainErr ?_ _
  refine g.rice.prefixStable_decodeSym.bind fun symOff => ?_
  obtain ⟨sym, off⟩ := symOff
  by_cases hsym : sym < 2 ^ 8
  · intro bits x h more
    simp only [if_pos hsym] at h ⊢
    exact h
  · intro bits x h more
    simp only [if_neg hsym] at h ⊢
    obtain ⟨argOff, hoff, h⟩ := Res.bind_eq_ok.mp h
    refine Res.bind_eq_ok.mpr ⟨argOff, ?_, h⟩
    rw [List.length_append, Nat.add_right_comm]
    exact decodeOff_append hoff more more.length

theorem prefixStable_decodeSymAt (off : ℕ) : PrefixStable fun bits => g.decodeSymAt U bits off :=
  prefixStable_sliceFrom g.prefixStable_decodeSym off

/-- With a length the loop does not ask where the stream ends. -/
theorem prefixStable_decode1Loop {size : ℕ} {nested : Bits → ℕ → ℕ → Res (List U)}
    (hnested : ∀ off n, PrefixStable fun bits => nested bits off n) (fuel off : ℕ)
    (bytes : List U) (cycles : ℕ) : PrefixStable fun bits =>
      g.decode1Loop bits (some size) (nested bits) fuel off bytes cycles := by
  induction fuel generalizing off bytes cycles with
  | zero => exact prefixStable_const _
  | succ fuel ih =>
    by_cases hmore : bytes.length < size
    · have hwants : ∀ bits, wantsMore bits (some size) off bytes.length = true :=
        fun _ => decide_eq_true hmore
      have hnext : ∀ off bytes, PrefixStable fun bits => (do
          let cycles ← addU32 cycles 1
          checkCycles (some size) cycles
          g.decode1Loop bits (some size) (nested bits) fuel off bytes cycles) :=
        fun off bytes => (prefixStable_const _).bind fun cycles =>
          (prefixStable_const _).bind fun _ => ih off bytes cycles
      intro bits xs h more
      change g.decode1Loop bits (some size) (nested bits) (fuel + 1) off bytes cycles = .ok xs at h
      change g.decode1Loop (bits ++ more) (some size) (nested (bits ++ more)) (fuel + 1) off bytes
        cycles = .ok xs
      rw [decode1Loop, if_pos (hwants bits)] at h
      rw [decode1Loop, if_pos (hwants _)]
      obtain ⟨⟨sym, diff⟩, hsym, hturn⟩ := bind_ok.mp h
      refine bind_ok.mpr ⟨_, g.prefixStable_decodeSymAt off hsym more, ?_⟩
      cases sym with
      | imm x => exact hnext _ _ hturn more
      | ref refoff refsize =>
        exact prefixStable_ite (hnext _ _) ((hnested _ _).bind fun ref_ => hnext _ _) hturn more
    · have hdone : ∀ bits, g.decode1Loop bits (some size) (nested bits) (fuel + 1) off bytes
          cycles = .ok bytes := by
        intro bits
        exact decode1Loop_done (decide_eq_false hmore)
      simp only [hdone]
      exact prefixStable_const _

theorem prefixStable_decode1 (left off size : ℕ) :
    PrefixStable fun bits => g.decode1 (U := U) bits left off (some size) := by
  induction left generalizing off size with
  | zero => exact prefixStable_const _
  | succ left ih =>
    have hnested : ∀ off n, PrefixStable fun bits => g.decode1 bits left off (some n) :=
      fun off n => ih off n
    exact g.prefixStable_decode1Loop hnested _ off [] 0

theorem prefixStable_decodeAt (off len : ℕ) :
    PrefixStable fun bits => g.decodeAt (U := U) bits off len :=
  g.prefixStable_decode1 2 off len

end Ranges

end GLZ

/-! ## Section 3: The command -/

theorem prefixStable_loadTable (opt : CommonOpt) (tableSize : Option ℕ) :
    PrefixStable fun blob => loadTable opt tableSize blob := by
  have hslice : ∀ n, PrefixStable fun bits => sliceTo bits n := by
    intro n bits front h more
    simp only [sliceTo] at h ⊢
    split at h
    · next hle =>
      rw [if_pos (by rw [List.length_append]; omega), List.take_append_of_le_length hle]
      exact h
    · cases h
  unfold loadTable
  refine prefixStable_ite ?_ (prefixStable_const _)
  cases tableSize with
  | none => exact prefixStable_const _
  | some n => exact prefixStable_lift ((hslice n).bind fun front => prefixStable_const _)

theorem prefixStable_findName (g : GLZ) (file : List UInt8)
    (files : List ((ℕ × ℕ) × (ℕ × ℕ))) : PrefixStable fun blob => findName g blob file files := by
  induction files with
  | nil => exact prefixStable_const _
  | cons entry files ih =>
    obtain ⟨⟨poff, plen⟩, range⟩ := entry
    refine (prefixStable_lift (g.prefixStable_decodeAt poff plen)).bind fun bytes =>
      (prefixStable_const (fromUtf8 bytes)).bind fun name => ?_
    exact prefixStable_ite (prefixStable_const _) ih

theorem prefixStable_findTarget (opt : DecodeOpt) (g : GLZ) (index : Index) (off : ℕ) :
    PrefixStable fun blob => findTarget opt g blob index off := by
  unfold findTarget
  split
  · exact prefixStable_const _
  · exact (prefixStable_findName g _ _).bind fun found => prefixStable_const _
  · exact prefixStable_const _
  · exact prefixStable_const _

theorem prefixStable_decodeBody (opt : DecodeOpt) (k : Option ℕ) (index : Index) :
    PrefixStable (decodeBody opt k index) := by
  intro buf x h more
  have hbits := (prefixStable_loadTable opt.common index.tableSize).bind fun tableOff =>
    (prefixStable_const (loadCodec opt.common k tableOff.1)).bind fun g =>
      (prefixStable_findTarget opt g index tableOff.2).bind fun range =>
        prefixStable_lift (g.prefixStable_decodeAt (U := UInt8) range.1 range.2)
  have happend := hbits h (unpackBytes more)
  rw [← unpackBytes_append] at happend
  exact happend

theorem leavesRest_work {α : Type} (x : Cmd α) : LeavesRest (work x) := by
  intro s a rest h more
  cases x with
  | error e => cases h
  | ok b =>
    cases h
    rfl

theorem leavesRest_readGroups : LeavesRest (readGroups : Input (List UInt8)) := by
  intro s
  induction s with
  | nil =>
    intro x rest h
    cases h
  | cons c s ih =>
    intro x rest h more
    rw [readGroups] at h
    rw [List.cons_append, readGroups]
    split at h
    · next hlast =>
      cases h
      rw [if_pos hlast]
    · next hlast =>
      rw [if_neg hlast]
      cases hrun : readGroups s with
      | error e =>
        rw [hrun] at h
        cases h
      | ok br =>
        rw [hrun] at h
        cases h
        rw [ih hrun more]
        rfl

theorem leavesRest_readSize (flags : ℕ) : LeavesRest (readSize flags) :=
  leavesRest_ite
    (leavesRest_readGroups.bind fun _ => (leavesRest_work _).bind fun _ =>
      (leavesRest_work _).bind fun _ => leavesRest_pure _)
    ((leavesRest_readExact eof 4).bind fun _ => leavesRest_pure _)

theorem leavesRest_readMeta (opt : CommonOpt) : LeavesRest (readMeta opt) := by
  have hmagic : LeavesRest (readMagic opt) :=
    leavesRest_ite ((leavesRest_readExact eof 8).bind fun _ =>
      leavesRest_ite (leavesRest_work _) (leavesRest_pure _)) (leavesRest_pure _)
  have hfields : ∀ flags, LeavesRest (readFields opt flags) := fun flags =>
    leavesRest_ite ((leavesRest_readExact eof 4).bind fun _ => leavesRest_pure _)
      (leavesRest_ite ((leavesRest_readSize flags).bind fun _ => (leavesRest_readSize flags).bind
        fun _ => leavesRest_pure _) (leavesRest_pure _))
  exact hmagic.bind fun word => (hfields _).bind fun fields => leavesRest_pure _

theorem leavesRest_readIndex (opt : CommonOpt) (flags type_ len : ℕ) :
    LeavesRest (readIndex opt flags type_ len) := by
  have hsize := leavesRest_readSize flags
  have harchive : LeavesRest (do
      let poff ← readSize flags
      let plen ← readSize flags
      let off ← readSize flags
      let len ← readSize flags
      pure ((poff, plen), (off, len))) :=
    hsize.bind fun _ => hsize.bind fun _ => hsize.bind fun _ => hsize.bind fun _ =>
      leavesRest_pure _
  have hindex : LeavesRest (do
      let off ← readSize flags
      let len ← readSize flags
      pure (off, len)) :=
    hsize.bind fun _ => hsize.bind fun _ => leavesRest_pure _
  exact leavesRest_ite (leavesRest_pure _)
    (leavesRest_ite ((harchive.readMany len).bind fun _ => leavesRest_pure _)
      (leavesRest_ite ((hindex.readMany len).bind fun _ => leavesRest_pure _)
        (leavesRest_ite (hsize.bind fun _ => leavesRest_pure _)
          (leavesRest_ite (leavesRest_pure _) (leavesRest_work _)))))

/-! ## Section 4: Files -/

/-- The blob is all that is left. -/
theorem readFront_append {opt : CommonOpt} {file : List UInt8} {k : Option ℕ} {index : Index}
    {buf rest : List UInt8} (h : readFront opt file = .ok ((k, index, buf), rest))
    (more : List UInt8) : readFront opt (file ++ more) = .ok ((k, index, buf ++ more), []) := by
  obtain ⟨⟨⟨flags, type_, k', len⟩, left⟩, hmeta, h⟩ := Fueled.eq_ok_of_bind h
  obtain ⟨⟨index', buf'⟩, hindex, h⟩ := Fueled.eq_ok_of_bind h
  obtain ⟨⟨buf'', _⟩, hrest, h⟩ := Fueled.eq_ok_of_bind h
  cases hrest
  cases h
  rw [readFront, Fueled.bind_of_ok (leavesRest_readMeta opt hmeta more)]
  dsimp only
  rw [Fueled.bind_of_ok (leavesRest_readIndex _ _ _ _ hindex more)]
  rfl

/-- What stands behind a file that decodes is not looked at. -/
theorem decode_append {o : DecodeOpt} {file data : List UInt8} (h : decode o file = .ok data)
    (more : List UInt8) : decode o (file ++ more) = .ok data := by
  rw [decode] at h
  obtain ⟨⟨⟨k, index, buf⟩, rest⟩, hfront, hbody⟩ := bind_ok.mp h
  rw [decode_of_front (readFront_append hfront more)]
  exact prefixStable_decodeBody o k index hbody more

/-- One byte without headers and table, and one behind it -/
theorem decode_append_byte :
    decode ⟨none, some 0, some 1, { CommonOpt.default with
      noHeaders := true, noTable := true, k := some 0, table := [0x61] }⟩ ([0x00] ++ [0xff]) =
        .ok [0x61] :=
  decode_append (by decide +kernel) [0xff]

end BentoLinker.Glz
