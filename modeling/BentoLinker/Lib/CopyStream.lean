import Mathlib.Data.List.Basic

/-!
# Streams with Forward Copies

A compressed stream is read from front to back. A code either emits one symbol or
copies a pattern that starts further down the same stream. Patterns may themselves
contain copies, so a reader could need a stack. It does not when every pattern ends
in the copy it contains: then the copy is a jump.

- `Reader`: which codes a stream begins with
- `Plays R b S xs`: reading on from `S` yields `xs` with jumps only; no two jumps in
  a row (`b` says whether the next code may be a jump)
- `Spells R S E xs`: reading from `S` to `E` yields `xs`, copies one level deep
- `Reader.GoesOn`: both stay true of a longer stream

A reader of such a stream needs one return address, and takes at most `2 * n` codes
to read `n` symbols.
-/

namespace CopyStream

variable {α β : Type}

/-- The codes a stream may begin with, with the number of elements each one takes. -/
structure Reader (α β : Type) where
  /-- a code for the symbol `x` -/
  emit : List β → α → ℕ → Prop
  /-- a code for `size` symbols found `off` elements behind the code -/
  copy : List β → ℕ → ℕ → ℕ → Prop

/-- Every code of the one reader is a code of the other. -/
structure Reader.Le (R T : Reader α β) : Prop where
  emit : ∀ {S x d}, R.emit S x d → T.emit S x d
  copy : ∀ {S off size d}, R.copy S off size d → T.copy S off size d

/-! ## Section 1: Patterns -/

/-- Reading on from `S` yields `xs`, taking every copy as a jump. -/
inductive Plays (R : Reader α β) : Bool → List β → List α → Prop
  | done {b : Bool} {S : List β} : Plays R b S []
  | emit {b : Bool} {S : List β} {x : α} {d : ℕ} {xs : List α} :
      R.emit S x d → Plays R true (S.drop d) xs → Plays R b S (x :: xs)
  | jump {S : List β} {off size d : ℕ} {xs : List α} :
      xs ≠ [] → xs.length ≤ size → R.copy S off size d → d + off ≤ S.length →
      Plays R false (S.drop (d + off)) xs → Plays R true S xs

namespace Plays

variable {R T : Reader α β} {b : Bool} {S : List β} {xs : List α}

theorem mono (hle : R.Le T) (h : Plays R b S xs) : Plays T b S xs := by
  induction h with
  | done => exact .done
  | emit hx _ ih => exact .emit (hle.emit hx) ih
  | jump hne hlen hcopy hd _ ih => exact .jump hne hlen (hle.copy hcopy) hd ih

/-- Where a jump is not allowed one may be. -/
theorem anywhere (h : Plays R b S xs) : Plays R true S xs := by
  cases h with
  | done => exact .done
  | emit hx hxs => exact .emit hx hxs
  | jump hne hlen hcopy hd hxs => exact .jump hne hlen hcopy hd hxs

/-- A pattern can be left early. -/
theorem take (h : Plays R b S xs) (n : ℕ) : Plays R b S (xs.take n) := by
  induction h generalizing n with
  | done => rw [List.take_nil]; exact .done
  | emit hx _ ih =>
    cases n with
    | zero => exact .done
    | succ n => exact .emit hx (ih n)
  | jump hne hlen hcopy hd _ ih =>
    cases n with
    | zero => exact .done
    | succ n =>
      refine .jump ?_ (Nat.le_trans (List.length_take_le' _ _) hlen) hcopy hd (ih _)
      rw [ne_eq, List.take_eq_nil_iff]
      simp [hne]

/-- All that is read has a code that emits it. -/
theorem emitted (h : Plays R b S xs) : ∀ x ∈ xs, ∃ S d, R.emit S x d := by
  induction h with
  | done =>
    intro x hx
    cases hx
  | emit hx _ ih =>
    intro y hy
    rcases List.mem_cons.mp hy with rfl | hy
    · exact ⟨_, _, hx⟩
    · exact ih y hy
  | jump _ _ _ _ _ ih => exact ih

end Plays

/-! ## Section 2: Whole texts -/

/-- Reading from `S` until `E` is left yields `xs`; copies may stand anywhere, and
what they copy plays without a stack. -/
inductive Spells (R : Reader α β) : List β → List β → List α → Prop
  | done {E : List β} : Spells R E E []
  | emit {S E : List β} {x : α} {d : ℕ} {xs : List α} :
      R.emit S x d → Spells R (S.drop d) E xs → Spells R S E (x :: xs)
  | copy {S E : List β} {off d : ℕ} {ys xs : List α} :
      ys ≠ [] → R.copy S off ys.length d → d + off ≤ S.length →
      Plays R false (S.drop (d + off)) ys → Spells R (S.drop d) E xs →
      Spells R S E (ys ++ xs)

theorem Spells.mono {R T : Reader α β} {S E : List β} {xs : List α} (hle : R.Le T)
    (h : Spells R S E xs) : Spells T S E xs := by
  induction h with
  | done => exact .done
  | emit hx _ ih => exact .emit (hle.emit hx) ih
  | copy hne hcopy hd hys _ ih => exact .copy hne (hle.copy hcopy) hd (hys.mono hle) ih

theorem Spells.emitted {R : Reader α β} {S E : List β} {xs : List α} (h : Spells R S E xs) :
    ∀ x ∈ xs, ∃ S d, R.emit S x d := by
  induction h with
  | done =>
    intro x hx
    cases hx
  | emit hx _ ih =>
    intro y hy
    rcases List.mem_cons.mp hy with rfl | hy
    · exact ⟨_, _, hx⟩
    · exact ih y hy
  | copy _ _ _ hys _ ih =>
    intro x hx
    rcases List.mem_append.mp hx with hx | hx
    · exact hys.emitted x hx
    · exact ih x hx

/-- What can be read from `S` on: a pattern that starts there, or a text. -/
inductive Readable (R : Reader α β) (S : List β) (xs : List α) : Prop
  | pattern : Plays R false S xs → Readable R S xs
  | text (E : List β) : Spells R S E xs → Readable R S xs

theorem Readable.mono {R T : Reader α β} {S : List β} {xs : List α} (hle : R.Le T)
    (h : Readable R S xs) : Readable T S xs := by
  cases h with
  | pattern h => exact .pattern (h.mono hle)
  | text E h => exact .text E (h.mono hle)

theorem Readable.emitted {R : Reader α β} {S : List β} {xs : List α} (h : Readable R S xs) :
    ∀ x ∈ xs, ∃ S d, R.emit S x d := by
  cases h with
  | pattern h => exact h.emitted
  | text E h => exact h.emitted

/-! ## Section 3: Streams that go on -/

/-- The codes of the reader lie inside the stream, and stay there when `P` comes behind it. -/
structure Reader.GoesOn (R : Reader α β) (P : List β) : Prop where
  emit : ∀ {S x d}, R.emit S x d → d ≤ S.length ∧ R.emit (S ++ P) x d
  copy : ∀ {S off size d}, R.copy S off size d → d ≤ S.length ∧ R.copy (S ++ P) off size d

section GoesOn

variable {R : Reader α β} {P S : List β} {xs : List α}

theorem Plays.append {b : Bool} (hP : R.GoesOn P) (h : Plays R b S xs) : Plays R b (S ++ P) xs := by
  induction h with
  | done => exact .done
  | emit hx _ ih =>
    obtain ⟨hd, hx⟩ := hP.emit hx
    rw [← List.drop_append_of_le_length hd] at ih
    exact .emit hx ih
  | jump hne hlen hcopy hd _ ih =>
    rw [← List.drop_append_of_le_length hd] at ih
    refine .jump hne hlen (hP.copy hcopy).2 ?_ ih
    rw [List.length_append]
    exact Nat.le_add_right_of_le hd

theorem Spells.append {E : List β} (hP : R.GoesOn P) (h : Spells R S E xs) :
    Spells R (S ++ P) (E ++ P) xs := by
  induction h with
  | done => exact .done
  | emit hx _ ih =>
    obtain ⟨hd, hx⟩ := hP.emit hx
    rw [← List.drop_append_of_le_length hd] at ih
    exact .emit hx ih
  | copy hne hcopy hd hys _ ih =>
    have hys := hys.append hP
    rw [← List.drop_append_of_le_length hd] at hys
    obtain ⟨hd', hcopy⟩ := hP.copy hcopy
    rw [← List.drop_append_of_le_length hd'] at ih
    refine .copy hne hcopy ?_ hys ih
    rw [List.length_append]
    exact Nat.le_add_right_of_le hd

/-- What can be read can still be read when the stream goes on. -/
theorem Readable.append (hP : R.GoesOn P) (h : Readable R S xs) : Readable R (S ++ P) xs := by
  cases h with
  | pattern h => exact .pattern (h.append hP)
  | text E h => exact .text (E ++ P) (h.append hP)

end GoesOn

end CopyStream
