import BentoLinker.Lib.Fueled

/-!
# Reading What Has Been Written

A reader takes elements off the front of a stream. It reads what a writer has written if it
takes just that, whatever follows.

- `Takes m w x`: in front of any rest, `m` takes `w` and returns `x`
- `readExact`, `readMany`: a number of elements, and a number of values
- `Takes.bind`, `takes_readMany`: values that stand one behind another
- `PrefixStable f`: what `f` makes of a stream it makes of every stream that begins with it
- `LeavesRest m`: `m` reads on in the same way when the stream goes on
-/

namespace PrefixReader

universe u

variable {ε β α γ : Type u}

/-- A computation that takes elements off the front of a list, or fails -/
abbrev Reader (β ε α : Type u) := StateT (List β) (Except ε) α

/-- Whatever follows `w`, the reader takes `w` and returns `x`. -/
def Takes (m : Reader β ε α) (w : List β) (x : α) : Prop :=
  ∀ rest, m (w ++ rest) = .ok (x, rest)

/-- `n` elements, or an error where fewer are left -/
def readExact (eof : ε) (n : ℕ) : Reader β ε (List β) := fun s =>
  if n ≤ s.length then .ok (s.take n, s.drop n) else .error eof

/-- Everything that is left -/
def readRest : Reader β ε (List β) := fun s => .ok (s, [])

/-- `n` values, one behind another -/
def readMany (m : Reader β ε α) : ℕ → Reader β ε (List α)
  | 0 => pure []
  | n + 1 => do
    let x ← m
    let xs ← readMany m n
    pure (x :: xs)

theorem takes_pure (x : α) : Takes (pure x : Reader β ε α) [] x := fun _ => rfl

theorem Takes.bind {m : Reader β ε α} {f : α → Reader β ε γ} {v w : List β} {x : α} {y : γ}
    (hm : Takes m v x) (hf : Takes (f x) w y) : Takes (m >>= f) (v ++ w) y := by
  intro rest
  rw [List.append_assoc, Fueled.bind_of_ok (hm _)]
  exact hf rest

/-- What has been read is used without reading on. -/
theorem Takes.map {m : Reader β ε α} {w : List β} {x : α} (hm : Takes m w x) (f : α → γ) :
    Takes (m >>= fun x => pure (f x)) w (f x) := by
  intro rest
  rw [Fueled.bind_of_ok (hm rest)]
  rfl

theorem takes_readExact {eof : ε} {n : ℕ} {w : List β} (h : w.length = n) :
    Takes (readExact eof n) w w := by
  intro rest
  rw [readExact, if_pos (by rw [List.length_append]; omega), ← h, List.take_left, List.drop_left]

theorem takes_readMany {m : Reader β ε α} {write : α → List β} {xs : List α}
    (h : ∀ x ∈ xs, Takes m (write x) x) : Takes (readMany m xs.length) (xs.flatMap write) xs := by
  induction xs with
  | nil => exact takes_pure []
  | cons x xs ih =>
    rw [List.flatMap_cons]
    exact (h x List.mem_cons_self).bind ((ih fun y hy => h y (List.mem_cons_of_mem _ hy)).map _)

/-! ### Streams that go on -/

/-- A result stays when more follows. -/
def PrefixStable (f : List β → Except ε α) : Prop :=
  ∀ ⦃s x⦄, f s = .ok x → ∀ more, f (s ++ more) = .ok x

/-- A reader that returns on a stream returns the same on a longer one, and leaves the rest. -/
def LeavesRest (m : Reader β ε α) : Prop :=
  ∀ ⦃s x rest⦄, m s = .ok (x, rest) → ∀ more, m (s ++ more) = .ok (x, rest ++ more)

theorem prefixStable_const (x : Except ε α) : PrefixStable fun _ : List β => x :=
  fun _ _ h _ => h

theorem PrefixStable.bind {f : List β → Except ε α} {g : α → List β → Except ε γ}
    (hf : PrefixStable f) (hg : ∀ x, PrefixStable (g x)) :
    PrefixStable fun s => f s >>= fun x => g x s := by
  intro s y h more
  change f s >>= (fun x => g x s) = .ok y at h
  change f (s ++ more) >>= (fun x => g x (s ++ more)) = .ok y
  cases hrun : f s with
  | error e =>
    rw [hrun] at h
    cases h
  | ok x =>
    rw [hrun] at h
    rw [hf hrun more]
    exact hg x h more

theorem prefixStable_ite {p : Prop} [Decidable p] {f g : List β → Except ε α}
    (hf : PrefixStable f) (hg : PrefixStable g) : PrefixStable fun s => if p then f s else g s := by
  by_cases hp : p
  · simpa only [if_pos hp] using hf
  · simpa only [if_neg hp] using hg

theorem leavesRest_pure (x : α) : LeavesRest (pure x : Reader β ε α) := by
  rintro s _ _ ⟨⟩ more
  rfl

theorem LeavesRest.bind {m : Reader β ε α} {f : α → Reader β ε γ} (hm : LeavesRest m)
    (hf : ∀ x, LeavesRest (f x)) : LeavesRest (m >>= f) := by
  intro s y rest h more
  obtain ⟨⟨x, s'⟩, hrun, hnext⟩ := Fueled.eq_ok_of_bind h
  rw [Fueled.bind_of_ok (hm hrun more)]
  exact hf x hnext more

theorem leavesRest_ite {p : Prop} [Decidable p] {m m' : Reader β ε α} (h : LeavesRest m)
    (h' : LeavesRest m') : LeavesRest (if p then m else m') := by
  split
  · exact h
  · exact h'

theorem leavesRest_readExact (eof : ε) (n : ℕ) : LeavesRest (readExact (β := β) eof n) := by
  intro s x rest h more
  rw [readExact] at h
  split at h
  · next hle =>
    cases h
    rw [readExact, if_pos (by rw [List.length_append]; omega), List.take_append_of_le_length hle,
      List.drop_append_of_le_length hle]
  · cases h

theorem LeavesRest.readMany {m : Reader β ε α} (hm : LeavesRest m) (n : ℕ) :
    LeavesRest (readMany m n) := by
  induction n with
  | zero => exact leavesRest_pure []
  | succ n ih => exact hm.bind fun x => ih.bind fun xs => leavesRest_pure (x :: xs)

/-- A reader that has taken its part leaves the rest to what comes behind it. -/
theorem Takes.run {m : Reader β ε α} {f : α → Reader β ε γ} {w : List β} {x : α}
    (hm : Takes m w x) (rest : List β) : (m >>= f) (w ++ rest) = f x rest :=
  Fueled.bind_of_ok (hm rest)

end PrefixReader
