import Mathlib.Data.Nat.Notation

/-!
# Computations with Fuel

Computations over a state and exceptions that take a step budget and throw one of the
exceptions when it is used up.

- `Stable`: once the fuel is enough, more of it changes nothing
- `Ends`: some fuel is enough
- `Stable.bind`, `ends_bind`: one computation after another
- `Stable.agree`: two runs that come to an end come to the same end
- `Throws`: which exceptions there can be
-/

namespace Fueled

universe u v

variable {σ α β : Type u} {ε : Type v} {out : ε}

/-- Fuel that is enough stays enough, with the same result. -/
def Stable (out : ε) (f : ℕ → StateT σ (Except ε) α) : Prop :=
  ∀ n s, f n s ≠ .error out → f (n + 1) s = f n s

/-- There is fuel for the computation. -/
def Ends (out : ε) (f : ℕ → StateT σ (Except ε) α) (s : σ) : Prop := ∃ n, f n s ≠ .error out

theorem bind_apply (m : StateT σ (Except ε) α) (f : α → StateT σ (Except ε) β) (s : σ) :
    (m >>= f) s = m s >>= fun p => f p.1 p.2 := rfl

theorem bind_of_ok {m : StateT σ (Except ε) α} {f : α → StateT σ (Except ε) β} {s s' : σ}
    {a : α} (h : m s = .ok (a, s')) : (m >>= f) s = f a s' := by
  rw [bind_apply, h]
  rfl

theorem bind_of_error {m : StateT σ (Except ε) α} {f : α → StateT σ (Except ε) β} {s : σ}
    {e : ε} (h : m s = .error e) : (m >>= f) s = .error e := by
  rw [bind_apply, h]
  rfl

theorem eq_ok_of_bind {m : StateT σ (Except ε) α} {f : α → StateT σ (Except ε) β} {s : σ}
    {r : β × σ} (h : (m >>= f) s = .ok r) : ∃ p, m s = .ok p ∧ f p.1 p.2 = .ok r := by
  cases hrun : m s with
  | error e =>
    rw [bind_of_error hrun] at h
    cases h
  | ok p => exact ⟨p, rfl, (bind_of_ok hrun).symm.trans h⟩

theorem stable_const (out : ε) (m : StateT σ (Except ε) α) : Stable out fun _ => m :=
  fun _ _ _ => rfl

theorem Stable.le {f : ℕ → StateT σ (Except ε) α} (h : Stable out f) {n m : ℕ} {s : σ}
    (hle : n ≤ m) (hn : f n s ≠ .error out) : f m s = f n s := by
  induction hle with
  | refl => rfl
  | @step m _ ih => rw [h m s (by rw [ih]; exact hn), ih]

theorem Stable.agree {f : ℕ → StateT σ (Except ε) α} (h : Stable out f) {n m : ℕ} {s : σ}
    (hn : f n s ≠ .error out) (hm : f m s ≠ .error out) : f n s = f m s := by
  rcases Nat.le_total n m with hle | hle
  · exact (h.le hle hn).symm
  · exact h.le hle hm

theorem Stable.bind {f : ℕ → StateT σ (Except ε) α} {g : ℕ → α → StateT σ (Except ε) β}
    (hf : Stable out f) (hg : ∀ a, Stable out fun n => g n a) :
    Stable out fun n => f n >>= g n := by
  intro n s hn
  cases hrun : f n s with
  | error e =>
    have he : e ≠ out := by
      rintro rfl
      exact hn (bind_of_error hrun)
    have hnext : f (n + 1) s = .error e := by
      rw [hf n s (by rw [hrun]; simpa using he), hrun]
    exact (bind_of_error hnext).trans (bind_of_error hrun).symm
  | ok p =>
    obtain ⟨a, s'⟩ := p
    have hnext : f (n + 1) s = .ok (a, s') := by
      rw [hf n s (by rw [hrun]; simp), hrun]
    have hend : g n a s' ≠ .error out := fun h => hn ((bind_of_ok hrun).trans h)
    exact (bind_of_ok hnext).trans ((hg a n s' hend).trans (bind_of_ok hrun).symm)

/-- The second computation has to end from what the first one returns. -/
theorem ends_bind {f : ℕ → StateT σ (Except ε) α} {g : ℕ → α → StateT σ (Except ε) β}
    {s : σ} (hf : Stable out f) (hg : ∀ a, Stable out fun n => g n a) (hend : Ends out f s)
    (h : ∀ a s', (∃ n, f n s = .ok (a, s')) → Ends out (fun n => g n a) s') :
    Ends out (fun n => f n >>= g n) s := by
  obtain ⟨n, hn⟩ := hend
  cases hrun : f n s with
  | error e =>
    refine ⟨n, fun hout => hn ?_⟩
    have herror := (bind_of_error (f := g n) hrun).symm.trans hout
    cases herror
    exact hrun
  | ok p =>
    obtain ⟨a, s'⟩ := p
    obtain ⟨m, hm⟩ := h a s' ⟨n, hrun⟩
    refine ⟨max n m, ?_⟩
    have hbig : f (max n m) s = .ok (a, s') := by
      rw [hf.le (Nat.le_max_left n m) (by rw [hrun]; simp), hrun]
    change (f (max n m) >>= g (max n m)) s ≠ _
    rw [bind_of_ok hbig, (hg a).le (Nat.le_max_right n m) hm]
    exact hm

/-- Every exception is one of these. -/
def Throws (P : ε → Prop) (m : StateT σ (Except ε) α) : Prop := ∀ s e, m s = .error e → P e

theorem Throws.imp {P Q : ε → Prop} {m : StateT σ (Except ε) α} (h : Throws P m)
    (hPQ : ∀ e, P e → Q e) : Throws Q m :=
  fun s e hrun => hPQ e (h s e hrun)

theorem throws_pure (P : ε → Prop) (a : α) : Throws P (pure a : StateT σ (Except ε) α) :=
  fun _ _ h => by cases h

theorem throws_throw {P : ε → Prop} {e : ε} (h : P e) :
    Throws P (throw e : StateT σ (Except ε) α) := by
  rintro s e' ⟨⟩
  exact h

theorem Throws.bind {P : ε → Prop} {m : StateT σ (Except ε) α}
    {f : α → StateT σ (Except ε) β} (hm : Throws P m) (hf : ∀ a, Throws P (f a)) :
    Throws P (m >>= f) := by
  intro s e h
  cases hrun : m s with
  | error e' =>
    rw [bind_of_error hrun] at h
    cases h
    exact hm s e hrun
  | ok p => exact hf p.1 p.2 e ((bind_of_ok hrun).symm.trans h)

end Fueled
