import Mathlib.Data.List.Forall2

/-!
# Folds That Can Fail

Loops over a list or over numbers whose steps can fail.

- `bind_ok`: a computation that succeeds, taken apart
- `forall₂_of_mapM`, `exists_mapM`, `mapM_eq_map`: a function that succeeds on each element of
  a list
- `forM_eq_ok`: a loop without a state
- `exists_foldlM`, `exists_step_of_foldlM`: a loop whose steps cannot fail
- `foldlM_congr`: loops with the same steps
- `foldlM_invariant_mem`: what each step preserves, a loop preserves
- `foldlM_range_succ`, `foldlM_range_prefix`, `foldlM_range_suffix`: the first and the last
  iterations of a loop over numbers
-/

namespace FallibleFold

universe u v

variable {ε σ α β : Type u}

theorem bind_ok {x : Except ε α} {f : α → Except ε β} {b : β} :
    x >>= f = .ok b ↔ ∃ a, x = .ok a ∧ f a = .ok b := by
  cases x with
  | error e =>
    constructor
    · intro h
      cases h
    · rintro ⟨a, h, -⟩
      cases h
  | ok a =>
    constructor
    · intro h
      exact ⟨a, rfl, h⟩
    · rintro ⟨a', h, h'⟩
      cases h
      exact h'

theorem forall₂_of_mapM {f : α → Except ε β} {l : List α} {l' : List β}
    (h : l.mapM f = .ok l') : List.Forall₂ (fun a b => f a = .ok b) l l' := by
  induction l generalizing l' with
  | nil =>
    cases h
    exact .nil
  | cons a l ih =>
    rw [List.mapM_cons, bind_ok] at h
    obtain ⟨b, hb, h⟩ := h
    rw [bind_ok] at h
    obtain ⟨bs, hbs, h⟩ := h
    cases h
    exact .cons hb (ih hbs)

theorem exists_mapM {f : α → Except ε β} {l : List α} (h : ∀ a ∈ l, ∃ b, f a = .ok b) :
    ∃ l', l.mapM f = .ok l' ∧ l'.length = l.length := by
  induction l with
  | nil => exact ⟨[], rfl, rfl⟩
  | cons a l ih =>
    obtain ⟨b, hb⟩ := h a (List.mem_cons_self ..)
    obtain ⟨l', hl', hlen⟩ := ih fun a' ha' => h a' (List.mem_cons_of_mem _ ha')
    refine ⟨b :: l', ?_, by rw [List.length_cons, List.length_cons, hlen]⟩
    rw [List.mapM_cons, bind_ok]
    exact ⟨b, hb, bind_ok.mpr ⟨l', hl', rfl⟩⟩

theorem mapM_eq_map {f : α → Except ε β} {g : α → β} {l : List α}
    (h : ∀ a ∈ l, f a = .ok (g a)) : l.mapM f = .ok (l.map g) := by
  induction l with
  | nil => rfl
  | cons a l ih =>
    rw [List.mapM_cons, bind_ok]
    exact ⟨g a, h a List.mem_cons_self, bind_ok.mpr
      ⟨l.map g, ih fun a' ha' => h a' (List.mem_cons_of_mem _ ha'), rfl⟩⟩

/-- A loop without a state does not fail if no turn does. -/
theorem forM_eq_ok {f : α → Except ε PUnit.{u + 1}} {l : List α} :
    l.forM f = .ok ⟨⟩ ↔ ∀ a ∈ l, f a = .ok ⟨⟩ := by
  induction l with
  | nil => exact ⟨fun _ _ ha => (nomatch ha), fun _ => rfl⟩
  | cons a l ih =>
    rw [List.forM, bind_ok, List.forall_mem_cons, ← ih]
    exact ⟨fun ⟨_, ha, hl⟩ => ⟨ha, hl⟩, fun ⟨ha, hl⟩ => ⟨_, ha, hl⟩⟩

theorem exists_foldlM {f : σ → α → Except ε σ} {l : List α} (init : σ)
    (h : ∀ s, ∀ a ∈ l, ∃ s', f s a = .ok s') : ∃ s', l.foldlM f init = .ok s' := by
  induction l generalizing init with
  | nil => exact ⟨init, rfl⟩
  | cons a l ih =>
    obtain ⟨s, hs⟩ := h init a (List.mem_cons_self ..)
    obtain ⟨s', hs'⟩ := ih s fun s a' ha' => h s a' (List.mem_cons_of_mem _ ha')
    exact ⟨s', by rw [List.foldlM_cons, bind_ok]; exact ⟨s, hs, hs'⟩⟩

theorem exists_step_of_foldlM {f : σ → α → Except ε σ} {l : List α} {init s' : σ}
    (h : l.foldlM f init = .ok s') {a : α} (ha : a ∈ l) : ∃ s s₁, f s a = .ok s₁ := by
  induction l generalizing init with
  | nil => cases ha
  | cons b l ih =>
    rw [List.foldlM_cons, bind_ok] at h
    obtain ⟨s, hs, h⟩ := h
    rcases List.mem_cons.mp ha with rfl | ha
    · exact ⟨init, s, hs⟩
    · exact ih h ha

section Pairs

variable {R : α → β → Prop} {l : List α} {l' : List β}

/-- The partner of an element in two lists that are related element by element -/
theorem exists_right_of_getElem? (h : List.Forall₂ R l l') {i : ℕ} {a : α}
    (ha : l[i]? = some a) : ∃ b, l'[i]? = some b ∧ R a b := by
  obtain ⟨hi, rfl⟩ := List.getElem?_eq_some_iff.mp ha
  have hi' : i < l'.length := h.length_eq ▸ hi
  exact ⟨l'[i], List.getElem?_eq_getElem hi', h.get hi hi'⟩

theorem exists_left_of_getElem? (h : List.Forall₂ R l l') {i : ℕ} {b : β}
    (hb : l'[i]? = some b) : ∃ a, l[i]? = some a ∧ R a b := by
  obtain ⟨hi', rfl⟩ := List.getElem?_eq_some_iff.mp hb
  have hi : i < l.length := h.length_eq.symm ▸ hi'
  exact ⟨l[i], List.getElem?_eq_getElem hi, h.get hi hi'⟩

theorem exists_right_of_mem (h : List.Forall₂ R l l') {a : α} (ha : a ∈ l) :
    ∃ b ∈ l', R a b := by
  obtain ⟨i, hi⟩ := List.mem_iff_getElem?.mp ha
  obtain ⟨b, hb, hab⟩ := exists_right_of_getElem? h hi
  exact ⟨b, List.mem_of_getElem? hb, hab⟩

theorem exists_left_of_mem (h : List.Forall₂ R l l') {b : β} (hb : b ∈ l') :
    ∃ a ∈ l, R a b := by
  obtain ⟨i, hi⟩ := List.mem_iff_getElem?.mp hb
  obtain ⟨a, ha, hab⟩ := exists_left_of_getElem? h hi
  exact ⟨a, List.mem_of_getElem? ha, hab⟩

end Pairs

theorem forall₂_trans {γ : Type*} {R : α → β → Prop} {S : β → γ → Prop} {T : α → γ → Prop}
    {l : List α} {l' : List β} {l'' : List γ} (hRST : ∀ a b c, R a b → S b c → T a c)
    (h : List.Forall₂ R l l') (h' : List.Forall₂ S l' l'') : List.Forall₂ T l l'' := by
  induction h generalizing l'' with
  | nil =>
    cases h'
    exact .nil
  | cons hab _ ih =>
    cases h' with
    | cons hbc hrest => exact .cons (hRST _ _ _ hab hbc) (ih hrest)

/-- Steps that are the same on the elements of a list make the same loop over it. -/
theorem foldlM_congr {m : Type u → Type v} [Monad m] {f g : σ → α → m σ} {l : List α}
    (h : ∀ s, ∀ a ∈ l, f s a = g s a) (s : σ) : l.foldlM f s = l.foldlM g s := by
  induction l generalizing s with
  | nil => rfl
  | cons a l ih =>
    rw [List.foldlM_cons, List.foldlM_cons, h s a (List.mem_cons_self ..)]
    congr 1
    funext s'
    exact ih (fun s'' a' ha' => h s'' a' (List.mem_cons_of_mem _ ha')) s'

/-- The induction over a loop. -/
theorem foldlM_invariant_mem {f : σ → α → Except ε σ} (Inv : σ → Prop) {l : List α}
    (hstep : ∀ s, ∀ a ∈ l, ∀ s', Inv s → f s a = .ok s' → Inv s') {s t : σ} (hs : Inv s)
    (h : l.foldlM f s = .ok t) : Inv t := by
  induction l generalizing s with
  | nil =>
    cases h
    exact hs
  | cons a l ih =>
    rw [List.foldlM_cons, bind_ok] at h
    obtain ⟨u, hu, h⟩ := h
    exact ih (fun s' a' ha' => hstep s' a' (List.mem_cons_of_mem _ ha'))
      (hstep s a (List.mem_cons_self ..) u hs hu) h

theorem foldlM_invariant {f : σ → α → Except ε σ} (Inv : σ → Prop)
    (hstep : ∀ s a s', Inv s → f s a = .ok s' → Inv s') {l : List α} {s t : σ} (hs : Inv s)
    (h : l.foldlM f s = .ok t) : Inv t :=
  foldlM_invariant_mem Inv (fun s a _ s' => hstep s a s') hs h

theorem foldlM_range_succ (f : σ → ℕ → Except ε σ) (s : σ) (n : ℕ) :
    (List.range (n + 1)).foldlM f s = (List.range n).foldlM f s >>= fun t => f t n := by
  rw [List.range_succ, List.foldlM_append]
  congr 1
  funext t
  rw [List.foldlM_cons]
  exact bind_pure (f t n)

/-- The first iterations of a loop that succeeds succeed. -/
theorem foldlM_range_prefix {f : σ → ℕ → Except ε σ} {s t : σ} {n k : ℕ} (hk : k ≤ n)
    (h : (List.range n).foldlM f s = .ok t) : ∃ u, (List.range k).foldlM f s = .ok u := by
  induction n generalizing t with
  | zero =>
    obtain rfl := Nat.le_zero.mp hk
    exact ⟨t, h⟩
  | succ n ih =>
    rcases Nat.le_succ_iff.mp hk with hle | rfl
    · rw [foldlM_range_succ, bind_ok] at h
      obtain ⟨u, hu, -⟩ := h
      exact ih hle hu
    · exact ⟨t, h⟩

/-- The induction over a loop over numbers, with the number of the iterations done. -/
theorem foldlM_range_invariant {f : σ → ℕ → Except ε σ} (Inv : ℕ → σ → Prop) {s : σ}
    (hs : Inv 0 s) {n : ℕ}
    (hstep : ∀ i < n, ∀ u u', (List.range i).foldlM f s = .ok u → Inv i u → f u i = .ok u' →
      Inv (i + 1) u')
    {t : σ} (h : (List.range n).foldlM f s = .ok t) : Inv n t := by
  induction n generalizing t with
  | zero =>
    cases h
    exact hs
  | succ n ih =>
    rw [foldlM_range_succ, bind_ok] at h
    obtain ⟨u, hu, h⟩ := h
    exact hstep n (Nat.lt_succ_self n) u t hu
      (ih (fun i hi => hstep i (Nat.lt_succ_of_lt hi)) hu) h

/-- The induction over the last iterations of a loop. -/
theorem foldlM_range_suffix {f : σ → ℕ → Except ε σ} (Inv : σ → Prop) {s u t : σ} {n k : ℕ}
    (hk : k ≤ n) (hu : (List.range k).foldlM f s = .ok u) (hinv : Inv u)
    (hstep : ∀ i, k ≤ i → i < n → ∀ v v', Inv v → f v i = .ok v' → Inv v')
    (h : (List.range n).foldlM f s = .ok t) : Inv t := by
  induction n generalizing t with
  | zero =>
    obtain rfl := Nat.le_zero.mp hk
    rw [hu] at h
    cases h
    exact hinv
  | succ n ih =>
    rcases Nat.le_succ_iff.mp hk with hle | rfl
    · rw [foldlM_range_succ, bind_ok] at h
      obtain ⟨v, hv, h⟩ := h
      exact hstep n hle (Nat.lt_succ_self n) v t
        (ih hle (fun i hi hlt => hstep i hi (Nat.lt_succ_of_lt hlt)) hv) h
    · rw [hu] at h
      cases h
      exact hinv

end FallibleFold
