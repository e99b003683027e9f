import Mathlib.Logic.Relation
import Mathlib.Data.Nat.Notation

/-!
# Loops with a Step Budget

What a loop with a step budget does, said without the budget: through the states that it
comes to.

- `forall_reached_iff`: every turn is fine, so the whole loop is, and the other way round
- `exists_reached_iff`: some turn is the last one

The states are those of `Relation.ReflTransGen next`. A measure that every turn makes
smaller says that the budget is enough; where it is zero there is no turn left.
-/

namespace FueledLoop

open Relation

variable {σ : Type*} {next : σ → σ → Prop} (Q : ℕ → σ → Prop) (Inv : σ → Prop)
  (measure : σ → ℕ)

/-- A statement that a turn passes on to all states behind it is one about all states
that the loop comes to. -/
theorem forall_reached_iff (fine : σ → Prop)
    (hend : ∀ s, Inv s → measure s = 0 → (Q 0 s ↔ fine s))
    (hstep : ∀ fuel s, Inv s → (Q (fuel + 1) s ↔ fine s ∧ ∀ s', next s s' → Q fuel s'))
    (hnext : ∀ s s', Inv s → next s s' → Inv s' ∧ measure s' < measure s) {fuel : ℕ} {s : σ}
    (hs : Inv s) (hfuel : measure s ≤ fuel) :
    Q fuel s ↔ ∀ s', ReflTransGen next s s' → fine s' := by
  induction fuel generalizing s with
  | zero =>
    have hzero := Nat.le_zero.mp hfuel
    rw [hend s hs hzero]
    constructor
    · intro hfine s' hreach
      rcases ReflTransGen.cases_head hreach with rfl | ⟨t, ht, -⟩
      · exact hfine
      · have := (hnext s t hs ht).2
        omega
    · exact fun hall => hall s .refl
  | succ fuel ih =>
    rw [hstep fuel s hs]
    constructor
    · rintro ⟨hfine, hrest⟩ s' hreach
      rcases ReflTransGen.cases_head hreach with rfl | ⟨t, ht, hreach⟩
      · exact hfine
      · obtain ⟨hinv, hlt⟩ := hnext s t hs ht
        exact (ih hinv (by omega)).mp (hrest t ht) s' hreach
    · intro hall
      refine ⟨hall s .refl, fun t ht => ?_⟩
      obtain ⟨hinv, hlt⟩ := hnext s t hs ht
      exact (ih hinv (by omega)).mpr fun s' hreach => hall s' (.head ht hreach)

/-- A statement that holds of the last state and is passed back by a turn is one about some
last state that the loop comes to. -/
theorem exists_reached_iff (last : σ → Prop)
    (hend : ∀ s, Inv s → measure s = 0 → (Q 0 s ↔ last s))
    (hstep : ∀ fuel s, Inv s → (Q (fuel + 1) s ↔ last s ∨ ∃ s', next s s' ∧ Q fuel s'))
    (hnext : ∀ s s', Inv s → next s s' → Inv s' ∧ measure s' < measure s) {fuel : ℕ} {s : σ}
    (hs : Inv s) (hfuel : measure s ≤ fuel) :
    Q fuel s ↔ ∃ s', ReflTransGen next s s' ∧ last s' := by
  induction fuel generalizing s with
  | zero =>
    have hzero := Nat.le_zero.mp hfuel
    rw [hend s hs hzero]
    constructor
    · exact fun hlast => ⟨s, .refl, hlast⟩
    · rintro ⟨s', hreach, hlast⟩
      rcases ReflTransGen.cases_head hreach with rfl | ⟨t, ht, -⟩
      · exact hlast
      · have := (hnext s t hs ht).2
        omega
  | succ fuel ih =>
    rw [hstep fuel s hs]
    constructor
    · rintro (hlast | ⟨t, ht, hrest⟩)
      · exact ⟨s, .refl, hlast⟩
      · obtain ⟨hinv, hlt⟩ := hnext s t hs ht
        obtain ⟨s', hreach, hlast⟩ := (ih hinv (by omega)).mp hrest
        exact ⟨s', .head ht hreach, hlast⟩
    · rintro ⟨s', hreach, hlast⟩
      rcases ReflTransGen.cases_head hreach with rfl | ⟨t, ht, hreach⟩
      · exact .inl hlast
      · obtain ⟨hinv, hlt⟩ := hnext s t hs ht
        exact .inr ⟨t, ht, (ih hinv (by omega)).mpr ⟨s', hreach, hlast⟩⟩

end FueledLoop
