import Mathlib.Data.Set.Finite.Basic
import Mathlib.Logic.Relation
import Mathlib.Order.WellFounded

/-!
# Steps without Cycles

Steps of a relation, and whether they come to an end.

- `acc_of_acyclic`: finitely many elements to come to, none of them on a cycle
- `not_transGen_of_acc`: an end, hence no cycle
-/

open Relation

variable {α : Type*} {r : α → α → Prop} {a : α}

/-- Steps that stay in a finite set and never come back to an element come to an end. -/
theorem acc_of_acyclic {s : Set α} (hs : s.Finite)
    (hmem : ∀ b, ReflTransGen r a b → b ∈ s)
    (hacyclic : ∀ b, ReflTransGen r a b → ¬ TransGen r b b) :
    Acc (Function.swap r) a := by
  let Reach := {b // ReflTransGen r a b}
  have hfinite : Finite Reach := (hs.subset hmem).to_subtype
  let step : Reach → Reach → Prop := fun b c => TransGen r c.1 b.1
  have htrans : IsTrans Reach step := ⟨fun _ _ _ hbc hcd => hcd.trans hbc⟩
  have hirrefl : Std.Irrefl step := ⟨fun b => hacyclic b.1 b.2⟩
  have hwf : WellFounded step := Finite.wellFounded_of_trans_of_irrefl step
  suffices h : ∀ b : Reach, Acc (Function.swap r) b.1 from h ⟨a, .refl⟩
  intro b
  induction b using hwf.induction with
  | _ b ih =>
    refine ⟨_, fun c hbc => ?_⟩
    exact ih ⟨c, b.2.tail hbc⟩ (.single hbc)

theorem not_transGen_of_acc (h : Acc (Function.swap r) a) : ¬ TransGen r a a := by
  intro hcycle
  rw [← acc_transGen_iff] at h
  induction h with
  | _ a _ ih => exact ih a (transGen_swap.mpr hcycle) hcycle
