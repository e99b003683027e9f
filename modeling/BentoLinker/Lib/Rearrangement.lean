import Mathlib.Order.Monotone.Basic
import Mathlib.Algebra.BigOperators.Group.List.Basic
import Mathlib.Data.List.Nodup
import Mathlib.Data.List.MinMax
import Mathlib.Data.List.Induction
import Mathlib.Data.Set.Function
import Mathlib.Algebra.BigOperators.Ring.List
import Mathlib.Tactic.Ring

/-!
# Weights and Places

Elements with weights are put at different places, and a place costs no less than the places in
front of it. The sum of what they cost is least where the heavier elements come first.

- `cost`: what the elements of a list cost at the places of an assignment
- `sum_range_le`: different places cost at least as much as the first ones
- `cost_idxOf_le`: no assignment is cheaper than the places in a list by descending weights
-/

namespace Rearrangement

variable {α : Type*}

/-- The weights of the elements, each times the price of its place -/
def cost (weight : α → ℕ) (price : ℕ → ℕ) (place : α → ℕ) (l : List α) : ℕ :=
  (l.map fun a => weight a * price (place a)).sum

variable {weight : α → ℕ} {price : ℕ → ℕ} {place : α → ℕ} {l : List α}

theorem cost_append (l l' : List α) :
    cost weight price place (l ++ l') = cost weight price place l + cost weight price place l' := by
  rw [cost, List.map_append, List.sum_append, cost, cost]

theorem cost_perm {l' : List α} (h : l.Perm l') :
    cost weight price place l = cost weight price place l' :=
  (h.map _).sum_eq

theorem cost_congr {place' : α → ℕ} (h : ∀ a ∈ l, place a = place' a) :
    cost weight price place l = cost weight price place' l := by
  refine congrArg List.sum (List.map_congr_left fun a ha => ?_)
  rw [h a ha]

/-- Part of the weight can be paid on its own. -/
theorem cost_add (weight weight' : α → ℕ) (l : List α) :
    cost (fun a => weight a + weight' a) price place l =
      cost weight price place l + cost weight' price place l := by
  induction l with
  | nil => rfl
  | cons a l ih =>
    simp only [cost, List.map_cons, List.sum_cons] at ih ⊢
    rw [ih]
    ring

/-- Some different places cost no less than the first ones. -/
theorem sum_range_le (hprice : Monotone price) {places : List ℕ} (hnodup : places.Nodup) :
    ((List.range places.length).map price).sum ≤ (places.map price).sum := by
  induction hlength : places.length generalizing places with
  | zero => exact Nat.zero_le _
  | succ n ih =>
    -- the largest of them is not in front of the last of the first ones
    obtain ⟨m, hm⟩ := Option.isSome_iff_exists.mp
      (List.isSome_max?_of_ne_nil (List.ne_nil_of_length_eq_add_one hlength))
    obtain ⟨hmem, hmax⟩ := List.max?_eq_some_iff.mp hm
    have hperm := List.perm_cons_erase hmem
    have hrest := ih (hnodup.erase m) (by rw [List.length_erase_of_mem hmem, hlength]; rfl)
    have hle : n ≤ m := by
      have hsub : places ⊆ List.range (m + 1) := fun p hp =>
        List.mem_range.mpr (Nat.lt_succ_of_le (hmax p hp))
      have hcard := (List.subperm_of_subset hnodup hsub).length_le
      rw [List.length_range] at hcard
      omega
    rw [(hperm.map price).sum_eq, List.map_cons, List.sum_cons, List.range_succ, List.map_append,
      List.sum_append, List.map_singleton, List.sum_singleton, Nat.add_comm]
    exact Nat.add_le_add (hprice hle) hrest

theorem cost_const (d : ℕ) (l : List α) :
    cost (fun _ => d) price place l = d * ((l.map place).map price).sum := by
  rw [cost, List.map_map, List.sum_map_mul_left]
  rfl

theorem cost_weight_congr {weight' : α → ℕ} (h : ∀ a ∈ l, weight a = weight' a) :
    cost weight price place l = cost weight' price place l := by
  refine congrArg List.sum (List.map_congr_left fun a ha => ?_)
  rw [h a ha]

variable [DecidableEq α]

/-- The places in the list itself are the first ones. -/
theorem map_idxOf (hnodup : l.Nodup) : l.map (l.idxOf ·) = List.range l.length := by
  apply List.ext_getElem
  · rw [List.length_map, List.length_range]
  · intro i hi _
    rw [List.length_map] at hi
    rw [List.getElem_map, List.getElem_range, hnodup.idxOf_getElem]

/-- Where the heavier elements come first, no other assignment is cheaper. The induction is on
the last element, whose weight every element has. -/
theorem cost_idxOf_le (hprice : Monotone price) (hnodup : l.Nodup)
    (hsorted : l.Pairwise fun a b => weight b ≤ weight a) (hplace : Set.InjOn place {a | a ∈ l}) :
    cost weight price (l.idxOf ·) l ≤ cost weight price place l := by
  induction l using List.reverseRecOn generalizing weight with
  | nil => exact Nat.le_refl _
  | append_singleton l a ih =>
    obtain ⟨hnodup_l, -, hnotMem⟩ := List.nodup_append.mp hnodup
    obtain ⟨hsorted_l, -, hlast⟩ := List.pairwise_append.mp hsorted
    have hsplit : ∀ x ∈ l ++ [a], weight x = (weight x - weight a) + weight a := by
      intro x hx
      rcases List.mem_append.mp hx with hx | hx
      · have := hlast x hx a (List.mem_singleton_self a)
        omega
      · rw [List.mem_singleton.mp hx]
        omega
    -- the last element has nothing but what all have
    have hcost : ∀ place : α → ℕ, cost weight price place (l ++ [a]) =
        cost (fun x => weight x - weight a) price place l +
          weight a * (((l ++ [a]).map place).map price).sum := by
      intro place
      rw [cost_weight_congr hsplit, cost_add, cost_const, cost_append]
      simp [cost]
    rw [hcost, hcost]
    have hl : cost (fun x => weight x - weight a) price ((l ++ [a]).idxOf ·) l ≤
        cost (fun x => weight x - weight a) price place l := by
      rw [cost_congr fun x hx => List.idxOf_append_of_mem hx]
      apply ih hnodup_l
      · exact hsorted_l.imp fun h => Nat.sub_le_sub_right h _
      · exact hplace.mono fun x hx => List.mem_append.mpr (.inl hx)
    have hall : (((l ++ [a]).map ((l ++ [a]).idxOf ·)).map price).sum ≤
        (((l ++ [a]).map place).map price).sum := by
      have hplaces : ((l ++ [a]).map place).Nodup :=
        (List.nodup_map_iff_inj_on hnodup).mpr fun x hx y hy h => hplace hx hy h
      have hle := sum_range_le hprice hplaces
      rwa [List.length_map, ← map_idxOf hnodup] at hle
    exact Nat.add_le_add hl (Nat.mul_le_mul_left _ hall)

end Rearrangement
