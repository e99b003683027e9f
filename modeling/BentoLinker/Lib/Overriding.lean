import Mathlib.Data.List.Nodup
import Mathlib.Data.List.Perm.Subperm

/-!
# Overriding Definitions

Entries with a key, some of which are weak: a strong entry overrides the weak ones of its key.

- `strong`, `best`: the entries of greatest strength
- `Thins`: entries have been left out, but no strong one and not the last one
- `Settled`: one entry for each key is left
- `dropWeak_eq_best`: dropping the weak entries leaves the best ones, if there are no weak rivals
-/

namespace Overriding

variable {α β κ : Type*}

/-! ## Section 1: Strength -/

section Strength

variable (weak : α → Bool)

def strong (l : List α) : List α := l.filter fun a => !weak a

/-- The strong entries if there are some, all of them otherwise -/
def best (l : List α) : List α := if l.all weak then l else strong weak l

/-- Drop weak entries as long as there are others. -/
def dropWeak (l : List α) : List α := if 1 < l.length ∧ l.any weak then strong weak l else l

/-- Several entries, none of which is strong -/
def WeakRivals (l : List α) : Prop := 1 < l.length ∧ l.all weak

instance (l : List α) : Decidable (WeakRivals weak l) := by
  unfold WeakRivals
  infer_instance

/-- Entries have been left out, but no strong one and not the last one. -/
structure Thins (raw rest : List α) : Prop where
  subperm : rest.Subperm raw
  nonempty : rest = [] → raw = []
  strong : (strong weak rest).Perm (strong weak raw)

variable {weak}

theorem strong_append (l l' : List α) :
    strong weak (l ++ l') = strong weak l ++ strong weak l' := List.filter_append l l'

theorem strong_eq_nil_iff {l : List α} : strong weak l = [] ↔ l.all weak := by
  simp [strong, List.filter_eq_nil_iff]

theorem strong_eq_self_iff {l : List α} : strong weak l = l ↔ l.any weak = false := by
  simp [strong, List.filter_eq_self]

theorem best_perm {l l' : List α} (h : l.Perm l') : (best weak l).Perm (best weak l') := by
  unfold best
  rw [h.all_eq]
  split
  · exact h
  · exact h.filter _

theorem weakRivals_perm {l l' : List α} (h : l.Perm l') :
    WeakRivals weak l ↔ WeakRivals weak l' := by
  unfold WeakRivals
  rw [h.length_eq, h.all_eq]

namespace Thins

theorem refl (l : List α) : Thins weak l l := ⟨.refl l, id, .refl _⟩

theorem append {raw rest raw' rest' : List α} (h : Thins weak raw rest)
    (h' : Thins weak raw' rest') : Thins weak (raw ++ raw') (rest ++ rest') where
  subperm := h.subperm.append h'.subperm
  nonempty hnil := by
    obtain ⟨hrest, hrest'⟩ := List.append_eq_nil_iff.mp hnil
    rw [h.nonempty hrest, h'.nonempty hrest', List.nil_append]
  strong := by
    rw [strong_append, strong_append]
    exact h.strong.append h'.strong

theorem map {raw rest : List α} {weak' : β → Bool} {f : α → β} (hf : ∀ a, weak' (f a) = weak a)
    (h : Thins weak raw rest) : Thins weak' (raw.map f) (rest.map f) where
  subperm := by
    obtain ⟨l, hperm, hsublist⟩ := h.subperm
    exact ⟨l.map f, hperm.map f, hsublist.map f⟩
  nonempty hnil := by rw [h.nonempty (List.map_eq_nil_iff.mp hnil), List.map_nil]
  strong := by
    have hstrong : ∀ l : List α,
        Overriding.strong weak' (l.map f) = (Overriding.strong weak l).map f := by
      intro l
      unfold Overriding.strong
      rw [List.filter_map]
      congr 1
      apply List.filter_congr
      intro a _
      exact congrArg (!·) (hf a)
    rw [hstrong, hstrong]
    exact h.strong.map f

end Thins

theorem best_length_of_weakRivals {l : List α} (h : WeakRivals weak l) :
    1 < (best weak l).length := by
  unfold best
  rw [if_pos h.2]
  exact h.1

/-- What is left if weak entries are dropped and only one entry remains is what the raw list has
as its best. -/
theorem dropWeak_eq_best {raw rest : List α} (h : Thins weak raw rest)
    (hrivals : ¬WeakRivals weak raw) (hlength : (dropWeak weak rest).length ≤ 1) :
    dropWeak weak rest = best weak raw := by
  have hperm : (dropWeak weak rest).Perm (best weak raw) := by
    unfold best
    split
    · next hall =>
      -- nothing is strong, so there is one entry at most
      have hraw : raw.length ≤ 1 := Nat.le_of_not_lt fun hlt => hrivals ⟨hlt, hall⟩
      have hrest : rest.length ≤ raw.length := h.subperm.length_le
      have hdrop : dropWeak weak rest = rest := by
        unfold dropWeak
        rw [if_neg fun hmany => by omega]
      rw [hdrop]
      apply h.subperm.perm_of_length_le
      cases hnil : rest with
      | nil => exact Nat.le_of_eq (congrArg List.length (h.nonempty hnil))
      | cons a rest => exact Nat.le_trans hraw (Nat.le_add_left 1 rest.length)
    · next hall =>
      have hne : strong weak rest ≠ [] := by
        intro hnil
        apply hall
        rw [← strong_eq_nil_iff, ← List.perm_nil, ← hnil]
        exact h.strong.symm
      refine .trans ?_ h.strong
      unfold dropWeak at hlength ⊢
      split
      · exact .refl _
      · next hfew =>
        rw [if_neg hfew] at hlength
        match rest, hne, hlength with
        | [], hne, _ => exact absurd rfl hne
        | [a], hne, _ =>
          have ha : weak a = false := by
            rw [Ne, strong_eq_nil_iff] at hne
            simpa using hne
          rw [strong_eq_self_iff.mpr (by simpa using ha)]
  match hdrop : dropWeak weak rest, hlength with
  | [], _ =>
    rw [hdrop] at hperm
    exact (List.nil_perm.mp hperm).symm
  | [a], _ =>
    rw [hdrop] at hperm
    exact List.singleton_perm.mp hperm

end Strength

/-! ## Section 2: Keys -/

section Keys

variable (weak : α → Bool) (key : α → κ)

/-- One entry is left for each key, a strong one if there is one. -/
structure Settled (raw rest : List α) : Prop where
  nodup : (rest.map key).Nodup
  mem : ∀ a ∈ rest, a ∈ raw
  key_mem : ∀ a ∈ raw, key a ∈ rest.map key
  strong : (strong weak rest).Perm (strong weak raw)

variable {weak key}

namespace Settled

theorem nil : Settled weak key [] [] where
  nodup := List.nodup_nil
  mem _ ha := absurd ha List.not_mem_nil
  key_mem _ ha := absurd ha List.not_mem_nil
  strong := .refl _

/-- An entry with a new key -/
theorem add {raw rest : List α} {a : α} (h : Settled weak key raw rest)
    (hkey : key a ∉ rest.map key) : Settled weak key (raw ++ [a]) (rest ++ [a]) where
  nodup := by
    rw [List.map_append]
    exact List.nodup_append'.mpr ⟨h.nodup, List.nodup_singleton _,
      List.disjoint_singleton.mpr hkey⟩
  mem b hb := by
    rcases List.mem_append.mp hb with hb | hb
    · exact List.mem_append_left _ (h.mem b hb)
    · exact List.mem_append_right _ hb
  key_mem b hb := by
    rw [List.map_append]
    rcases List.mem_append.mp hb with hb | hb
    · exact List.mem_append_left _ (h.key_mem b hb)
    · exact List.mem_append_right _ (List.mem_map_of_mem hb)
  strong := by
    rw [strong_append, strong_append]
    exact h.strong.append_right _

/-- A weak entry whose key is there -/
theorem keep {raw rest : List α} {a : α} (h : Settled weak key raw rest)
    (hkey : key a ∈ rest.map key) (ha : weak a) : Settled weak key (raw ++ [a]) rest where
  nodup := h.nodup
  mem b hb := List.mem_append_left _ (h.mem b hb)
  key_mem b hb := by
    rcases List.mem_append.mp hb with hb | hb
    · exact h.key_mem b hb
    · rwa [List.mem_singleton.mp hb]
  strong := by
    have hnil : Overriding.strong weak [a] = [] := strong_eq_nil_iff.mpr (by simpa using ha)
    rw [strong_append, hnil, List.append_nil]
    exact h.strong

/-- An entry that replaces a weak one of its key -/
theorem replace {raw l l' : List α} {a b : α} (h : Settled weak key raw (l ++ b :: l'))
    (hkey : key b = key a) (hb : weak b) : Settled weak key (raw ++ [a]) (l ++ a :: l') where
  nodup := by
    have hnodup := h.nodup
    rwa [List.map_append, List.map_cons, hkey, ← List.map_cons, ← List.map_append] at hnodup
  mem c hc := by
    rcases List.mem_append.mp hc with hc | hc
    · exact List.mem_append_left _ (h.mem c (List.mem_append_left _ hc))
    · rcases List.mem_cons.mp hc with rfl | hc
      · exact List.mem_append_right _ (List.mem_singleton.mpr rfl)
      · exact List.mem_append_left _ (h.mem c (List.mem_append_right _ (.tail _ hc)))
  key_mem c hc := by
    rw [List.map_append, List.map_cons, ← hkey, ← List.map_cons, ← List.map_append]
    rcases List.mem_append.mp hc with hc | hc
    · exact h.key_mem c hc
    · rw [List.mem_singleton.mp hc, ← hkey]
      exact List.mem_map_of_mem (List.mem_append_right _ (.head _))
  strong := by
    have hnil : Overriding.strong weak [b] = [] := strong_eq_nil_iff.mpr (by simpa using hb)
    have hstrong := h.strong
    rw [strong_append, ← List.singleton_append, strong_append, hnil, List.nil_append] at hstrong
    rw [strong_append, strong_append, ← List.singleton_append, strong_append]
    refine .trans ?_ (hstrong.append_right _)
    rw [List.append_assoc]
    exact List.perm_append_comm.append_left _

theorem perm {raw rest rest' : List α} (h : Settled weak key raw rest) (hperm : rest'.Perm rest) :
    Settled weak key raw rest' where
  nodup := (hperm.map key).nodup_iff.mpr h.nodup
  mem a ha := h.mem a (hperm.mem_iff.mp ha)
  key_mem a ha := (hperm.map key).mem_iff.mpr (h.key_mem a ha)
  strong := (hperm.filter _).trans h.strong

/-- The entries that are looked up by their keys -/
theorem filter {raw rest : List α} {p : α → Bool} (h : Settled weak key raw rest)
    (hp : ∀ a b, key a = key b → p a = p b) : Thins weak (raw.filter p) (rest.filter p) where
  subperm := by
    apply List.subperm_of_subset (h.nodup.of_map.filter p)
    intro a ha
    rw [List.mem_filter] at ha ⊢
    exact ⟨h.mem a ha.1, ha.2⟩
  nonempty hnil := by
    rw [List.filter_eq_nil_iff] at hnil ⊢
    intro a ha
    obtain ⟨b, hb, hkey⟩ := List.mem_map.mp (h.key_mem a ha)
    rw [← hp b a hkey]
    exact hnil b hb
  strong := by
    have hcomm : ∀ l : List α,
        Overriding.strong weak (l.filter p) = (Overriding.strong weak l).filter p := by
      intro l
      unfold Overriding.strong
      rw [List.filter_filter, List.filter_filter]
      congr 1
      funext a
      exact Bool.and_comm _ _
    rw [hcomm, hcomm]
    exact h.strong.filter p

end Settled

end Keys

end Overriding
