import Mathlib.Data.List.Nodup

/-!
# Names that Are Escaped Once

A generator of names that keeps a name unless it is taken, and escapes it else. It does not look
whether the escaped name is taken as well.

- `fresh`: the name that is generated
- `nodup_append_iff`: with the names that are given, the generated ones are distinct unless the
  escaped form of a taken name is given
- `lookup_zip`: distinct names that are bound to values have these
-/

namespace FreshNames

variable {α : Type*} [DecidableEq α]

/-- The name for `base`, where the names `taken` are in use -/
def fresh (esc : α → α) (taken : List α) (base : α) : α :=
  if base ∈ taken then esc base else base

variable {esc : α → α} {taken names bases : List α}

theorem fresh_mem_iff (hsub : names ⊆ taken) {base : α} :
    fresh esc taken base ∈ names ↔ base ∈ taken ∧ esc base ∈ names := by
  rw [fresh]
  split
  · next htaken => exact ⟨fun h => ⟨htaken, h⟩, And.right⟩
  · next hfree => exact ⟨fun h => absurd (hsub h) hfree, fun h => absurd h.1 hfree⟩

/-- No base is the escaped form of another one. -/
theorem fresh_inj (hesc : Function.Injective esc)
    (hbases : ∀ base ∈ bases, ∀ base' ∈ bases, esc base ≠ base') :
    ∀ base ∈ bases, ∀ base' ∈ bases, fresh esc taken base = fresh esc taken base' →
      base = base' := by
  intro base hbase base' hbase' h
  rw [fresh, fresh] at h
  split_ifs at h
  · exact hesc h
  · exact absurd h (hbases base hbase base' hbase')
  · exact absurd h.symm (hbases base' hbase' base hbase)
  · exact h

theorem nodup_append_iff (hesc : Function.Injective esc)
    (hbases : ∀ base ∈ bases, ∀ base' ∈ bases, esc base ≠ base') (hnodup : bases.Nodup)
    (hnames : names.Nodup) (hsub : names ⊆ taken) :
    (names ++ bases.map (fresh esc taken)).Nodup ↔
      ∀ base ∈ bases, base ∈ taken → esc base ∉ names := by
  have hgenerated : (bases.map (fresh esc taken)).Nodup :=
    hnodup.map_on (fresh_inj hesc hbases)
  rw [List.nodup_append']
  constructor
  · rintro ⟨-, -, hdisjoint⟩ base hbase htaken hmem
    exact hdisjoint ((fresh_mem_iff hsub).mpr ⟨htaken, hmem⟩) (List.mem_map_of_mem hbase)
  · intro hfree
    refine ⟨hnames, hgenerated, fun name hname hmem => ?_⟩
    obtain ⟨base, hbase, rfl⟩ := List.mem_map.mp hmem
    obtain ⟨htaken, hesc⟩ := (fresh_mem_iff hsub).mp hname
    exact hfree base hbase htaken hesc

/-- Names that are distinct have the values that they are bound to. -/
theorem lookup_zip {β : Type*} {vals : List β} {name : α} {v : β} (hnodup : names.Nodup)
    (h : (name, v) ∈ names.zip vals) : (names.zip vals).lookup name = some v := by
  induction names generalizing vals with
  | nil => cases h
  | cons first names ih =>
    cases vals with
    | nil => cases h
    | cons val vals =>
      rw [List.zip_cons_cons] at h ⊢
      rw [List.lookup_cons]
      obtain ⟨hfirst, hnames⟩ := List.nodup_cons.mp hnodup
      rcases List.mem_cons.mp h with heq | hmem
      · cases heq
        rw [beq_self_eq_true]
      · have hne : name ≠ first := fun heq => hfirst (heq ▸ (List.of_mem_zip hmem).1)
        rw [beq_eq_false_iff_ne.mpr hne]
        exact ih hnames hmem

end FreshNames
