import Mathlib.Data.Option.Basic
import Mathlib.Logic.Function.Basic

/-!
# Trees of Settings

Nested namespaces of optional values, and the merge of two of them in which the second one
overrides the first.

- `Setting`: a value, a section of named settings, or nothing
- `Setting.merge`: sections are merged key by key, otherwise what is there of the second wins
- `Setting.Fits`: values and sections are where a grammar of options has them
- `Setting.get_merge`: an option of a merge is that of the second setting, else of the first

What is not there and what is set to nothing are the same. A merge can lose settings only where
a value meets a section, which settings of one grammar rule out.
-/

/-- A tree of settings. A section is given by what each of its keys holds. -/
inductive Setting (α : Type*) where
  | none
  | value (v : α)
  | section_ (entries : String → Setting α)

namespace Setting

variable {α : Type*}

/-- The second setting overrides the first, recursively. -/
def merge : Setting α → Setting α → Setting α
  | section_ f, section_ g => section_ fun k => merge (f k) (g k)
  | a, none => a
  | _, b => b

/-- What is under a key -/
def sub (s : Setting α) (k : String) : Setting α :=
  match s with
  | section_ f => f k
  | _ => none

/-- What is under a path of keys -/
def at_ (s : Setting α) : List String → Setting α
  | [] => s
  | k :: p => (s.sub k).at_ p

/-- The value under a path of keys -/
def get (s : Setting α) (p : List String) : Option α :=
  match s.at_ p with
  | value v => some v
  | _ => Option.none

/-- The setting with another one under a key -/
def put (s : Setting α) (k : String) (x : Setting α) : Setting α :=
  match s with
  | section_ f => section_ (Function.update f k x)
  | s => s

/-- The values of the setting are options, and none of its sections is one. -/
structure Fits (opt : List String → Prop) (s : Setting α) : Prop where
  value : ∀ p v, s.at_ p = value v → opt p
  section_ : ∀ p f, s.at_ p = section_ f → ¬ opt p

/-! ## Section 1: Lookup -/

@[simp] theorem at_nil (s : Setting α) : s.at_ [] = s := rfl

@[simp] theorem at_cons (s : Setting α) (k : String) (p : List String) :
    s.at_ (k :: p) = (s.sub k).at_ p := rfl

@[simp] theorem at_none (p : List String) : (none : Setting α).at_ p = none := by
  induction p with
  | nil => rfl
  | cons k p ih => exact ih

theorem at_value_cons (v : α) (k : String) (p : List String) :
    (value v : Setting α).at_ (k :: p) = none := at_none p

theorem at_append (s : Setting α) (p q : List String) : s.at_ (p ++ q) = (s.at_ p).at_ q := by
  induction p generalizing s with
  | nil => rfl
  | cons k p ih => exact ih (s.sub k)

theorem get_cons (s : Setting α) (k : String) (p : List String) :
    s.get (k :: p) = (s.sub k).get p := rfl

@[simp] theorem get_none (p : List String) : (none : Setting α).get p = Option.none := by
  unfold get
  rw [at_none]

theorem get_eq_some {s : Setting α} {p : List String} {v : α} :
    s.get p = some v ↔ s.at_ p = value v := by
  unfold get
  split
  · next w hw => rw [hw, Option.some.injEq, value.injEq]
  · next hne =>
    exact iff_of_false (by intro h; cases h) (hne v)

@[simp] theorem merge_none (a : Setting α) : a.merge none = a := by
  cases a <;> rfl

@[simp] theorem none_merge (b : Setting α) : merge none b = b := by
  cases b <;> rfl

/-! ## Section 2: Merges -/

/-- What a merge has under a path comes from one of the two, or is a section of both. -/
theorem at_merge_cases (a b : Setting α) (p : List String) :
    (a.merge b).at_ p = a.at_ p ∨ (a.merge b).at_ p = b.at_ p ∨
      ∃ f g h, a.at_ p = section_ f ∧ b.at_ p = section_ g ∧ (a.merge b).at_ p = section_ h := by
  induction p generalizing a b with
  | nil =>
    cases a with
    | section_ f =>
      cases b with
      | section_ g => exact .inr (.inr ⟨f, g, _, rfl, rfl, rfl⟩)
      | none => exact .inl rfl
      | value v => exact .inr (.inl rfl)
    | none => exact .inr (.inl (none_merge b))
    | value v =>
      cases b with
      | none => exact .inl rfl
      | value w => exact .inr (.inl rfl)
      | section_ g => exact .inr (.inl rfl)
  | cons k p ih =>
    cases a with
    | section_ f =>
      cases b with
      | section_ g => exact ih (f k) (g k)
      | none => exact .inl rfl
      | value v => exact .inr (.inl rfl)
    | none => exact .inr (.inl (by rw [none_merge]))
    | value v =>
      cases b with
      | none => exact .inl rfl
      | value w => exact .inr (.inl rfl)
      | section_ g => exact .inr (.inl rfl)

variable {opt : List String → Prop} {a b s : Setting α}

theorem fits_none : Fits opt (none : Setting α) where
  value p v h := by rw [at_none] at h; cases h
  section_ p f h := by rw [at_none] at h; cases h

theorem Fits.merge (ha : a.Fits opt) (hb : b.Fits opt) : (a.merge b).Fits opt where
  value p v h := by
    rcases at_merge_cases a b p with hleft | hright | ⟨f, g, e, -, -, hboth⟩
    · exact ha.value p v (hleft.symm.trans h)
    · exact hb.value p v (hright.symm.trans h)
    · rw [hboth] at h
      cases h
  section_ p f h := by
    rcases at_merge_cases a b p with hleft | hright | ⟨f, g, e, hf, -, -⟩
    · exact ha.section_ p _ (hleft.symm.trans h)
    · exact hb.section_ p _ (hright.symm.trans h)
    · exact ha.section_ p f hf

/-- A section of a setting fits the options below it. -/
theorem Fits.at_ (h : s.Fits opt) (p : List String) : (s.at_ p).Fits fun q => opt (p ++ q) where
  value q v hq := h.value _ v ((at_append s p q).trans hq)
  section_ q f hq := h.section_ _ f ((at_append s p q).trans hq)

theorem Fits.congr {opt' : List String → Prop} (h : s.Fits opt) (hopt : ∀ p, opt p ↔ opt' p) :
    s.Fits opt' where
  value p v hp := (hopt p).mp (h.value p v hp)
  section_ p f hp := fun hp' => h.section_ p f hp ((hopt p).mpr hp')

theorem fits_value {v : α} (h : opt []) : Fits opt (Setting.value v) where
  value p w hp := by
    cases p with
    | nil => exact h
    | cons k p =>
      rw [at_value_cons] at hp
      cases hp
  section_ p f hp := by
    cases p with
    | nil => cases hp
    | cons k p =>
      rw [at_value_cons] at hp
      cases hp

theorem fits_empty (h : ¬ opt []) : Fits opt (Setting.section_ fun _ => (none : Setting α)) where
  value p v hp := by
    cases p with
    | nil => cases hp
    | cons k p =>
      rw [show at_ _ (k :: p) = none from at_none p] at hp
      cases hp
  section_ p f hp := by
    cases p with
    | nil => exact h
    | cons k p =>
      rw [show at_ _ (k :: p) = none from at_none p] at hp
      cases hp

theorem at_put (f : String → Setting α) (k c : String) (x : Setting α) (p : List String) :
    ((Setting.section_ f).put k x).at_ (c :: p) =
      if c = k then x.at_ p else (Setting.section_ f).at_ (c :: p) := by
  change (Function.update f k x c).at_ p = _
  by_cases hc : c = k
  · rw [hc, Function.update_self, if_pos rfl]
  · rw [Function.update_of_ne hc, if_neg hc]
    rfl

/-- Another setting under a key -/
theorem Fits.put {k : String} {x : Setting α} (h : s.Fits opt)
    (hx : x.Fits fun p => opt (k :: p)) : (s.put k x).Fits opt := by
  cases s with
  | none => exact h
  | value v => exact h
  | section_ f =>
    constructor
    · intro p v hp
      cases p with
      | nil => cases hp
      | cons c p =>
        rw [at_put] at hp
        split at hp
        · next hc =>
          rw [hc]
          exact hx.value p v hp
        · exact h.value (c :: p) v hp
    · intro p e hp
      cases p with
      | nil => exact h.section_ [] f rfl
      | cons c p =>
        rw [at_put] at hp
        split at hp
        · next hc =>
          rw [hc]
          exact hx.section_ p e hp
        · exact h.section_ (c :: p) e hp

/-- An option of a merge, for options none of which is on the way to another -/
theorem get_merge (hfree : ∀ p q, opt p → opt (p ++ q) → q = []) (ha : a.Fits opt)
    (hb : b.Fits opt) {p : List String} (hp : opt p) :
    (a.merge b).get p = (b.get p).or (a.get p) := by
  induction p generalizing a b opt with
  | nil =>
    cases a with
    | section_ f => exact absurd hp (ha.section_ [] f rfl)
    | none => rw [none_merge, get_none, Option.or_none]
    | value v =>
      cases b with
      | section_ g => exact absurd hp (hb.section_ [] g rfl)
      | none => rfl
      | value w => rfl
  | cons k p ih =>
    -- a value here would be an option on the way
    have hnot : ¬ opt [] := fun hnil => List.cons_ne_nil k p (hfree [] (k :: p) hnil hp)
    cases a with
    | value v => exact absurd (ha.value [] v rfl) hnot
    | none => rw [none_merge, get_none, Option.or_none]
    | section_ f =>
      cases b with
      | value v => exact absurd (hb.value [] v rfl) hnot
      | none => rw [merge_none, get_none, Option.none_or]
      | section_ g =>
        have hfree' : ∀ p q, opt (k :: p) → opt (k :: (p ++ q)) → q = [] :=
          fun p q => hfree (k :: p) q
        exact ih hfree' (ha.at_ [k]) (hb.at_ [k]) hp

theorem get_put_of_ne {k c : String} {x : Setting α} (hc : c ≠ k) (p : List String) :
    (s.put k x).get (c :: p) = s.get (c :: p) := by
  cases s with
  | section_ f =>
    change (Function.update f k x c).get p = (f c).get p
    rw [Function.update_of_ne hc]
  | none => rfl
  | value v => rfl

end Setting
