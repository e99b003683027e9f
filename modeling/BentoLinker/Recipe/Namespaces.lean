import BentoLinker.Recipe.Arguments
import Mathlib.Tactic.ByContra

/-!
# Names with Dots

What `nsnest` makes of the attributes of a namespace.

- `lookup_filter`, `lookup_map_snd`, `lookup_map_keys`: lookups in changed lists of pairs
- `lookup_setattr`: an attribute that is set
- `splitOn_dotted`: the names in a name with dots
- `lookup_inside`: a scope has the names behind its dot
- `at_nsnest_iff`: a path leads to a value just if its name has this value, and is no scope
-/

namespace BentoLinker.Recipe

/-! ## Section 1: Lists of pairs -/

section

variable {α β γ : Type} [BEq α] [LawfulBEq α] [DecidableEq α] {a : α}

theorem lookup_cons_eq (k : α) (v : β) (l : List (α × β)) :
    ((k, v) :: l).lookup a = if a = k then some v else l.lookup a := by
  rw [List.lookup_cons]
  by_cases h : a = k
  · rw [if_pos h, beq_iff_eq.mpr h]
  · rw [if_neg h, beq_eq_false_iff_ne.mpr h]

/-- A filter on the keys takes the pairs with a key, or leaves them. -/
theorem lookup_filter (p : α → Bool) (l : List (α × β)) :
    (l.filter fun kv => p kv.1).lookup a = if p a then l.lookup a else none := by
  induction l with
  | nil => simp
  | cons kv l ih =>
    obtain ⟨k, v⟩ := kv
    rw [List.filter_cons, lookup_cons_eq]
    by_cases ha : a = k
    · subst ha
      by_cases hp : p a = true
      · rw [if_pos hp, if_pos hp, lookup_cons_eq, if_pos rfl, if_pos rfl]
      · rw [if_neg hp, ih, if_neg hp, if_neg hp]
    · rw [if_neg ha, ← ih]
      split
      · rw [lookup_cons_eq, if_neg ha]
      · rfl

theorem lookup_map_snd (f : β → γ) (l : List (α × β)) :
    (l.map fun kv => (kv.1, f kv.2)).lookup a = (l.lookup a).map f := by
  induction l with
  | nil => rfl
  | cons kv l ih =>
    obtain ⟨k, v⟩ := kv
    rw [List.map_cons, lookup_cons_eq, lookup_cons_eq, ih]
    split <;> rfl

theorem lookup_map_keys (f : α → β) (l : List α) :
    (l.map fun k => (k, f k)).lookup a = if a ∈ l then some (f a) else none := by
  induction l with
  | nil => rfl
  | cons k l ih =>
    rw [List.map_cons, lookup_cons_eq, ih]
    by_cases ha : a = k
    · rw [if_pos ha, if_pos (List.mem_cons.mpr (.inl ha)), ha]
    · rw [if_neg ha]
      simp only [List.mem_cons, ha, false_or]

end

/-- An attribute is set, and the others keep their values. -/
theorem lookup_setattr (k : Text) (v : Option Leaf) (ns : Flat) (n : Text) :
    (setattr k v ns).lookup n = if n = k then some v else ns.lookup n := by
  induction ns with
  | nil => exact lookup_cons_eq k v []
  | cons kv ns ih =>
    obtain ⟨k', v'⟩ := kv
    rw [setattr]
    by_cases hk : k' = k
    · subst hk
      rw [if_pos rfl, lookup_cons_eq, lookup_cons_eq]
      split <;> rfl
    · rw [if_neg hk, lookup_cons_eq, lookup_cons_eq, ih]
      by_cases hn : n = k'
      · rw [if_pos hn, if_pos hn, if_neg (hn ▸ hk)]
      · rw [if_neg hn, if_neg hn]

/-! ## Section 2: Paths -/

variable {scope n : Text} {path : List Text}

theorem dotted_cons {k : Text} (hpath : path ≠ []) :
    dotted (k :: path) = k ++ '.' :: dotted path := by
  cases path with
  | nil => exact absurd rfl hpath
  | cons k' path => rfl

theorem splitOn_dotted (hne : path ≠ []) (hpath : ∀ k ∈ path, '.' ∉ k) :
    (dotted path).splitOn '.' = path := by
  induction path with
  | nil => exact absurd rfl hne
  | cons k path ih =>
    rw [List.forall_mem_cons] at hpath
    rcases eq_or_ne path [] with rfl | hne
    · exact List.splitOn_eq_singleton hpath.1
    · rw [dotted_cons hne, List.splitOn_append_cons_self_of_not_mem hpath.1, ih hne hpath.2]

/-- Paths with the same name are the same. -/
theorem dotted_inj {path' : List Text} (hne : path ≠ []) (hpath : ∀ k ∈ path, '.' ∉ k)
    (hne' : path' ≠ []) (hpath' : ∀ k ∈ path', '.' ∉ k) (h : dotted path = dotted path') :
    path = path' := by
  rw [← splitOn_dotted hne hpath, h, splitOn_dotted hne' hpath']

theorem mem_dotted {c : Char} (h : c ∈ dotted path) : c = '.' ∨ ∃ k ∈ path, c ∈ k := by
  induction path with
  | nil => exact absurd h List.not_mem_nil
  | cons k path ih =>
    rcases eq_or_ne path [] with rfl | hne
    · exact .inr ⟨k, List.mem_cons_self, h⟩
    · rw [dotted_cons hne] at h
      rcases List.mem_append.mp h with h | h
      · exact .inr ⟨k, List.mem_cons_self, h⟩
      · rcases List.mem_cons.mp h with h | h
        · exact .inl h
        · rcases ih h with h | ⟨k', hk', h⟩
          · exact .inl h
          · exact .inr ⟨k', List.mem_cons_of_mem _ hk', h⟩

/-! ## Section 3: Scopes -/

theorem scopeOf_append (hscope : '.' ∉ scope) : scopeOf (scope ++ '.' :: n) = scope := by
  rw [scopeOf, List.takeWhile_append_of_pos, List.takeWhile_cons_of_neg (by simp), List.append_nil]
  intro c hc
  exact decide_eq_true (ne_of_mem_of_not_mem hc hscope)

theorem behind_append (hscope : '.' ∉ scope) :
    ((scope ++ '.' :: n).dropWhile (· ≠ '.')).drop 1 = n := by
  rw [List.dropWhile_append_of_pos, List.dropWhile_cons_of_neg (by simp), List.drop_one,
    List.tail_cons]
  intro c hc
  exact decide_eq_true (ne_of_mem_of_not_mem hc hscope)

theorem dot_notMem_scopeOf (k : Text) : '.' ∉ scopeOf k := by
  intro h
  have := List.mem_takeWhile_imp h
  simp at this

/-- A name with a dot is its scope, the dot, and what is behind it. -/
theorem scopeOf_append_behind {k : Text} (hk : '.' ∈ k) :
    scopeOf k ++ '.' :: (k.dropWhile (· ≠ '.')).drop 1 = k := by
  obtain ⟨s, n, rfl, hs⟩ := List.eq_append_cons_of_mem hk
  rw [scopeOf_append hs, behind_append hs]

theorem lookup_ne_none_iff {ns : Flat} : ns.lookup n ≠ none ↔ ∃ kv ∈ ns, kv.1 = n := by
  rw [ne_eq, List.lookup_eq_none_iff]
  simp only [not_forall, bne_iff_ne, ne_eq, not_not, exists_prop]
  exact exists_congr fun kv => and_congr_right fun _ => eq_comm

theorem inside_cons (scope k : Text) (v : Option Leaf) (ns : Flat) :
    inside scope ((k, v) :: ns) =
      if '.' ∈ k ∧ scopeOf k = scope then
        ((k.dropWhile (· ≠ '.')).drop 1, v) :: inside scope ns
      else inside scope ns := by
  rw [inside, List.filter_cons]
  by_cases h : '.' ∈ k ∧ scopeOf k = scope
  · rw [if_pos h, if_pos (decide_eq_true h), List.map_cons]
    rfl
  · rw [if_neg h, if_neg (by rwa [decide_eq_true_eq])]
    rfl

/-- A scope has the names behind its dot. -/
theorem lookup_inside (hscope : '.' ∉ scope) (ns : Flat) :
    (inside scope ns).lookup n = ns.lookup (scope ++ '.' :: n) := by
  induction ns with
  | nil => rfl
  | cons kv ns ih =>
    obtain ⟨k, v⟩ := kv
    rw [inside_cons, lookup_cons_eq]
    -- a name is kept without its scope just if it has this one
    split
    · next h =>
      obtain ⟨hdot, rfl⟩ := h
      have hk : scopeOf k ++ '.' :: n = k ↔ n = (k.dropWhile (· ≠ '.')).drop 1 := by
        conv_lhs => rhs; rw [← scopeOf_append_behind hdot]
        simp
      rw [lookup_cons_eq, ih]
      simp only [hk]
    · next h =>
      rw [ih, if_neg]
      rintro rfl
      exact h ⟨by simp, scopeOf_append hscope⟩

theorem mem_scopes_iff {ns : Flat} :
    scope ∈ scopes ns ↔ '.' ∉ scope ∧ ∃ n, ns.lookup (scope ++ '.' :: n) ≠ none := by
  rw [scopes, List.mem_dedup, List.mem_map]
  constructor
  · rintro ⟨kv, hkv, rfl⟩
    obtain ⟨hmem, hdot⟩ := List.mem_filter.mp hkv
    refine ⟨dot_notMem_scopeOf _, (kv.1.dropWhile (· ≠ '.')).drop 1, ?_⟩
    rw [scopeOf_append_behind (of_decide_eq_true hdot)]
    exact lookup_ne_none_iff.mpr ⟨kv, hmem, rfl⟩
  · rintro ⟨hscope, n, hn⟩
    obtain ⟨kv, hmem, hkv⟩ := lookup_ne_none_iff.mp hn
    refine ⟨kv, List.mem_filter.mpr ⟨hmem, decide_eq_true ?_⟩, ?_⟩
    · rw [hkv]
      simp
    · rw [hkv, scopeOf_append hscope]

/-- Each name in a scope is shorter, at least by its dot. -/
theorem sum_inside_le (scope : Text) (ns : Flat) :
    ((inside scope ns).map fun kv => kv.1.length).sum + (inside scope ns).length ≤
      (ns.map fun kv => kv.1.length).sum := by
  induction ns with
  | nil => exact Nat.le_refl _
  | cons kv ns ih =>
    obtain ⟨k, v⟩ := kv
    rw [inside_cons, List.map_cons, List.sum_cons]
    split
    · next h =>
      have hlength := congrArg List.length (scopeOf_append_behind h.1)
      rw [List.length_append, List.length_cons] at hlength
      rw [List.map_cons, List.sum_cons, List.length_cons]
      dsimp only
      omega
    · exact Nat.le_trans ih (Nat.le_add_left _ _)

theorem depth_inside_lt {ns : Flat} (h : scope ∈ scopes ns) :
    depth (inside scope ns) < depth ns := by
  obtain ⟨hscope, n, hn⟩ := mem_scopes_iff.mp h
  rw [← lookup_inside hscope] at hn
  have hpos : 0 < (inside scope ns).length := by
    obtain ⟨kv, hkv, -⟩ := lookup_ne_none_iff.mp hn
    exact List.length_pos_of_mem hkv
  have hle := sum_inside_le scope ns
  unfold depth
  omega

/-! ## Section 4: Nested namespaces -/

theorem lookup_nsnest (fuel : ℕ) (ns : Flat) (k : Text) :
    (nsnest (fuel + 1) ns).lookup k =
      if k ∈ scopes ns then some (.node (nsnest fuel (inside k ns)))
      else if '.' ∈ k then none else (ns.lookup k).map .leaf := by
  have hleaves : ((ns.filter fun kv => '.' ∉ kv.1 ∧ !(scopes ns).contains kv.1).map
      fun kv => (kv.1, Space.leaf kv.2)).lookup k =
        if '.' ∉ k ∧ k ∉ scopes ns then (ns.lookup k).map .leaf else none := by
    rw [lookup_map_snd, lookup_filter fun k => decide ('.' ∉ k ∧ !(scopes ns).contains k)]
    simp only [decide_eq_true_eq, Bool.not_eq_true', List.contains_eq_mem, decide_eq_false_iff_not]
    split <;> rfl
  rw [nsnest, List.lookup_append, hleaves, lookup_map_keys]
  by_cases hscope : k ∈ scopes ns
  · rw [if_pos hscope, if_neg (fun h => h.2 hscope), if_pos hscope]
    rfl
  · rw [if_neg hscope, if_neg hscope, Option.or_none]
    by_cases hdot : '.' ∈ k
    · rw [if_pos hdot, if_neg (fun h => h.1 hdot)]
    · rw [if_neg hdot, if_pos ⟨hdot, hscope⟩]

/-- A path leads to a value just if its name has the value, and is no scope. -/
theorem at_nsnest_iff {fuel : ℕ} {ns : Flat} {v : Option Leaf} (hfuel : depth ns ≤ fuel) :
    (Space.node (nsnest fuel ns)).at_ path = some (.leaf v) ↔
      path ≠ [] ∧ (∀ k ∈ path, '.' ∉ k) ∧ ns.lookup (dotted path) = some v ∧
        ∀ n, ns.lookup (dotted path ++ '.' :: n) = none := by
  induction path generalizing fuel ns with
  | nil => simp [Space.at_]
  | cons k path ih =>
    obtain ⟨fuel, rfl⟩ : ∃ f, fuel = f + 1 := ⟨fuel - 1, by unfold depth at hfuel; omega⟩
    rw [Space.at_, lookup_nsnest]
    -- a scope replaces an attribute of its name
    by_cases hscope : k ∈ scopes ns
    · obtain ⟨hdot, n, hn⟩ := mem_scopes_iff.mp hscope
      have hlt := depth_inside_lt hscope
      rw [if_pos hscope, Option.bind_some, ih (by omega)]
      cases path with
      | nil => exact iff_of_false (fun h => h.1 rfl) fun h => hn (h.2.2.2 n)
      | cons k' path =>
        rw [dotted_cons (List.cons_ne_nil k' path), lookup_inside hdot]
        simp [lookup_inside hdot, hdot]
    · rw [if_neg hscope]
      cases path with
      | nil =>
        by_cases hdot : '.' ∈ k
        · rw [if_pos hdot]
          exact iff_of_false (by simp) fun h => h.2.1 k List.mem_cons_self hdot
        · have hnone : ∀ n, ns.lookup (k ++ '.' :: n) = none := by
            intro n
            by_contra hn
            exact hscope (mem_scopes_iff.mpr ⟨hdot, n, hn⟩)
          rw [if_neg hdot]
          simp [Space.at_, dotted, hdot, hnone]
      | cons k' path =>
        refine iff_of_false ?_ ?_
        · split
          · simp
          · cases ns.lookup k <;> simp [Space.at_]
        · rintro ⟨-, hpath, hlookup, -⟩
          apply hscope
          refine mem_scopes_iff.mpr ⟨hpath k List.mem_cons_self, dotted (k' :: path), ?_⟩
          rw [← dotted_cons (List.cons_ne_nil k' path), hlookup]
          exact Option.some_ne_none v

end BentoLinker.Recipe
