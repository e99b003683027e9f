import Mathlib.Data.List.Basic
import Mathlib.Data.Nat.Notation

/-!
# Backtracking Matchers

Regular expressions as a backtracking matcher tries them: in order, the longest first, with
groups.

- `Pattern`, `search`: the matcher, which goes on from each end of a match until it succeeds
- `Takes`: the matcher's first try reads this text and sets these groups
- `Refuses`: it cannot read anything
- `Takes.cons`, `Takes.star_cons`, `Takes.alt_left`, `Takes.alt_right`, `Takes.group`: the rules
- `takes_class`, `takes_literal`, `takes_keyword`: the first tries that are the longest ones
- `exists_of_search`, `sets_of_run`: what every try has

Where the first try leads to the end, nothing else is tried. A text that is all first tries
is matched without looking at the others.
-/

namespace Backtracking

/-! ## Section 1: Patterns -/

/-- A regular expression -/
inductive Pattern where
  | empty
  | cls (p : Char → Bool)
  | seq (r q : Pattern)
  | alt (r q : Pattern)
  | opt (r : Pattern)
  | star (r : Pattern)
  | group (n : ℕ) (r : Pattern)
  /-- The end of a word, or its start -/
  | boundary
  /-- The end of the text, or a line feed in front of it -/
  | stop

/-- One after another -/
def seqs : List Pattern → Pattern
  | [] => .empty
  | r :: rs => .seq r (seqs rs)

/-- Once or more -/
def plus (r : Pattern) : Pattern := .seq r (.star r)

/-- A text as it is -/
def literal (w : List Char) : Pattern := seqs (w.map fun c => .cls (· == c))

/-- One of several texts -/
def oneOf : List (List Char) → Pattern
  | [] => .cls fun _ => false
  | [w] => literal w
  | w :: ws => .alt (literal w) (oneOf ws)

/-- Where the matcher is: the character it has read last, the rest, and the groups, with the
newest first -/
structure State where
  before : Option Char
  rest : List Char
  groups : List (ℕ × List Char)
  deriving Repr, DecidableEq

/-- At the start of a text -/
def State.start (text : List Char) : State := ⟨none, text, []⟩

section Matcher

variable {α : Type}

/-- A repetition, the longest first. A turn that reads nothing is not made. -/
def iterate (f : State → (State → Option α) → Option α) :
    ℕ → State → (State → Option α) → Option α
  | 0, s, k => k s
  | n + 1, s, k =>
    (f s fun t => if t.rest.length < s.rest.length then iterate f n t k else none).orElse
      fun _ => k s

/-- The matcher, with what is to be matched behind the pattern, for the characters of words -/
def search (word : Char → Bool) : Pattern → State → (State → Option α) → Option α
  | .empty, s, k => k s
  | .cls p, ⟨_, c :: rest, groups⟩, k => if p c then k ⟨some c, rest, groups⟩ else none
  | .cls _, ⟨_, [], _⟩, _ => none
  | .seq r q, s, k => search word r s fun t => search word q t k
  | .alt r q, s, k => (search word r s k).orElse fun _ => search word q s k
  | .opt r, s, k => (search word r s k).orElse fun _ => k s
  | .star r, s, k => iterate (search word r) s.rest.length s k
  | .group n r, s, k =>
    search word r s fun t =>
      k { t with groups := (n, s.rest.take (s.rest.length - t.rest.length)) :: t.groups }
  | .boundary, s, k => if s.before.any word != s.rest.head?.any word then k s else none
  | .stop, s, k => if s.rest = [] ∨ s.rest = ['\n'] then k s else none

end Matcher

/-- The groups of a match from the start of a text -/
def run (word : Char → Bool) (r : Pattern) (text : List Char) :
    Option (List (ℕ × List Char)) :=
  search word r (.start text) fun t => some t.groups

/-! ## Section 2: All tries -/

/-- The texts of a pattern, whatever is around them -/
def Reads : Pattern → List Char → Prop
  | .empty, w => w = []
  | .cls p, w => ∃ c, p c = true ∧ w = [c]
  | .seq r q, w => ∃ u v, w = u ++ v ∧ Reads r u ∧ Reads q v
  | .alt r q, w => Reads r w ∨ Reads q w
  | .opt r, w => Reads r w ∨ w = []
  | .star r, w => ∃ us : List (List Char), w = us.flatten ∧ ∀ u ∈ us, Reads r u
  | .group _ r, w => Reads r w
  | .boundary, w | .stop, w => w = []

/-- The texts that a group can have -/
def Sets : Pattern → ℕ → List Char → Prop
  | .empty, _, _ | .cls _, _, _ | .boundary, _, _ | .stop, _, _ => False
  | .seq r q, n, w | .alt r q, n, w => Sets r n w ∨ Sets q n w
  | .opt r, n, w | .star r, n, w => Sets r n w
  | .group m r, n, w => m = n ∧ Reads r w ∨ Sets r n w

theorem not_sets_literal (w : List Char) (n : ℕ) (u : List Char) : ¬Sets (literal w) n u := by
  induction w with
  | nil => exact id
  | cons c w ih =>
    rintro (h | h)
    · exact h
    · exact ih h

/-- What a match from `s` to `t` has read and set -/
def Matches (r : Pattern) (s t : State) : Prop :=
  ∃ w gs, s.rest = w ++ t.rest ∧ Reads r w ∧ t.groups = gs ++ s.groups ∧
    ∀ g ∈ gs, Sets r g.1 g.2

theorem orElse_eq_some {α : Type} {x : Option α} {f : Unit → Option α} {a : α}
    (h : x.orElse f = some a) : x = some a ∨ f () = some a := by
  cases x with
  | none => exact .inr h
  | some a => exact .inl h

section Every

variable {α : Type} {word : Char → Bool} {r : Pattern} {s t : State} {k : State → Option α} {a : α}

theorem matches_self (hr : Reads r []) : Matches r s s := ⟨[], [], rfl, hr, rfl, nofun⟩

theorem exists_of_iterate {f : State → (State → Option α) → Option α} {n : ℕ}
    (hf : ∀ s k, f s k = some a → ∃ t, Matches r s t ∧ k t = some a)
    (h : iterate f n s k = some a) : ∃ t, Matches (.star r) s t ∧ k t = some a := by
  have hnil : Reads (.star r) [] := ⟨[], rfl, nofun⟩
  induction n generalizing s with
  | zero => exact ⟨s, matches_self hnil, h⟩
  | succ n ih =>
    rcases orElse_eq_some h with h | h
    · obtain ⟨u, ⟨w, gs, hw, hreads, hgs, hsets⟩, hu⟩ := hf s _ h
      split at hu
      · obtain ⟨t, ⟨w', gs', hw', ⟨us, rfl, hus⟩, hgs', hsets'⟩, ht⟩ := ih hu
        refine ⟨t, ⟨w ++ us.flatten, gs' ++ gs, ?_, ⟨w :: us, rfl, ?_⟩, ?_, ?_⟩, ht⟩
        · rw [hw, hw', List.append_assoc]
        · intro u' hu'
          rcases List.mem_cons.mp hu' with rfl | hu'
          · exact hreads
          · exact hus u' hu'
        · rw [hgs', hgs, List.append_assoc]
        · intro g hg
          rcases List.mem_append.mp hg with hg | hg
          · exact hsets' g hg
          · exact hsets g hg
      · cases hu
    · exact ⟨s, matches_self hnil, h⟩

/-- A search that succeeds goes on from the end of a match. -/
theorem exists_of_search (h : search word r s k = some a) :
    ∃ t, Matches r s t ∧ k t = some a := by
  induction r generalizing s k with
  | empty => exact ⟨s, matches_self rfl, h⟩
  | cls p =>
    rcases s with ⟨b, _ | ⟨c, rest⟩, groups⟩
    · cases h
    · rw [search] at h
      split at h
      · next hc => exact ⟨_, ⟨[c], [], rfl, ⟨c, hc, rfl⟩, rfl, nofun⟩, h⟩
      · cases h
  | seq r q ihr ihq =>
    obtain ⟨u, ⟨w, gs, hw, hreads, hgs, hsets⟩, hu⟩ := ihr h
    obtain ⟨t, ⟨w', gs', hw', hreads', hgs', hsets'⟩, ht⟩ := ihq hu
    refine ⟨t, ⟨w ++ w', gs' ++ gs, ?_, ⟨w, w', rfl, hreads, hreads'⟩, ?_, ?_⟩, ht⟩
    · rw [hw, hw', List.append_assoc]
    · rw [hgs', hgs, List.append_assoc]
    · intro g hg
      rcases List.mem_append.mp hg with hg | hg
      · exact .inr (hsets' g hg)
      · exact .inl (hsets g hg)
  | alt r q ihr ihq =>
    rcases orElse_eq_some h with h | h
    · obtain ⟨t, ⟨w, gs, hw, hreads, hgs, hsets⟩, ht⟩ := ihr h
      exact ⟨t, ⟨w, gs, hw, .inl hreads, hgs, fun g hg => .inl (hsets g hg)⟩, ht⟩
    · obtain ⟨t, ⟨w, gs, hw, hreads, hgs, hsets⟩, ht⟩ := ihq h
      exact ⟨t, ⟨w, gs, hw, .inr hreads, hgs, fun g hg => .inr (hsets g hg)⟩, ht⟩
  | opt r ih =>
    rcases orElse_eq_some h with h | h
    · obtain ⟨t, ⟨w, gs, hw, hreads, hgs, hsets⟩, ht⟩ := ih h
      exact ⟨t, ⟨w, gs, hw, .inl hreads, hgs, hsets⟩, ht⟩
    · exact ⟨s, matches_self (.inr rfl), h⟩
  | star r ih => exact exists_of_iterate (fun s k => ih) h
  | group n r ih =>
    obtain ⟨u, ⟨w, gs, hw, hreads, hgs, hsets⟩, hu⟩ := ih h
    have hread : s.rest.take (s.rest.length - u.rest.length) = w := by
      rw [hw, List.length_append, Nat.add_sub_cancel, List.take_left]
    rw [hread] at hu
    refine ⟨{ u with groups := (n, w) :: u.groups }, ⟨w, (n, w) :: gs, hw, hreads, ?_, ?_⟩, hu⟩
    · exact congrArg _ hgs
    · intro g hg
      rcases List.mem_cons.mp hg with rfl | hg
      · exact .inl ⟨rfl, hreads⟩
      · exact .inr (hsets g hg)
  | boundary =>
    rw [search] at h
    split at h
    · exact ⟨s, matches_self rfl, h⟩
    · cases h
  | stop =>
    rw [search] at h
    split at h
    · exact ⟨s, matches_self rfl, h⟩
    · cases h

/-- Where there is nothing to go on from, there is no match. -/
theorem search_eq_none (hk : ∀ t, Matches r s t → k t = none) : search word r s k = none := by
  cases h : search word r s k with
  | none => rfl
  | some a =>
    obtain ⟨t, ht, hsome⟩ := exists_of_search h
    rw [hk t ht] at hsome
    cases hsome

/-- A group of a match has a text of its pattern. -/
theorem sets_of_run {text w : List Char} {gs : List (ℕ × List Char)} {n : ℕ}
    (hrun : run word r text = some gs) (hw : gs.lookup n = some w) : Sets r n w := by
  obtain ⟨t, ⟨-, gs', -, -, hgs, hsets⟩, ht⟩ := exists_of_search hrun
  obtain rfl := Option.some.inj ht
  have hmem : (n, w) ∈ t.groups := by
    obtain ⟨l₁, l₂, heq, -⟩ := List.lookup_eq_some_iff.mp hw
    rw [heq]
    exact List.mem_append_right _ (List.mem_cons_self ..)
  rw [hgs] at hmem
  rcases List.mem_append.mp hmem with hmem | hmem
  · exact hsets (n, w) hmem
  · cases hmem

end Every

/-! ## Section 3: First tries -/

/-- The last character in front of what comes behind `w` -/
def lastOf (b : Option Char) (w : List Char) : Option Char := w.foldl (fun _ c => some c) b

theorem lastOf_append (b : Option Char) (v w : List Char) :
    lastOf b (v ++ w) = lastOf (lastOf b v) w := List.foldl_append

/-- Behind a text of at least one character it is one of them. -/
theorem exists_lastOf {b : Option Char} {w : List Char} (hw : w ≠ []) :
    ∃ c ∈ w, lastOf b w = some c := by
  obtain ⟨v, c, rfl⟩ := (List.eq_nil_or_concat' w).resolve_left hw
  refine ⟨c, List.mem_append_right _ (List.mem_singleton_self _), ?_⟩
  rw [lastOf, List.foldl_append]
  rfl

section Tries

variable (word : Char → Bool)

/-- The first try at `r` reads `w`, with `rest` behind it, and sets the groups `gs`. When
what is behind it is matched from there, nothing else is tried. -/
def Takes (r : Pattern) (b : Option Char) (w rest : List Char) (gs : List (ℕ × List Char)) :
    Prop :=
  ∀ (groups : List (ℕ × List Char)) (k : State → Option (List (ℕ × List Char)))
    (a : List (ℕ × List Char)), k ⟨lastOf b w, rest, gs ++ groups⟩ = some a →
      search word r ⟨b, w ++ rest, groups⟩ k = some a

/-- `r` does not match anything in front of `rest`. -/
def Refuses (r : Pattern) (b : Option Char) (rest : List Char) : Prop :=
  ∀ (groups : List (ℕ × List Char)) (k : State → Option (List (ℕ × List Char))),
    search word r ⟨b, rest, groups⟩ k = none

variable {word} {r q : Pattern} {rs : List Pattern} {b : Option Char} {v w rest : List Char}
  {gs hs : List (ℕ × List Char)}

theorem takes_empty : Takes word .empty b [] rest [] := fun _ _ _ ha => ha

theorem Takes.seq (hr : Takes word r b w (v ++ rest) gs)
    (hq : Takes word q (lastOf b w) v rest hs) :
    Takes word (.seq r q) b (w ++ v) rest (hs ++ gs) := by
  intro groups k a ha
  rw [lastOf_append, List.append_assoc] at ha
  rw [List.append_assoc]
  exact hr groups _ a (hq (gs ++ groups) k a ha)

theorem Takes.cons (hr : Takes word r b w (v ++ rest) gs)
    (hrs : Takes word (seqs rs) (lastOf b w) v rest hs) :
    Takes word (seqs (r :: rs)) b (w ++ v) rest (hs ++ gs) :=
  hr.seq hrs

/-- A part that sets no group -/
theorem Takes.read (hr : Takes word r b w (v ++ rest) [])
    (hrs : Takes word (seqs rs) (lastOf b w) v rest hs) :
    Takes word (seqs (r :: rs)) b (w ++ v) rest hs := by
  have hcons := hr.cons hrs
  rwa [List.append_nil] at hcons

/-- A part that reads nothing -/
theorem Takes.skip (hr : Takes word r b [] (w ++ rest) [])
    (hrs : Takes word (seqs rs) b w rest hs) : Takes word (seqs (r :: rs)) b w rest hs :=
  Takes.read hr hrs

/-- The last part -/
theorem Takes.last (hr : Takes word r b w rest gs) : Takes word (seqs [r]) b w rest gs := by
  have hcons : Takes word (seqs [r]) b (w ++ []) rest ([] ++ gs) := Takes.cons hr takes_empty
  rwa [List.append_nil, List.nil_append] at hcons

theorem Takes.alt_left (hr : Takes word r b w rest gs) : Takes word (.alt r q) b w rest gs := by
  intro groups k a ha
  rw [search, hr groups k a ha]
  rfl

theorem Takes.alt_right (hr : Refuses word r b (w ++ rest)) (hq : Takes word q b w rest gs) :
    Takes word (.alt r q) b w rest gs := by
  intro groups k a ha
  rw [search, hr groups k]
  exact hq groups k a ha

theorem Takes.opt (hr : Takes word r b w rest gs) : Takes word (.opt r) b w rest gs := by
  intro groups k a ha
  rw [search, hr groups k a ha]
  rfl

theorem takes_opt_nil (hr : Refuses word r b rest) : Takes word (.opt r) b [] rest [] := by
  intro groups k a ha
  rw [List.nil_append, search, hr groups k]
  exact ha

theorem Takes.group (n : ℕ) (hr : Takes word r b w rest gs) :
    Takes word (.group n r) b w rest ((n, w) :: gs) := by
  intro groups k a ha
  have hlen : (w ++ rest).length - rest.length = w.length := by
    rw [List.length_append, Nat.add_sub_cancel]
  apply hr groups
  dsimp only
  rw [hlen, List.take_left]
  exact ha

theorem takes_stop : Takes word .stop b [] [] [] := fun _ _ _ ha => ha

/-- A first try that reads the whole text is the match. -/
theorem run_of_takes (h : Takes word r none w [] gs) : run word r w = some gs := by
  have hrun := h [] (fun t => some t.groups) gs (by rw [List.append_nil])
  rwa [List.append_nil] at hrun

/-! ### Repetitions -/

/-- Budgets that are as large as the text are large enough. -/
theorem iterate_eq {α : Type} {n m : ℕ} {s : State} {k : State → Option α}
    (hn : s.rest.length ≤ n) (hm : s.rest.length ≤ m) :
    iterate (search word r) n s k = iterate (search word r) m s k := by
  have hzero : ∀ {s : State} {n}, s.rest.length = 0 →
      iterate (search word r) n s k = k s := by
    intro s n hs
    cases n with
    | zero => rfl
    | succ n =>
      rw [iterate, search_eq_none]
      · rfl
      · intro t _
        exact if_neg (by omega)
  induction n generalizing m s with
  | zero => rw [hzero (by omega), hzero (by omega)]
  | succ n ih =>
    cases m with
    | zero => rw [hzero (by omega), hzero (by omega)]
    | succ m =>
      rw [iterate, iterate]
      congr 2
      funext t
      -- both budgets are enough for what is left behind a turn
      split
      · exact ih (by omega) (by omega)
      · rfl

theorem Takes.star_cons (hr : Takes word r b w (v ++ rest) gs) (hw : w ≠ [])
    (hstar : Takes word (.star r) (lastOf b w) v rest hs) :
    Takes word (.star r) b (w ++ v) rest (hs ++ gs) := by
  intro groups k a ha
  have hpos : 0 < w.length := List.length_pos_iff.mpr hw
  have hlen : (w ++ (v ++ rest)).length = (w.length - 1 + (v ++ rest).length) + 1 := by
    rw [List.length_append]
    omega
  rw [List.append_assoc, search, hlen, iterate]
  rw [lastOf_append, List.append_assoc] at ha
  have hnext := hstar (gs ++ groups) k a ha
  rw [hr groups _ a]
  · rfl
  · have hlt : (v ++ rest).length < (w ++ (v ++ rest)).length := by
      rw [hlen]
      omega
    have hbudget : (v ++ rest).length ≤ w.length - 1 + (v ++ rest).length := Nat.le_add_left _ _
    dsimp only
    rw [if_pos hlt]
    exact (iterate_eq hbudget (Nat.le_refl _)).trans hnext

theorem search_star_of_refuses (hr : Refuses word r b rest) (groups : List (ℕ × List Char))
    (k : State → Option (List (ℕ × List Char))) :
    search word (.star r) ⟨b, rest, groups⟩ k = k ⟨b, rest, groups⟩ := by
  rw [search]
  cases rest.length with
  | zero => rfl
  | succ n =>
    rw [iterate, hr groups]
    rfl

theorem takes_star_nil (hr : Refuses word r b rest) : Takes word (.star r) b [] rest [] := by
  intro groups k a ha
  rw [List.nil_append, search_star_of_refuses hr]
  exact ha

/-! ### Refusals -/

theorem Refuses.group (n : ℕ) (hr : Refuses word r b rest) : Refuses word (.group n r) b rest :=
  fun groups _ => hr groups _

theorem Refuses.seq (hr : Refuses word r b rest) : Refuses word (.seq r q) b rest :=
  fun groups _ => hr groups _

theorem Refuses.cons (hr : Refuses word r b rest) : Refuses word (seqs (r :: rs)) b rest :=
  hr.seq

theorem Refuses.alt (hr : Refuses word r b rest) (hq : Refuses word q b rest) :
    Refuses word (.alt r q) b rest := by
  intro groups k
  rw [search, hr groups k, hq groups k]
  rfl

/-- A repetition that cannot be entered does not help. -/
theorem Refuses.cons_star (hr : Refuses word r b rest) (hrs : Refuses word (seqs rs) b rest) :
    Refuses word (seqs (.star r :: rs)) b rest := by
  intro groups k
  rw [seqs, search, search_star_of_refuses hr, hrs groups k]

/-- What refuses every end of a text refuses it behind anything. -/
theorem Refuses.cons_of_suffix
    (h : ∀ b' rest', rest' <:+ rest → Refuses word (seqs rs) b' rest') :
    Refuses word (seqs (r :: rs)) b rest := by
  intro groups k
  change search word r ⟨b, rest, groups⟩ (fun t => search word (seqs rs) t k) = none
  apply search_eq_none
  rintro t ⟨w, -, hw, -⟩
  exact h t.before t.rest ⟨w, hw.symm⟩ t.groups k

theorem takes_cls {p : Char → Bool} {c : Char} (hc : p c = true) :
    Takes word (.cls p) b [c] rest [] := by
  intro groups k a ha
  rw [List.singleton_append, search, if_pos hc]
  exact ha

theorem refuses_cls {p : Char → Bool} (h : ∀ c ∈ rest.head?, p c = false) :
    Refuses word (.cls p) b rest := by
  intro groups k
  cases rest with
  | nil => rfl
  | cons c rest =>
    rw [search, if_neg]
    rw [h c rfl]
    exact Bool.false_ne_true

/-- The characters of a class, as far as they go -/
theorem takes_class {p : Char → Bool} (hw : ∀ c ∈ w, p c = true)
    (hrest : ∀ c ∈ rest.head?, p c = false) : Takes word (.star (.cls p)) b w rest [] := by
  induction w generalizing b with
  | nil => exact takes_star_nil (refuses_cls hrest)
  | cons c w ih =>
    have hc : Takes word (.cls p) b [c] (w ++ rest) [] := takes_cls (hw c (List.mem_cons_self ..))
    exact hc.star_cons (List.cons_ne_nil _ _) (ih fun c' hc' => hw c' (List.mem_cons_of_mem _ hc'))

/-! ### Texts as they are -/

section Words

variable {α : Type}

theorem search_literal (w : List Char) (b : Option Char) (rest : List Char)
    (groups : List (ℕ × List Char)) (k : State → Option α) :
    search word (literal w) ⟨b, rest, groups⟩ k =
      if w.isPrefixOf rest then k ⟨lastOf b w, rest.drop w.length, groups⟩ else none := by
  induction w generalizing b rest with
  | nil =>
    rw [List.isPrefixOf_nil_left]
    rfl
  | cons c w ih =>
    cases rest with
    | nil => rfl
    | cons c' rest =>
      rw [List.isPrefixOf_cons_cons]
      change (if c' == c then search word (literal w) ⟨some c', rest, groups⟩ k else none) = _
      by_cases heq : c' = c
      · subst heq
        rw [if_pos (beq_self_eq_true _), ih, beq_self_eq_true, Bool.true_and]
        rfl
      · rw [if_neg (by simpa using heq), if_neg]
        simpa using fun h => absurd h.symm heq

theorem takes_literal (w : List Char) : Takes word (literal w) b w rest [] := by
  intro groups k a ha
  rw [search_literal, if_pos (List.isPrefixOf_iff_prefix.mpr (List.prefix_append w rest)),
    List.drop_left]
  exact ha

theorem search_oneOf (ws : List (List Char)) (b : Option Char) (rest : List Char)
    (groups : List (ℕ × List Char)) (k : State → Option α) :
    search word (oneOf ws) ⟨b, rest, groups⟩ k =
      ws.findSome? fun w =>
        if w.isPrefixOf rest then k ⟨lastOf b w, rest.drop w.length, groups⟩ else none := by
  induction ws with
  | nil =>
    cases rest with
    | nil => rfl
    | cons c rest => rfl
  | cons w ws ih =>
    cases ws with
    | nil =>
      change search word (literal w) ⟨b, rest, groups⟩ k = _
      rw [search_literal, List.findSome?_singleton]
    | cons w' ws =>
      change (search word (literal w) ⟨b, rest, groups⟩ k).orElse
        (fun _ => search word (oneOf (w' :: ws)) ⟨b, rest, groups⟩ k) = _
      rw [ih, search_literal]
      conv_rhs => rw [List.findSome?_cons]
      cases if w.isPrefixOf rest then k ⟨lastOf b w, rest.drop w.length, groups⟩ else none with
      | none => rfl
      | some a => rfl

end Words

/-- One of several words, and the end of it -/
def keyword (ws : List (List Char)) : Pattern := .seq (oneOf ws) .boundary

/-- There are no groups in words. -/
theorem not_sets_keyword (ws : List (List Char)) (n : ℕ) (u : List Char) :
    ¬Sets (keyword ws) n u := by
  have hone : ¬Sets (oneOf ws) n u := by
    induction ws with
    | nil => exact id
    | cons w ws ih =>
      cases ws with
      | nil => exact not_sets_literal w n u
      | cons w' ws =>
        rintro (h | h)
        · exact not_sets_literal w n u h
        · exact ih h
  rintro (h | h)
  · exact hone h
  · exact h

/-- A word, which is not empty -/
def IsWord (word : Char → Bool) (w : List Char) : Prop := w ≠ [] ∧ ∀ c ∈ w, word c = true

/-- Words that start alike and end where the word does are one. -/
theorem eq_of_boundary {k w : List Char} (hk : IsWord word k) (hw : IsWord word w)
    (hrest : ∀ c ∈ rest.head?, word c = false) (hpre : w <+: k ++ rest)
    (hend : (((k ++ rest).drop w.length).head?.any word) = false) : w = k := by
  obtain ⟨rest', heq⟩ := hpre
  rw [← heq, List.drop_left] at hend
  rcases List.append_eq_append_iff.mp heq with ⟨u, hku, hu⟩ | ⟨u, hwu, hu⟩
  · cases u with
    | nil => rw [hku, List.append_nil]
    | cons c u =>
      rw [hu] at hend
      have hc : word c = true := hk.2 c (hku ▸ List.mem_append_right _ (List.mem_cons_self ..))
      rw [List.cons_append, List.head?_cons, Option.any_some, hc] at hend
      cases hend
  · cases u with
    | nil => rw [hwu, List.append_nil]
    | cons c u =>
      have hc : word c = true := hw.2 c (hwu ▸ List.mem_append_right _ (List.mem_cons_self ..))
      have hfalse := hrest c (by rw [hu]; rfl)
      rw [hc] at hfalse
      cases hfalse

theorem any_lastOf (h : IsWord word w) : (lastOf b w).any word = true := by
  obtain ⟨c, hc, hlast⟩ := exists_lastOf (b := b) h.1
  rw [hlast, Option.any_some]
  exact h.2 c hc

/-- A word can only be matched by itself. -/
theorem exists_of_search_keyword {ws : List (List Char)} {u : List Char}
    {groups a : List (ℕ × List Char)} {k : State → Option (List (ℕ × List Char))}
    (hws : ∀ w ∈ ws, IsWord word w) (hu : IsWord word u)
    (hrest : ∀ c ∈ rest.head?, word c = false)
    (h : search word (keyword ws) ⟨b, u ++ rest, groups⟩ k = some a) :
    u ∈ ws ∧ k ⟨lastOf b u, rest, groups⟩ = some a := by
  rw [keyword, search, search_oneOf] at h
  obtain ⟨w, hw, hsome⟩ := List.exists_of_findSome?_eq_some h
  split at hsome
  · next hpre =>
    rw [search] at hsome
    split at hsome
    · next hbound =>
      rw [any_lastOf (hws w hw)] at hbound
      obtain rfl := eq_of_boundary hu (hws w hw) hrest (List.isPrefixOf_iff_prefix.mp hpre)
        (by simpa using hbound)
      rw [List.drop_left] at hsome
      exact ⟨hw, hsome⟩
    · cases hsome
  · cases hsome

theorem takes_keyword {ws : List (List Char)} {u : List Char} (hws : ∀ w ∈ ws, IsWord word w)
    (hu : u ∈ ws) (hrest : ∀ c ∈ rest.head?, word c = false) :
    Takes word (keyword ws) b u rest [] := by
  intro groups k a ha
  have hsome : (search word (keyword ws) ⟨b, u ++ rest, groups⟩ k).isSome := by
    rw [keyword, search, search_oneOf, List.findSome?_isSome_iff]
    refine ⟨u, hu, ?_⟩
    have hend : (rest.head?.any word) = false := by
      cases hhead : rest.head? with
      | none => rfl
      | some c => exact hrest c hhead
    rw [if_pos (List.isPrefixOf_iff_prefix.mpr (List.prefix_append u rest)), List.drop_left,
      search, if_pos]
    · change (k ⟨lastOf b u, rest, groups⟩).isSome
      rw [List.nil_append] at ha
      rw [ha]
      rfl
    · rw [any_lastOf (hws u hu), hend]
      rfl
  obtain ⟨a', ha'⟩ := Option.isSome_iff_exists.mp hsome
  have hk := (exists_of_search_keyword hws (hws u hu) hrest ha').2
  rw [ha', ← hk]
  exact ha

theorem refuses_keyword {ws : List (List Char)} {u : List Char} (hws : ∀ w ∈ ws, IsWord word w)
    (hu : IsWord word u) (hnot : u ∉ ws) (hrest : ∀ c ∈ rest.head?, word c = false) :
    Refuses word (keyword ws) b (u ++ rest) := by
  intro groups k
  cases h : search word (keyword ws) ⟨b, u ++ rest, groups⟩ k with
  | none => rfl
  | some a => exact absurd (exists_of_search_keyword hws hu hrest h).1 hnot

end Tries

end Backtracking
