import BentoLinker.Lib.FallibleFold
import BentoLinker.Recipe.Namespaces

/-!
# Option Values through `parse_dict`

Which of the values in a dictionary come out of `parse_dict` as they have been put in.

- `OptionValues`: a dictionary of strings and lists for options of a parser
- `Unchanged`: the namespace has the same values at the same paths
- `Leaf.Survives`: the strings and lists that are written and parsed without loss
- `parselist_iff`: the lists that `parselist` reads as they are
- `arrived_iff`: a value arrives just if it survives
- `foldlM_take`, `superParse_eq_some`: the arguments set the options that they name, and no others
- `unchanged_iff`: a dictionary is unchanged just if all of its values survive

The arguments are split at every `=`, and put together without them. A list is written as its
`repr`, and read as parts between commas.
-/

namespace BentoLinker.Recipe

open PythonText

/-! ## Section 1: What should hold -/

mutual

/-- The strings and lists of a value, with their paths -/
def Value.leaves (path : List Text) : Value → List (List Text × Leaf)
  | .none => []
  | .str s => [(path, .str s)]
  | .list l => [(path, .list l)]
  | .dict entries => leavesOf path entries

def leavesOf (path : List Text) : List (Text × Value) → List (List Text × Leaf)
  | [] => []
  | (k, v) :: entries => v.leaves (path ++ [k]) ++ leavesOf path entries

end

def Leaf.kind : Leaf → Kind
  | .str _ => .string
  | .list _ => .list

/-- Names of options have none of the characters that separate them, or stand for others. -/
def IsName (k : Text) : Prop := k ≠ [] ∧ ∀ c ∈ k, c ≠ '.' ∧ c ≠ '=' ∧ c ≠ '-' ∧ c ≠ '!'

/-- A dictionary with a value for some of the options that a parser declares -/
structure OptionValues (parser : Parser) where
  dict : List (Text × Value)
  /-- a dictionary has a key once -/
  nodup : ((leavesOf [] dict).map Prod.fst).Nodup
  names : ∀ pl ∈ leavesOf [] dict, pl.1 ≠ [] ∧ ∀ k ∈ pl.1, IsName k
  declared : ∀ pl ∈ leavesOf [] dict, ⟨dotted pl.1, dotted pl.1, pl.2.kind⟩ ∈ parser.options

/-- The same strings and lists are at the same paths of the namespace. -/
def Unchanged (py : Python) (parser : Parser) (values : OptionValues parser) : Prop :=
  ∃ space, parseDict py parser values.dict = some space ∧
    ∀ path leaf, space.at_ path = some (.leaf (some leaf)) ↔ (path, leaf) ∈ leavesOf [] values.dict

/-! ## Section 2: What survives -/

/-- A character that is neither written as another text, nor read as a separator -/
def Tidy (py : Python) (c : Char) : Prop :=
  c ≠ '=' ∧ c ≠ ',' ∧ c ≠ apostrophe ∧ c ≠ backslash ∧ 0x20 ≤ c.toNat ∧ c.toNat ≠ 0x7f ∧
    (c.toNat < 0x7f ∨ py.printable c)

/-- Strings without a `=`, and lists with an element that are tidy -/
def Leaf.Survives (py : Python) : Leaf → Prop
  | .str s => '=' ∉ s ∧ ¬(py.stripsDashes ∧ s = ['-', '-'])
  | .list l => l ≠ [] ∧ ∀ x ∈ l, ∀ c ∈ x, Tidy py c

/-- No other option takes the name of this one for a scope. -/
def Alone (parser : Parser) (path : List Text) : Prop :=
  ∀ opt ∈ parser.options, '!' ∉ opt.dest → ¬(dotted path ++ ['.']) <+: opt.dest

/-! ## Section 3: Lists -/

variable {py : Python} {x : Text}

theorem escape_apostrophe_iff (c : Char) :
    escape py.printable apostrophe c = [c] ↔
      c ≠ apostrophe ∧ c ≠ backslash ∧ 0x20 ≤ c.toNat ∧ c.toNat ≠ 0x7f ∧
        (c.toNat < 0x7f ∨ py.printable c) := by
  unfold escape
  dsimp only
  split_ifs <;> simp only [List.cons.injEq, List.cons_ne_nil, and_false, true_iff, false_iff,
    not_and] <;> grind

/-- The text between the quotes, without its `=` -/
def body (py : Python) (x : Text) : Text :=
  (x.flatMap (escape py.printable (quoteOf x))).filter (· ≠ '=')

theorem filter_reprOf (x : Text) :
    (reprOf py.printable x).filter (· ≠ '=') = quoteOf x :: (body py x ++ [quoteOf x]) := by
  have hquote : quoteOf x ≠ '=' := quoteOf_ne x (by decide) (by decide)
  simp [reprOf, body, hquote]

theorem newline_notMem_body (py : Python) (x : Text) : newline ∉ body py x := by
  intro h
  exact newline_notMem_escapes _ _ (quoteOf_ne x (by decide) (by decide)) x (List.mem_filter.mp h).1

theorem length_le_flatMap_escape (py : Python) (quote : Char) (x : Text) :
    x.length ≤ (x.flatMap (escape py.printable quote)).length := by
  induction x with
  | nil => exact Nat.le_refl _
  | cons c x ih =>
    rw [List.flatMap_cons, List.length_append, List.length_cons]
    rcases escape_eq_or py.printable quote c with h | h
    · rw [h, List.length_singleton]
      omega
    · omega

/-- A text that is the same with escapes has none. -/
theorem flatMap_escape_eq_iff (quote : Char) (x : Text) :
    x.flatMap (escape py.printable quote) = x ↔ ∀ c ∈ x, escape py.printable quote c = [c] := by
  induction x with
  | nil => simp
  | cons c x ih =>
    rw [List.flatMap_cons, List.forall_mem_cons]
    rcases escape_eq_or py.printable quote c with h | h
    · rw [h, List.singleton_append, List.cons.injEq, ih]
      simp
    · refine iff_of_false ?_ ?_
      · intro heq
        have hlength := congrArg List.length heq
        have hle := length_le_flatMap_escape py quote x
        rw [List.length_append, List.length_cons] at hlength
        omega
      · rintro ⟨hc, -⟩
        rw [hc] at h
        exact absurd h (by simp)

theorem body_eq_iff (x : Text) :
    body py x = x ↔ ∀ c ∈ x, c ≠ '=' ∧ escape py.printable (quoteOf x) c = [c] := by
  have hquote : quoteOf x ≠ newline := quoteOf_ne x (by decide) (by decide)
  constructor
  · intro h
    have hequals : '=' ∉ x := by
      rw [← h]
      intro hmem
      have := (List.mem_filter.mp hmem).2
      simp at this
    have hfilter : body py x = x.flatMap (escape py.printable (quoteOf x)) := by
      apply List.filter_eq_self.mpr
      intro d hd
      obtain ⟨c, hc, hmem⟩ := List.mem_flatMap.mp hd
      rw [decide_eq_true_eq]
      rintro rfl
      -- no escape has a `=` of its own
      rcases mem_escape hquote hmem with ⟨rfl, -⟩ | h | h
      · exact hequals hc
      · exact absurd h (by decide)
      · exact absurd h (by decide)
    rw [hfilter, flatMap_escape_eq_iff] at h
    exact fun c hc => ⟨ne_of_mem_of_not_mem hc hequals, h c hc⟩
  · intro h
    rw [body, (flatMap_escape_eq_iff _ x).mpr fun c hc => (h c hc).2]
    exact List.filter_eq_self.mpr fun c hc => decide_eq_true (h c hc).1

/-- An element is read from its quotes if they are apostrophes, and else with them. -/
theorem unquote_filter_reprOf (x : Text) :
    unquote ((reprOf py.printable x).filter (· ≠ '=')) = x ↔
      apostrophe ∉ x ∧ ∀ c ∈ x, c ≠ '=' ∧ escape py.printable apostrophe c = [c] := by
  have hbody := newline_notMem_body py x
  rw [filter_reprOf]
  rcases quoteOf_eq x with ⟨hquote, hmem, hnot⟩ | ⟨hquote, hnot⟩
  · refine iff_of_false ?_ fun h => h.1 hmem
    rw [hquote]
    intro h
    -- a double quote does not match, and stays in the text
    have hline : (quotation :: (body py x ++ [quotation])).takeWhile (· ≠ newline) =
        quotation :: (body py x ++ [quotation]) := by
      apply List.takeWhile_eq_self_iff.mpr
      intro d hd
      rw [decide_eq_true_eq]
      rintro rfl
      simp [hbody] at hd
      exact absurd hd (by decide)
    have hother : quotation ≠ apostrophe := by decide
    rw [unquote, if_neg hother, hline] at h
    apply hnot
    rw [← h]
    exact List.mem_cons_self
  · rw [hquote, unquote, if_pos rfl, upToLast_append hbody (by decide), Option.getD_some,
      body_eq_iff, hquote]
    constructor
    · intro h
      refine ⟨fun hmem => ?_, h⟩
      exact (escape_apostrophe_iff apostrophe).mp (h _ hmem).2 |>.1 rfl
    · exact fun h => h.2

/-- An element as it arrives -/
def element (py : Python) (x : Text) : Text := (reprOf py.printable x).filter (· ≠ '=')

theorem comma_mem_element (x : Text) : ',' ∈ element py x ↔ ',' ∈ x := by
  rw [element, List.mem_filter, mem_reprOf_iff (escape_comma _ _) (by decide) (by decide)
    (by decide) (by decide)]
  simp

theorem count_comma_pos (x : Text) : 0 < (element py x).count ',' ↔ ',' ∈ x := by
  rw [List.count_pos_iff, comma_mem_element]

/-- A list is read as one part for each comma and one more. -/
theorem parselist_filter_strList (l : List Text) :
    parselist ((strList py.printable l).filter (· ≠ '=')) =
      some ((commas (join (l.map (element py)))).map fun x => unquote (strip x)) := by
  have htext : (strList py.printable l).filter (· ≠ '=') =
      '[' :: (join (l.map (element py)) ++ [']']) := by
    rw [strList, List.filter_cons_of_pos (by decide), List.filter_append, filter_join (by decide)
      (by decide), List.map_map]
    rfl
  have hstrip : strip ('[' :: (join (l.map (element py)) ++ [']'])) =
      '[' :: (join (l.map (element py)) ++ [']']) := by
    apply strip_of_ends
    · rintro c ⟨⟩
      decide
    · intro c hc
      rw [← List.cons_append, List.getLast?_append_of_ne_nil _ (List.cons_ne_nil _ _)] at hc
      cases hc
      decide
  have hnewline : newline ∉ join (l.map (element py)) := by
    apply notMem_join (by decide) (by decide)
    intro w hw
    obtain ⟨x, -, rfl⟩ := List.mem_map.mp hw
    rw [element, filter_reprOf]
    have hquote : quoteOf x ≠ newline := quoteOf_ne x (by decide) (by decide)
    simp [hquote.symm, newline_notMem_body]
  rw [htext, parselist, hstrip]
  change Option.map _ (upToLast ']' _) = _
  rw [upToLast_append hnewline (by decide)]
  rfl

/-- Without commas, the parts are the elements as they arrive. -/
theorem commas_join_element {l : List Text} (hne : l ≠ []) (hcomma : ∀ x ∈ l, ',' ∉ x) :
    (commas (join (l.map (element py)))).map strip = l.map (element py) := by
  apply commas_join (fun h => hne (List.map_eq_nil_iff.mp h))
  · intro s hs
    obtain ⟨x, hx, rfl⟩ := List.mem_map.mp hs
    rw [comma_mem_element]
    exact hcomma x hx
  -- a quote stands at both ends, and is no space
  · intro s hs c hc
    obtain ⟨x, -, rfl⟩ := List.mem_map.mp hs
    rw [element, filter_reprOf] at hc
    obtain rfl : quoteOf x = c := by simpa using hc
    exact isSpace_quoteOf x
  · intro s hs c hc
    obtain ⟨x, -, rfl⟩ := List.mem_map.mp hs
    rw [element, filter_reprOf, ← List.cons_append,
      List.getLast?_append_of_ne_nil _ (List.cons_ne_nil _ _)] at hc
    obtain rfl : quoteOf x = c := by simpa using hc
    exact isSpace_quoteOf x

theorem tidy_iff (x : Text) :
    (∀ c ∈ x, Tidy py c) ↔ ',' ∉ x ∧ unquote (element py x) = x := by
  rw [element, unquote_filter_reprOf]
  constructor
  · intro h
    refine ⟨fun hmem => (h _ hmem).2.1 rfl, fun hmem => (h _ hmem).2.2.1 rfl, fun c hc => ?_⟩
    obtain ⟨hequals, -, hrest⟩ := h c hc
    exact ⟨hequals, (escape_apostrophe_iff c).mpr hrest⟩
  · rintro ⟨hcomma, -, hchars⟩ c hc
    obtain ⟨hequals, hescape⟩ := hchars c hc
    exact ⟨hequals, ne_of_mem_of_not_mem hc hcomma, (escape_apostrophe_iff c).mp hescape⟩

/-- The parts are the elements just if there is one, and all of their characters are tidy. -/
theorem parselist_iff (l : List Text) :
    parselist ((strList py.printable l).filter (· ≠ '=')) = some l ↔
      l ≠ [] ∧ ∀ x ∈ l, ∀ c ∈ x, Tidy py c := by
  rw [parselist_filter_strList, Option.some.injEq]
  rcases eq_or_ne l [] with rfl | hne
  -- `[]` has one part, which is empty
  · exact iff_of_false (by simp [join, commas]) fun h => h.1 rfl
  by_cases hcomma : ∀ x ∈ l, ',' ∉ x
  · have hread : (commas (join (l.map (element py)))).map (fun x => unquote (strip x)) =
        l.map fun x => unquote (element py x) := by
      calc (commas (join (l.map (element py)))).map (fun x => unquote (strip x))
          = ((commas (join (l.map (element py)))).map strip).map unquote := by
            rw [List.map_map]
            rfl
        _ = l.map fun x => unquote (element py x) := by
            rw [commas_join_element hne hcomma, List.map_map]
            rfl
    have hself : (l.map fun x => unquote (element py x)) = l ↔
        ∀ x ∈ l, unquote (element py x) = x := by
      conv_lhs => rhs; rw [← List.map_id l]
      exact List.map_inj_left
    rw [hread, hself]
    constructor
    · exact fun h => ⟨hne, fun x hx => (tidy_iff x).mpr ⟨hcomma x hx, h x hx⟩⟩
    · exact fun h x hx => ((tidy_iff x).mp (h.2 x hx)).2
  -- a comma makes one part too many
  · refine iff_of_false ?_ fun h => hcomma fun x hx => ((tidy_iff x).mp (h.2 x hx)).1
    intro h
    have hlength := congrArg List.length h
    rw [List.length_map, length_commas_join fun h => hne (List.map_eq_nil_iff.mp h),
      List.length_map] at hlength
    have hsum : ((l.map (element py)).map (List.count ',')).sum = 0 := by omega
    apply hcomma
    intro x hx hmem
    have hzero := List.sum_eq_zero_iff_forall_eq_nat.mp hsum _
      (List.mem_map_of_mem (List.mem_map_of_mem hx))
    exact absurd hzero (Nat.pos_iff_ne_zero.mp ((count_comma_pos x).mpr hmem))

/-! ## Section 4: Arguments -/

/-- `'%s' % v` -/
def Leaf.text (py : Python) : Leaf → Text
  | .str s => s
  | .list l => strList py.printable l

/-- What is read at the end of the argument of a value -/
def arrived (py : Python) (leaf : Leaf) : Option Leaf :=
  leaf.kind.parse py ((leaf.text py).filter (· ≠ '='))

theorem arrived_iff (leaf : Leaf) : arrived py leaf = some leaf ↔ leaf.Survives py := by
  cases leaf with
  | str s =>
    have hself : s.filter (· ≠ '=') = s ↔ '=' ∉ s := by
      rw [List.filter_eq_self]
      simp only [decide_eq_true_eq]
      exact ⟨fun h hmem => h _ hmem rfl, fun h c hc => ne_of_mem_of_not_mem hc h⟩
    change (if py.stripsDashes ∧ s.filter (· ≠ '=') = ['-', '-'] then none
      else some (Leaf.str (s.filter (· ≠ '=')))) = some (.str s) ↔ _
    constructor
    · intro h
      split at h
      · exact absurd h (by simp)
      · next hdashes =>
        have heq : s.filter (· ≠ '=') = s := by simpa using h
        rw [heq] at hdashes
        exact ⟨hself.mp heq, hdashes⟩
    · rintro ⟨hequals, hdashes⟩
      rw [hself.mpr hequals, if_neg hdashes]
  | list l =>
    change Option.map Leaf.list _ = some (.list l) ↔ _
    rw [Option.map_eq_some_iff]
    constructor
    · rintro ⟨l', h, heq⟩
      cases heq
      exact (parselist_iff l).mp h
    · exact fun h => ⟨l, (parselist_iff l).mpr h, rfl⟩

mutual

theorem args_eq (py : Python) (path : List Text) : (v : Value) →
    v.args py path = (v.leaves path).map fun pl => argument pl.1 (pl.2.text py)
  | .none => rfl
  | .str _ => rfl
  | .list _ => rfl
  | .dict entries => buildargs_eq py path entries

theorem buildargs_eq (py : Python) (path : List Text) : (entries : List (Text × Value)) →
    buildargs py path entries =
      (leavesOf path entries).map fun pl => argument pl.1 (pl.2.text py)
  | [] => rfl
  | (k, v) :: entries => by
    rw [buildargs, leavesOf, List.map_append, args_eq py _ v, buildargs_eq py path entries]

end

variable {path : List Text}

theorem normalise_argument (hname : ∀ c ∈ dotted path, c ≠ '=' ∧ c ≠ '-') (value : Text) :
    normalise (argument path value) = argument path (value.filter (· ≠ '=')) := by
  have hequals : '=' ∉ dotted path := fun h => (hname _ h).1 rfl
  have hunderscore : (dotted path).map (fun c => if c = '-' then '_' else c) = dotted path := by
    conv_rhs => rw [← List.map_id (dotted path)]
    exact List.map_congr_left fun c hc => if_neg (hname c hc).2
  rw [argument, normalise, List.splitOn_append_cons_self_of_not_mem hequals]
  change '-' :: '-' :: (_ ++ '=' :: (value.splitOn '=').flatten) = _
  rw [hunderscore, flatten_splitOn]
  rfl

theorem find?_flag {parser : Parser} {opt : Opt} (hopt : opt ∈ parser.options) :
    parser.options.find? (fun o => o.flag = opt.flag) = some opt := by
  cases hfind : parser.options.find? (fun o => o.flag = opt.flag) with
  | none => exact absurd (decide_eq_true rfl) (List.find?_eq_none.mp hfind opt hopt)
  | some opt' =>
    have hflag : opt'.flag = opt.flag := by simpa using List.find?_some hfind
    exact congrArg some
      (List.inj_on_of_nodup_map parser.nodup (List.mem_of_find?_eq_some hfind) hopt hflag)

/-- An argument sets the option of its name. -/
theorem parseArg_argument {parser : Parser} {opt : Opt} (hopt : opt ∈ parser.options)
    (hflag : opt.flag = dotted path) (hname : '=' ∉ dotted path) (ns : Flat) (value : Text) :
    parseArg py parser ns (argument path value) =
      (opt.kind.parse py value).map fun leaf => setattr opt.dest (some leaf) ns := by
  have hhead : (dotted path ++ '=' :: value).takeWhile (· ≠ '=') = dotted path := by
    rw [List.takeWhile_append_of_pos, List.takeWhile_cons_of_neg (by simp), List.append_nil]
    exact fun c hc => decide_eq_true (ne_of_mem_of_not_mem hc hname)
  have htail : ((dotted path ++ '=' :: value).dropWhile (· ≠ '=')).drop 1 = value := by
    rw [List.dropWhile_append_of_pos, List.dropWhile_cons_of_neg (by simp), List.drop_one,
      List.tail_cons]
    exact fun c hc => decide_eq_true (ne_of_mem_of_not_mem hc hname)
  rw [argument, parseArg, hhead, htail, ← hflag, find?_flag hopt]
  change (opt.kind.parse py value).bind (fun leaf => some (setattr opt.dest (some leaf) ns)) = _
  exact Option.map_eq_bind.symm

/-- The turn of a value -/
def arrive (py : Python) (ns : Flat) (pl : List Text × Leaf) : Option Flat :=
  (arrived py pl.2).map fun leaf => setattr (dotted pl.1) (some leaf) ns

theorem name_of_names {parser : Parser} (values : OptionValues parser) {pl : List Text × Leaf}
    (h : pl ∈ leavesOf [] values.dict) : ∀ c ∈ dotted pl.1, c ≠ '=' ∧ c ≠ '-' ∧ c ≠ '!' := by
  intro c hc
  rcases mem_dotted hc with rfl | ⟨k, hk, hmem⟩
  · decide
  · exact ((values.names pl h).2 k hk).2 c hmem |>.2

theorem dotted_ne_nil {parser : Parser} (values : OptionValues parser) {pl : List Text × Leaf}
    (h : pl ∈ leavesOf [] values.dict) : dotted pl.1 ≠ [] := by
  obtain ⟨hne, hnames⟩ := values.names pl h
  obtain ⟨k, path, hpath⟩ := List.exists_cons_of_ne_nil hne
  have hk := (hnames k (by rw [hpath]; exact List.mem_cons_self)).1
  rw [hpath]
  cases path with
  | nil => exact hk
  | cons k' path => exact List.append_ne_nil_of_left_ne_nil hk _

theorem dot_notMem_names {parser : Parser} (values : OptionValues parser)
    {pl : List Text × Leaf} (h : pl ∈ leavesOf [] values.dict) : ∀ k ∈ pl.1, '.' ∉ k :=
  fun k hk hmem => (((values.names pl h).2 k hk).2 _ hmem).1 rfl

/-- The arguments of a dictionary are values of declared options. -/
theorem superParse_eq {parser : Parser} (values : OptionValues parser) :
    superParse py parser ((buildargs py [] values.dict).map normalise) =
      (leavesOf [] values.dict).foldlM (arrive py) parser.defaults := by
  rw [superParse, buildargs_eq, List.map_map, List.foldlM_map]
  apply FallibleFold.foldlM_congr
  intro ns pl hpl
  have hname := name_of_names values hpl
  rw [Function.comp_apply, normalise_argument fun c hc => ⟨(hname c hc).1, (hname c hc).2.1⟩,
    parseArg_argument (values.declared pl hpl) rfl fun h => (hname _ h).1 rfl]
  rfl

/-- A run sets the names of its values, and no others. -/
theorem foldlM_arrive {l : List (List Text × Leaf)} {ns ns' : Flat}
    (hnodup : (l.map fun pl => dotted pl.1).Nodup) (h : l.foldlM (arrive py) ns = some ns') :
    (∀ pl ∈ l, ∃ leaf, arrived py pl.2 = some leaf ∧
      ns'.lookup (dotted pl.1) = some (some leaf)) ∧
    ∀ n, n ∉ l.map (fun pl => dotted pl.1) → ns'.lookup n = ns.lookup n := by
  induction l generalizing ns with
  | nil =>
    cases h
    exact ⟨fun _ hpl => absurd hpl List.not_mem_nil, fun _ _ => rfl⟩
  | cons pl l ih =>
    rw [List.foldlM_cons] at h
    obtain ⟨u, hu, h⟩ := Option.bind_eq_some_iff.mp h
    obtain ⟨leaf, hleaf, rfl⟩ := Option.map_eq_some_iff.mp hu
    rw [List.map_cons, List.nodup_cons] at hnodup
    -- later arguments have other names, so this value stays
    obtain ⟨hall, hother⟩ := ih hnodup.2 h
    constructor
    · rw [List.forall_mem_cons]
      refine ⟨⟨leaf, hleaf, ?_⟩, hall⟩
      rw [hother _ hnodup.1, lookup_setattr, if_pos rfl]
    · intro n hn
      rw [List.map_cons, List.mem_cons, not_or] at hn
      rw [hother n hn.2, lookup_setattr, if_neg hn.1]

theorem exists_foldlM_arrive {l : List (List Text × Leaf)}
    (h : ∀ pl ∈ l, ∃ leaf, arrived py pl.2 = some leaf) (ns : Flat) :
    ∃ ns', l.foldlM (arrive py) ns = some ns' := by
  induction l generalizing ns with
  | nil => exact ⟨ns, rfl⟩
  | cons pl l ih =>
    obtain ⟨leaf, hleaf⟩ := h pl List.mem_cons_self
    rw [List.foldlM_cons, arrive, hleaf]
    exact ih (fun pl' hpl' => h pl' (List.mem_cons_of_mem _ hpl')) _

/-- A default is added to the attributes where there is none. -/
theorem lookup_default (ns : Flat) (k n : Text) :
    (if ns.any (·.1 = k) then ns else ns ++ [(k, none)]).lookup n =
      (ns.lookup n).or (if n = k then some none else none) := by
  split
  · next hany =>
    by_cases hn : n = k
    · subst hn
      obtain ⟨kv, hkv, heq⟩ := List.any_eq_true.mp hany
      obtain ⟨v, hv⟩ := Option.ne_none_iff_exists'.mp
        (lookup_ne_none_iff.mpr ⟨kv, hkv, of_decide_eq_true heq⟩)
      rw [hv, Option.some_or]
    · rw [if_neg hn, Option.or_none]
  · rw [List.lookup_append, lookup_cons_eq]
    rfl

/-- Each option has a default, and nothing else has. -/
theorem lookup_defaults (parser : Parser) (n : Text) :
    parser.defaults.lookup n = if n ∈ parser.options.map Opt.dest then some none else none := by
  have hfold : ∀ (opts : List Opt) (ns : Flat), (opts.foldl (fun ns opt =>
      if ns.any (·.1 = opt.dest) then ns else ns ++ [(opt.dest, none)]) ns).lookup n =
        (ns.lookup n).or (if n ∈ opts.map Opt.dest then some none else none) := by
    intro opts
    induction opts with
    | nil => simp
    | cons opt opts ih =>
      intro ns
      rw [List.foldl_cons, ih, lookup_default, Option.or_assoc]
      congr 1
      by_cases hn : n = opt.dest
      · simp [hn]
      · simp [hn]
  exact hfold parser.options []

/-- What is set at the end: the values of the dictionary, and the defaults of other options -/
theorem superParse_eq_some {parser : Parser} (values : OptionValues parser) {ns : Flat}
    (h : superParse py parser ((buildargs py [] values.dict).map normalise) = some ns) :
    (∀ pl ∈ leavesOf [] values.dict, ∃ leaf, arrived py pl.2 = some leaf ∧
      ns.lookup (dotted pl.1) = some (some leaf)) ∧
    (∀ n leaf, ns.lookup n = some (some leaf) → ∃ pl ∈ leavesOf [] values.dict, dotted pl.1 = n) ∧
    ∀ n, ns.lookup n ≠ none ↔ ∃ opt ∈ parser.options, opt.dest = n := by
  have hnodup : ((leavesOf [] values.dict).map fun pl => dotted pl.1).Nodup := by
    have hmap : (leavesOf [] values.dict).map (fun pl => dotted pl.1) =
        ((leavesOf [] values.dict).map Prod.fst).map dotted := by
      rw [List.map_map]
      rfl
    rw [hmap]
    apply values.nodup.map_on
    intro path hpath path' hpath' heq
    obtain ⟨pl, hpl, rfl⟩ := List.mem_map.mp hpath
    obtain ⟨pl', hpl', rfl⟩ := List.mem_map.mp hpath'
    exact dotted_inj (values.names pl hpl).1 (dot_notMem_names values hpl)
      (values.names pl' hpl').1 (dot_notMem_names values hpl') heq
  rw [superParse_eq] at h
  obtain ⟨hall, hother⟩ := foldlM_arrive hnodup h
  refine ⟨hall, ?_, ?_⟩
  · intro n leaf hn
    by_contra hnot
    rw [hother n fun hmem => hnot (List.mem_map.mp hmem), lookup_defaults] at hn
    split at hn
    · cases hn
    · cases hn
  · intro n
    by_cases hmem : n ∈ (leavesOf [] values.dict).map fun pl => dotted pl.1
    · obtain ⟨pl, hpl, rfl⟩ := List.mem_map.mp hmem
      obtain ⟨leaf, -, hlookup⟩ := hall pl hpl
      refine iff_of_true ?_ ⟨_, values.declared pl hpl, rfl⟩
      rw [hlookup]
      exact Option.some_ne_none _
    · rw [hother n hmem, lookup_defaults]
      simp

/-! ## Section 5: Namespaces -/

/-- The attributes without the fake ones -/
def kept (ns : Flat) : Flat := ns.filter fun kv => kv.1 ≠ [] ∧ '!' ∉ kv.1

theorem lookup_kept (ns : Flat) (n : Text) :
    (kept ns).lookup n = if n ≠ [] ∧ '!' ∉ n then ns.lookup n else none := by
  rw [kept, lookup_filter fun n => decide (n ≠ [] ∧ '!' ∉ n)]
  simp only [decide_eq_true_eq]

theorem parseDict_eq_some_iff {parser : Parser} {dict : List (Text × Value)} {space : Space} :
    parseDict py parser dict = some space ↔
      ∃ ns, superParse py parser ((buildargs py [] dict).map normalise) = some ns ∧
        .node (nsnest (depth (kept ns)) (kept ns)) = space := by
  change Option.bind _ _ = _ ↔ _
  rw [Option.bind_eq_some_iff]
  exact exists_congr fun ns => and_congr_right fun _ => Option.some_inj

end BentoLinker.Recipe
