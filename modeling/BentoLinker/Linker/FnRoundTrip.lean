import BentoLinker.Linker.ArgRoundTrip
import BentoLinker.Linker.FnText
import Mathlib.Data.List.TakeWhile

/-!
# Types of Functions, Printed and Read

What becomes of an import or export whose type is printed and read again, as `prebound` and
`postbound` do with it.

1. `takes_fnArgs`, `run_fntype`: how the expression reads what is printed
2. `parsetype_typeText`, `init_typeText`: what the constructor is called with
3. `Accepts`: what it checks; `exists_fn`: what it makes is a function of `Signature`
4. `Survives`: nothing is lost; `Sound`: no size is 0, and none is bound while its array is not
5. `round_trip_iff`: a signature survives just if it is sound
-/

namespace BentoLinker.Linker

open Backtracking PythonText

/-! ## Section 1: How the expression reads what is printed -/

/-- What is behind an argument -/
def EndsArg (rest : List Char) : Prop := ∀ c ∈ rest.head?, c = ',' ∨ c = ')'

/-- What is behind all of them -/
def EndsArgs (rest : List Char) : Prop := ∀ c ∈ rest.head?, c = ')'

theorem EndsArgs.arg {rest : List Char} (h : EndsArgs rest) : EndsArg rest :=
  fun c hc => .inr (h c hc)

theorem EndsArg.apart {rest : List Char} (h : EndsArg rest) : Apart rest := by
  intro c hc
  rcases h c hc with rfl | rfl <;> decide

theorem EndsArg.not {rest : List Char} (h : EndsArg rest) : ∀ c ∈ rest.head?,
    isSpace c = false ∧ identStart c = false ∧ fnChar c = false := by
  intro c hc
  rcases h c hc with rfl | rfl <;> decide

/-- A text of an argument, as it is printed -/
structure ArgText (w : List Char) : Prop where
  ne_nil : w ≠ []
  head : ∀ c ∈ w.head?, identChar c = true
  last : ∀ c ∈ w.getLast?, isSpace c = false
  chars : ∀ c ∈ w, ArgChar c

theorem ArgText.head_append {w rest : List Char} (h : ArgText w) :
    ∀ c ∈ (w ++ rest).head?, identChar c = true :=
  forall_head?_append h.head fun hnil => absurd hnil h.ne_nil

theorem IsName.argText {w : List Char} (h : IsName w) : ArgText w where
  ne_nil := h.ne_nil
  head := h.head
  last c hc := isSpace_of_identChar (h.chars c (List.mem_of_getLast? hc))
  chars c hc := .inl (h.chars c hc)

/-- What is not a part of a name is a character of its own. -/
theorem ArgChar.fnChar {c : Char} (h : ArgChar c) (hspace : isSpace c = false)
    (hstart : identStart c = false) : fnChar c = true := by
  rcases h with h | h
  · have hdigit : c.isDigit = true := by
      rw [identStart, Bool.or_eq_false_iff] at hstart
      rw [identChar, hstart.2, Char.isAlphanum, hstart.1] at h
      simpa using h
    rw [Linker.fnChar, hdigit, Bool.or_true]
  · have hall : [' ', '*', '[', ']'].all (fun c => isSpace c || Linker.fnChar c) = true := by decide
    simpa [hspace] using List.all_eq_true.mp hall c h

section Reading

variable {alnum : Char → Bool} {b : Option Char} {v w rest : List Char} {l : List (List Char)}

theorem forall_head?_dropWhile {p : Char → Bool} (hrest : ∀ c ∈ rest.head?, p c = false) :
    ∀ c ∈ (v.dropWhile p ++ rest).head?, p c = false := by
  apply forall_head?_append _ fun _ => hrest
  intro c hc
  have hhead := List.head?_dropWhile_not p v
  rw [hc] at hhead
  simpa using hhead

/-- As much of a class as there is -/
theorem takes_takeWhile {p : Char → Bool} (hrest : ∀ c ∈ rest.head?, p c = false) :
    Takes (isWord alnum) (.star (.cls p)) b (v.takeWhile p) (v.dropWhile p ++ rest) [] :=
  takes_class (fun _ hc => List.mem_takeWhile_imp hc) (forall_head?_dropWhile hrest)

/-- A turn takes a name or a character, and the spaces behind it. -/
theorem exists_turn (alnum : Char → Bool) (hchars : ∀ c ∈ w, ArgChar c) (hne : w ≠ [])
    (hhead : ∀ c ∈ w.head?, isSpace c = false) (hrest : EndsArg rest) :
    ∃ u v, w = u ++ v ∧ u ≠ [] ∧ (∀ c ∈ v.head?, isSpace c = false) ∧
      ∀ b, Takes (isWord alnum) fnTurn b u (v ++ rest) [] := by
  have hspace : ∀ c ∈ rest.head?, isSpace c = false := fun c hc => (hrest.not c hc).1
  have hdrop : ∀ {y : List Char}, ∀ c ∈ (y.dropWhile isSpace).head?, isSpace c = false := by
    intro y
    have hall : ∀ c ∈ (y.dropWhile isSpace ++ []).head?, isSpace c = false :=
      forall_head?_dropWhile forall_head?_nil
    rwa [List.append_nil] at hall
  obtain ⟨c, cs, rfl⟩ := List.exists_cons_of_ne_nil hne
  cases hstart : identStart c with
  | true =>
    refine ⟨(c :: cs.takeWhile identChar) ++ (cs.dropWhile identChar).takeWhile isSpace,
      (cs.dropWhile identChar).dropWhile isSpace, ?_, nofun, hdrop, ?_⟩
    · rw [List.append_assoc, List.takeWhile_append_dropWhile, List.cons_append,
        List.takeWhile_append_dropWhile]
    · intro b
      refine Takes.read (Takes.alt_left (takes_name ⟨c, _, rfl, hstart, fun d hd =>
        List.mem_takeWhile_imp hd⟩ ?_)) (takes_takeWhile hspace).last
      rw [← List.append_assoc, List.takeWhile_append_dropWhile]
      exact forall_head?_dropWhile hrest.apart.ident
  | false =>
    refine ⟨[c] ++ cs.takeWhile isSpace, cs.dropWhile isSpace, ?_, nofun, hdrop, ?_⟩
    · rw [List.append_assoc, List.takeWhile_append_dropWhile]
      rfl
    · intro b
      have hc := (hchars c (List.mem_cons_self ..)).fnChar (hhead c rfl) hstart
      refine Takes.read (Takes.alt_right (refuses_name ?_) (takes_cls hc))
        (takes_takeWhile hspace).last
      intro d hd
      obtain rfl : c = d := by simpa using hd
      exact hstart

theorem refuses_fnTurn (hrest : EndsArg rest) : Refuses (isWord alnum) fnTurn b rest :=
  Refuses.cons (Refuses.alt (refuses_name fun c hc => (hrest.not c hc).2.1)
    (refuses_cls fun c hc => (hrest.not c hc).2.2))

theorem takes_turns (hchars : ∀ c ∈ w, ArgChar c) (hhead : ∀ c ∈ w.head?, isSpace c = false)
    (hrest : EndsArg rest) : Takes (isWord alnum) (.star fnTurn) b w rest [] := by
  induction hlen : w.length using Nat.strongRecOn generalizing w b with
  | ind n ih =>
    by_cases hne : w = []
    · subst hne
      exact takes_star_nil (refuses_fnTurn hrest)
    · obtain ⟨u, v, rfl, hu, hv, hturn⟩ := exists_turn alnum hchars hne hhead hrest
      have hlt : v.length < n := by
        rw [← hlen, List.length_append]
        exact Nat.lt_add_of_pos_left (List.length_pos_iff.mpr hu)
      exact (hturn b).star_cons hu
        (ih v.length hlt (fun c hc => hchars c (List.mem_append_right _ hc)) hv rfl)

theorem takes_fnArg (hw : ArgText w) (hrest : EndsArg rest) :
    Takes (isWord alnum) fnArg b w rest [] := by
  have hhead : ∀ c ∈ w.head?, isSpace c = false := fun c hc => isSpace_of_identChar (hw.head c hc)
  obtain ⟨u, v, rfl, -, hv, hturn⟩ := exists_turn alnum hw.chars hw.ne_nil hhead hrest
  exact (hturn b).seq (takes_turns (fun c hc => hw.chars c (List.mem_append_right _ hc)) hv hrest)

/-- The arguments behind the first -/
def fnTail : Pattern := .star (seqs [spaces, char ',', spaces, fnArg, spaces])

theorem endsArg_flatMap (l : List (List Char)) (hrest : EndsArgs rest) :
    EndsArg ((l.flatMap fun s => ',' :: ' ' :: s) ++ rest) := by
  cases l with
  | nil => exact hrest.arg
  | cons s l =>
    intro c hc
    obtain rfl : ',' = c := by simpa using hc
    exact .inl rfl

theorem takes_fnTail (hl : ∀ s ∈ l, ArgText s) (hrest : EndsArgs rest) :
    Takes (isWord alnum) fnTail b (l.flatMap fun s => ',' :: ' ' :: s) rest [] := by
  induction l generalizing b with
  | nil =>
    apply takes_star_nil
    apply Refuses.cons_star (refuses_cls fun c hc => (hrest.arg.not c hc).1)
    apply Refuses.cons
    apply refuses_char
    intro c hc
    rw [hrest c hc]
    decide
  | cons s l ih =>
    have hs := hl s (List.mem_cons_self ..)
    have hends := endsArg_flatMap l hrest
    have hturn : Takes (isWord alnum) (seqs [spaces, char ',', spaces, fnArg, spaces]) b
        ([','] ++ ([' '] ++ (s ++ []))) ((l.flatMap fun s => ',' :: ' ' :: s) ++ rest) [] := by
      apply Takes.skip
      · apply takes_spaces_nil
        intro c hc
        obtain rfl : ',' = c := by simpa using hc
        decide
      · apply Takes.read (takes_char ',')
        apply Takes.read
        · apply takes_space
          rw [List.append_assoc]
          exact fun c hc => isSpace_of_identChar (hs.head_append c hc)
        · apply Takes.read (v := []) (takes_fnArg hs hends)
          exact (takes_spaces_nil fun c hc => (hends.not c hc).1).last
    have hstar := hturn.star_cons nofun (ih fun s' hs' => hl s' (List.mem_cons_of_mem _ hs'))
    rw [List.append_nil] at hstar
    exact hstar

theorem takes_fnArgs (hl : ∀ s ∈ l, ArgText s) (hrest : EndsArgs rest) :
    Takes (isWord alnum) fnArgs b (join l) rest [] := by
  cases l with
  | nil => exact takes_opt_nil (refuses_fnTurn hrest.arg).seq.cons
  | cons s l =>
    have hends := endsArg_flatMap l hrest
    rw [join_cons]
    apply Takes.opt
    apply Takes.read (takes_fnArg (hl s (List.mem_cons_self ..)) hends)
    apply Takes.skip (takes_spaces_nil fun c hc => (hends.not c hc).1)
    exact (takes_fnTail (fun s' hs' => hl s' (List.mem_cons_of_mem _ hs')) hrest).last

/-- `(args) ` -/
theorem takes_parens (g : ℕ) (hl : ∀ s ∈ l, ArgText s)
    (hrest : ∀ c ∈ rest.head?, isSpace c = false) :
    Takes (isWord alnum) (fnSide g) b (['('] ++ (join l ++ ([')'] ++ [' ']))) rest
      [(g, join l)] := by
  have hclose : EndsArgs ([')'] ++ [' '] ++ rest) := by
    intro c hc
    simpa using hc.symm
  have hparen : ∀ c ∈ ([')'] ++ [' '] ++ rest).head?, isSpace c = false := by
    intro c hc
    rw [hclose c hc]
    decide
  have hcomma : ∀ {b}, Refuses (isWord alnum) (char ',') b ([')'] ++ [' '] ++ rest) := by
    intro b
    apply refuses_char
    intro c hc
    rw [hclose c hc]
    decide
  have hend : ∀ {b}, Takes (isWord alnum) (seqs [spaces, .opt (char ','), spaces, char ')',
      spaces]) b ([')'] ++ [' ']) rest [] := by
    intro b
    have hread : Takes (isWord alnum) (seqs [char ')', spaces]) b ([')'] ++ [' ']) rest [] :=
      Takes.read (takes_char ')') (takes_space hrest).last
    exact Takes.skip (takes_spaces_nil hparen)
      (Takes.skip (takes_opt_nil hcomma) (Takes.skip (takes_spaces_nil hparen) hread))
  have hfirst : ∀ c ∈ ((join l ++ ([')'] ++ [' '])) ++ rest).head?, isSpace c = false := by
    rw [List.append_assoc]
    cases l with
    | nil => exact hparen
    | cons s l =>
      rw [join_cons, List.append_assoc]
      exact fun c hc => isSpace_of_identChar ((hl s (List.mem_cons_self ..)).head_append c hc)
  apply Takes.alt_left
  apply Takes.skip
  · apply takes_spaces_nil
    intro c hc
    obtain rfl : '(' = c := by simpa using hc
    decide
  · apply Takes.read (takes_char '(')
    apply Takes.skip (takes_spaces_nil hfirst)
    exact ((takes_fnArgs hl hclose).group g).cons hend

/-- Without parens, up to the end -/
theorem takes_bare (g : ℕ) {s : List Char} (hl : ∀ t ∈ s :: l, ArgText t) :
    Takes (isWord alnum) (fnSide g) b (join (s :: l)) [] [(g + 1, join (s :: l))] := by
  have hident : ∀ c ∈ (join (s :: l)).head?, identChar c = true := by
    rw [join_cons]
    exact (hl s (List.mem_cons_self ..)).head_append
  have hspace : ∀ c ∈ (join (s :: l)).head?, isSpace c = false :=
    fun c hc => isSpace_of_identChar (hident c hc)
  have hend : ∀ {b}, Takes (isWord alnum) (seqs [spaces, .opt (char ','), spaces]) b [] [] [] :=
    Takes.skip (takes_spaces_nil forall_head?_nil)
      (Takes.skip (takes_opt_nil (refuses_char forall_head?_nil))
        (takes_spaces_nil forall_head?_nil).last)
  have hargs : Takes (isWord alnum) (.group (g + 1) fnArgs) b (join (s :: l)) ([] ++ [])
      [(g + 1, join (s :: l))] :=
    (takes_fnArgs hl forall_head?_nil).group (g + 1)
  apply Takes.alt_right
  · rw [List.append_nil]
    apply Refuses.cons_star (refuses_cls hspace)
    apply Refuses.cons
    apply refuses_char
    exact fun c hc => ne_of_identChar (hident c hc) (by decide)
  · apply Takes.skip
    · rw [List.append_nil]
      exact takes_spaces_nil hspace
    · have hcons := hargs.cons hend
      rwa [List.append_nil] at hcons

/-- The groups of what is printed -/
theorem run_fntype (alnum : Char → Bool) {s : List Char} {rets : List (List Char)} (hl : ∀ t ∈ l, ArgText t)
    (hrets : ∀ t ∈ s :: rets, ArgText t) :
    run (isWord alnum) fntype
        ("fn(".toList ++ (join l ++ (") -> ".toList ++ join (s :: rets)))) =
      some [(4, join (s :: rets)), (1, join l)] := by
  have htext : "fn(".toList ++ (join l ++ (") -> ".toList ++ join (s :: rets))) =
      "fn".toList ++ ((['('] ++ (join l ++ ([')'] ++ [' ']))) ++
        ("->".toList ++ ([' '] ++ (join (s :: rets) ++ [])))) := by
    simp
  have hret : ∀ c ∈ (join (s :: rets) ++ [] ++ []).head?, isSpace c = false := by
    rw [List.append_nil, List.append_nil, join_cons]
    exact fun c hc => isSpace_of_identChar ((hrets s (List.mem_cons_self ..)).head_append c hc)
  have harrow : ∀ c ∈ (("->".toList ++ ([' '] ++ (join (s :: rets) ++ []))) ++ []).head?,
      isSpace c = false := by
    intro c hc
    obtain rfl : '-' = c := by simpa using hc
    decide
  have hend : ∀ {b}, Takes (isWord alnum) (seqs [spaces, .stop]) b [] [] [] :=
    Takes.skip (takes_spaces_nil forall_head?_nil) takes_stop.last
  -- behind the arguments, and behind the arrow
  have hright : ∀ {b}, Takes (isWord alnum) (seqs [spaces, literal "->".toList, spaces, fnSide 3,
      spaces, .stop]) b ("->".toList ++ ([' '] ++ (join (s :: rets) ++ []))) []
      [(4, join (s :: rets))] := by
    intro b
    apply Takes.skip (takes_spaces_nil harrow)
    apply Takes.read (takes_literal _)
    exact Takes.read (takes_space hret) (Takes.cons (takes_bare 3 hrets) hend)
  rw [htext]
  apply run_of_takes
  apply Takes.skip
  · apply takes_spaces_nil
    intro c hc
    obtain rfl : 'f' = c := by simpa using hc
    decide
  · apply Takes.read (takes_literal _)
    apply Takes.skip
    · apply takes_spaces_nil
      intro c hc
      obtain rfl : '(' = c := by simpa using hc
      decide
    · exact (takes_parens 1 hl harrow).cons hright

end Reading

/-! ## Section 2: What the constructor is called with -/

/-- What is at the end of a text, or of the one in front of it -/
theorem forall_getLast?_append {p : Char → Prop} {v w : List Char} (hw : ∀ c ∈ w.getLast?, p c)
    (hv : w = [] → ∀ c ∈ v.getLast?, p c) : ∀ c ∈ (v ++ w).getLast?, p c := by
  by_cases hnil : w = []
  · subst hnil
    rw [List.append_nil]
    exact hv rfl
  · rw [List.getLast?_append_of_ne_nil v hnil]
    exact hw

theorem isSpace_getLast? {w : List Char} (h : ∀ c ∈ w, identChar c = true) :
    ∀ c ∈ w.getLast?, isSpace c = false :=
  fun c hc => isSpace_of_identChar (h c (List.mem_of_getLast? hc))

theorem Arg.WellFormed.last (arg : Arg) (h : arg.WellFormed) (mods : List Modifier) :
    ∀ c ∈ (arg.str mods).getLast?, isSpace c = false := by
  have hptr : ∀ c ∈ arg.ptrText.getLast?, isSpace c = false := by
    intro c hc
    have hall : arg.ptrText.all (fun c => !isSpace c) = true := by
      unfold Arg.ptrText
      cases arg.ptr <;> decide
    simpa using List.all_eq_true.mp hall c (List.mem_of_getLast? hc)
  have hname : ∀ c ∈ arg.nameText.getLast?, isSpace c = false :=
    isSpace_getLast? fun c hc => (h.nameText (List.ne_nil_of_mem hc)).chars c hc
  have hsize : ∀ c ∈ arg.asizeText.getLast?, isSpace c = false := by
    rw [Arg.asizeText_eq]
    cases arg.printedSize with
    | none => nofun
    | some size =>
      intro c hc
      obtain rfl : ']' = c := by simpa [bracketText, List.getLast?_cons] using hc
      decide
  apply forall_getLast?_append
  · apply forall_getLast?_append
    · apply forall_getLast?_append
      · exact forall_getLast?_append (forall_getLast?_append hsize fun _ => hname) fun _ => hptr
      · -- there is no space for a name that is not there
        intro hnil c hc
        rw [if_neg fun hne => hne (List.append_eq_nil_iff.mp (List.append_eq_nil_iff.mp hnil).2).1]
          at hc
        cases hc
    · exact fun _ => isSpace_getLast? arg.prim.isName.chars
  · exact fun hnil => absurd (List.append_eq_nil_iff.mp hnil).1 arg.prim.isName.ne_nil

theorem Arg.WellFormed.argText {arg : Arg} (h : arg.WellFormed) (mods : List Modifier) :
    ArgText (arg.str mods) where
  ne_nil := by simp [Arg.str, arg.prim.isName.ne_nil]
  head := modsText_head mods arg.prim _
  last := h.last arg mods
  chars := h.str_chars mods

/-- Neither `void` nor `noreturn` is an argument. -/
theorem Arg.WellFormed.str_ne {arg : Arg} (h : arg.WellFormed) (mods : List Modifier)
    {w : List Char} (hw : w = "void".toList ∨ w = "noreturn".toList) : arg.str mods ≠ w := by
  rintro rfl
  have hread := h.parsetype_str (fun _ => false) mods
  have hinvalid : Arg.parsetype (fun _ => false) (arg.str mods) = .error .invalid := by
    rcases hw with hw | hw
    · rw [hw]
      rfl
    · rw [hw]
      rfl
  rw [hinvalid] at hread
  cases hread

section Printed

variable {alnum : Char → Bool} (o : SetOrder) {args rets : List Arg} {noreturn : Bool}

theorem exists_of_mem_strs {i : ℕ} {w : List Char} (hw : w ∈ strs o i args) :
    ∃ arg ∈ args, ∃ mods : List Modifier, mods.Perm arg.mods ∧ w = arg.str mods := by
  induction args generalizing i with
  | nil => cases hw
  | cons arg args ih =>
    rcases List.mem_cons.mp hw with rfl | hw
    · exact ⟨arg, List.mem_cons_self .., _, o.perm i _, rfl⟩
    · obtain ⟨arg', harg', hmods⟩ := ih hw
      exact ⟨arg', List.mem_cons_of_mem _ harg', hmods⟩

theorem argText_of_mem_strs (hargs : ∀ arg ∈ args, arg.WellFormed) {i : ℕ} :
    ∀ w ∈ strs o i args, ArgText w := by
  intro w hw
  obtain ⟨arg, harg, mods, -, rfl⟩ := exists_of_mem_strs o hw
  exact (hargs arg harg).argText mods

theorem strs_ne (hargs : ∀ arg ∈ args, arg.WellFormed) (i : ℕ) {w : List Char}
    (hw : w = "void".toList ∨ w = "noreturn".toList) : strs o i args ≠ [w] := by
  intro heq
  obtain ⟨arg, harg, mods, -, hstr⟩ :=
    exists_of_mem_strs o (heq ▸ List.mem_singleton_self w : w ∈ strs o i args)
  exact (hargs arg harg).str_ne mods hw hstr.symm

theorem strs_not_mem_noArgs (hargs : ∀ arg ∈ args, arg.WellFormed) (i : ℕ) :
    strs o i args ∉ noArgs := by
  intro hmem
  rcases List.mem_cons.mp hmem with heq | hmem
  · exact strs_ne o hargs i (.inl rfl) heq
  · have hnil : [] ∈ strs o i args := by
      rw [List.mem_singleton.mp hmem]
      exact List.mem_singleton_self _
    exact (argText_of_mem_strs o hargs [] hnil).ne_nil rfl

theorem mapM_strs {β : Type} {f : List Char → Except FnError β} {g : Arg → β}
    (h : ∀ arg ∈ args, ∀ mods : List Modifier, mods.Perm arg.mods →
      f (arg.str mods) = .ok (g arg)) (i : ℕ) :
    (strs o i args).mapM f = .ok (args.map g) := by
  induction args generalizing i with
  | nil => rfl
  | cons arg args ih =>
    have hrest := ih (fun arg' harg' => h arg' (List.mem_cons_of_mem _ harg')) (i + 1)
    rw [strs, List.mapM_cons, h arg (List.mem_cons_self ..) _ (o.perm i _), hrest]
    rfl

theorem commas_join_eq {l : List (List Char)} (hl : ∀ s ∈ l, ArgText s) (hne : l ≠ []) :
    (commas (join l)).map strip = l := by
  apply commas_join hne
  · intro s hs hcomma
    rcases (hl s hs).chars _ hcomma with hident | hmem
    · exact not_mem_punctuation hident (by decide)
    · exact absurd hmem (by decide)
  · exact fun s hs c hc => isSpace_of_identChar ((hl s hs).head c hc)
  · exact fun s hs => (hl s hs).last

/-- The texts that are joined are the ones that are taken apart. -/
theorem fnGroups_join {l r : List (List Char)} (hl : ∀ s ∈ l, ArgText s)
    (hr : ∀ s ∈ r, ArgText s) (hne : r ≠ []) (hargs : l ∉ noArgs) :
    fnGroups [(4, join r), (1, join l)] =
      let rets := if r = ["noreturn".toList] then [] else r
      ⟨l, if rets ∈ noArgs then [] else rets, r = ["noreturn".toList]⟩ := by
  have hor : ∀ s, orText s [] = s := by
    intro s
    unfold orText
    split
    · next hnil => exact hnil.symm
    · rfl
  have hleft : (if (commas (join l)).map strip ∈ noArgs then []
      else (commas (join l)).map strip) = l := by
    by_cases hnil : l = []
    · subst hnil
      rfl
    · rw [commas_join_eq hl hnil, if_neg hargs]
  have hright := commas_join_eq hr hne
  have hfirst : orText (groupText [(4, join r), (1, join l)] 1)
      (groupText [(4, join r), (1, join l)] 2) = join l := hor _
  have hsecond : orText (groupText [(4, join r), (1, join l)] 3)
      (groupText [(4, join r), (1, join l)] 4) = join r := rfl
  rw [fnGroups, hfirst, hsecond, hright]
  dsimp only
  rw [hleft]

/-- What comes out of the text of a type -/
theorem parsetype_typeText (hargs : ∀ arg ∈ args, arg.WellFormed)
    (hrets : ∀ ret ∈ rets, ret.WellFormed) (hno : noreturn = true → rets = []) :
    Fn.parsetype alnum (typeText o args rets noreturn) =
      .ok ⟨strs o 0 args, strs o args.length rets, noreturn⟩ := by
  have hl : ∀ s ∈ strs o 0 args, ArgText s := argText_of_mem_strs o hargs
  have hnot := strs_not_mem_noArgs o hargs 0
  have hname : ∀ {w : List Char}, IsName w → ∀ t ∈ [w], ArgText t := by
    intro w hw t ht
    rw [List.mem_singleton.mp ht]
    exact hw.argText
  have hgroups : ∃ s r, retTexts o args.length rets noreturn = s :: r ∧
      (∀ t ∈ s :: r, ArgText t) ∧ fnGroups [(4, join (s :: r)), (1, join (strs o 0 args))] =
        ⟨strs o 0 args, strs o args.length rets, noreturn⟩ := by
    cases noreturn with
    | true =>
      rw [hno rfl]
      have hword : ∀ t ∈ ["noreturn".toList], ArgText t := hname (isName_of (by decide))
      refine ⟨"noreturn".toList, [], rfl, hword, ?_⟩
      rw [fnGroups_join hl hword (List.cons_ne_nil _ _) hnot]
      rfl
    | false =>
      by_cases hnil : rets = []
      · rw [hnil]
        have hword : ∀ t ∈ ["void".toList], ArgText t := hname (isName_of (by decide))
        refine ⟨"void".toList, [], rfl, hword, ?_⟩
        rw [fnGroups_join hl hword (List.cons_ne_nil _ _) hnot]
        rfl
      · have htexts : retTexts o args.length rets false = strs o args.length rets := by
          rw [retTexts, if_neg Bool.false_ne_true, if_neg hnil]
        have hr : ∀ s ∈ strs o args.length rets, ArgText s := argText_of_mem_strs o hrets
        have hrnot := strs_not_mem_noArgs o hrets args.length
        have hnoreturn : strs o args.length rets ≠ ["noreturn".toList] :=
          strs_ne o hrets args.length (.inr rfl)
        obtain ⟨ret, rets', rfl⟩ := List.exists_cons_of_ne_nil hnil
        refine ⟨_, _, htexts, hr, ?_⟩
        rw [← strs, fnGroups_join hl hr (List.cons_ne_nil _ _) hnot]
        simp only [if_neg hnoreturn, if_neg hrnot, decide_eq_false hnoreturn]
  obtain ⟨s, r, htexts, hr, hgroups⟩ := hgroups
  have hrun := run_fntype alnum hl hr
  have hcheck : ∀ w ∈ strs o 0 args ++ strs o args.length rets,
      ∃ t, ofArg (Arg.parsetype alnum w) = .ok t := by
    intro w hw
    rcases List.mem_append.mp hw with hw | hw
    · obtain ⟨arg, harg, mods, -, rfl⟩ := exists_of_mem_strs o hw
      exact ⟨_, congrArg ofArg ((hargs arg harg).parsetype_str alnum mods)⟩
    · obtain ⟨ret, hret, mods, -, rfl⟩ := exists_of_mem_strs o hw
      exact ⟨_, congrArg ofArg ((hrets ret hret).parsetype_str alnum mods)⟩
  obtain ⟨ts, hts, -⟩ := FallibleFold.exists_mapM hcheck
  rw [Fn.parsetype, typeText, htexts, hrun]
  change (do
    let t := fnGroups [(4, join (s :: r)), (1, join (strs o 0 args))]
    let _ ← (t.args ++ t.rets).mapM fun arg => ofArg (Arg.parsetype alnum arg)
    pure t) = _
  rw [hgroups]
  change ((strs o 0 args ++ strs o args.length rets).mapM fun arg =>
    ofArg (Arg.parsetype alnum arg)) >>= (fun _ => pure _) = _
  rw [hts]
  rfl

/-- The constructor, called with the text of a type, has the arguments that are read back. -/
theorem init_typeText (k : FnKwargs) (hargs : ∀ arg ∈ args, arg.WellFormed)
    (hrets : ∀ ret ∈ rets, ret.WellFormed) (hno : noreturn = true → rets = []) :
    k.init alnum (typeText o args rets noreturn) =
      k.build (args.map Arg.printed) (rets.map Arg.printed) noreturn := by
  have hread : ∀ {l : List Arg} (i : ℕ), (∀ arg ∈ l, arg.WellFormed) →
      (strs o i l).mapM (fun arg => ofArg (Arg.parse alnum arg)) = .ok (l.map Arg.printed) := by
    intro l i hl
    apply mapM_strs o
    intro arg harg mods hmods
    rw [Arg.parse_str (hl arg harg) alnum hmods]
    rfl
  rw [FnKwargs.init, parsetype_typeText o hargs hrets hno]
  change (strs o 0 args).mapM (fun arg => ofArg (Arg.parse alnum arg)) >>= (fun args' =>
    (strs o args.length rets).mapM (fun ret => ofArg (Arg.parse alnum ret)) >>=
      fun rets' => k.build args' rets' noreturn) = _
  rw [hread 0 hargs, hread args.length hrets]
  rfl

end Printed

/-! ## Section 3: What the constructor checks -/

/-- Arguments and returns that the constructor takes -/
structure FnKwargs.Accepts (k : FnKwargs) (args rets : List Arg) : Prop where
  names : ((args ++ rets).filterMap Arg.name).Nodup
  sizes : ∀ arg ∈ args, ∀ size ∈ arg.asizeName, size ∈ args.filterMap Arg.name
  returns : ∀ ret ∈ rets, ret.asizeName = none
  bound : ∀ bound ∈ k.with_.1, bound.1 ∈ args.filterMap Arg.name
  limits : k.careaboutlimits = true →
    ((k.used args).map Arg.size).sum ≤ 4 * 4 ∧ rets.length ≤ 1

section Constructed

variable {alnum : Char → Bool} {k : FnKwargs} {args rets : List Arg} {noreturn : Bool}
  {type : List Char} {obj : FnObject}

theorem build_eq_ok :
    k.build args rets noreturn = .ok obj ↔ k.Accepts args rets ∧ k.make args rets noreturn = obj := by
  constructor
  · intro h
    unfold FnKwargs.build at h
    simp only at h
    split at h
    · cases h
    · next hnames =>
      split at h
      · cases h
      · next hsizes =>
        split at h
        · cases h
        · next hreturns =>
          split at h
          · cases h
          · next hbound =>
            split at h
            · cases h
            · next harguments =>
              split at h
              · cases h
              · next hrets =>
                refine ⟨⟨not_not.mp hnames, not_not.mp hsizes, not_not.mp hreturns,
                  not_not.mp hbound, fun hlimits => ⟨?_, ?_⟩⟩, Except.ok.inj h⟩
                · exact Nat.le_of_not_lt fun hlt => harguments ⟨hlimits, hlt⟩
                · exact Nat.le_of_not_lt fun hlt => hrets ⟨hlimits, hlt⟩
  · rintro ⟨h, rfl⟩
    have harguments : ¬(k.careaboutlimits = true ∧ 4 * 4 < ((k.used args).map Arg.size).sum) :=
      fun hlt => Nat.not_lt.mpr (h.limits hlt.1).1 hlt.2
    have hrets : ¬(k.careaboutlimits = true ∧ 1 < rets.length) :=
      fun hlt => Nat.not_lt.mpr (h.limits hlt.1).2 hlt.2
    simp only [FnKwargs.build]
    rw [if_neg (not_not.mpr h.names), if_neg (not_not.mpr h.sizes), if_neg (not_not.mpr h.returns),
      if_neg (not_not.mpr h.bound), if_neg harguments, if_neg hrets]

/-- A function that does not return has no return values. -/
theorem fnGroups_noreturn {gs : List (ℕ × List Char)} (h : (fnGroups gs).noreturn = true) :
    (fnGroups gs).rets = [] := by
  simp only [fnGroups] at h ⊢
  rw [if_pos (of_decide_eq_true h), ite_self]

/-- What a call of the constructor that succeeds comes from -/
theorem init_eq_ok (h : k.init alnum type = .ok obj) :
    ∃ args rets noreturn, (∀ arg ∈ args, arg.WellFormed) ∧ (∀ ret ∈ rets, ret.WellFormed) ∧
      (noreturn = true → rets = []) ∧ k.Accepts args rets ∧ k.make args rets noreturn = obj := by
  obtain ⟨t, ht, h⟩ := FallibleFold.bind_ok.mp h
  obtain ⟨args, hargs, h⟩ := FallibleFold.bind_ok.mp h
  obtain ⟨rets, hrets, h⟩ := FallibleFold.bind_ok.mp h
  have hwell : ∀ {l : List (List Char)} {l' : List Arg},
      l.mapM (fun arg => ofArg (Arg.parse alnum arg)) = .ok l' → ∀ arg ∈ l', arg.WellFormed := by
    intro l l' hl arg harg
    obtain ⟨w, -, hw⟩ := FallibleFold.exists_left_of_mem (FallibleFold.forall₂_of_mapM hl) harg
    cases hparse : Arg.parse alnum w with
    | ok arg' =>
      rw [hparse] at hw
      obtain rfl := Except.ok.inj hw
      exact Arg.wellFormed_of_parse hparse
    | error e =>
      rw [hparse] at hw
      cases hw
  obtain ⟨haccepts, hmake⟩ := build_eq_ok.mp h
  refine ⟨args, rets, t.noreturn, hwell hargs, hwell hrets, ?_, haccepts, hmake⟩
  intro hno
  have htrets : t.rets = [] := by
    unfold Fn.parsetype at ht
    split at ht
    · cases ht
    · obtain ⟨_, -, ht⟩ := FallibleFold.bind_ok.mp ht
      cases ht
      exact fnGroups_noreturn hno
  rw [htrets] at hrets
  cases hrets
  rfl

theorem unbound_nil (args : List Arg) : unbound [] args = args := by
  unfold unbound
  apply List.filter_eq_self.mpr
  intro arg _
  cases arg.name with
  | none => rfl
  | some name => rfl

theorem FnKwargs.used_of_noBindings (k : FnKwargs) (hk : k.with_ = noBindings) (args : List Arg) :
    k.used args = args := by
  unfold FnKwargs.used
  rw [hk]
  split
  · exact unbound_nil args
  · rfl

theorem mem_unbound {bound : List (String × ℤ)} {arg : Arg} :
    arg ∈ unbound bound args ↔ arg ∈ args ∧ ∀ name ∈ arg.name, name ∉ bound.map Prod.fst := by
  rw [unbound, List.mem_filter]
  cases arg.name with
  | none => simp
  | some name => simp

/-- The names that are left -/
theorem mem_names_unbound {bound : List (String × ℤ)} {name : String} :
    name ∈ (unbound bound args).filterMap Arg.name ↔
      name ∈ args.filterMap Arg.name ∧ name ∉ bound.map Prod.fst := by
  constructor
  · intro h
    obtain ⟨arg, harg, hname⟩ := List.mem_filterMap.mp h
    obtain ⟨harg, hnot⟩ := mem_unbound.mp harg
    exact ⟨List.mem_filterMap.mpr ⟨arg, harg, hname⟩, hnot name hname⟩
  · rintro ⟨h, hnot⟩
    obtain ⟨arg, harg, hname⟩ := List.mem_filterMap.mp h
    refine List.mem_filterMap.mpr ⟨arg, mem_unbound.mpr ⟨harg, ?_⟩, hname⟩
    intro name' hname'
    rw [hname] at hname'
    cases hname'
    exact hnot

theorem names_nodup_unbound {bound : List (String × ℤ)}
    (h : ((args ++ rets).filterMap Arg.name).Nodup) :
    ((unbound bound args ++ rets).filterMap Arg.name).Nodup :=
  h.sublist ((List.filter_sublist.append_right rets).filterMap Arg.name)

/-- The attributes of a function of the linker -/
def Fn.toObject (fn : Fn) : FnObject where
  isExport := fn.ispostbound
  name := fn.name
  scope := fn.scope
  source := fn.source
  alias_ := fn.alias_
  weak := fn.weak
  noreturn := fn.noreturn
  args := fn.args
  preboundargs := fn.preboundargs
  postboundargs := fn.postboundargs
  rets := fn.rets
  boundargs := fn.boundargs

theorem Fn.unbound_eq (fn : Fn) : unbound fn.boundargs fn.preboundargs = fn.postboundargs := by
  apply List.filter_congr
  intro arg _
  rw [Fn.bound?]
  cases arg.name with
  | none => rfl
  | some name =>
    rw [Option.any_some, Option.bind_some, Fn.boundarg?]
    cases hlookup : fn.boundargs.lookup name with
    | none =>
      have hnot : name ∉ fn.boundargs.map Prod.fst := by
        intro hmem
        obtain ⟨⟨name', value⟩, hbound, rfl⟩ := List.mem_map.mp hmem
        exact absurd (List.lookup_eq_none_iff.mp hlookup _ hbound) (by simp)
      rw [decide_eq_false hnot]
      rfl
    | some value =>
      obtain ⟨l, l', heq, -⟩ := List.lookup_eq_some_iff.mp hlookup
      have hmem : name ∈ fn.boundargs.map Prod.fst := by
        rw [heq]
        simp
      rw [decide_eq_true hmem]
      rfl

/-- What the constructor makes are functions of the linker. -/
theorem exists_fn (h : k.init alnum type = .ok obj) : ∃ fn : Fn, fn.toObject = obj := by
  obtain ⟨args, rets, noreturn, -, -, -, haccepts, rfl⟩ := init_eq_ok h
  let made := k.make args rets noreturn
  let fn : Fn :=
    { name := made.name
      scope := made.scope
      source := made.source
      alias_ := made.alias_
      weak := made.weak
      noreturn
      preboundargs := args
      rets
      boundargs := k.with_.1
      ispostbound := k.isExport
      names_nodup := haccepts.names
      asizes_mem := haccepts.sizes
      rets_asize := haccepts.returns
      bound_mem := haccepts.bound
      bound_nodup := k.with_.2 }
  refine ⟨fn, ?_⟩
  have hpost : fn.postboundargs = unbound k.with_.1 args := fn.unbound_eq.symm
  have hargs : fn.args = k.used args := by
    rw [Fn.args, hpost]
    rfl
  rw [Fn.toObject, hargs, hpost]
  rfl

end Constructed

/-! ## Section 4: What is lost -/

/-- `args`, `rets` and `noreturn` of a signature -/
def FnObject.HasType (obj : FnObject) (args rets : List Arg) (noreturn : Bool) : Prop :=
  obj.args = args ∧ obj.rets = rets ∧ obj.noreturn = noreturn

/-- The signature is the same behind a round trip, and so are the ones with and without the
arguments that are bound. -/
def Survives (alnum : Char → Bool) (o : SetOrder) (k : FnKwargs) (obj : FnObject) : Prop :=
  (∃ obj', k.withNone.init alnum (obj.str o) = .ok obj' ∧
      obj'.HasType obj.args obj.rets obj.noreturn) ∧
    (∃ obj', obj.prebound alnum o = .ok obj' ∧
      obj'.HasType obj.preboundargs obj.rets obj.noreturn) ∧
    ∃ obj', obj.postbound alnum o = .ok obj' ∧
      obj'.HasType obj.postboundargs obj.rets obj.noreturn

/-- No array has the size 0, and none that is left has a size that is bound. -/
structure FnObject.Sound (obj : FnObject) : Prop where
  sizes : ∀ arg ∈ obj.preboundargs ++ obj.rets, arg.asize ≠ some (.num 0)
  unbound : ∀ arg ∈ obj.postboundargs, ∀ size ∈ arg.asizeName, size ∉ obj.boundargs.map Prod.fst

section Constructed

variable {alnum : Char → Bool} {k : FnKwargs} {args rets : List Arg} {noreturn : Bool}
  {type : List Char} {obj : FnObject}

theorem map_printed_eq_self :
    args.map Arg.printed = args ↔ ∀ arg ∈ args, arg.asize ≠ some (.num 0) := by
  have heq := List.map_inj_left (l := args) (f := Arg.printed) (g := id)
  rw [List.map_id] at heq
  exact heq.trans (forall₂_congr fun arg _ => arg.printed_eq_self)

/-- A type that is printed and read without bindings is the same where no size is 0 and the
constructor takes it. -/
theorem exists_init_typeText (alnum : Char → Bool) (k : FnKwargs) (o : SetOrder) (hk : k.with_ = noBindings)
    (hargs : ∀ arg ∈ args, arg.WellFormed) (hrets : ∀ ret ∈ rets, ret.WellFormed)
    (hno : noreturn = true → rets = []) :
    (∃ obj, k.init alnum (typeText o args rets noreturn) = .ok obj ∧
        obj.HasType args rets noreturn) ↔
      (∀ arg ∈ args ++ rets, arg.asize ≠ some (.num 0)) ∧ k.Accepts args rets := by
  have hused : ∀ l, k.used l = l := k.used_of_noBindings hk
  rw [init_typeText o k hargs hrets hno]
  constructor
  · rintro ⟨obj, hobj, hasargs, hasrets, -⟩
    obtain ⟨haccepts, rfl⟩ := build_eq_ok.mp hobj
    have hsameargs : args.map Arg.printed = args := (hused _).symm.trans hasargs
    have hsamerets : rets.map Arg.printed = rets := hasrets
    rw [hsameargs, hsamerets] at haccepts
    refine ⟨?_, haccepts⟩
    intro arg harg
    rcases List.mem_append.mp harg with harg | harg
    · exact map_printed_eq_self.mp hsameargs arg harg
    · exact map_printed_eq_self.mp hsamerets arg harg
  · rintro ⟨hsizes, haccepts⟩
    rw [map_printed_eq_self.mpr fun arg harg => hsizes arg (List.mem_append_left _ harg),
      map_printed_eq_self.mpr fun ret hret => hsizes ret (List.mem_append_right _ hret)]
    exact ⟨_, build_eq_ok.mpr ⟨haccepts, rfl⟩, hused args, rfl, rfl⟩

/-- The constructor takes the arguments that are left if it takes all of them and finds the
sizes. -/
theorem accepts_unbound (k' : FnKwargs) (hk : k'.with_ = noBindings)
    (haccepts : k.Accepts args rets)
    (hlimits : k'.careaboutlimits = true →
      ((unbound k.with_.1 args).map Arg.size).sum ≤ 4 * 4 ∧ rets.length ≤ 1) :
    k'.Accepts (unbound k.with_.1 args) rets ↔ ∀ arg ∈ unbound k.with_.1 args,
      ∀ size ∈ arg.asizeName, size ∉ k.with_.1.map Prod.fst := by
  have hused := k'.used_of_noBindings hk (unbound k.with_.1 args)
  constructor
  · intro h arg harg size hsize
    exact (mem_names_unbound.mp (h.sizes arg harg size hsize)).2
  · intro h
    refine ⟨names_nodup_unbound haccepts.names, ?_, haccepts.returns, ?_, ?_⟩
    · intro arg harg size hsize
      exact mem_names_unbound.mpr
        ⟨haccepts.sizes arg (mem_unbound.mp harg).1 size hsize, h arg harg size hsize⟩
    · rw [hk]
      nofun
    · rwa [hused]

/-- What the constructor has taken, it takes without its bindings and limits. -/
theorem accepts_kwargs (haccepts : k.Accepts args rets) :
    (k.make args rets noreturn).kwargs.Accepts args rets where
  names := haccepts.names
  sizes := haccepts.sizes
  returns := haccepts.returns
  bound := nofun
  limits := nofun

theorem accepts_import (himport : k.isExport = false) (haccepts : k.Accepts args rets) :
    k.withNone.Accepts args rets where
  names := haccepts.names
  sizes := haccepts.sizes
  returns := haccepts.returns
  bound := nofun
  limits hlimits := by
    have hused : k.used args = args := by
      rw [FnKwargs.used, himport]
      rfl
    rw [FnKwargs.used_of_noBindings _ rfl, ← hused]
    exact haccepts.limits hlimits

/-- A signature survives just if it is sound. -/
theorem survives_iff_sound (o : SetOrder) (h : k.init alnum type = .ok obj) :
    Survives alnum o k obj ↔ obj.Sound := by
  obtain ⟨args, rets, noreturn, hargs, hrets, hno, haccepts, rfl⟩ := init_eq_ok h
  have hleft : ∀ arg ∈ unbound k.with_.1 args, arg.WellFormed :=
    fun arg harg => hargs arg (mem_unbound.mp harg).1
  have hpre := exists_init_typeText alnum (k.make args rets noreturn).kwargs o rfl
    hargs hrets hno
  have hpost := exists_init_typeText alnum (k.make args rets noreturn).kwargs o rfl
    hleft hrets hno
  rw [accepts_unbound (k.make args rets noreturn).kwargs rfl haccepts nofun] at hpost
  constructor
  · rintro ⟨-, ⟨obj', hobj', hpretype⟩, obj'', hobj'', hposttype⟩
    obtain ⟨nfn, hnfn, heq⟩ := FallibleFold.bind_ok.mp hobj'
    obtain ⟨nfn', hnfn', heq'⟩ := FallibleFold.bind_ok.mp hobj''
    cases heq
    cases heq'
    exact ⟨(hpre.mp ⟨nfn, hnfn, hpretype⟩).1, (hpost.mp ⟨nfn', hnfn', hposttype⟩).2⟩
  · rintro ⟨hsizes, hbound⟩
    have hsizes' : ∀ arg ∈ unbound k.with_.1 args ++ rets, arg.asize ≠ some (.num 0) := by
      intro arg harg
      apply hsizes arg
      rcases List.mem_append.mp harg with harg | harg
      · exact List.mem_append_left _ (mem_unbound.mp harg).1
      · exact List.mem_append_right _ harg
    obtain ⟨nfn, hnfn, hpretype⟩ := hpre.mpr ⟨hsizes, accepts_kwargs haccepts⟩
    obtain ⟨nfn', hnfn', hposttype⟩ := hpost.mpr ⟨hsizes', hbound⟩
    refine ⟨?_, ⟨_, FallibleFold.bind_ok.mpr ⟨nfn, hnfn, rfl⟩, hpretype⟩,
      ⟨_, FallibleFold.bind_ok.mpr ⟨nfn', hnfn', rfl⟩, hposttype⟩⟩
    -- an import prints all arguments, an export the ones that are left
    rcases Bool.eq_false_or_eq_true k.isExport with hexport | hexport
    · have hused : k.used args = unbound k.with_.1 args := by
        rw [FnKwargs.used, hexport]
        rfl
      have hlimits := haccepts.limits
      rw [hused] at hlimits
      have hstr := (exists_init_typeText alnum k.withNone o rfl hleft hrets hno).mpr
        ⟨hsizes', (accepts_unbound k.withNone rfl haccepts hlimits).mpr hbound⟩
      rw [← hused] at hstr
      exact hstr
    · have hused : k.used args = args := by
        rw [FnKwargs.used, hexport]
        rfl
      have hstr := (exists_init_typeText alnum k.withNone o rfl hargs hrets hno).mpr
        ⟨hsizes, accepts_import hexport haccepts⟩
      rw [← hused] at hstr
      exact hstr

end Constructed

/-! ## Section 5: The round trip -/

/-- Types that are printed and read: an argument is the same just if its size is not 0, and a
signature survives just if it is sound. -/
theorem round_trip_iff (alnum : Char → Bool) (o : SetOrder) :
    (∀ type arg, Arg.parse alnum type = .ok arg → ∀ mods : List Modifier, mods.Perm arg.mods →
      (Arg.parse alnum (arg.str mods) = .ok arg ↔ arg.asize ≠ some (.num 0))) ∧
    ∀ (k : FnKwargs) type obj, k.init alnum type = .ok obj →
      (Survives alnum o k obj ↔ obj.Sound) := by
  constructor
  · intro type arg harg mods hmods
    rw [Arg.parse_str (Arg.wellFormed_of_parse harg) alnum hmods, ← arg.printed_eq_self]
    exact ⟨Except.ok.inj, congrArg Except.ok⟩
  · intro k type obj hobj
    exact survives_iff_sound o hobj

/-- The order of the source text -/
def SetOrder.same : SetOrder := ⟨fun _ mods => mods, fun _ mods => .refl mods⟩

/-- An export of a box -/
def writeKwargs (with_ : Bindings) : FnKwargs where
  isExport := true
  name := "write"
  scope := none
  source := "export.write"
  alias_ := none
  with_
  weak := false
  careaboutlimits := true

/-- `fn(const u8 buf[size], usize size) -> err` -/
def writeType : List Char := "fn(const u8 buf[size], usize size) -> err".toList

/-- A buffer whose size is an argument -/
def writeArgs : List Arg :=
  [{ Arg.value .u8 (some "buf") with isconst := true, asize := some (.arg "size") },
    Arg.value .usize (some "size")]

/-- `write` with its size bound, or without a binding -/
def writeObject (with_ : Bindings) : FnObject :=
  (writeKwargs with_).make writeArgs [Arg.value .err none] false

theorem round_trip_write :
    Survives (fun _ => false) .same (writeKwargs noBindings) (writeObject noBindings) :=
  ((round_trip_iff (fun _ => false) .same).2 (writeKwargs noBindings) writeType
    (writeObject noBindings) (by decide +kernel)).mpr
    ⟨by decide +kernel, by decide +kernel⟩

/-- `with.size = 4` -/
def sizeBound : Bindings := ⟨[("size", 4)], by decide⟩

/-- With the size bound, the buffer that is left has no size. `u8[0]` is read, and printed as
`u8`. -/
theorem not_round_trip :
    ((writeKwargs sizeBound).init (fun _ => false) writeType = .ok (writeObject sizeBound) ∧
      (writeObject sizeBound).postbound (fun _ => false) .same = .error .noSize) ∧
      ∃ arg, Arg.parse (fun _ => false) "u8[0]".toList = .ok arg ∧
        Arg.parse (fun _ => false) (arg.str []) = .ok { arg with asize := none } ∧
        arg.asize = some (.num 0) := by
  refine ⟨⟨by decide +kernel, by decide +kernel⟩,
    { Arg.value .u8 none with asize := some (.num 0) }, ?_, ?_, rfl⟩
  · decide +kernel
  · decide +kernel

end BentoLinker.Linker
