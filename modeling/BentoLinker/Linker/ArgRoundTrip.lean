import BentoLinker.Linker.ArgText

/-!
# Types of Arguments, Printed and Read

What becomes of an argument whose type is printed and read again.

1. Characters, names and numbers: how each part of the expression reads what is printed for it
2. `takes_head`, `takes_tail_unnamed`, `takes_tail_named`: the whole expression
3. `Arg.parse_str`: what is read back

The first try of the matcher is the right one at each part, whatever comes behind it: there is
no colon for a name in front, no modifier is a type, and names, numbers and brackets end where
the next part begins. An array of size 0 is accepted where there is no modifier, and is not
printed.
-/

namespace BentoLinker.Linker

open Backtracking PythonText

/-! ## Section 1: How the expression reads what is printed -/

/-- Letters are ranges of characters. -/
theorem isAlpha_eq (c : Char) : c.isAlpha =
    (decide (c.val ≥ 65 ∧ c.val ≤ 90) || decide (c.val ≥ 97) && decide (c.val ≤ 122)) := rfl

theorem identChar_iff {c : Char} : identChar c = true ↔
    (48 ≤ c.toNat ∧ c.toNat ≤ 57) ∨ (65 ≤ c.toNat ∧ c.toNat ≤ 90) ∨
      (97 ≤ c.toNat ∧ c.toNat ≤ 122) ∨ c.toNat = 95 := by
  have hunder : c = '_' ↔ c.toNat = 95 := by
    rw [← Char.toNat_inj]
    rfl
  simp only [identChar, Char.isAlphanum, isAlpha_eq, Char.isDigit, Bool.or_eq_true,
    Bool.and_eq_true, decide_eq_true_eq, beq_iff_eq, hunder, ge_iff_le, UInt32.le_iff_toNat_le]
  change ((65 ≤ c.toNat ∧ c.toNat ≤ 90 ∨ 97 ≤ c.toNat ∧ c.toNat ≤ 122) ∨
    48 ≤ c.toNat ∧ c.toNat ≤ 57) ∨ c.toNat = 95 ↔ _
  omega

theorem identChar_of_start {c : Char} (h : identStart c = true) : identChar c = true := by
  rw [identStart, Bool.or_eq_true] at h
  rw [identChar, Char.isAlphanum, Bool.or_eq_true, Bool.or_eq_true]
  exact h.imp .inl id

theorem identChar_of_digit {c : Char} (h : c.isDigit = true) : identChar c = true := by
  rw [identChar, Char.isAlphanum, h, Bool.or_true]
  rfl

theorem isSpace_of_identChar {c : Char} (h : identChar c = true) : isSpace c = false := by
  have hc := identChar_iff.mp h
  simp only [isSpace, Bool.or_eq_false_iff, Bool.and_eq_false_iff, decide_eq_false_iff_not,
    beq_eq_false_iff_ne]
  omega

theorem isWord_of_identChar (alnum : Char → Bool) {c : Char} (h : identChar c = true) :
    isWord alnum c = true := by
  have hc := identChar_iff.mp h
  rw [isWord, if_pos (by omega)]
  exact h

/-- Characters that have a meaning of their own -/
def punctuation : List Char := ['*', '[', ']', ':', ',', '(', ')', ' ', '-', '>']

theorem not_mem_punctuation {c : Char} (h : identChar c = true) : c ∉ punctuation := by
  intro hmem
  have hall : punctuation.all (fun c => !identChar c) = true := by decide
  rw [List.all_eq_true] at hall
  simpa [h] using hall c hmem

theorem isWord_of_mem_punctuation (alnum : Char → Bool) {c : Char} (h : c ∈ punctuation) :
    isWord alnum c = false := by
  have hall : punctuation.all (fun c => c.toNat < 128) = true := by decide
  rw [isWord, if_pos (of_decide_eq_true (List.all_eq_true.mp hall c h))]
  exact Bool.eq_false_iff.mpr fun hident => not_mem_punctuation hident h

theorem ne_of_identChar {c d : Char} (h : identChar c = true) (hd : d ∈ punctuation) : c ≠ d := by
  rintro rfl
  exact not_mem_punctuation h hd

/-- What is at the front of a text, or of the one behind it -/
theorem forall_head?_append {p : Char → Prop} {v w : List Char} (hv : ∀ c ∈ v.head?, p c)
    (hw : v = [] → ∀ c ∈ w.head?, p c) : ∀ c ∈ (v ++ w).head?, p c := by
  cases v with
  | nil => exact hw rfl
  | cons d v => exact hv

theorem IsName.ne_nil {w : List Char} (h : IsName w) : w ≠ [] := by
  obtain ⟨c, cs, rfl, -, -⟩ := h
  exact List.cons_ne_nil c cs

theorem IsName.chars {w : List Char} (h : IsName w) : ∀ c ∈ w, identChar c = true := by
  obtain ⟨c, cs, rfl, hc, hcs⟩ := h
  intro d hd
  rcases List.mem_cons.mp hd with rfl | hd
  · exact identChar_of_start hc
  · exact hcs d hd

section Reading

variable {alnum : Char → Bool} {b : Option Char} {w rest : List Char}

theorem takes_char (c : Char) : Takes (isWord alnum) (char c) b [c] rest [] :=
  takes_cls (beq_self_eq_true c)

theorem refuses_char {c : Char} (h : ∀ d ∈ rest.head?, d ≠ c) :
    Refuses (isWord alnum) (char c) b rest :=
  refuses_cls fun d hd => beq_eq_false_iff_ne.mpr (h d hd)

theorem takes_spaces_nil (h : ∀ c ∈ rest.head?, isSpace c = false) :
    Takes (isWord alnum) spaces b [] rest [] :=
  takes_class (fun _ hc => (List.not_mem_nil hc).elim) h

theorem takes_space (h : ∀ c ∈ rest.head?, isSpace c = false) :
    Takes (isWord alnum) spaces b [' '] rest [] := by
  apply takes_class _ h
  intro c hc
  obtain rfl := List.mem_singleton.mp hc
  decide

theorem takes_name (hw : IsName w) (hrest : ∀ c ∈ rest.head?, identChar c = false) :
    Takes (isWord alnum) namepattern b w rest [] := by
  obtain ⟨c, cs, rfl, hc, hcs⟩ := hw
  exact Takes.read (w := [c]) (takes_cls hc) (takes_class hcs hrest).last

theorem refuses_name (h : ∀ c ∈ rest.head?, identStart c = false) :
    Refuses (isWord alnum) namepattern b rest :=
  (refuses_cls h).cons

theorem isWord_modifier {m : List Char} (h : m ∈ Modifier.all.map Modifier.text) :
    IsWord (isWord alnum) m := by
  have hall : ∀ m ∈ Modifier.all.map Modifier.text, m ≠ [] ∧ m.all identChar = true := by decide
  obtain ⟨hne, hident⟩ := hall m h
  exact ⟨hne, fun c hc => isWord_of_identChar alnum (List.all_eq_true.mp hident c hc)⟩

theorem isWord_prim {p : List Char} (h : p ∈ Prim.all.map Prim.text) :
    IsWord (isWord alnum) p := by
  have hall : ∀ p ∈ Prim.all.map Prim.text, p ≠ [] ∧ p.all identChar = true := by decide
  obtain ⟨hne, hident⟩ := hall p h
  exact ⟨hne, fun c hc => isWord_of_identChar alnum (List.all_eq_true.mp hident c hc)⟩

theorem Prim.mem_all (prim : Prim) : prim ∈ Prim.all := by
  cases prim <;> decide

theorem Modifier.mem_all (m : Modifier) : m ∈ Modifier.all := by
  cases m <;> decide

theorem Prim.mem_texts (prim : Prim) : prim.text ∈ Prim.all.map Prim.text :=
  List.mem_map_of_mem prim.mem_all

theorem Modifier.mem_texts (m : Modifier) : m.text ∈ Modifier.all.map Modifier.text :=
  List.mem_map_of_mem m.mem_all

/-- No type is a modifier. -/
theorem Prim.text_not_mem (prim : Prim) : prim.text ∉ Modifier.all.map Modifier.text := by
  cases prim <;> decide

theorem isName_of {w : List Char} (h : w ≠ [] ∧ w.head?.all identStart = true ∧
    w.all identChar = true) : IsName w := by
  obtain ⟨hne, hstart, hchars⟩ := h
  obtain ⟨c, cs, rfl⟩ := List.exists_cons_of_ne_nil hne
  exact ⟨c, cs, rfl, hstart, fun d hd => List.all_eq_true.mp hchars d (List.mem_cons_of_mem _ hd)⟩

theorem Prim.isName (prim : Prim) : IsName prim.text := by
  apply isName_of
  cases prim <;> decide

theorem Modifier.isName (m : Modifier) : IsName m.text := by
  apply isName_of
  cases m <;> decide

theorem IsName.head {w : List Char} (h : IsName w) : ∀ c ∈ w.head?, identChar c = true := by
  intro c hc
  exact h.chars c (List.mem_of_mem_head? hc)

/-- What is not a part of a word -/
def Apart (w : List Char) : Prop := ∀ c ∈ w.head?, c ∈ punctuation

theorem Apart.word (h : Apart w) : ∀ c ∈ w.head?, isWord alnum c = false :=
  fun c hc => isWord_of_mem_punctuation alnum (h c hc)

theorem Apart.ident (h : Apart w) : ∀ c ∈ w.head?, identChar c = false := by
  intro c hc
  rw [Bool.eq_false_iff]
  exact fun hident => not_mem_punctuation hident (h c hc)

theorem modsText_head (mods : List Modifier) (prim : Prim) (rest : List Char) :
    ∀ c ∈ ((mods.flatMap fun m => m.text ++ [' ']) ++ (prim.text ++ rest)).head?,
      identChar c = true := by
  apply forall_head?_append
  · cases mods with
    | nil => nofun
    | cons m mods =>
      exact forall_head?_append (forall_head?_append m.isName.head
        fun h => absurd h m.isName.ne_nil) fun h => absurd h (by simp)
  · exact fun _ => forall_head?_append prim.isName.head fun h => absurd h prim.isName.ne_nil

/-- Modifiers, a space behind each of them, in front of a type -/
theorem takes_modpattern (mods : List Modifier) (prim : Prim) (hrest : Apart rest) :
    Takes (isWord alnum) modpattern b (mods.flatMap fun m => m.text ++ [' ']) (prim.text ++ rest)
      [] := by
  induction mods generalizing b with
  | nil =>
    apply takes_star_nil
    exact (refuses_keyword (fun _ => isWord_modifier) (isWord_prim prim.mem_texts)
      prim.text_not_mem hrest.word).cons
  | cons m mods ih =>
    have hturn : Takes (isWord alnum) (seqs [keyword (Modifier.all.map Modifier.text), spaces]) b
        (m.text ++ [' ']) ((mods.flatMap fun m => m.text ++ [' ']) ++ (prim.text ++ rest)) [] := by
      apply Takes.read
      · apply takes_keyword (fun _ => isWord_modifier) m.mem_texts
        intro c hc
        obtain rfl : c = ' ' := by simpa using hc.symm
        exact isWord_of_mem_punctuation alnum (by decide)
      · exact (takes_space fun c hc => isSpace_of_identChar (modsText_head mods prim rest c hc)).last
    exact hturn.star_cons (by simp) ih

theorem takes_primpattern (prim : Prim) (hrest : Apart rest) :
    Takes (isWord alnum) primpattern b prim.text rest [] :=
  takes_keyword (fun _ => isWord_prim) prim.mem_texts hrest.word

/-! ### Pointers and arrays -/

theorem hexChar_of_digit {c : Char} (h : c.isDigit = true) : hexChar c = true := by
  rw [hexChar, h]
  rfl

theorem identStart_of_digit {c : Char} (h : c.isDigit = true) : identStart c = false := by
  simp only [Char.isDigit, Bool.and_eq_true, decide_eq_true_eq, ge_iff_le,
    UInt32.le_iff_toNat_le] at h
  change 48 ≤ c.toNat ∧ c.toNat ≤ 57 at h
  have hunder : c ≠ '_' := by
    rintro rfl
    exact absurd h (by decide)
  rw [identStart, Bool.or_eq_false_iff]
  refine ⟨?_, beq_eq_false_iff_ne.mpr hunder⟩
  rw [Bool.eq_false_iff]
  intro halpha
  simp only [isAlpha_eq, Bool.or_eq_true, Bool.and_eq_true, decide_eq_true_eq, ge_iff_le, UInt32.le_iff_toNat_le] at halpha
  change (65 ≤ c.toNat ∧ c.toNat ≤ 90) ∨ 97 ≤ c.toNat ∧ c.toNat ≤ 122 at halpha
  omega

theorem takes_num {n : ℕ} (hn : 0 < n) (hrest : ∀ c ∈ rest.head?, hexChar c = false) :
    Takes (isWord alnum) numpattern b (decimal n) rest [] := by
  have hne : decimal n ≠ [] := Nat.toDigits_ne_nil
  have hhead := head_decimal hn
  have hdigit : ∀ c ∈ decimal n, hexChar c = true :=
    fun c hc => hexChar_of_digit (isDigit_decimal hc)
  obtain ⟨c, cs, hcs⟩ := List.exists_cons_of_ne_nil hne
  rw [hcs] at hhead hdigit ⊢
  have hzero : ∀ d ∈ (c :: cs ++ rest).head?, d ≠ '0' := fun d hd => hhead d hd
  apply Takes.skip (takes_opt_nil (refuses_char hzero).cons)
  apply Takes.read (w := [c]) (takes_cls (hdigit c (List.mem_cons_self ..)))
  exact (takes_class (fun d hd => hdigit d (List.mem_cons_of_mem _ hd)) hrest).last

/-- Sizes that are printed -/
def ASize.Printed : ASize → Prop
  | .num n => 0 < n
  | .arg name => IsName name.toList

/-- The group that a size sets -/
def ASize.group (g : ℕ) : ASize → ℕ × List Char
  | .num n => (g + 1, decimal n)
  | .arg name => (g, name.toList)

/-- `[size]` -/
def bracketText : Option ASize → List Char
  | none => []
  | some size => '[' :: (size.text ++ [']'])

/-- Characters that begin neither a space nor a pointer -/
def Plain (w : List Char) : Prop := ∀ c ∈ w.head?, isSpace c = false ∧ c ≠ '*' ∧ c ≠ '['

theorem ASize.text_head {size : ASize} (h : size.Printed) :
    ∀ c ∈ (size.text ++ rest).head?, identChar c = true := by
  cases size with
  | num n =>
    apply forall_head?_append
    · exact fun c hc => identChar_of_digit (isDigit_decimal (List.mem_of_mem_head? hc))
    · exact fun hnil => absurd hnil Nat.toDigits_ne_nil
  | arg name => exact forall_head?_append (IsName.head h) fun hnil => absurd hnil (IsName.ne_nil h)

theorem takes_arraypattern {size : ASize} (h : size.Printed) (g : ℕ) :
    Takes (isWord alnum) (arraypattern g) b ('[' :: (size.text ++ [']'])) rest [size.group g] := by
  have hspace : ∀ {c}, identChar c = true → isSpace c = false := isSpace_of_identChar
  have hclose : Takes (isWord alnum) (seqs [spaces, char ']']) (lastOf (lastOf b ['[']) size.text)
      [']'] rest [] :=
    Takes.skip (takes_spaces_nil fun c hc => by
      obtain rfl : ']' = c := by simpa using hc
      decide) (takes_char ']').last
  have hsize : Takes (isWord alnum) (.alt (.group g namepattern) (.group (g + 1) numpattern))
      (lastOf b ['[']) size.text ([']'] ++ rest) [size.group g] := by
    cases size with
    | arg name =>
      apply Takes.alt_left
      apply Takes.group g
      apply takes_name h
      intro c hc
      obtain rfl : ']' = c := by simpa using hc
      decide
    | num n =>
      apply Takes.alt_right
      · have hrefuse : Refuses (isWord alnum) namepattern (lastOf b ['['])
            (decimal n ++ ([']'] ++ rest)) := by
          apply refuses_name
          apply forall_head?_append
          · exact fun c hc => identStart_of_digit (isDigit_decimal (List.mem_of_mem_head? hc))
          · exact fun hnil => absurd hnil Nat.toDigits_ne_nil
        exact hrefuse.group g
      · apply Takes.group (g + 1)
        apply takes_num h
        intro c hc
        obtain rfl : ']' = c := by simpa using hc
        decide
  apply Takes.read (w := ['[']) (takes_char '[')
  apply Takes.skip
  · apply takes_spaces_nil
    change ∀ c ∈ ((size.text ++ [']']) ++ rest).head?, isSpace c = false
    rw [List.append_assoc]
    exact fun c hc => hspace (ASize.text_head h c hc)
  · exact hsize.cons hclose

theorem refuses_turn (h : Plain rest) (g : ℕ) :
    Refuses (isWord alnum) (.alt (seqs [spaces, char '*', spaces])
      (seqs [spaces, arraypattern g, spaces])) b rest := by
  have hspace : Refuses (isWord alnum) (.cls isSpace) b rest := refuses_cls fun c hc => (h c hc).1
  apply Refuses.alt
  · exact hspace.cons_star (refuses_char fun c hc => (h c hc).2.1).cons
  · exact hspace.cons_star (Refuses.cons (Refuses.cons (refuses_char fun c hc => (h c hc).2.2)))

/-- A pointer and an array, either or both of them -/
theorem takes_ptrpattern (ptr : Bool) {size : Option ASize} (hsize : ∀ s ∈ size, s.Printed)
    (hrest : Plain rest) (g : ℕ) :
    Takes (isWord alnum) (ptrpattern g) b ((if ptr then ['*'] else []) ++ bracketText size) rest
      (size.toList.map (ASize.group g)) := by
  have hspaces : ∀ {b}, Takes (isWord alnum) spaces b [] rest [] :=
    takes_spaces_nil fun c hc => (hrest c hc).1
  have harray : ∀ {b}, Takes (isWord alnum) (ptrpattern g) b (bracketText size) rest
      (size.toList.map (ASize.group g)) := by
    intro b
    cases size with
    | none => exact takes_star_nil (refuses_turn hrest g)
    | some size =>
      have hopen : ∀ c ∈ (bracketText (some size) ++ rest).head?, c = '[' := by
        intro c hc
        simpa [bracketText] using hc.symm
      have hturn : Takes (isWord alnum) (.alt (seqs [spaces, char '*', spaces])
          (seqs [spaces, arraypattern g, spaces])) b (bracketText (some size)) ([] ++ rest)
          [size.group g] := by
        apply Takes.alt_right
        · apply Refuses.cons_star
          · exact refuses_cls fun c hc => by rw [hopen c hc]; decide
          · exact (refuses_char fun c hc => by rw [hopen c hc]; decide).cons
        · apply Takes.skip
          · exact takes_spaces_nil fun c hc => by rw [hopen c hc]; decide
          · have harray : Takes (isWord alnum) (arraypattern g) b ('[' :: (size.text ++ [']']))
                ([] ++ rest) [size.group g] := takes_arraypattern (hsize size rfl) g
            have hcons := harray.cons hspaces.last
            rwa [List.append_nil] at hcons
      have hstar := hturn.star_cons (by simp [bracketText]) (takes_star_nil (refuses_turn hrest g))
      rwa [List.append_nil] at hstar
  cases ptr with
  | false => exact harray
  | true =>
    have hturn : Takes (isWord alnum) (.alt (seqs [spaces, char '*', spaces])
        (seqs [spaces, arraypattern g, spaces])) b ['*'] (bracketText size ++ rest) [] := by
      apply Takes.alt_left
      apply Takes.skip (takes_spaces_nil fun c hc => by
        obtain rfl : '*' = c := by simpa using hc
        decide)
      apply Takes.read (w := ['*']) (v := []) (takes_char '*')
      apply Takes.last
      apply takes_spaces_nil
      apply forall_head?_append
      · intro c hc
        cases size with
        | none => cases hc
        | some size =>
          obtain rfl : '[' = c := by simpa [bracketText] using hc
          decide
      · exact fun _ c hc => (hrest c hc).1
    have hstar := hturn.star_cons (by simp) harray
    rwa [List.append_nil] at hstar

end Reading

/-! ## Section 2: What is printed -/

/-- The size that is printed -/
def Arg.printedSize (arg : Arg) : Option ASize :=
  match arg.asize with
  | none | some (.num 0) => none
  | some size => some size

theorem Arg.asizeText_eq (arg : Arg) : arg.asizeText = bracketText arg.printedSize := by
  rcases arg with ⟨_, _, _, _, _, _, _ | ⟨_ | n⟩ | name⟩
  · rfl
  · rfl
  · rfl
  · rfl

section Printed

variable {arg : Arg}

theorem Arg.WellFormed.printed (h : arg.WellFormed) : ∀ size ∈ arg.printedSize, size.Printed := by
  intro size hsize
  unfold Arg.printedSize at hsize
  split at hsize
  · cases hsize
  · cases hsize
  · next size' hne heq =>
    cases hsize
    cases size with
    | num n => exact Nat.pos_of_ne_zero fun hzero => hne (by rw [hzero])
    | arg name => exact h.asize name (by rw [Arg.asizeName, heq]; rfl)

theorem Arg.WellFormed.nameText (h : arg.WellFormed) (hne : arg.nameText ≠ []) :
    IsName arg.nameText := by
  unfold Arg.nameText at hne ⊢
  cases hname : arg.name with
  | none =>
    rw [hname] at hne
    exact absurd rfl hne
  | some name => exact h.name name hname

/-- Characters of what is printed -/
def ArgChar (c : Char) : Prop := identChar c = true ∨ c ∈ [' ', '*', '[', ']']

theorem argChar_bracketText {size : Option ASize} (h : ∀ s ∈ size, s.Printed) :
    ∀ c ∈ bracketText size, ArgChar c := by
  cases size with
  | none => nofun
  | some size =>
    intro c hc
    rcases List.mem_cons.mp hc with rfl | hc
    · exact .inr (by decide)
    · rcases List.mem_append.mp hc with hc | hc
      · cases size with
        | num n => exact .inl (identChar_of_digit (isDigit_decimal hc))
        | arg name => exact .inl ((h _ rfl).chars c hc)
      · obtain rfl := List.mem_singleton.mp hc
        exact .inr (by decide)

theorem Arg.WellFormed.str_chars (h : arg.WellFormed) (mods : List Modifier) :
    ∀ c ∈ arg.str mods, ArgChar c := by
  intro c hc
  rcases List.mem_append.mp hc with hc | hc
  · obtain ⟨m, -, hc⟩ := List.mem_flatMap.mp hc
    rcases List.mem_append.mp hc with hc | hc
    · exact .inl (m.isName.chars c hc)
    · obtain rfl := List.mem_singleton.mp hc
      exact .inr (by decide)
  · rcases List.mem_append.mp hc with hc | hc
    · exact .inl (arg.prim.isName.chars c hc)
    · rcases List.mem_append.mp hc with hc | hc
      · split at hc
        · obtain rfl := List.mem_singleton.mp hc
          exact .inr (by decide)
        · cases hc
      · rcases List.mem_append.mp hc with hc | hc
        · unfold Arg.ptrText at hc
          split at hc
          · obtain rfl := List.mem_singleton.mp hc
            exact .inr (by decide)
          · cases hc
        · rcases List.mem_append.mp hc with hc | hc
          · exact .inl ((h.nameText (List.ne_nil_of_mem hc)).chars c hc)
          · rw [Arg.asizeText_eq] at hc
            exact argChar_bracketText h.printed c hc

theorem ArgChar.not_colon {c : Char} (h : ArgChar c) : c ≠ ':' := by
  rintro rfl
  rcases h with h | h
  · exact absurd h (by decide)
  · exact absurd h (by decide)

variable {alnum : Char → Bool}

/-- There is no colon in what is printed, so there is no name in front. -/
theorem refuses_leading {b : Option Char} {text : List Char} (h : ∀ c ∈ text, c ≠ ':') :
    Refuses (isWord alnum) (seqs [spaces, .group 1 namepattern, spaces, char ':', spaces]) b
      text := by
  apply Refuses.cons_of_suffix
  intro _ u hu
  apply Refuses.cons_of_suffix
  intro _ v hv
  apply Refuses.cons_of_suffix
  intro _ w hw
  apply Refuses.cons
  apply refuses_char
  intro c hc
  exact h c (((hw.trans hv).trans hu).subset (List.mem_of_mem_head? hc))

theorem takes_leading {b : Option Char} {text : List Char} (h : ∀ c ∈ text, c ≠ ':')
    (hhead : ∀ c ∈ text.head?, identChar c = true) {rs : List Pattern} {gs : List (ℕ × List Char)}
    (hrs : Takes (isWord alnum) (seqs rs) b text [] gs) :
    Takes (isWord alnum) (seqs (spaces :: .opt (seqs [spaces, .group 1 namepattern, spaces,
      char ':', spaces]) :: rs)) b text [] gs := by
  apply Takes.skip
  · rw [List.append_nil]
    exact takes_spaces_nil fun c hc => isSpace_of_identChar (hhead c hc)
  · apply Takes.skip _ hrs
    rw [List.append_nil]
    exact takes_opt_nil (refuses_leading h)

/-- The groups in front of the pointer -/
def headGroups (mods : List Modifier) (prim : Prim) : List (ℕ × List Char) :=
  [(3, prim.text)] ++ [(2, mods.flatMap fun m => m.text ++ [' '])]

/-- Modifiers and a type, and what comes behind them -/
theorem takes_head (mods : List Modifier) (prim : Prim) {text : List Char} (htext : Apart text)
    (hchars : ∀ c ∈ text, c ≠ ':') {rs : List Pattern} {gs : List (ℕ × List Char)}
    (hrs : ∀ b, Takes (isWord alnum) (seqs rs) b text [] gs) :
    Takes (isWord alnum) (seqs (spaces :: .opt (seqs [spaces, .group 1 namepattern, spaces,
        char ':', spaces]) :: .group 2 modpattern :: spaces :: .group 3 primpattern :: rs)) none
      ((mods.flatMap fun m => m.text ++ [' ']) ++ (prim.text ++ text)) []
      (gs ++ headGroups mods prim) := by
  have hcolon : ∀ {c}, identChar c = true → c ≠ ':' := fun h => ne_of_identChar h (by decide)
  have hgroups : gs ++ headGroups mods prim =
      gs ++ [(3, prim.text)] ++ [(2, mods.flatMap fun m => m.text ++ [' '])] :=
    (List.append_assoc ..).symm
  rw [hgroups]
  apply takes_leading _ (modsText_head mods prim text)
  · apply Takes.cons
    · rw [List.append_nil]
      exact (takes_modpattern mods prim htext).group 2
    · apply Takes.skip
      · rw [List.append_nil]
        exact takes_spaces_nil (forall_head?_append
          (fun c hc => isSpace_of_identChar (prim.isName.head c hc))
          fun h => absurd h prim.isName.ne_nil)
      · apply Takes.cons _ (hrs _)
        rw [List.append_nil]
        exact (takes_primpattern prim htext).group 3
  · intro c hc
    rcases List.mem_append.mp hc with hc | hc
    · obtain ⟨m, -, hc⟩ := List.mem_flatMap.mp hc
      rcases List.mem_append.mp hc with hc | hc
      · exact hcolon (m.isName.chars c hc)
      · obtain rfl := List.mem_singleton.mp hc
        decide
    · rcases List.mem_append.mp hc with hc | hc
      · exact hcolon (prim.isName.chars c hc)
      · exact hchars c hc

/-- A pointer that is no array -/
theorem takes_pointer {b : Option Char} {rest : List Char} (ptr : Bool) (hrest : Plain rest)
    (g : ℕ) : Takes (isWord alnum) (ptrpattern g) b (if ptr then ['*'] else []) rest [] := by
  have hnone : ∀ s ∈ (none : Option ASize), s.Printed := by
    intro s hs
    cases hs
  have htakes : Takes (isWord alnum) (ptrpattern g) b ((if ptr then ['*'] else []) ++ []) rest [] :=
    takes_ptrpattern ptr hnone hrest g
  rwa [List.append_nil] at htakes

theorem forall_head?_nil {p : Char → Prop} : ∀ c ∈ ([] : List Char).head?, p c := by
  intro c hc
  cases hc

/-- The end of the expression, for an array that is behind a name or missing -/
theorem takes_end {b : Option Char} {size : Option ASize} (hsize : ∀ s ∈ size, s.Printed) :
    Takes (isWord alnum) (seqs [spaces, .group 8 (ptrpattern 9), spaces, .stop]) b
      (bracketText size) [] ((8, bracketText size) :: size.toList.map (ASize.group 9)) := by
  have hopen : ∀ c ∈ (bracketText size ++ []).head?, isSpace c = false := by
    intro c hc
    cases size with
    | none => cases hc
    | some size =>
      obtain rfl : '[' = c := by simpa [bracketText] using hc
      decide
  have hgroup : Takes (isWord alnum) (.group 8 (ptrpattern 9)) b (bracketText size) ([] ++ [])
      ((8, bracketText size) :: size.toList.map (ASize.group 9)) :=
    (takes_ptrpattern false hsize forall_head?_nil 9).group 8
  have hstop : Takes (isWord alnum) (seqs [spaces, .stop]) (lastOf b (bracketText size)) [] [] [] :=
    Takes.skip (takes_spaces_nil forall_head?_nil) takes_stop.last
  have hcons := Takes.skip (takes_spaces_nil (by rwa [List.append_nil])) (hgroup.cons hstop)
  rwa [List.append_nil] at hcons

/-- Behind the type: the pointer, the name and the array -/
def tailpattern : List Pattern :=
  [spaces, .group 4 (ptrpattern 5), spaces, .opt (.group 7 namepattern), spaces,
    .group 8 (ptrpattern 9), spaces, .stop]

/-- Without a name, the array is read with the pointer. -/
theorem takes_tail_unnamed {b : Option Char} (ptr : Bool) {size : Option ASize}
    (hsize : ∀ s ∈ size, s.Printed) :
    Takes (isWord alnum) (seqs tailpattern) b ((if ptr then ['*'] else []) ++ bracketText size) []
      ([(8, [])] ++ (4, (if ptr then ['*'] else []) ++ bracketText size) ::
        size.toList.map (ASize.group 5)) := by
  have hopen : ∀ c ∈ ((if ptr then ['*'] else []) ++ bracketText size).head?,
      isSpace c = false := by
    intro c hc
    have hmem : c = '*' ∨ c = '[' := by
      cases ptr with
      | true => exact .inl (by simpa using hc.symm)
      | false =>
        cases size with
        | none => cases hc
        | some size => exact .inr (by simpa [bracketText] using hc.symm)
    rcases hmem with rfl | rfl <;> decide
  have hnone : ∀ s ∈ (none : Option ASize), s.Printed := by
    intro s hs
    cases hs
  have hname : ∀ {b}, Refuses (isWord alnum) (.group 7 namepattern) b [] := by
    intro b
    exact (refuses_name forall_head?_nil).group 7
  have hrest : ∀ {b}, Takes (isWord alnum) (seqs [spaces, .opt (.group 7 namepattern), spaces,
      .group 8 (ptrpattern 9), spaces, .stop]) b [] [] [(8, [])] :=
    Takes.skip (takes_spaces_nil forall_head?_nil)
      (Takes.skip (takes_opt_nil hname) (takes_end hnone))
  have hend : Plain [] := forall_head?_nil
  have hgroup : Takes (isWord alnum) (.group 4 (ptrpattern 5)) b
      ((if ptr then ['*'] else []) ++ bracketText size) ([] ++ [])
      ((4, (if ptr then ['*'] else []) ++ bracketText size) :: size.toList.map (ASize.group 5)) :=
    (takes_ptrpattern ptr hsize hend 5).group 4
  have hcons := Takes.skip (takes_spaces_nil (by rwa [List.append_nil, List.append_nil]))
    (hgroup.cons hrest)
  rwa [List.append_nil] at hcons

/-- Behind a name there is the array. -/
theorem takes_tail_named {b : Option Char} (ptr : Bool) {name : List Char} (hname : IsName name)
    {size : Option ASize} (hsize : ∀ s ∈ size, s.Printed) :
    Takes (isWord alnum) (seqs tailpattern) b
      ([' '] ++ ((if ptr then ['*'] else []) ++ (name ++ bracketText size))) []
      ((8, bracketText size) :: size.toList.map (ASize.group 9) ++ [(7, name)] ++
        [(4, if ptr then ['*'] else [])]) := by
  have hplain : ∀ {rest}, Plain (name ++ rest) := by
    intro rest
    apply forall_head?_append
    · intro c hc
      have hident := hname.head c hc
      exact ⟨isSpace_of_identChar hident, ne_of_identChar hident (by decide),
        ne_of_identChar hident (by decide)⟩
    · exact fun h => absurd h hname.ne_nil
  have harray : ∀ c ∈ (bracketText size ++ []).head?, identChar c = false := by
    intro c hc
    rw [List.append_nil] at hc
    cases size with
    | none => cases hc
    | some size =>
      obtain rfl : '[' = c := by simpa [bracketText] using hc
      decide
  have hfront : ∀ c ∈ (((if ptr then ['*'] else []) ++ (name ++ bracketText size)) ++ []).head?,
      isSpace c = false := by
    rw [List.append_nil]
    apply forall_head?_append
    · intro c hc
      cases ptr with
      | false => cases hc
      | true =>
        obtain rfl : '*' = c := by simpa using hc
        decide
    · exact fun _ c hc => (hplain c hc).1
  apply Takes.read (takes_space hfront)
  apply Takes.cons
  · rw [List.append_nil]
    exact (takes_pointer ptr hplain 5).group 4
  · apply Takes.skip
    · rw [List.append_nil]
      exact takes_spaces_nil fun c hc => (hplain c hc).1
    · exact ((takes_name hname harray).group 7).opt.cons (takes_end hsize)

/-! ## Section 3: What is read back -/

/-- What becomes of an argument that is printed and read -/
def Arg.printed (arg : Arg) : Arg := { arg with asize := arg.printedSize }

theorem Arg.isptr_printed (arg : Arg) : arg.printed.isptr = arg.isptr := by
  have hsize : arg.printed.isarray = arg.isarray := by
    rcases arg with ⟨_, _, _, _, _, _, _ | ⟨_ | n⟩ | name⟩
    · rfl
    · rfl
    · rfl
    · rfl
  exact congrArg (arg.ptr || ·) hsize

theorem Arg.printed_eq_self (arg : Arg) : arg.printed = arg ↔ arg.asize ≠ some (.num 0) := by
  constructor
  · intro heq hzero
    have hsize : arg.printedSize = arg.asize := congrArg Arg.asize heq
    rw [Arg.printedSize, hzero] at hsize
    cases hsize
  · intro hne
    have hsize : arg.printedSize = arg.asize := by
      unfold Arg.printedSize
      split
      · next heq => exact heq.symm
      · next heq => exact absurd heq hne
      · next heq => exact heq.symm
    rw [Arg.printed, hsize]

theorem words_mods (mods : List Modifier) :
    words (mods.flatMap fun m => m.text ++ [' ']) = mods.map Modifier.text := by
  induction mods with
  | nil => exact words_nil
  | cons m mods ih =>
    have hcons : ((m :: mods).flatMap fun m => m.text ++ [' ']) =
        m.text ++ ' ' :: mods.flatMap fun m => m.text ++ [' '] := by
      simp
    rw [hcons, words_append m.isName.ne_nil
      (fun c hc => isSpace_of_identChar (m.isName.chars c hc)) (by decide), ih, List.map_cons]

theorem find_prim (prim : Prim) :
    (Prim.all.find? fun p => p.text = prim.text) = some prim := by
  cases prim <;> decide

theorem mem_map_text {mods : List Modifier} {m : Modifier} :
    m.text ∈ mods.map Modifier.text ↔ m ∈ mods := by
  apply List.mem_map_of_injective
  intro m m' heq
  revert heq
  cases m <;> cases m' <;> decide

theorem Arg.mem_mods (arg : Arg) :
    (.const ∈ arg.mods ↔ arg.isconst = true) ∧ (.mut ∈ arg.mods ↔ arg.ismut = true) ∧
      (.nullable ∈ arg.mods ↔ arg.isnullable = true) := by
  unfold Arg.mods
  cases arg.isconst <;> cases arg.ismut <;> cases arg.isnullable <;> decide

/-- There are no stars in brackets. -/
theorem filter_bracketText {size : Option ASize} (hsize : ∀ s ∈ size, s.Printed) :
    (bracketText size).filter (· == '*') = [] := by
  rw [List.filter_eq_nil_iff]
  intro c hc hstar
  obtain rfl := beq_iff_eq.mp hstar
  cases size with
  | none => cases hc
  | some size =>
    rcases List.mem_cons.mp hc with hc | hc
    · exact absurd hc (by decide)
    · rcases List.mem_append.mp hc with hc | hc
      · have hident : identChar '*' = true := by
          cases size with
          | num n => exact identChar_of_digit (isDigit_decimal hc)
          | arg name => exact (hsize _ rfl).chars _ hc
        exact absurd hident (by decide)
      · exact absurd (List.mem_singleton.mp hc) (by decide)

theorem apart_tail (ptr : Bool) (size : Option ASize) :
    Apart ((if ptr then ['*'] else []) ++ bracketText size) := by
  intro c hc
  cases ptr with
  | true =>
    obtain rfl : '*' = c := by simpa using hc
    decide
  | false =>
    cases size with
    | none => cases hc
    | some size =>
      obtain rfl : '[' = c := by simpa [bracketText] using hc
      decide

theorem sizeNum_decimal {n : ℕ} (hn : 0 < n) : sizeNum (decimal n) = .ok (some (.num n)) := by
  rw [sizeNum, int0_decimal hn]

theorem argGroups_unnamed (mods : List Modifier) (prim : Prim) (ptr : List Char)
    {size : Option ASize} (hsize : ∀ s ∈ size, s.Printed) :
    argGroups ([(8, [])] ++ (4, ptr ++ bracketText size) :: size.toList.map (ASize.group 5) ++
      headGroups mods prim) =
      .ok ⟨none, mods.map Modifier.text, prim.text, ptr.filter (· == '*'), size⟩ := by
  have hwords := words_mods mods
  have hstar := filter_bracketText hsize
  match size with
  | none =>
    simp [argGroups, groupText, headGroups, List.lookup_cons, orNone, asizeOf, hwords, hstar]
  | some (.arg name) =>
    have hne : name.toList ≠ [] := IsName.ne_nil (hsize _ rfl)
    simp [argGroups, groupText, headGroups, List.lookup_cons, orNone, asizeOf, hwords, hstar,
      ASize.group, hne]
  | some (.num n) =>
    have hne : decimal n ≠ [] := Nat.toDigits_ne_nil
    simp [argGroups, groupText, headGroups, List.lookup_cons, orNone, asizeOf, hwords, hstar,
      ASize.group, hne, sizeNum_decimal (hsize _ rfl)]

theorem argGroups_named (mods : List Modifier) (prim : Prim) (ptr : List Char) {name : List Char}
    (hname : name ≠ []) {size : Option ASize} (hsize : ∀ s ∈ size, s.Printed) :
    argGroups ((8, bracketText size) :: size.toList.map (ASize.group 9) ++ [(7, name)] ++
      [(4, ptr)] ++ headGroups mods prim) =
      .ok ⟨some name, mods.map Modifier.text, prim.text, ptr.filter (· == '*'), size⟩ := by
  have hwords := words_mods mods
  have hstar := filter_bracketText hsize
  match size with
  | none =>
    simp [argGroups, groupText, headGroups, List.lookup_cons, orNone, asizeOf, hwords, hstar, hname]
  | some (.arg arg) =>
    have hne : arg.toList ≠ [] := IsName.ne_nil (hsize _ rfl)
    simp [argGroups, groupText, headGroups, List.lookup_cons, orNone, asizeOf, hwords, hstar,
      ASize.group, hne, hname]
  | some (.num n) =>
    have hne : decimal n ≠ [] := Nat.toDigits_ne_nil
    simp [argGroups, groupText, headGroups, List.lookup_cons, orNone, asizeOf, hwords, hstar,
      ASize.group, hne, hname, sizeNum_decimal (hsize _ rfl)]

/-- The fields of what is printed -/
theorem Arg.WellFormed.parsetype_str (h : arg.WellFormed) (alnum : Char → Bool)
    (mods : List Modifier) :
    Arg.parsetype alnum (arg.str mods) =
      .ok ⟨arg.name.map String.toList, mods.map Modifier.text, arg.prim.text, arg.ptrText,
        arg.printedSize⟩ := by
  have hsize := h.printed
  have hptr : arg.ptrText.filter (· == '*') = arg.ptrText := by
    unfold Arg.ptrText
    split <;> rfl
  have hcolon : ∀ c ∈ arg.str mods, c ≠ ':' := fun c hc => (h.str_chars mods c hc).not_colon
  cases hname : arg.name with
  | none =>
    have hstr : arg.str mods = (mods.flatMap fun m => m.text ++ [' ']) ++ (arg.prim.text ++
        (arg.ptrText ++ bracketText arg.printedSize)) := by
      simp [Arg.str, Arg.nameText, hname, Arg.asizeText_eq]
    rw [hstr] at hcolon ⊢
    have hrun : run (isWord alnum) argtype _ = some _ :=
      run_of_takes (takes_head mods arg.prim (apart_tail arg.ptr arg.printedSize)
        (fun c hc => hcolon c (List.mem_append_right _ (List.mem_append_right _ hc)))
        fun b => takes_tail_unnamed arg.ptr hsize)
    have hgroups := argGroups_unnamed mods arg.prim arg.ptrText hsize
    rw [hptr] at hgroups
    exact (Arg.parsetype_of_run hrun).trans hgroups
  | some name =>
    have hisName : IsName name.toList := h.name name hname
    have hne := hisName.ne_nil
    have hstr : arg.str mods = (mods.flatMap fun m => m.text ++ [' ']) ++ (arg.prim.text ++
        ([' '] ++ (arg.ptrText ++ (name.toList ++ bracketText arg.printedSize)))) := by
      have hnameText : arg.nameText = name.toList := by rw [Arg.nameText, hname]; rfl
      rw [Arg.str, Arg.asizeText_eq, hnameText, if_pos hne]
    have hapart : Apart ([' '] ++ (arg.ptrText ++ (name.toList ++ bracketText arg.printedSize))) := by
      intro c hc
      obtain rfl : ' ' = c := by simpa using hc
      decide
    rw [hstr] at hcolon ⊢
    have hrun : run (isWord alnum) argtype _ = some _ :=
      run_of_takes (takes_head mods arg.prim hapart
        (fun c hc => hcolon c (List.mem_append_right _ (List.mem_append_right _ hc)))
        fun b => takes_tail_named arg.ptr hisName hsize)
    have hgroups := argGroups_named mods arg.prim arg.ptrText hne hsize
    rw [hptr] at hgroups
    exact (Arg.parsetype_of_run hrun).trans hgroups

/-- A type that is printed and read is the same, but for a size of 0. -/
theorem Arg.parse_str (h : arg.WellFormed) (alnum : Char → Bool) {mods : List Modifier}
    (hmods : mods.Perm arg.mods) : Arg.parse alnum (arg.str mods) = .ok arg.printed := by
  obtain ⟨hconst, hmut, hnullable⟩ := arg.mem_mods
  have htype : ArgType.toArg ⟨arg.name.map String.toList, mods.map Modifier.text, arg.prim.text,
      arg.ptrText, arg.printedSize⟩ arg.prim = arg.printed := by
    have hname : (arg.name.map String.toList).map String.ofList = arg.name := by
      cases arg.name with
      | none => rfl
      | some name => exact congrArg some String.ofList_toList
    have hptr : decide (arg.ptrText ≠ []) = arg.ptr := by
      unfold Arg.ptrText
      cases arg.ptr <;> rfl
    simp only [ArgType.toArg, Arg.printed, mem_map_text, hmods.mem_iff, hconst, hmut, hnullable,
      hname, hptr, Bool.decide_eq_true]
  have hlength : ¬1 < arg.ptrText.length := by
    unfold Arg.ptrText
    split <;> decide
  have hmodifier : ¬(mods.map Modifier.text ≠ [] ∧ !arg.isptr) := by
    rintro ⟨hne, hptr⟩
    have hmodsne : arg.mods ≠ [] := by
      rintro hnil
      rw [hnil] at hmods
      exact hne (by rw [hmods.eq_nil]; rfl)
    rw [h.modifier hmodsne] at hptr
    cases hptr
  have hpointer : ¬(arg.isptr ∧ !arg.isconst ∧ !arg.ismut) := by
    rintro ⟨hptr, hc, hm⟩
    rcases h.pointer hptr with hconst | hmut
    · rw [hconst] at hc
      cases hc
    · rw [hmut] at hm
      cases hm
  rw [Arg.parse_of_parsetype (h.parsetype_str alnum mods) (find_prim arg.prim), htype,
    Arg.isptr_printed, if_neg hlength, if_neg hmodifier]
  -- the flags are those of `arg`
  exact (if_neg hpointer).trans (if_neg h.one)

end Printed

end BentoLinker.Linker
