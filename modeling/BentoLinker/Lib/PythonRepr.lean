import BentoLinker.Lib.PythonText
import Mathlib.Data.List.TakeWhile

/-!
# Texts of Python Strings and Lists

`repr` of a string and `str` of a list of strings, and the greedy `(.*)` of `re` in front of a
character.

- `escape`, `reprOf`, `strList`: what they print
- `upToLast`: `(.*)c`, matched from the start
- `mem_escape`: the characters of an escape
- `splitOn_flatten`: a text that is split and put together again
-/

namespace PythonText

/-! ## Section 1: `repr` -/

def apostrophe : Char := Char.ofNat 0x27
def quotation : Char := Char.ofNat 0x22
def backslash : Char := Char.ofNat 0x5c
def newline : Char := Char.ofNat 0x0a

/-- `'%0*x' % (width, n)` -/
def hexText (width n : ℕ) : List Char :=
  List.replicate (width - (Nat.toDigits 16 n).length) '0' ++ Nat.toDigits 16 n

/-- A character between quotes, with `printable` for those that are not ASCII -/
def escape (printable : Char → Bool) (quote c : Char) : List Char :=
  let n := c.toNat
  if c = quote ∨ c = backslash then [backslash, c]
  else if n = 0x09 then [backslash, 't']
  else if n = 0x0a then [backslash, 'n']
  else if n = 0x0d then [backslash, 'r']
  else if n < 0x20 ∨ n = 0x7f then backslash :: 'x' :: hexText 2 n
  else if n < 0x7f ∨ printable c then [c]
  else if n < 0x100 then backslash :: 'x' :: hexText 2 n
  else if n < 0x10000 then backslash :: 'u' :: hexText 4 n
  else backslash :: 'U' :: hexText 8 n

/-- Double quotes around an apostrophe, unless there are both -/
def quoteOf (s : List Char) : Char :=
  if apostrophe ∈ s ∧ quotation ∉ s then quotation else apostrophe

def reprOf (printable : Char → Bool) (s : List Char) : List Char :=
  quoteOf s :: (s.flatMap (escape printable (quoteOf s)) ++ [quoteOf s])

/-- `str` of a list of strings -/
def strList (printable : Char → Bool) (l : List (List Char)) : List Char :=
  '[' :: (join (l.map (reprOf printable)) ++ [']'])

variable {printable : Char → Bool} {quote c d : Char}

theorem isAlphanum_digitChar {n : ℕ} (h : n < 16) : (Nat.digitChar n).isAlphanum = true := by
  revert n
  decide

theorem isAlphanum_toDigits {n : ℕ} (h : d ∈ Nat.toDigits 16 n) : d.isAlphanum = true := by
  induction n using Nat.strongRecOn with
  | _ n ih =>
    rw [Nat.toDigits_eq_if (by decide)] at h
    split at h
    · next hlt =>
      rw [List.mem_singleton.mp h]
      exact isAlphanum_digitChar hlt
    · rcases List.mem_append.mp h with h | h
      · exact ih (n / 16) (Nat.div_lt_self (by omega) (by decide)) h
      · rw [List.mem_singleton.mp h]
        exact isAlphanum_digitChar (Nat.mod_lt _ (by decide))

theorem isAlphanum_hexText {width n : ℕ} (h : d ∈ hexText width n) : d.isAlphanum = true := by
  rcases List.mem_append.mp h with h | h
  · rw [(List.mem_replicate.mp h).2]
    rfl
  · exact isAlphanum_toDigits h

/-- An escape has the character itself, unless it is a line break, and else a backslash, letters
and digits. -/
theorem mem_escape (hquote : quote ≠ newline) (h : d ∈ escape printable quote c) :
    (d = c ∧ c ≠ newline) ∨ d = backslash ∨ d.isAlphanum = true := by
  have hpair : ∀ {e : Char}, e.isAlphanum = true → d ∈ [backslash, e] →
      d = backslash ∨ d.isAlphanum = true := by
    intro e he hd
    rcases List.mem_pair.mp hd with rfl | rfl
    · exact .inl rfl
    · exact .inr he
  have hhex : ∀ {e : Char} {width : ℕ}, e.isAlphanum = true →
      d ∈ backslash :: e :: hexText width c.toNat → d = backslash ∨ d.isAlphanum = true := by
    intro e width he hd
    rcases List.mem_cons.mp hd with rfl | hd
    · exact .inl rfl
    · rcases List.mem_cons.mp hd with rfl | hd
      · exact .inr he
      · exact .inr (isAlphanum_hexText hd)
  unfold escape at h
  dsimp only at h
  split at h
  · next hself =>
    have hnl : c ≠ newline := by
      rcases hself with rfl | rfl
      · exact hquote
      · decide
    rcases List.mem_pair.mp h with rfl | rfl
    · exact .inr (.inl rfl)
    · exact .inl ⟨rfl, hnl⟩
  · split at h
    · exact .inr (hpair rfl h)
    · split at h
      · exact .inr (hpair rfl h)
      · next hnl =>
        split at h
        · exact .inr (hpair rfl h)
        · split at h
          · exact .inr (hhex rfl h)
          · split at h
            · refine .inl ⟨List.mem_singleton.mp h, ?_⟩
              rintro rfl
              exact hnl rfl
            · split at h
              · exact .inr (hhex rfl h)
              · split at h
                · exact .inr (hhex rfl h)
                · exact .inr (hhex rfl h)

/-- A character is itself, or longer than itself. -/
theorem escape_eq_or (printable : Char → Bool) (quote c : Char) :
    escape printable quote c = [c] ∨ 2 ≤ (escape printable quote c).length := by
  unfold escape
  dsimp only
  split_ifs <;> simp

theorem quoteOf_eq (s : List Char) :
    (quoteOf s = quotation ∧ apostrophe ∈ s ∧ quotation ∉ s) ∨
      (quoteOf s = apostrophe ∧ ¬(apostrophe ∈ s ∧ quotation ∉ s)) := by
  unfold quoteOf
  split
  · next h => exact .inl ⟨rfl, h⟩
  · next h => exact .inr ⟨rfl, h⟩

theorem quoteOf_ne (s : List Char) {c : Char} (hquotation : c ≠ quotation)
    (hapostrophe : c ≠ apostrophe) : quoteOf s ≠ c := by
  rcases quoteOf_eq s with ⟨h, -⟩ | ⟨h, -⟩ <;> rw [h]
  · exact hquotation.symm
  · exact hapostrophe.symm

theorem isSpace_quoteOf (s : List Char) : isSpace (quoteOf s) = false := by
  rcases quoteOf_eq s with ⟨h, -⟩ | ⟨h, -⟩ <;> rw [h] <;> decide

/-- Of the characters that are neither escaped nor used in escapes, a text has those of the
string. -/
theorem mem_reprOf_iff {s : List Char} (hd : escape printable (quoteOf s) d = [d])
    (hquotation : d ≠ quotation) (hapostrophe : d ≠ apostrophe) (hbackslash : d ≠ backslash)
    (halnum : d.isAlphanum = false) : d ∈ reprOf printable s ↔ d ∈ s := by
  have hq := quoteOf_ne s hquotation hapostrophe
  simp only [reprOf, List.mem_cons, List.mem_append, List.mem_flatMap, List.not_mem_nil, or_false,
    hq.symm, false_or]
  constructor
  · rintro ⟨c, hc, hmem⟩
    rcases mem_escape (quoteOf_ne s (by decide) (by decide)) hmem with ⟨rfl, -⟩ | h | h
    · exact hc
    · exact absurd h hbackslash
    · rw [halnum] at h
      cases h
  · intro hs
    exact ⟨d, hs, by rw [hd]; exact List.mem_cons_self⟩

theorem newline_notMem_escapes (printable : Char → Bool) (quote : Char) (hquote : quote ≠ newline)
    (s : List Char) : newline ∉ s.flatMap (escape printable quote) := by
  intro h
  obtain ⟨c, -, hmem⟩ := List.mem_flatMap.mp h
  rcases mem_escape hquote hmem with ⟨hc, hne⟩ | h | h
  · exact hne hc.symm
  · exact absurd h (by decide)
  · exact absurd h (by decide)

theorem escape_comma (printable : Char → Bool) (s : List Char) :
    escape printable (quoteOf s) ',' = [','] := by
  have hq : (',' : Char) ≠ quoteOf s := (quoteOf_ne s (by decide) (by decide)).symm
  have hb : (',' : Char) ≠ backslash := by decide
  simp [escape, hq, hb]

theorem escape_equals (printable : Char → Bool) (s : List Char) :
    escape printable (quoteOf s) '=' = ['='] := by
  have hq : ('=' : Char) ≠ quoteOf s := (quoteOf_ne s (by decide) (by decide)).symm
  have hb : ('=' : Char) ≠ backslash := by decide
  simp [escape, hq, hb]

/-! ## Section 2: Patterns -/

/-- `(.*)c`, from the start: what is in front of the last `c` of the line -/
def upToLast (c : Char) (s : List Char) : Option (List Char) :=
  match (s.takeWhile (· ≠ newline)).reverse.dropWhile (· ≠ c) with
  | [] => none
  | _ :: rest => some rest.reverse

theorem upToLast_append {s : List Char} (hs : newline ∉ s) (hc : c ≠ newline) :
    upToLast c (s ++ [c]) = some s := by
  have hline : (s ++ [c]).takeWhile (· ≠ newline) = s ++ [c] := by
    apply List.takeWhile_eq_self_iff.mpr
    intro d hd
    rw [decide_eq_true_eq]
    rintro rfl
    rcases List.mem_append.mp hd with hd | hd
    · exact hs hd
    · exact hc (List.mem_singleton.mp hd).symm
  have hdrop : (s ++ [c]).reverse.dropWhile (· ≠ c) = c :: s.reverse := by
    rw [List.reverse_append, List.reverse_singleton, List.singleton_append]
    exact List.dropWhile_cons_of_neg (by simp)
  rw [upToLast, hline, hdrop]
  simp only [List.reverse_reverse]

/-! ## Section 3: Splitting and joining -/

/-- `''.join(s.split(a))` -/
theorem flatten_splitOn (a : Char) (s : List Char) : (s.splitOn a).flatten = s.filter (· ≠ a) := by
  induction s with
  | nil => rfl
  | cons c s ih =>
    rw [List.splitOn_cons_eq_if_modifyHead]
    by_cases hc : c = a
    · simp [hc, ih]
    · obtain ⟨w, ws, hws⟩ := List.exists_cons_of_ne_nil (List.splitOn_ne_nil a s)
      rw [hws, List.flatten_cons] at ih
      simp [hc, hws, ih]

/-- A text has one part more than commas. -/
theorem length_commas (s : List Char) : (commas s).length = s.count ',' + 1 := by
  induction s with
  | nil => rfl
  | cons c s ih =>
    rw [commas] at ih
    rw [commas, List.splitOn_cons_eq_if_modifyHead]
    by_cases hc : c = ','
    · simp [hc, ih]
    · simp [hc, ih]

theorem filter_join {p : Char → Bool} (hcomma : p ',' = true) (hspace : p ' ' = true)
    (l : List (List Char)) : (join l).filter p = join (l.map (List.filter p)) := by
  cases l with
  | nil => rfl
  | cons s l =>
    rw [join_cons, List.map_cons, join_cons, List.filter_append, List.filter_flatMap,
      List.flatMap_map]
    congr 2
    funext t
    simp [hcomma, hspace]

theorem notMem_join (hcomma : c ≠ ',') (hspace : c ≠ ' ') {l : List (List Char)}
    (h : ∀ s ∈ l, c ∉ s) : c ∉ join l := by
  cases l with
  | nil => exact List.not_mem_nil
  | cons s l =>
    rw [join_cons]
    simp only [List.mem_append, List.mem_flatMap, List.mem_cons, hcomma, hspace, false_or, not_or,
      not_exists, not_and]
    exact ⟨h s List.mem_cons_self, fun s' hs' => h s' (List.mem_cons_of_mem _ hs')⟩

/-- Every comma of the strings is one more part. -/
theorem length_commas_join {l : List (List Char)} (hne : l ≠ []) :
    (commas (join l)).length = l.length + (l.map (List.count ',')).sum := by
  obtain ⟨s, l, rfl⟩ := List.exists_cons_of_ne_nil hne
  have hrest : (l.flatMap fun s => ',' :: ' ' :: s).count ',' =
      l.length + (l.map (List.count ',')).sum := by
    clear hne
    induction l with
    | nil => rfl
    | cons s l ih =>
      rw [List.flatMap_cons, List.count_append, ih]
      simp
      omega
  rw [length_commas, join_cons, List.count_append, hrest]
  simp
  omega

end PythonText
