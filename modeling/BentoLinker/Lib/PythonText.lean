import Mathlib.Data.List.Basic
import Mathlib.Data.Nat.Notation
import Mathlib.Tactic.Ring

/-!
# Texts in Python

What Python's `re` and the methods of `str` take for spaces, words and numbers.

- `isSpace`, `isWord`: `\s`, and the characters of `\w`
- `words`, `strip`, `commas`: `split()`, `strip()`, `split(',')`
- `int0`: `int(s, 0)`
- `words_append`, `strip_of_ends`, `commas_join`, `int0_decimal`: what they make of texts that
  have been put together
-/

namespace PythonText

/-! ## Section 1: Characters -/

/-- `\s`, and what `str.split` and `str.strip` take away -/
def isSpace (c : Char) : Bool :=
  let n := c.toNat
  (9 ≤ n && n ≤ 13) || (28 ≤ n && n ≤ 32) || n == 0x85 || n == 0xa0 || n == 0x1680 ||
    (0x2000 ≤ n && n ≤ 0x200a) || n == 0x2028 || n == 0x2029 || n == 0x202f || n == 0x205f ||
    n == 0x3000

/-- `\w`, with `alnum` for the characters that are not ASCII -/
def isWord (alnum : Char → Bool) (c : Char) : Bool :=
  if c.toNat < 128 then c.isAlphanum || c == '_' else alnum c

/-! ## Section 2: Methods -/

/-- `s.split()` -/
def words (s : List Char) : List (List Char) := (s.splitOnP isSpace).filter (· ≠ [])

/-- `s.strip()` -/
def strip (s : List Char) : List Char :=
  ((s.dropWhile isSpace).reverse.dropWhile isSpace).reverse

/-- `s.split(',')` -/
def commas (s : List Char) : List (List Char) := s.splitOn ','

/-- `', '.join(l)` -/
def join (l : List (List Char)) : List Char := [',', ' '].intercalate l

theorem words_append {w s : List Char} {c : Char} (hne : w ≠ [])
    (hw : ∀ c ∈ w, isSpace c = false) (hc : isSpace c = true) :
    words (w ++ c :: s) = w :: words s := by
  rw [words, List.splitOnP_append_cons_of_forall_mem hw c hc, List.filter_cons_of_pos]
  · rfl
  · exact decide_eq_true hne

theorem words_nil : words [] = [] := rfl

theorem strip_of_ends {s : List Char} (hhead : ∀ c ∈ s.head?, isSpace c = false)
    (hlast : ∀ c ∈ s.getLast?, isSpace c = false) : strip s = s := by
  have hkeep : ∀ {l : List Char}, (∀ c ∈ l.head?, isSpace c = false) →
      l.dropWhile isSpace = l := by
    intro l hl
    cases l with
    | nil => rfl
    | cons c l => rw [List.dropWhile_cons_of_neg (by rw [hl c rfl]; exact Bool.false_ne_true)]
  rw [strip, hkeep hhead, hkeep (by rwa [List.head?_reverse]), List.reverse_reverse]

theorem strip_space {s : List Char} {c : Char} (hc : isSpace c = true) :
    strip (c :: s) = strip s := by
  rw [strip, List.dropWhile_cons_of_pos hc]
  rfl

theorem join_cons (s : List Char) (l : List (List Char)) :
    join (s :: l) = s ++ l.flatMap fun s => ',' :: ' ' :: s := by
  induction l generalizing s with
  | nil => simp [join]
  | cons s' l ih =>
    have hjoin : join (s :: s' :: l) = s ++ ',' :: ' ' :: join (s' :: l) := by
      simp [join]
    rw [hjoin, ih, List.flatMap_cons]
    rfl

/-- What has been joined comes apart again. -/
theorem commas_join {l : List (List Char)} (hne : l ≠ [])
    (hcomma : ∀ s ∈ l, ',' ∉ s) (hhead : ∀ s ∈ l, ∀ c ∈ s.head?, isSpace c = false)
    (hlast : ∀ s ∈ l, ∀ c ∈ s.getLast?, isSpace c = false) :
    (commas (join l)).map strip = l := by
  induction l with
  | nil => exact absurd rfl hne
  | cons s l ih =>
    have hs : strip s = s :=
      strip_of_ends (hhead s (List.mem_cons_self ..)) (hlast s (List.mem_cons_self ..))
    have hfirst := hcomma s (List.mem_cons_self ..)
    cases l with
    | nil =>
      have hjoin : join [s] = s := by simp [join]
      rw [hjoin, commas, List.splitOn_eq_singleton hfirst, List.map_singleton, hs]
    | cons s' l =>
      have hjoin : join (s :: s' :: l) = s ++ ',' :: ' ' :: join (s' :: l) := by
        simp [join]
      have hrest : (commas (' ' :: join (s' :: l))).map strip = s' :: l := by
        have hl := ih (List.cons_ne_nil _ _) (fun t ht => hcomma t (List.mem_cons_of_mem _ ht))
          (fun t ht => hhead t (List.mem_cons_of_mem _ ht))
          (fun t ht => hlast t (List.mem_cons_of_mem _ ht))
        have hspace : commas (' ' :: join (s' :: l)) =
            (commas (join (s' :: l))).modifyHead (' ' :: ·) := by
          rw [commas, List.splitOn_cons_eq_if_modifyHead]
          rfl
        rw [hspace]
        cases hcommas : commas (join (s' :: l)) with
        | nil => rwa [hcommas] at hl
        | cons t ts =>
          rw [List.modifyHead_cons, List.map_cons, strip_space (by decide), ← List.map_cons,
            ← hcommas]
          exact hl
      rw [hjoin, commas, List.splitOn_append_cons_self_of_not_mem hfirst, List.map_cons, hs]
      exact congrArg _ hrest

/-! ## Section 3: Numbers -/

def digitValue (c : Char) : Option ℕ :=
  if c.isDigit then some (c.toNat - '0'.toNat)
  else if 'a' ≤ c ∧ c ≤ 'f' then some (c.toNat - 'a'.toNat + 10)
  else if 'A' ≤ c ∧ c ≤ 'F' then some (c.toNat - 'A'.toNat + 10)
  else none

/-- The value of digits to a base, if they are all below it -/
def digits (base : ℕ) (s : List Char) : Option ℕ :=
  if s = [] then none
  else s.foldlM (fun n c => (digitValue c).bind fun d =>
    if d < base then some (base * n + d) else none) 0

/-- `int(s, 0)` of a text without spaces, signs and underscores -/
def int0 : List Char → Option ℕ
  | '0' :: 'x' :: s | '0' :: 'X' :: s => digits 16 s
  | '0' :: 'o' :: s | '0' :: 'O' :: s => digits 8 s
  | '0' :: 'b' :: s | '0' :: 'B' :: s => digits 2 s
  -- no zeros in front of a decimal number
  | '0' :: s => if s.all (· == '0') then some 0 else none
  | s => digits 10 s

/-- `'%s' % n` -/
def decimal (n : ℕ) : List Char := Nat.toDigits 10 n

theorem isDigit_decimal {n : ℕ} {c : Char} (hc : c ∈ decimal n) : c.isDigit = true :=
  Nat.isDigit_of_mem_toDigits (by decide) (by decide) hc

theorem foldlM_digits {s : List Char} (hs : ∀ c ∈ s, c.isDigit = true) (n : ℕ) :
    s.foldlM (fun n c => (digitValue c).bind fun d =>
      if d < 10 then some (10 * n + d) else none) n = some (Nat.ofDigitChars 10 s n) := by
  induction s generalizing n with
  | nil => rfl
  | cons c s ih =>
    have hc := hs c (List.mem_cons_self ..)
    have hlt : c.toNat - '0'.toNat < 10 := by
      have hle : c.toNat ≤ '9'.toNat := by
        have := hc
        simp only [Char.isDigit, Bool.and_eq_true, decide_eq_true_eq] at this
        exact this.2
      have hnine : '9'.toNat = 57 := rfl
      have hzero : '0'.toNat = 48 := rfl
      omega
    rw [List.foldlM_cons, digitValue, if_pos hc, Option.bind_some, if_pos hlt,
      Nat.ofDigitChars_cons]
    exact ih (fun c' hc' => hs c' (List.mem_cons_of_mem _ hc')) _

theorem head_decimal {n : ℕ} (hn : 0 < n) : ∀ c ∈ (decimal n).head?, c ≠ '0' := by
  induction n using Nat.strongRecOn with
  | ind n ih =>
    intro c hc
    rw [decimal] at hc
    rcases Nat.lt_or_ge n 10 with hlt | hge
    · rw [Nat.toDigits_of_lt_base hlt] at hc
      obtain rfl : n.digitChar = c := by simpa using hc
      intro hzero
      exact Nat.ne_of_gt hn (Nat.digitChar_eq_zero.mp hzero)
    · rw [Nat.toDigits_of_base_le (by decide) hge, List.head?_append] at hc
      have hne : Nat.toDigits 10 (n / 10) ≠ [] := Nat.toDigits_ne_nil
      obtain ⟨d, ds, hds⟩ := List.exists_cons_of_ne_nil hne
      rw [hds] at hc
      obtain rfl : d = c := by simpa using hc
      exact ih (n / 10) (by omega) (by omega) d (by rw [decimal, hds]; rfl)

theorem int0_of_head {s : List Char} (hs : ∀ c ∈ s.head?, c ≠ '0') : int0 s = digits 10 s := by
  unfold int0
  split
  case h_8 => rfl
  all_goals exact absurd rfl (hs '0' rfl)

/-- A positive number is read back. -/
theorem int0_decimal {n : ℕ} (hn : 0 < n) : int0 (decimal n) = some n := by
  have hne : decimal n ≠ [] := Nat.toDigits_ne_nil
  rw [int0_of_head (head_decimal hn), digits, if_neg hne,
    foldlM_digits fun c hc => isDigit_decimal hc]
  exact congrArg some Nat.ofDigitChars_ten_toDigits

end PythonText
