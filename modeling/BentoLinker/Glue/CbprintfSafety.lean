import BentoLinker.Glue.Cbprintf
import Mathlib.Data.List.TakeWhile
import Mathlib.Algebra.BigOperators.Group.List.Basic
import Mathlib.Algebra.Order.BigOperators.Group.List
import Mathlib.Tactic.ByContra

/-!
# Safety of the Small Printf

What `__box_cbprintf` reads, and what it returns, for every format and every `write`.

- `Conv.ReadsWithin`, `Returns`, `Safe`: what should hold of a call
- `Supplies`: the arguments that a format asks for
- `Item.CutOff`, `Item.Overreads`: the conversions with which the code reads too far
- `Harmless`, `Total`: a result of `write` ends the call before them, and the sum is an `ssize_t`
- `safe_iff`: these two are just what it takes

A conversion that the end of the format cuts off is printed first and steps over the NUL then,
and `s[size]` is read before `size` is compared with the precision.
-/

namespace BentoLinker.Glue.Cbprintf

/-! ## Section 1: What should hold -/

/-- A format, in front of its NUL -/
structure Format where
  text : Bytes
  noNul : 0 ∉ text

/-- Of a string, `s[0]` to `s[size]` are read: no more than an explicit precision allows, and
nothing behind the NUL without one. -/
def Conv.ReadsWithin (conv : Conv) : Prop :=
  conv.mode = .s →
    if conv.spec.precisionMode then conv.size + 1 ≤ conv.spec.precision
    else 0 ∉ conv.target.take conv.size

/-- The first negative result, or the sum of the results -/
def Returns (results : List Word) (n : Word) : Prop :=
  match results.find? (·.toInt < 0) with
  | some r => n = r
  | none => n.toInt = (results.map BitVec.toInt).sum

def SafeEnd (out : Stop × State) : Prop :=
  ∃ n, out.1 = .returned n ∧ (∀ conv ∈ out.2.convs, conv.ReadsWithin) ∧ Returns out.2.results n

/-- The call comes to an end without reading past the format, the arguments or a string. -/
def Safe (write : Write) (format : Format) (args : List Arg) : Prop :=
  SafeEnd (cbprintf write format.text args)

/-! ## Section 2: Arguments -/

/-- A string, or an array of as many characters as an explicit precision says -/
def Readable (spec : Spec) (target : Bytes) : Prop :=
  if spec.precisionMode then 0 ∈ target.take spec.precision ∨ spec.precision ≤ target.length
  else 0 ∈ target

/-- A conversion that is cut off asks for nothing. -/
def Item.Supplied : Item → Prop
  | .text _ => True
  | .missing => False
  | .conversion spec char arg =>
    char ≠ none → takesArg char →
      ∃ a, arg = some a ∧ (char = some 's'.toUInt8 → Readable spec a.target)

def Supplies (args : List Arg) (format : Format) : Prop :=
  ∀ item ∈ items format.text args, item.Supplied

/-! ## Section 3: When it goes wrong -/

/-- The NUL where the conversion character should be -/
def Item.CutOff : Item → Prop
  | .conversion _ char _ => char = none
  | _ => False

/-- `%s` with an explicit precision, and no NUL in the characters that it allows to read -/
def Item.Overreads : Item → Prop
  | .conversion spec char arg =>
    char = some 's'.toUInt8 ∧ spec.precisionMode ∧ ∃ a, arg = some a ∧
      0 ∉ a.target.take spec.precision
  | _ => False

/-- What is handed to `write` for an item -/
def Item.buffers : Item → List Bytes
  | .text bufs => bufs
  | .missing => []
  | .conversion spec char arg =>
    match convert spec char arg with
    | .error _ => []
    | .ok conv => conv.buffers

/-- What `write` returns for some buffers -/
def replies (write : Write) (before : List Bytes) : List Bytes → List Word
  | [] => []
  | buf :: bufs => write before buf :: replies write (before ++ [buf]) bufs

def Rejects (write : Write) (before bufs : List Bytes) : Prop :=
  ∃ r ∈ replies write before bufs, r.toInt < 0

/-- `write` rejects something in front of every conversion that reads too far. One that is cut
off is printed before it does. -/
def Harmless (write : Write) (before : List Bytes) (list : List Item) : Prop :=
  ∀ front item rear, list = front ++ item :: rear →
    (item.CutOff → Rejects write before (front.flatMap Item.buffers ++ item.buffers)) ∧
      (item.Overreads → Rejects write before (front.flatMap Item.buffers))

def total (write : Write) (before bufs : List Bytes) : ℤ :=
  ((replies write before bufs).map BitVec.toInt).sum

/-! ## Section 4: Strings -/

/-- The characters in front of the first NUL -/
def strLen (s : Bytes) : ℕ := (s.takeWhile (· ≠ 0)).length

/-- How far the loop for the size goes on -/
def strSteps (precision n : ℕ) (s : Bytes) : ℕ :=
  if precision = 0 then strLen s else min (strLen s) (precision - n)

theorem strLen_nul (s : Bytes) : strLen (0 :: s) = 0 := rfl

theorem strLen_cons {c : UInt8} (hc : c ≠ 0) (s : Bytes) : strLen (c :: s) = strLen s + 1 := by
  simp [strLen, hc]

theorem strLen_le (s : Bytes) : strLen s ≤ s.length := (List.takeWhile_prefix _).length_le

theorem take_strLen (s : Bytes) : s.take (strLen s) = s.takeWhile (· ≠ 0) :=
  (List.prefix_iff_eq_take.mp (List.takeWhile_prefix _)).symm

theorem nul_mem_take_iff (s : Bytes) (n : ℕ) :
    0 ∈ s.take n ↔ strLen s < n ∧ strLen s < s.length := by
  induction s generalizing n with
  | nil => simp
  | cons c s ih =>
    cases n with
    | zero => simp
    | succ n =>
      by_cases hc : c = 0
      · simp [hc, strLen_nul]
      · simp [strLen_cons hc, Ne.symm hc, ih]

theorem nul_mem_iff (s : Bytes) : 0 ∈ s ↔ strLen s < s.length := by
  have h := nul_mem_take_iff s s.length
  rw [List.take_length] at h
  rw [h, and_self]

/-- The size is read only if there is a character to stop at. -/
theorem strSize_eq {p : ℕ} (s : Bytes) {n : ℕ} (hn : p = 0 ∨ n ≤ p) :
    strSize p s n =
      if strSteps p n s < s.length then some (n + strSteps p n s) else none := by
  induction s generalizing n with
  | nil => simp [strSize]
  | cons c s ih =>
    rw [strSize]
    split
    · next hgo =>
      obtain ⟨hc, hlimit⟩ := hgo
      have hsteps : strSteps p n (c :: s) = strSteps p (n + 1) s + 1 := by
        unfold strSteps
        rw [strLen_cons hc]
        split
        · rfl
        · omega
      rw [ih (by omega), hsteps, List.length_cons]
      simp only [Nat.add_lt_add_iff_right, Nat.add_assoc, Nat.add_comm 1]
    · next hstop =>
      have hsteps : strSteps p n (c :: s) = 0 := by
        unfold strSteps
        by_cases hc : c = 0
        · rw [hc, strLen_nul]
          split
          · rfl
          · exact Nat.zero_min _
        · rw [if_neg (by tauto)]
          have heq : p - n = 0 := by
            have : ¬n < p := fun hlt => hstop ⟨hc, .inr hlt⟩
            omega
          rw [heq, Nat.min_zero]
      rw [hsteps, if_pos (by simp)]
      rfl

/-! ## Section 5: Results of `write` -/

variable {write : Write} {before bufs : List Bytes} {s : State} {next : State → Stop × State}

theorem replies_append (write : Write) (before xs ys : List Bytes) :
    replies write before (xs ++ ys) =
      replies write before xs ++ replies write (before ++ xs) ys := by
  induction xs generalizing before with
  | nil => simp [replies]
  | cons x xs ih => simp [replies, ih]

theorem not_rejects_nil : ¬Rejects write before [] := by
  rintro ⟨r, hr, -⟩
  cases hr

theorem rejects_append {xs ys : List Bytes} :
    Rejects write before (xs ++ ys) ↔
      Rejects write before xs ∨ Rejects write (before ++ xs) ys := by
  simp only [Rejects, replies_append, List.mem_append, or_and_right, exists_or]

theorem rejects_cons {buf : Bytes} : Rejects write before (buf :: bufs) ↔
    (write before buf).toInt < 0 ∨ Rejects write (before ++ [buf]) bufs := by
  simp only [Rejects, replies, List.mem_cons, exists_eq_or_imp]

/-- A call that no result has ended yet -/
structure Going (s : State) : Prop where
  accepted : ∀ r ∈ s.results, 0 ≤ r.toInt
  res : s.res = BitVec.ofInt 32 (s.results.map BitVec.toInt).sum

theorem going_initial : Going .initial := by
  refine ⟨fun r hr => ?_, rfl⟩
  cases hr

/-- One more result -/
theorem Going.accept (hs : Going s) {r : Word} (h : ¬r.toInt < 0) (buf : Bytes) :
    Going { s with
      buffers := s.buffers ++ [buf], results := s.results ++ [r], res := s.res + r } := by
  refine ⟨?_, by simp [hs.res, BitVec.ofInt_add]⟩
  intro x hx
  rcases List.mem_append.mp hx with hx | hx
  · exact hs.accepted x hx
  · cases List.mem_singleton.mp hx
    exact Int.not_lt.mp h

theorem find?_negative_eq_none {results : List Word} (h : ∀ r ∈ results, 0 ≤ r.toInt) :
    results.find? (·.toInt < 0) = none := by
  rw [List.find?_eq_none]
  intro r hr
  simpa using h r hr

/-- The first negative result is returned. -/
theorem emit_of_rejects (next : State → Stop × State) (hs : Going s)
    (h : Rejects write s.buffers bufs) :
    ∃ n s', emit write bufs s next = (.returned n, s') ∧ s'.convs = s.convs ∧
      Returns s'.results n := by
  induction bufs generalizing s with
  | nil => exact absurd h not_rejects_nil
  | cons buf bufs ih =>
    rw [emit]
    by_cases hneg : (write s.buffers buf).toInt < 0
    · refine ⟨_, _, if_pos hneg, rfl, ?_⟩
      have hfind : (s.results ++ [write s.buffers buf]).find? (·.toInt < 0) =
          some (write s.buffers buf) := by
        rw [List.find?_append, find?_negative_eq_none hs.accepted]
        simp [hneg]
      simp only [Returns, hfind]
    · rw [if_neg hneg]
      exact ih (hs.accept hneg buf) ((rejects_cons.mp h).resolve_left hneg)

/-- Without a negative result the call goes on, and the results are summed up. -/
theorem emit_of_accepts (next : State → Stop × State) (hs : Going s)
    (h : ¬Rejects write s.buffers bufs) :
    ∃ s', emit write bufs s next = next s' ∧ Going s' ∧ s'.buffers = s.buffers ++ bufs ∧
      s'.results = s.results ++ replies write s.buffers bufs ∧ s'.convs = s.convs := by
  induction bufs generalizing s with
  | nil => exact ⟨s, rfl, hs, by simp, by simp [replies], rfl⟩
  | cons buf bufs ih =>
    rw [rejects_cons, not_or] at h
    obtain ⟨hneg, hrest⟩ := h
    rw [emit, if_neg hneg]
    obtain ⟨s', heq, hgoing, hbuffers, hresults, hconvs⟩ := ih (hs.accept hneg buf) hrest
    exact ⟨s', heq, hgoing, by simp [hbuffers], by simp [hresults, replies], hconvs⟩

/-! ## Section 6: Conversions -/

variable {spec : Spec} {char : Option UInt8} {arg : Option Arg} {conv : Conv}

theorem convert_string (spec : Spec) (a : Arg) :
    convert spec (some 's'.toUInt8) (some a) =
      match strSize (sizeT spec.precision) a.target 0 with
      | none => .error .pastString
      | some size => .ok ⟨spec, .s, a.value, a.target, size⟩ := rfl

/-- Only `%s` reads an array. -/
theorem char_of_mode (h : convert spec char arg = .ok conv) (hmode : conv.mode = .s) :
    char = some 's'.toUInt8 := by
  by_contra hchar
  unfold convert at h
  split at h
  · cases h
    cases hmode
  · split at h
    · cases h
    · simp only at h
      split_ifs at h <;> cases h <;> cases hmode

/-- An array that is read as a string is read too far just if an explicit precision ends it. -/
theorem strSize_within {a : Arg} (hread : Readable spec a.target) :
    (∃ size, strSize (sizeT spec.precision) a.target 0 = some size ∧
      (⟨spec, .s, a.value, a.target, size⟩ : Conv).ReadsWithin) ↔
      ¬(spec.precisionMode ∧ 0 ∉ a.target.take spec.precision) := by
  have hfits := a.fits
  have hle := strLen_le a.target
  have heq := strSize_eq (p := sizeT spec.precision) a.target (.inr (Nat.zero_le _))
  rw [heq]
  cases hmode : spec.precisionMode with
  | false =>
    have hsteps : strSteps (sizeT spec.precision) 0 a.target = strLen a.target := by
      rw [spec.plain hmode]
      rfl
    have hnul : strLen a.target < a.target.length := by
      rwa [Readable, hmode, if_neg Bool.false_ne_true, nul_mem_iff] at hread
    rw [hsteps, if_pos hnul]
    refine iff_of_true ⟨_, rfl, fun _ => ?_⟩ (by simp)
    simp [hmode, nul_mem_take_iff]
  | true =>
    have hsteps : strSteps (sizeT spec.precision) 0 a.target < a.target.length ∧
        strSteps (sizeT spec.precision) 0 a.target + 1 ≤ spec.precision ↔
          0 ∈ a.target.take spec.precision := by
      rw [Readable, hmode, if_pos rfl, nul_mem_take_iff] at hread
      rw [nul_mem_take_iff, strSteps, sizeT]
      split <;> omega
    simp only [true_and, not_not, ← hsteps]
    constructor
    · rintro ⟨size, hsize, hwithin⟩
      have hwithin := hwithin rfl
      rw [if_pos hmode] at hwithin
      split at hsize
      · next hlt =>
        cases hsize
        exact ⟨hlt, by simpa using hwithin⟩
      · cases hsize
    · rintro ⟨hlt, hwithin⟩
      refine ⟨_, if_pos hlt, fun _ => ?_⟩
      rw [if_pos hmode]
      simpa using hwithin

/-- A conversion that is supplied is done without reading too far in a string, or it is one of
those that go wrong. -/
theorem convert_within (h : (Item.conversion spec char arg).Supplied) :
    ((∃ conv, convert spec char arg = .ok conv ∧ conv.ReadsWithin) ∨
      (char = none ∧ convert spec char arg = .error .pastArguments)) ↔
      ¬(Item.conversion spec char arg).Overreads := by
  by_cases hstring : char = some 's'.toUInt8
  · subst hstring
    obtain ⟨a, rfl, hread⟩ := h (by simp) rfl
    have hwithin := strSize_within (hread rfl)
    rw [convert_string]
    simp only [Item.Overreads, true_and, Option.some.injEq, exists_eq_left', reduceCtorEq,
      false_and, or_false]
    rw [← hwithin]
    constructor
    · rintro ⟨conv, hconv, hreads⟩
      split at hconv
      · cases hconv
      · next size hsize =>
        cases hconv
        exact ⟨size, hsize, hreads⟩
    · rintro ⟨size, hsize, hreads⟩
      rw [hsize]
      exact ⟨_, rfl, hreads⟩
  · refine iff_of_true ?_ fun hover => hstring hover.1
    cases hconv : convert spec char arg with
    | ok conv => exact .inl ⟨conv, rfl, fun hmode => absurd (char_of_mode hconv hmode) hstring⟩
    | error stop =>
      right
      rcases convert_eq_error hconv with ⟨rfl, htakes, rfl⟩ | ⟨-, hchar, -⟩
      · refine ⟨?_, rfl⟩
        by_contra hsome
        obtain ⟨a, ha, -⟩ := h hsome htakes
        cases ha
      · exact absurd hchar hstring

/-! ## Section 7: The whole format -/

theorem harmless_nil : Harmless write before [] := by
  intro front item rear h
  exact absurd h (by simp)

theorem harmless_cons {item : Item} {rest : List Item} :
    Harmless write before (item :: rest) ↔
      (item.CutOff → Rejects write before item.buffers) ∧ ¬item.Overreads ∧
        (Rejects write before item.buffers ∨ Harmless write (before ++ item.buffers) rest) := by
  constructor
  · intro h
    obtain ⟨hcut, hover⟩ := h [] item rest rfl
    refine ⟨hcut, fun ho => not_rejects_nil (hover ho), or_iff_not_imp_left.mpr ?_⟩
    rintro hrejects front item' rear rfl
    have h' := h (item :: front) item' rear rfl
    simp only [List.flatMap_cons, List.append_assoc, rejects_append, hrejects, false_or] at h'
    simpa only [rejects_append, List.append_assoc] using h'
  · rintro ⟨hcut, hover, hrest⟩ front item' rear heq
    cases front with
    | nil =>
      cases heq
      exact ⟨hcut, fun ho => absurd ho hover⟩
    | cons item front =>
      cases heq
      simp only [List.flatMap_cons, List.append_assoc]
      rcases hrest with hrejects | hrest
      · exact ⟨fun _ => rejects_append.mpr (.inl hrejects), fun _ =>
          rejects_append.mpr (.inl hrejects)⟩
      · obtain ⟨hcut', hover'⟩ := hrest front item' rear rfl
        exact ⟨fun hc => rejects_append.mpr (.inr (hcut' hc)), fun ho =>
          rejects_append.mpr (.inr (hover' ho))⟩

/-- No call of `write` forgets a conversion. -/
theorem mem_convs_emit {conv : Conv} (hmem : conv ∈ s.convs)
    (hnext : ∀ s' : State, conv ∈ s'.convs → conv ∈ (next s').2.convs) :
    conv ∈ (emit write bufs s next).2.convs := by
  induction bufs generalizing s with
  | nil => exact hnext s hmem
  | cons buf bufs ih =>
    rw [emit]
    split
    · exact hmem
    · exact ih hmem

theorem mem_convs_exec {conv : Conv} (list : List Item) (hmem : conv ∈ s.convs) :
    conv ∈ (exec write list s).2.convs := by
  induction list generalizing s with
  | nil => exact hmem
  | cons item rest ih =>
    cases item with
    | text bufs => exact mem_convs_emit hmem fun s' hs' => ih hs'
    | missing => exact hmem
    | conversion spec char arg =>
      rw [exec]
      split
      · exact hmem
      · apply mem_convs_emit (List.mem_append.mpr (.inl hmem))
        intro s' hs'
        split
        · exact hs'
        · exact ih hs'

/-- A sum of results that are not negative is an `ssize_t` just if it is less than 2³¹. -/
theorem toInt_ofInt_iff {z : ℤ} (hz : 0 ≤ z) : (BitVec.ofInt 32 z).toInt = z ↔ z < 2 ^ 31 := by
  rw [BitVec.toInt_ofInt]
  constructor
  · intro h
    have := Int.bmod_lt (x := z) (m := 2 ^ 32) (by decide)
    omega
  · intro h
    exact Int.bmod_eq_of_le (by omega) (by omega)

theorem total_append (write : Write) (before xs ys : List Bytes) :
    total write before (xs ++ ys) = total write before xs + total write (before ++ xs) ys := by
  simp [total, replies_append]

theorem Going.sum_nonneg (hs : Going s) : 0 ≤ (s.results.map BitVec.toInt).sum := by
  apply List.sum_nonneg
  intro z hz
  obtain ⟨r, hr, rfl⟩ := List.mem_map.mp hz
  exact hs.accepted r hr

theorem Going.returns_iff (hs : Going s) :
    Returns s.results s.res ↔ (s.results.map BitVec.toInt).sum < 2 ^ 31 := by
  rw [Returns, find?_negative_eq_none hs.accepted, hs.res]
  exact toInt_ofInt_iff hs.sum_nonneg

/-- The results so far and those that are left can be summed up. -/
def Summable (write : Write) (s : State) (bufs : List Bytes) : Prop :=
  ¬Rejects write s.buffers bufs →
    (s.results.map BitVec.toInt).sum + total write s.buffers bufs < 2 ^ 31

/-- Some buffers, behind which `cutOff` goes wrong and the items `rest` come otherwise -/
theorem safeEnd_emit_iff (cutOff : Prop) (rest : List Item) (hs : Going s)
    (hconvs : ∀ conv ∈ s.convs, conv.ReadsWithin)
    (hnext : ∀ s', Going s' → s'.buffers = s.buffers ++ bufs → s'.convs = s.convs →
      (SafeEnd (next s') ↔ ¬cutOff ∧ Harmless write s'.buffers rest ∧
        Summable write s' (rest.flatMap Item.buffers))) :
    SafeEnd (emit write bufs s next) ↔
      ((cutOff → Rejects write s.buffers bufs) ∧
        (Rejects write s.buffers bufs ∨ Harmless write (s.buffers ++ bufs) rest)) ∧
          Summable write s (bufs ++ rest.flatMap Item.buffers) := by
  by_cases hrejects : Rejects write s.buffers bufs
  · obtain ⟨n, s', heq, hconvs', hreturns⟩ := emit_of_rejects next hs hrejects
    rw [heq]
    refine iff_of_true ⟨n, rfl, ?_, hreturns⟩ ⟨⟨fun _ => hrejects, .inl hrejects⟩, ?_⟩
    · rwa [hconvs']
    · exact fun h => absurd (rejects_append.mpr (.inl hrejects)) h
  · obtain ⟨s', heq, hgoing, hbuffers, hresults, hconvs'⟩ :=
      emit_of_accepts next hs hrejects
    have hsum : Summable write s' (rest.flatMap Item.buffers) ↔
        Summable write s (bufs ++ rest.flatMap Item.buffers) := by
      simp only [Summable, rejects_append, hrejects, false_or, hbuffers, hresults, total_append,
        List.map_append, List.sum_append, add_assoc]
      rfl
    rw [heq, hnext s' hgoing hbuffers hconvs', hsum, hbuffers]
    simp only [hrejects, false_or, imp_false, and_assoc]

/-- From any state that the call comes to, with the items that are left -/
theorem safeEnd_exec_iff {list : List Item} (hs : Going s)
    (hconvs : ∀ conv ∈ s.convs, conv.ReadsWithin) (hsupplied : ∀ item ∈ list, item.Supplied) :
    SafeEnd (exec write list s) ↔ Harmless write s.buffers list ∧
      Summable write s (list.flatMap Item.buffers) := by
  -- the items that are left, from any state that goes on
  induction list generalizing s with
  | nil =>
    have hreturns := hs.returns_iff
    simp only [Summable, List.flatMap_nil, total, replies, List.map_nil, List.sum_nil, add_zero,
      not_rejects_nil, not_false_eq_true, true_imp_iff, harmless_nil, true_and]
    rw [← hreturns]
    constructor
    · rintro ⟨n, hn, -, hreturns⟩
      cases hn
      exact hreturns
    · exact fun hreturns => ⟨_, rfl, hconvs, hreturns⟩
  | cons item rest ih =>
    have hrest : ∀ item ∈ rest, item.Supplied := fun x hx => hsupplied x (List.mem_cons_of_mem _ hx)
    have hitem := hsupplied item List.mem_cons_self
    rw [harmless_cons, List.flatMap_cons]
    cases item with
    | missing => exact hitem.elim
    | text bufs =>
      rw [exec, safeEnd_emit_iff False rest hs hconvs fun s' hs' _ hconvs' => by
        rw [ih hs' (by rwa [hconvs']) hrest, not_false_eq_true, true_and]]
      simp only [Item.CutOff, Item.Overreads, Item.buffers, false_imp_iff, not_false_eq_true,
        true_and]
    | conversion spec char arg =>
      have hwithin := convert_within hitem
      rw [exec]
      split
      · next stop hconv =>
        -- nothing is handed to `write` in front of what is missing
        have hbuffers : (Item.conversion spec char arg).buffers = [] := by
          simp only [Item.buffers, hconv]
        refine iff_of_false ?_ ?_
        · rintro ⟨n, hn, -⟩
          rcases convert_eq_error hconv with ⟨rfl, -⟩ | ⟨rfl, -⟩ <;> cases hn
        · rintro ⟨⟨hcut, hover, -⟩, -⟩
          rw [hbuffers] at hcut
          rcases hwithin.mpr hover with ⟨conv, hok, -⟩ | ⟨hchar, -⟩
          · rw [hok] at hconv
            cases hconv
          · exact not_rejects_nil (hcut hchar)
      · next conv hconv =>
        have hbuffers : (Item.conversion spec char arg).buffers = conv.buffers := by
          simp only [Item.buffers, hconv]
        have hmem : conv ∈ s.convs ++ [conv] := List.mem_append.mpr (.inr List.mem_cons_self)
        have hover : conv.ReadsWithin ↔ ¬(Item.conversion spec char arg).Overreads := by
          simpa [hconv] using hwithin
        rw [hbuffers, ← hover]
        -- a string that is not terminated is read in front of any call of `write`
        by_cases hreads : conv.ReadsWithin
        · have hgoing : Going { s with convs := s.convs ++ [conv] } := ⟨hs.accepted, hs.res⟩
          have hall : ∀ x ∈ s.convs ++ [conv], x.ReadsWithin := by
            intro x hx
            rcases List.mem_append.mp hx with hx | hx
            · exact hconvs x hx
            · cases List.mem_singleton.mp hx
              exact hreads
          -- behind the buffers a format that ends in the conversion is read past its end
          rw [safeEnd_emit_iff (char = none) rest hgoing hall fun s' hs' _ hconvs' => by
            split
            · next hchar =>
              refine iff_of_false ?_ fun h => h.1 hchar
              rintro ⟨n, hn, -⟩
              cases hn
            · next hchar =>
              rw [ih hs' (by rwa [hconvs']) hrest]
              simp only [hchar, not_false_eq_true, true_and]]
          simp only [hreads, true_and]
          rfl
        · refine iff_of_false ?_ fun h => hreads h.1.2.1
          rintro ⟨n, -, hconvs', -⟩
          refine hreads (hconvs' conv (mem_convs_emit hmem fun s' hs' => ?_))
          split
          · exact hs'
          · exact mem_convs_exec rest hs'

/-- With the arguments that the format asks for, a call is safe just if a negative result ends it
in front of every conversion that goes wrong, and the results can be summed up otherwise. -/
theorem safe_iff {format : Format} {args : List Arg} (hsupplied : Supplies args format)
    (write : Write) :
    Safe write format args ↔
      Harmless write [] (items format.text args) ∧
        (¬Rejects write [] ((items format.text args).flatMap Item.buffers) →
          total write [] ((items format.text args).flatMap Item.buffers) < 2 ^ 31) := by
  rw [Safe, cbprintf_eq_exec, safeEnd_exec_iff going_initial (fun _ h => by cases h) hsupplied]
  simp [Summable, State.initial]

/-- A `write` that takes all of a buffer -/
def acceptAll : Write := fun _ buf => BitVec.ofNat 32 buf.length

def number (value : Word) : Arg := ⟨value, [], by decide⟩

/-- `"%d"` -/
def decimalFormat : Format := ⟨['%'.toUInt8, 'd'.toUInt8], by decide⟩

theorem items_decimalFormat (value : Word) :
    items decimalFormat.text [number value] =
      [.text [], .conversion .initial (some 'd'.toUInt8) (some (number value)), .text []] := by
  have hdrop : decimalFormat.text.dropWhile (!isPercent ·) = ['%'.toUInt8, 'd'.toUInt8] := rfl
  have hscan : scan ['d'.toUInt8] .initial [number value] =
      some ⟨.initial, some 'd'.toUInt8, [], [number value]⟩ := rfl
  rw [items_of_percent hdrop, hscan]
  simp only [reduceCtorEq, if_false]
  rw [items_of_end rfl]
  rfl

theorem safe_iff_decimal : Safe acceptAll decimalFormat [number 42] := by
  have hitems := items_decimalFormat 42
  have hsupplied : Supplies [number 42] decimalFormat := by
    rw [Supplies, hitems]
    simp [Item.Supplied, Char.toUInt8]
  refine (safe_iff hsupplied acceptAll).mpr ?_
  rw [hitems]
  refine ⟨?_, fun _ => ?_⟩
  · simp [harmless_cons, harmless_nil, Item.CutOff, Item.Overreads, Char.toUInt8]
  · decide

/-- `"%"` -/
def percentFormat : Format := ⟨['%'.toUInt8], by decide⟩

/-- The conversion is cut off, and the text behind the NUL is the next to be read. -/
theorem not_safe : Supplies [number 0] percentFormat ∧
    ¬Safe acceptAll percentFormat [number 0] := by
  constructor
  · have hdrop : percentFormat.text.dropWhile (!isPercent ·) = ['%'.toUInt8] := rfl
    have hscan : scan [] .initial [number 0] = some ⟨.initial, none, [], [number 0]⟩ := rfl
    rw [Supplies, items_of_percent hdrop, hscan]
    simp [Item.Supplied]
  · rintro ⟨n, hn, -⟩
    have hstop : (cbprintf acceptAll percentFormat.text [number 0]).1 = .pastFormat := by decide
    rw [hstop] at hn
    cases hn

end BentoLinker.Glue.Cbprintf
