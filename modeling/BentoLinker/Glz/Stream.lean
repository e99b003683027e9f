import BentoLinker.Glz.SymbolCode
import BentoLinker.Lib.CopyStream
import BentoLinker.Lib.FallibleFold

/-!
# What the GLZ Encoder Writes

The stream of `encode1` and `encodeAll` in terms of what can be read from it, before
any decoder is considered.

- `Coded g S syms`: `S` is the concatenated code of `syms`
- `codeReader g syms`: the codes of `syms` as a reader of streams with copies
- `Sound g S syms history`: the invariant of the encoder between two slices
- `SoundAt g slice E syms e S`: the invariant of `encode1` inside a slice
- `sound_encodeAll`: every slice can be read at the place `encodeAll` reports for it

The encoder writes back to front, so its offsets count from the end of the stream: the
stream read from an offset does not change when more codes are put in front of it.
-/

namespace BentoLinker.Glz.GLZ

open BitCode CopyStream FallibleFold

variable {U : Type}

/-! ## Section 1: Slices and histories -/

theorem subslice_cons {slice : List U} {i j : ℕ} {x : U} (hij : i < j)
    (hx : slice[i]? = some x) : subslice slice i j = x :: subslice slice (i + 1) j := by
  obtain ⟨hi, rfl⟩ := List.getElem?_eq_some_iff.mp hx
  rw [subslice, List.drop_eq_getElem_cons hi, show j - i = j - (i + 1) + 1 by omega,
    List.take_succ_cons]
  rfl

theorem length_subslice {slice : List U} {i j : ℕ} (hj : j ≤ slice.length) :
    (subslice slice i j).length = j - i := by
  simp only [subslice, List.length_take, List.length_drop]
  omega

theorem subslice_append_drop {slice : List U} {i j : ℕ} (hij : i ≤ j) :
    subslice slice i j ++ slice.drop j = slice.drop i := by
  have hdrop : slice.drop j = (slice.drop i).drop (j - i) := by
    rw [List.drop_drop]; congr 1; omega
  rw [hdrop, subslice, List.take_append_drop]

theorem take_subslice {slice : List U} {i r j : ℕ} (hr : r ≤ j) :
    (subslice slice i j).take (r - i) = subslice slice i r := by
  rw [subslice, List.take_take, subslice]
  congr 1
  omega

theorem History.insert_apply [DecidableEq U] (history : History U) (s t : List U) (off : ℕ) :
    history.insert s off t = if t = s then some off else history t :=
  Function.update_apply history s (some off) t

/-! ## Section 2: Coded streams -/

variable [Sym U]

/-- `S` is the concatenated code of `syms`. -/
inductive Coded (g : GLZ) : Bits → List (GLZSym U) → Prop
  | nil : Coded g [] []
  | cons {code S : Bits} {sym : GLZSym U} {syms : List (GLZSym U)} :
      g.encodeSym sym = .ok code → Coded g S syms → Coded g (code ++ S) (sym :: syms)

/-- `S` begins with the code of `sym`, which takes `d` bits. -/
def StartsWith (g : GLZ) (S : Bits) (sym : GLZSym U) (d : ℕ) : Prop :=
  ∃ code rest, S = code ++ rest ∧ g.encodeSym sym = .ok code ∧ code.length = d

/-- The codes of the symbols `syms`. -/
def codeReader (g : GLZ) (syms : List (GLZSym U)) : Reader U Bool where
  emit S x d := GLZSym.imm x ∈ syms ∧ g.StartsWith S (.imm x) d
  copy S off size d := GLZSym.ref off size ∈ syms ∧ g.StartsWith S (.ref (U := U) off size) d

theorem codeReader_le {g : GLZ} {syms syms' : List (GLZSym U)} (h : syms ⊆ syms') :
    (g.codeReader syms).Le (g.codeReader syms') where
  emit hx := ⟨h hx.1, hx.2⟩
  copy hr := ⟨h hr.1, hr.2⟩

theorem StartsWith.length_le {g : GLZ} {S : Bits} {sym : GLZSym U} {d : ℕ}
    (h : g.StartsWith S sym d) : 0 < d ∧ d ≤ S.length := by
  obtain ⟨code, rest, rfl, hcode, rfl⟩ := h
  exact ⟨length_pos_of_encodeSym hcode, by simp⟩

theorem startsWith_append {g : GLZ} {sym : GLZSym U} {code : Bits}
    (h : g.encodeSym sym = .ok code) (S : Bits) :
    g.StartsWith (code ++ S) sym code.length :=
  ⟨code, S, rfl, h, rfl⟩

/-! ## Section 3: The invariant between slices -/

/-- The stream read `p` bits before its end. -/
def fromEnd (S : Bits) (p : ℕ) : Bits := S.drop (S.length - p)

/-- What stands `p` bits before the end stays there when codes are put in front. -/
theorem fromEnd_append {S : Bits} {p : ℕ} (hp : p ≤ S.length) (X : Bits) :
    fromEnd (X ++ S) p = fromEnd S p := by
  have hlen : (X ++ S).length - p = X.length + (S.length - p) := by
    rw [List.length_append]; omega
  rw [fromEnd, fromEnd, hlen, List.drop_append]
  simp

theorem fromEnd_length (S : Bits) : fromEnd S S.length = S := by
  simp [fromEnd]

/-- Every pattern of `history` can be played from its offset. -/
def PatternsAt (g : GLZ) (S : Bits) (syms : List (GLZSym U)) (history : History U) : Prop :=
  ∀ t p, history t = some p →
    p ≤ S.length ∧ Plays (g.codeReader syms) false (fromEnd S p) t

theorem PatternsAt.append {g : GLZ} {S : Bits} {syms : List (GLZSym U)} {history : History U}
    (h : g.PatternsAt S syms history) (X : Bits) (sym : GLZSym U) :
    g.PatternsAt (X ++ S) (sym :: syms) history := by
  intro t p hp
  obtain ⟨hle, hplays⟩ := h t p hp
  rw [fromEnd_append hle, List.length_append]
  exact ⟨by omega, hplays.mono (codeReader_le (List.subset_cons_self _ _))⟩

/-- The invariant between slices: the stream so far is a coded one, and its patterns are
where the history says. -/
structure Sound (g : GLZ) (S : Bits) (syms : List (GLZSym U)) (history : History U) :
    Prop where
  coded : Coded g S syms
  patterns : g.PatternsAt S syms history

/-! ## Section 4: The invariant of `encode1` -/

/-- The invariant of the `while` loop of `encode1` on `slice`, entered with the stream
`E`. The stream is now `S`, and reading it yields what is left of the slice. -/
structure SoundAt (g : GLZ) (slice : List U) (E : Bits) (syms : List (GLZSym U))
    (e : Encoder U) (S : Bits) : Prop where
  sound : Sound g S syms e.history
  stream : e.patterns.reverse.flatten ++ E = S
  off : e.off = S.length
  le : e.j ≤ e.lastmatch ∧ e.lastmatch ≤ slice.length
  /-- up to the end of the slice, copies one level deep -/
  spells : Spells (g.codeReader syms) S E (slice.drop e.j)
  /-- up to the end of the last pattern, without a stack -/
  plays : Plays (g.codeReader syms) true S (subslice slice e.j e.lastmatch)

/-- A reference that the search returns codes a pattern of the history. -/
theorem findRef_eq_some {g : GLZ} {history : History U} {off j lookahead n : ℕ}
    {slice : List U} {ref_ : Bits}
    (h : g.findRef history off slice j lookahead = .ok (some (n, ref_))) :
    ∃ p, n ≤ j ∧ history (subslice slice (j - n) j) = some p ∧ p ≤ off ∧
      g.encodeSym (U := U) (.ref (off - p) n) = .ok ref_ := by
  rw [findRef] at h
  -- the accumulator is a pattern of the history, or still empty
  refine foldlM_invariant_mem (fun acc => ∀ m code, acc = some (m, code) → ∃ p, m ≤ j ∧
    history (subslice slice (j - m) j) = some p ∧ p ≤ off ∧
      g.encodeSym (U := U) (.ref (off - p) m) = .ok code) ?_ ?_ h n ref_ rfl
  · intro acc i hi acc' hacc hstep
    rw [List.mem_reverse, List.mem_range'_1] at hi
    split at hstep
    · cases hstep
      exact hacc
    · next poff hpoff =>
      simp only [Res.bind_eq_ok] at hstep
      obtain ⟨diff, hdiff, nref, hnref, hstep⟩ := hstep
      obtain ⟨hle, rfl⟩ := subUsize_eq_ok.mp hdiff
      cases nref with
      | none =>
        cases hstep
        exact hacc
      | some nref =>
        cases hstep
        rintro m code ⟨rfl, rfl⟩
        refine ⟨poff, by omega, ?_, hle, okOrNone_eq_some.mp hnref⟩
        rw [show j - (j - i) = i by omega]
        exact hpoff
  · rintro m code ⟨⟩

variable [DecidableEq U]

/-- Recording prefixes of a pattern that can be played at `S` keeps the history sound. -/
theorem patternsAt_insertPrefixes {g : GLZ} {S : Bits} {syms : List (GLZSym U)}
    {history : History U} {slice : List U} {i lastmatch : ℕ}
    (hpat : g.PatternsAt S syms history)
    (hplays : Plays (g.codeReader syms) false S (subslice slice i lastmatch)) :
    g.PatternsAt S syms (g.insertPrefixes history slice i lastmatch S.length) := by
  rw [insertPrefixes]
  have hmem : ∀ r ∈ (List.range' (i + 2) (lastmatch + 1 - (i + 2))).take (2 ^ g.l),
      r ≤ lastmatch := by
    intro r hr
    have hr := List.mem_of_mem_take hr
    rw [List.mem_range'_1] at hr
    omega
  generalize (List.range' (i + 2) (lastmatch + 1 - (i + 2))).take (2 ^ g.l) = rs at hmem
  induction rs generalizing history with
  | nil => exact hpat
  | cons r rs ih =>
    refine ih ?_ fun r' hr' => hmem r' (List.mem_cons_of_mem _ hr')
    intro t p hp
    change history.insert (subslice slice i r) S.length t = some p at hp
    rw [History.insert_apply] at hp
    split at hp
    · next ht =>
      cases hp
      refine ⟨le_rfl, ?_⟩
      rw [ht, fromEnd_length, ← take_subslice (hmem r (by simp))]
      exact hplays.take _
    · exact hpat t p hp

/-! ## Section 5: One step and one slice -/

/-- The two ways a step of `encode1` can go. -/
theorem encode1Step_cases {g : GLZ} {slice : List U} {e e' : Encoder U}
    (h : g.encode1Step slice e = .ok e') :
    (∃ n ref_ p, n ≤ e.j ∧ e.history (subslice slice (e.j - n) e.j) = some p ∧ p ≤ e.off ∧
      g.encodeSym (U := U) (.ref (e.off - p) n) = .ok ref_ ∧
      e' = ⟨e.history, e.off + ref_.length, e.patterns ++ [ref_], e.j - n, e.j, true⟩) ∨
    (∃ x imm, slice[e.j - 1]? = some x ∧ g.encodeSym (.imm x) = .ok imm ∧
      e' = ⟨g.insertPrefixes e.history slice (e.j - 1) e.lastmatch (e.off + imm.length),
        e.off + imm.length, e.patterns ++ [imm], e.j - 1, e.lastmatch, false⟩) := by
  simp only [encode1Step, Res.bind_eq_ok] at h
  obtain ⟨lim, -, found, hfound, h⟩ := h
  cases hx : slice[e.j - 1]? with
  | none =>
    rw [hx] at h
    cases h
  | some x =>
  simp only [hx, Res.bind_eq_ok] at h
  obtain ⟨imm, himm, h⟩ := h
  split at h
  · next n ref_ _ =>
    cases h
    obtain ⟨p, hn, hp, hle, hcode⟩ := findRef_eq_some hfound
    exact .inl ⟨n, ref_, p, hn, hp, hle, hcode, rfl⟩
  · cases h
    exact .inr ⟨x, imm, rfl, himm, rfl⟩

/-- A step of `encode1` keeps its invariant, and consumes something. -/
theorem soundAt_encode1Step {g : GLZ} {slice : List U} {E S : Bits}
    {syms : List (GLZSym U)} {e e' : Encoder U} (hinv : SoundAt g slice E syms e S)
    (hj : 0 < e.j) (h : g.encode1Step slice e = .ok e') :
    ∃ code sym, SoundAt g slice E (sym :: syms) e' (code ++ S) ∧ e'.j < e.j := by
  obtain ⟨hjle, hlast⟩ := hinv.le
  have hsub : ∀ sym : GLZSym U, (g.codeReader syms).Le (g.codeReader (sym :: syms)) :=
    fun sym => codeReader_le (List.subset_cons_self _ _)
  rcases encode1Step_cases h with
    ⟨n, ref_, p, hn, hp, hle, hcode, rfl⟩ | ⟨x, imm, hx, hcode, rfl⟩
  · -- a reference: what it copies lies where the history says, and can be played there
    obtain ⟨_, hsize, -⟩ := encodeSym_ref_eq_ok hcode
    obtain ⟨hpS, hplays⟩ := hinv.sound.patterns _ _ hp
    have hlen : (subslice slice (e.j - n) e.j).length = n := by
      rw [length_subslice (hjle.trans hlast)]; omega
    have hne : subslice slice (e.j - n) e.j ≠ [] := by
      intro hnil
      rw [hnil, List.length_nil] at hlen
      omega
    have hcopy : (g.codeReader (GLZSym.ref (e.off - p) n :: syms)).copy (ref_ ++ S)
        (e.off - p) n ref_.length := ⟨by simp, startsWith_append hcode S⟩
    have hdrop : (ref_ ++ S).drop (ref_.length + (e.off - p)) = fromEnd S p := by
      rw [List.drop_append, hinv.off, fromEnd]
      simp
    have hbound : ref_.length + (e.off - p) ≤ (ref_ ++ S).length := by
      rw [List.length_append, hinv.off]; omega
    have hpat := hplays.mono (hsub (.ref (e.off - p) n))
    rw [← hdrop] at hpat
    refine ⟨ref_, .ref (e.off - p) n, ?_, by dsimp only; omega⟩
    -- the stream grows at its front
    exact {
      sound := ⟨.cons hcode hinv.sound.coded, hinv.sound.patterns.append _ _⟩
      stream := by
        rw [List.reverse_append, List.flatten_append, ← hinv.stream]
        simp
      off := by rw [List.length_append, hinv.off, Nat.add_comm]
      le := ⟨by simp, hjle.trans hlast⟩
      spells := by
        rw [← subslice_append_drop (Nat.sub_le e.j n)]
        refine .copy hne (by rw [hlen]; exact hcopy) hbound hpat ?_
        rw [List.drop_left]
        exact hinv.spells.mono (hsub _)
      plays := .jump hne hlen.le hcopy hbound hpat }
  · -- an immediate, put in front of what could be read so far
    have hemit : (g.codeReader (GLZSym.imm x :: syms)).emit (imm ++ S) x imm.length :=
      ⟨by simp, startsWith_append hcode S⟩
    have hcons := subslice_cons (j := e.lastmatch) (by omega) hx
    rw [show e.j - 1 + 1 = e.j by omega] at hcons
    have hplays : Plays (g.codeReader (GLZSym.imm x :: syms)) false (imm ++ S)
        (subslice slice (e.j - 1) e.lastmatch) := by
      rw [hcons]
      refine .emit hemit ?_
      rw [List.drop_left]
      exact hinv.plays.mono (hsub _)
    have hoff : e.off + imm.length = (imm ++ S).length := by
      rw [List.length_append, hinv.off]; omega
    refine ⟨imm, .imm x, ?_, by dsimp only; omega⟩
    exact {
      sound := by
        refine ⟨.cons hcode hinv.sound.coded, ?_⟩
        rw [hoff]
        exact patternsAt_insertPrefixes (hinv.sound.patterns.append _ _) hplays
      stream := by
        rw [List.reverse_append, List.flatten_append, ← hinv.stream]
        simp
      off := hoff
      le := ⟨by dsimp only; omega, hlast⟩
      spells := by
        obtain ⟨hlt, hget⟩ := List.getElem?_eq_some_iff.mp hx
        rw [List.drop_eq_getElem_cons hlt, hget, show e.j - 1 + 1 = e.j by omega]
        refine .emit hemit ?_
        rw [List.drop_left]
        exact hinv.spells.mono (hsub _)
      plays := hplays.anywhere }

theorem soundAt_encode1Loop {g : GLZ} {slice : List U} {E S : Bits}
    {syms : List (GLZSym U)} {e e' : Encoder U} {fuel : ℕ}
    (hinv : SoundAt g slice E syms e S) (h : g.encode1Loop slice fuel e = .ok e') :
    ∃ syms', SoundAt g slice E (syms' ++ syms) e' (e'.patterns.reverse.flatten ++ E) ∧
      e'.j = 0 := by
  induction fuel generalizing e S syms with
  | zero =>
    rw [encode1Loop] at h
    split at h
    · cases h
    · cases h
      exact ⟨[], by rw [hinv.stream]; exact hinv, by omega⟩
  | succ fuel ih =>
    rw [encode1Loop] at h
    split at h
    · next hj =>
      obtain ⟨e₁, hstep, h⟩ := Res.bind_eq_ok.mp h
      obtain ⟨code, sym, hinv₁, -⟩ := soundAt_encode1Step hinv hj hstep
      obtain ⟨syms', hinv', hdone⟩ := ih hinv₁ h
      exact ⟨syms' ++ [sym], by simpa using hinv', hdone⟩
    · cases h
      exact ⟨[], by rw [hinv.stream]; exact hinv, by omega⟩

omit [DecidableEq U] in
/-- Where `encode1` starts -/
theorem soundAt_start {g : GLZ} {history : History U} {S : Bits} {syms : List (GLZSym U)}
    (slice : List U) (hinv : Sound g S syms history) :
    SoundAt g slice S syms ⟨history, S.length, [], slice.length, slice.length, false⟩ S where
  sound := hinv
  stream := rfl
  off := rfl
  le := ⟨le_rfl, le_rfl⟩
  spells := by
    rw [List.drop_length]
    exact .done
  plays := by
    rw [subslice, Nat.sub_self, List.take_zero]
    exact .done

/-- `encode1` puts a code in front of the stream from which the slice can be read. -/
theorem sound_encode1 {g : GLZ} {history history' : History U} {S bits : Bits}
    {syms : List (GLZSym U)} {slice : List U} {off' : ℕ} (hinv : Sound g S syms history)
    (h : g.encode1 history S.length slice = .ok (bits, history', off')) :
    ∃ syms', Sound g (bits ++ S) (syms' ++ syms) history' ∧ off' = (bits ++ S).length ∧
      Spells (g.codeReader (syms' ++ syms)) (bits ++ S) S slice := by
  obtain ⟨e, hloop, h⟩ := Res.bind_eq_ok.mp h
  cases h
  obtain ⟨syms', hend, hj⟩ := soundAt_encode1Loop (soundAt_start slice hinv) hloop
  have hspells := hend.spells
  rw [hj, List.drop_zero] at hspells
  exact ⟨syms', hend.sound, hend.off, hspells⟩

/-! ## Section 6: Many slices -/

/-- The invariant of the loop of `encodeAll`, with the stream `S` so far. -/
structure AllSound (g : GLZ) (S : Bits) (syms : List (GLZSym U)) (a : AllEncoder U) :
    Prop where
  sound : Sound g S syms a.history
  stream : a.blobs.reverse.flatten = S
  off : a.off = S.length
  offs : ∀ slice p, a.offs slice = some p →
    p ≤ S.length ∧ Readable (g.codeReader syms) (fromEnd S p) slice

theorem allSound_encodeAllStep {g : GLZ} {S : Bits} {syms : List (GLZSym U)}
    {a a' : AllEncoder U} {slice : List U} (hinv : AllSound g S syms a)
    (h : g.encodeAllStep a slice = .ok a') :
    ∃ bits syms', AllSound g (bits ++ S) (syms' ++ syms) a' := by
  rw [encodeAllStep] at h
  split at h
  · cases h
    exact ⟨[], [], hinv⟩
  split at h
  · next p hp =>
    cases h
    obtain ⟨hle, hplays⟩ := hinv.sound.patterns slice p hp
    refine ⟨[], [], hinv.sound, hinv.stream, hinv.off, ?_⟩
    intro s q hq
    change a.offs.insert slice p s = some q at hq
    rw [History.insert_apply] at hq
    split at hq
    · next hs =>
      cases hq
      exact ⟨hle, hs ▸ .pattern hplays⟩
    · exact hinv.offs s q hq
  · obtain ⟨⟨bits, history, off⟩, henc, h⟩ := Res.bind_eq_ok.mp h
    cases h
    rw [hinv.off] at henc
    obtain ⟨syms', hsound, hoff, hspells⟩ := sound_encode1 hinv.sound henc
    refine ⟨bits, syms', hsound, ?_, hoff, ?_⟩
    · rw [← hinv.stream]
      simp
    intro s q hq
    change a.offs.insert slice off s = some q at hq
    rw [History.insert_apply] at hq
    split at hq
    · next hs =>
      cases hq
      rw [hs, hoff]
      exact ⟨le_rfl, .text S (by rwa [fromEnd_length])⟩
    · obtain ⟨hle, hread⟩ := hinv.offs s q hq
      rw [fromEnd_append hle, List.length_append]
      exact ⟨by omega, hread.mono (codeReader_le (List.subset_append_right _ _))⟩

theorem allSound_foldlM {g : GLZ} {S : Bits} {syms : List (GLZSym U)} {a a' : AllEncoder U}
    {slices : List (List U)} (hinv : AllSound g S syms a)
    (h : slices.foldlM g.encodeAllStep a = .ok a') :
    ∃ bits syms', AllSound g bits syms' a' := by
  induction slices generalizing S syms a with
  | nil =>
    cases h
    exact ⟨S, syms, hinv⟩
  | cons slice slices ih =>
    rw [List.foldlM_cons, Res.bind_eq_ok] at h
    obtain ⟨a₁, hstep, h⟩ := h
    obtain ⟨bits, syms', hinv₁⟩ := allSound_encodeAllStep hinv hstep
    exact ih hinv₁ h

omit [DecidableEq U] in
theorem allSound_start (g : GLZ) :
    AllSound (U := U) g [] [] ⟨fun _ => none, 0, fun _ => none, []⟩ where
  sound := ⟨.nil, fun _ _ h => nomatch h⟩
  stream := rfl
  off := rfl
  offs := fun _ _ h => nomatch h

/-- Every slice can be read at the offset `encodeAll` reports for it. -/
theorem readable_encodeAll {g : GLZ} {slices : List (List U)} {bits : Bits}
    {offs : List (ℕ × ℕ)} (h : g.encodeAll slices = .ok (bits, offs)) :
    ∃ syms, Coded g bits syms ∧
      List.Forall₂ (fun slice at_ => at_.2 = slice.length ∧ at_.1 ≤ bits.length ∧
        Readable (g.codeReader syms) (bits.drop at_.1) slice) slices offs := by
  simp only [encodeAll, Res.bind_eq_ok] at h
  obtain ⟨a, hfold, entries, hentries, h⟩ := h
  cases h
  obtain ⟨S, syms, hinv⟩ := allSound_foldlM (allSound_start g) hfold
  have htotal : (a.blobs.map List.length).sum = S.length := by
    rw [← hinv.stream, List.length_flatten, List.map_reverse, List.sum_reverse]
  rw [hinv.stream]
  refine ⟨syms, hinv.sound.coded, List.Forall₂.imp ?_ (forall₂_of_mapM hentries)⟩
  intro slice at_ hat
  split at hat
  · next p hp =>
    obtain ⟨start, hstart, hat⟩ := Res.bind_eq_ok.mp hat
    cases hat
    obtain ⟨-, rfl⟩ := subUsize_eq_ok.mp hstart
    rw [htotal]
    exact ⟨rfl, Nat.sub_le _ _, (hinv.offs slice p hp).2⟩
  · cases hat

/-- A slice of its own starts where the stream does. -/
theorem offs_encodeAll_singleton {g : GLZ} {slice : List U} {bits : Bits}
    {offs : List (ℕ × ℕ)} (h : g.encodeAll [slice] = .ok (bits, offs)) :
    offs = [(0, slice.length)] := by
  rw [encodeAll, List.mergeSort_singleton] at h
  obtain ⟨a, hfold, h⟩ := Res.bind_eq_ok.mp h
  obtain ⟨a', hstep, hnil⟩ := Res.bind_eq_ok.mp hfold
  cases hnil
  obtain ⟨⟨blob, history, off⟩, henc, hstep⟩ := Res.bind_eq_ok.mp hstep
  cases hstep
  obtain ⟨_, -, hoff, -⟩ := sound_encode1 (allSound_start g).sound henc
  rw [List.append_nil] at hoff
  obtain ⟨entries, hentries, h⟩ := Res.bind_eq_ok.mp h
  cases h
  rw [List.mapM_cons, List.mapM_nil] at hentries
  obtain ⟨entry, hentry, hentries⟩ := Res.bind_eq_ok.mp hentries
  cases hentries
  dsimp only at hentry
  rw [History.insert_apply, if_pos rfl] at hentry
  obtain ⟨start, hstart, hentry⟩ := Res.bind_eq_ok.mp hentry
  cases hentry
  obtain ⟨-, rfl⟩ := subUsize_eq_ok.mp hstart
  simp [hoff]

/-- A single slice can be read from its own code, which ends with it. -/
theorem spells_encode {g : GLZ} {slice : List U} {bits : Bits}
    (h : g.encode slice = .ok bits) :
    ∃ syms, Coded g bits syms ∧ Spells (g.codeReader syms) bits [] slice := by
  obtain ⟨⟨bits', history, off⟩, henc, h⟩ := Res.bind_eq_ok.mp h
  cases h
  obtain ⟨syms, hsound, -, hspells⟩ := sound_encode1 (allSound_start g).sound henc
  simp only [List.append_nil] at hsound hspells
  exact ⟨_, hsound.coded, hspells⟩

end BentoLinker.Glz.GLZ
