import BentoLinker.Glz.Bits

/-!
# GLZ Histogram

Model of `hist.rs`: symbol counts, and the bijective mapping between symbols and
code indices that a sorted histogram provides.

- `Hist`: counts and an optional pair of an encode and a decode table
- `mapEncode` / `mapDecode`: symbol to code index and back, extended past the end
  of a table by whole multiples of its length
- `sort` / `compact`: the table orders symbols by descending count and drops the
  ones without a hit

All symbols are at `U = u32`, where the casts of the source change nothing.
-/

namespace BentoLinker.Glz

/-- `struct Hist` -/
structure Hist where
  hist : List ℕ
  /-- the encode and the decode table -/
  table : Option (List ℕ × List ℕ)
  deriving Repr, DecidableEq

namespace Hist

/-- `Result::unwrap` -/
def unwrap {α : Type} : Res α → Res α
  | .error (.err _) => panic .unwrapNone
  | r => r

def new : Hist := ⟨[], none⟩

/-! ## Section 1: The mapping -/

/-- Look `n` up in a table, passing the multiple of the table length through:
`let (m, n) = (n - n % len, n % len); m + table.get(n).unwrap_or(&n)`. -/
def lookup (table : List ℕ) (n : ℕ) : Res ℕ := do
  let r ← remU32 n (table.length % 2 ^ 32)
  addU32 (n - r) ((table[r]?).getD r)

/-- `Hist::map_decode` -/
def mapDecode (h : Hist) (n : ℕ) : Res ℕ :=
  match h.table with
  | some (_, table) => lookup table n
  | none => pure n

/-- `Hist::map_encode` -/
def mapEncode (h : Hist) (n : ℕ) : Res ℕ :=
  match h.table with
  | some (table, _) => do
    let newn ← lookup table n
    let oldn ← h.mapDecode newn
    ensure (oldn = n) .undecodable
    pure newn
  | none => pure n

/-! ## Section 2: Tables -/

/-- Inversion loop of `set_table`: `encode_table[n] = i` for every `(i, n)`. -/
def invert (decodeTable : List ℕ) (size : ℕ) : List ℕ :=
  decodeTable.zipIdx.foldl (fun t ni => t.set ni.1 (ni.2 % 2 ^ 32)) (List.replicate size 0)

/-- `Hist::set_table` -/
def setTable (h : Hist) (decodeTable : List ℕ) : Res Hist := do
  let size ← addU32 (decodeTable.max?.getD 0) 1
  pure { h with table := some (invert decodeTable size, decodeTable) }

/-- `Hist::with_table` -/
def withTable (decodeTable : List ℕ) : Res Hist :=
  new.setTable decodeTable

/-- `Hist::decode_table`; empty when there is no table -/
def decodeTable (h : Hist) : List ℕ :=
  match h.table with
  | some (_, table) => table
  | none => []

/-! ## Section 3: Counts -/

/-- `Hist::increment_by` -/
def incrementBy (h : Hist) (n diff : ℕ) : Res Hist := do
  let n ← unwrap (h.mapDecode n)
  let hist := h.hist ++ List.replicate (n + 1 - h.hist.length) 0
  pure { h with hist := hist.set n (hist.getD n 0 + diff) }

def increment (h : Hist) (n : ℕ) : Res Hist := h.incrementBy n 1

/-- `while i < self.hist.len() { count += self.hist[i]; i += bound }`; one step for each
entry is enough for a positive bound, and no caller passes zero with an entry left. -/
def getBoundedLoop (hist : List ℕ) (bound : ℕ) : ℕ → ℕ → ℕ → ℕ
  | 0, _, count => count
  | fuel + 1, i, count =>
    if i < hist.length then
      getBoundedLoop hist bound fuel (i + bound) (count + hist.getD i 0)
    else count

/-- `Hist::get_bounded` -/
def getBounded (h : Hist) (n bound : ℕ) : Res ℕ := do
  let i ← unwrap (h.mapDecode n)
  pure (getBoundedLoop h.hist bound h.hist.length i 0)

/-- `Hist::iter`: symbols with a hit, as mapped, and their counts -/
def iter (h : Hist) : Res (List (ℕ × ℕ)) :=
  (h.hist.zipIdx.filter (0 < ·.1)).mapM fun ni => do
    let i ← unwrap (h.mapEncode ni.2)
    pure (i, ni.1)

/-- `Hist::bound`; without a table, `i + 1` is that of a `u32`. -/
def bound (h : Hist) : Res ℕ :=
  match h.table with
  | some (_, table) => pure table.length
  | none => do
    let hits ← h.iter
    match (hits.map Prod.fst).max? with
    | some i => addU32 i 1
    | none => pure 0

/-! ## Section 4: Sorting and compaction -/

/-- `Hist::sort_bounded`: a stable sort of the symbols by descending count -/
def sortBounded (h : Hist) (bound : ℕ) : Res Hist := do
  let h := { h with table := none }
  let keyed ← (List.range bound).mapM fun k => do
    let count ← h.getBounded k bound
    pure (k, count)
  h.setTable ((keyed.mergeSort fun a b => decide (b.2 ≤ a.2)).map Prod.fst)

/-- `Hist::sort` -/
def sort (h : Hist) : Res Hist := do
  let h := { h with table := none }
  let b ← h.bound
  h.sortBounded b

/-- `Hist::compact_bounded`: cut the decode table before the first symbol without a hit -/
def compactBounded (h : Hist) (bound : ℕ) : Res Hist :=
  let bare := { h with table := none }
  match h.table with
  | some (_, decodeTable) => do
    let counts ← decodeTable.mapM fun k => bare.getBounded k bound
    let size := (counts.findIdx? (· == 0)).getD decodeTable.length
    bare.setTable (decodeTable.take size)
  | none => pure bare

/-- `Hist::compact` -/
def compact (h : Hist) : Res Hist := do
  let b ← h.bound
  h.compactBounded b

/-! ## Section 5: What the mapping guarantees -/

/-- The assertion in `map_encode`: what it returns decodes to the symbol it was given. -/
theorem mapDecode_of_mapEncode {h : Hist} {n c : ℕ} (henc : h.mapEncode n = .ok c) :
    h.mapDecode c = .ok n := by
  unfold mapEncode at henc
  split at henc
  · obtain ⟨newn, hlookup, hrest⟩ := Res.bind_eq_ok.mp henc
    obtain ⟨oldn, hdec, hrest⟩ := Res.bind_eq_ok.mp hrest
    obtain ⟨_, hens, hpure⟩ := Res.bind_eq_ok.mp hrest
    cases hpure
    rw [ensure_eq_ok, decide_eq_true_eq] at hens
    rw [hdec, hens]
  · next hnone =>
    cases henc
    simp [mapDecode, hnone, pure, Except.pure]

theorem lookup_lt {table : List ℕ} {n m : ℕ} (h : lookup table n = .ok m) : m < 2 ^ 32 := by
  obtain ⟨r, -, hadd⟩ := Res.bind_eq_ok.mp h
  obtain ⟨hlt, rfl⟩ := addU32_eq_ok.mp hadd
  exact hlt

theorem mapEncode_lt {h : Hist} {n c : ℕ} (hn : n < 2 ^ 32) (henc : h.mapEncode n = .ok c) :
    c < 2 ^ 32 := by
  unfold mapEncode at henc
  split at henc
  · obtain ⟨newn, hlookup, hrest⟩ := Res.bind_eq_ok.mp henc
    obtain ⟨oldn, hdec, hrest⟩ := Res.bind_eq_ok.mp hrest
    obtain ⟨_, hens, hpure⟩ := Res.bind_eq_ok.mp hrest
    cases hpure
    exact lookup_lt hlookup
  · cases henc
    exact hn

/-! ## Section 6: Symbols with an entry -/

theorem length_invert (t : List ℕ) (size : ℕ) : (invert t size).length = size := by
  rw [invert]
  generalize t.zipIdx = nis
  suffices ∀ acc : List ℕ,
      (nis.foldl (fun t ni => t.set ni.1 (ni.2 % 2 ^ 32)) acc).length = acc.length by
    rw [this, List.length_replicate]
  induction nis with
  | nil => exact fun _ => rfl
  | cons ni nis ih =>
    intro acc
    rw [List.foldl_cons, ih, List.length_set]

/-- Entries of an encode table are positions in the decode table. -/
theorem lt_of_mem_invert {t : List ℕ} {size c : ℕ} (hne : t ≠ []) (h : c ∈ invert t size) :
    c < t.length := by
  have hpos : 0 < t.length := List.length_pos_iff.mpr hne
  rw [invert] at h
  have hidx : ∀ ni ∈ t.zipIdx, ni.2 < t.length := by
    rintro ⟨n, i⟩ hni
    have := List.snd_lt_add_of_mem_zipIdx hni
    omega
  have hacc : ∀ e ∈ List.replicate size 0, e < t.length := by
    intro e he
    rw [(List.mem_replicate.mp he).2]
    exact hpos
  generalize List.replicate size 0 = acc at h hacc
  generalize t.zipIdx = nis at h hidx
  induction nis generalizing acc with
  | nil => exact hacc c h
  | cons ni nis ih =>
    refine ih _ ?_ h fun ni' hni => hidx ni' (List.mem_cons_of_mem _ hni)
    intro e he
    rcases List.mem_or_eq_of_mem_set he with he | rfl
    · exact hacc e he
    · exact (Nat.mod_le _ _).trans_lt (hidx ni (by simp))

theorem setTable_eq_ok {h h' : Hist} {t : List ℕ} (hset : h.setTable t = .ok h') :
    (t.max?.getD 0) + 1 < 2 ^ 32 ∧
      h' = { h with table := some (invert t (t.max?.getD 0 + 1), t) } := by
  obtain ⟨size, hsize, hset⟩ := Res.bind_eq_ok.mp hset
  obtain ⟨hlt, rfl⟩ := addU32_eq_ok.mp hsize
  cases hset
  exact ⟨hlt, rfl⟩

/-- A symbol in the decode table is coded by its position there. -/
theorem getElem?_of_mapEncode {h h' : Hist} {t : List ℕ} {n c : ℕ}
    (hset : h.setTable t = .ok h') (hlen : t.length < 2 ^ 32) (hn : n ∈ t)
    (henc : h'.mapEncode n = .ok c) : t[c]? = some n := by
  obtain ⟨hsize, rfl⟩ := setTable_eq_ok hset
  have hne : t ≠ [] := List.ne_nil_of_mem hn
  have hdec := mapDecode_of_mapEncode henc
  have hmax : n < t.max?.getD 0 + 1 := by
    obtain ⟨m, hm⟩ := Option.isSome_iff_exists.mp (List.isSome_max?_of_ne_nil hne)
    have := (List.max?_eq_some_iff.mp hm).2 n hn
    rw [hm, Option.getD_some]
    omega
  have hc : c < t.length := by
    obtain ⟨newn, hlookup, henc⟩ := Res.bind_eq_ok.mp henc
    obtain ⟨_, -, henc⟩ := Res.bind_eq_ok.mp henc
    obtain ⟨_, -, henc⟩ := Res.bind_eq_ok.mp henc
    cases henc
    obtain ⟨r, hr, hlookup⟩ := Res.bind_eq_ok.mp hlookup
    obtain ⟨-, rfl⟩ := remU32_eq_ok.mp hr
    obtain ⟨-, rfl⟩ := addU32_eq_ok.mp hlookup
    have hlt : n < (invert t (t.max?.getD 0 + 1)).length := by rwa [length_invert]
    rw [length_invert, Nat.mod_eq_of_lt hsize, Nat.mod_eq_of_lt hmax, Nat.sub_self,
      Nat.zero_add, List.getElem?_eq_getElem hlt, Option.getD_some]
    exact lt_of_mem_invert hne (List.getElem_mem hlt)
  obtain ⟨r, hr, hdec⟩ := Res.bind_eq_ok.mp hdec
  obtain ⟨-, rfl⟩ := remU32_eq_ok.mp hr
  obtain ⟨-, rfl⟩ := addU32_eq_ok.mp hdec
  rw [Nat.mod_eq_of_lt hlen, Nat.mod_eq_of_lt hc, Nat.sub_self, Nat.zero_add,
    List.getElem?_eq_getElem hc, Option.getD_some]

end Hist

end BentoLinker.Glz
