import BentoLinker.Glue.HeapRuns

/-!
# realloc

`__wrap_realloc` allocates, copies and frees. It takes the size of the copy from the tag of the old
block, as a number of bytes, with the bit that marks the block as used.

- `Heap.memmove`, `Heap.realloc`: the bytes of the heap, and the call
- `Sys.Moved`: what a call that returns a pointer should have done
- `Sys.not_copyInside`: no two blocks have room for such a copy
- `realloc_meets_iff`: the calls that do what they should
-/

namespace BentoLinker.Glue

open BoundaryTags

/-! ## Section 1: The call -/

namespace Heap

/-- A byte of the memory. The words are little-endian. -/
def byte (heap : Heap) (i : ℕ) : BitVec 8 := (heap.mem (i / 4)).extractLsb' (8 * (i % 4)) 8

/-- `memmove(dst, src, n)`, with pointers to bytes -/
def memmove (dst src n : ℕ) (heap : Heap) : Except Halt Heap :=
  if n = 0 then .ok heap
  else if 4 * heap.start ≤ src ∧ src + n ≤ 4 * heap.stop ∧
      4 * heap.start ≤ dst ∧ dst + n ≤ 4 * heap.stop then
    let moved (i : ℕ) : BitVec 8 :=
      if dst ≤ i ∧ i < dst + n then heap.byte (src + (i - dst)) else heap.byte i
    .ok { heap with
      mem := fun a => moved (4 * a + 3) ++ moved (4 * a + 2) ++ moved (4 * a + 1) ++ moved (4 * a) }
  else .error .wild

/-- `pptr ? ((ssize_t*)pptr)[-1] : 0`, as the size that memmove takes -/
def copySize (pptr : ℕ) (heap : Heap) : Except Halt ℕ :=
  if pptr = 0 then .ok 0
  else do
    let psize ← heap.load (pptr - 1)
    return psize.toNat

/-- `__wrap_realloc` -/
def realloc (config : HeapConfig) (pptr : ℕ) (size : Word) (heap : Heap) :
    Except Halt (Option ℕ × Heap) := do
  let psize ← heap.copySize pptr
  let (nptr, heap) ← malloc config size heap
  match nptr with
  | some nptr =>
    -- yes this copies extra, we don't really care
    let heap ← heap.memmove (4 * nptr) (4 * pptr) psize
    let heap ← free pptr heap
    return (some nptr, heap)
  | none => return (none, heap)

end Heap

/-! ## Section 2: What should hold -/

namespace Sys

variable (config : HeapConfig)

/-- The copy stays in the block of `pptr` and in the block that malloc has returned. -/
def CopyInside (s : Sys) (pptr : ℕ) (size : Word) : Prop :=
  ∀ psize nptr heap, s.heap.copySize pptr = .ok psize →
    Heap.malloc config size s.heap = .ok (some nptr, heap) → psize ≠ 0 →
    psize ≤ 4 * tagSize (s.heap.mem (pptr - 1)) ∧ psize ≤ 4 * tagSize (heap.mem (nptr - 1))

/-- The live pointers after a call that returns a pointer -/
def relive (s : Sys) (pptr : ℕ) (size : Word) (nptr : ℕ) : List Live :=
  ⟨nptr, size.toNat⟩ :: s.live.filter fun l => l.ptr ≠ pptr

/-- The new block is live and has the data of the old one, which is free. -/
structure Moved (s : Sys) (pptr : ℕ) (size : Word) (nptr : ℕ) (heap : Heap) : Prop where
  wellFormed : ∃ blocks, WellFormed config ⟨heap, s.relive pptr size nptr⟩ blocks
  data : ∀ l ∈ s.live, l.ptr = pptr → ∀ i < min l.request size.toNat,
    heap.byte (4 * nptr + i) = s.heap.byte (4 * pptr + i)
  others : ∀ l ∈ s.live, l.ptr ≠ pptr → ∀ i < l.request,
    heap.byte (4 * l.ptr + i) = s.heap.byte (4 * l.ptr + i)
  inside : s.CopyInside config pptr size

/-- realloc returns: `NULL` with the heap as it was, or a new block for the old one. -/
def Reallocates (s : Sys) (pptr : ℕ) (size : Word) : Prop :=
  ∃ nptr heap, Heap.realloc config pptr size s.heap = .ok (nptr, heap) ∧
    match nptr with
    | some nptr => s.Moved config pptr size nptr heap
    | none => heap = s.heap.ready config

/-- If there is a block for the request, then there is none to copy from, and malloc does not
slip. -/
def NoCopy (s : Sys) (pptr : ℕ) (size : Word) : Prop :=
  ∀ blocks b, Tiles tag (s.heap.ready config).mem (s.heap.ready config).start blocks
      (s.heap.ready config).stop →
    blocks.find? (Heap.fits (words size)) = some b →
    pptr = 0 ∧ size.toNat + 3 < 2 ^ 32 ∧ b.size ≠ (words size).toNat + 1

variable {config} {s : Sys} {blocks : List Block} {pptr : ℕ} {size : Word}

/-! ## Section 3: The size of the copy -/

/-- A live pointer is behind the first tag of a used block of a heap that has been set up. -/
theorem WellFormed.exists_used (h : s.WellFormed config blocks)
    (hlive : pptr ∈ s.live.map Live.ptr) :
    s.heap.ready config = s.heap ∧ ∃ c ∈ blocks, c.used = true ∧ pptr = c.addr + 1 := by
  have hready : s.heap.ready config = s.heap := by
    apply Heap.ready_of_ne
    intro hzero
    rw [h.fresh hzero] at hlive
    cases hlive
  obtain ⟨c, hc, hptr⟩ := List.mem_map.mp (h.live.mem_iff.mp hlive)
  obtain ⟨hmem, hused⟩ := List.mem_filter.mp hc
  exact ⟨hready, c, hmem, hused, hptr.symm⟩

theorem WellFormed.tagged (h : s.WellFormed config blocks) {c : Block} (hc : c ∈ blocks) :
    c.Tagged tag (s.heap.ready config).mem := by
  obtain ⟨front, back, rfl⟩ := List.append_of_mem hc
  obtain ⟨_, -, -, htagged, -⟩ := tiles_append.mp h.tiles
  exact htagged

/-- The size of the copy is the number of words, and the bit of the tag besides. -/
theorem WellFormed.copySize_eq (h : s.WellFormed config blocks)
    (hready : s.heap.ready config = s.heap) {c : Block} (hc : c ∈ blocks) (hused : c.used = true) :
    s.heap.copySize (c.addr + 1) = .ok (c.size + 2 ^ 31) := by
  have hbounds := h.tiles.bounds hc
  have hlimit := h.laid.stop
  have htagged := h.tagged hc
  rw [hready] at hbounds hlimit htagged
  unfold Block.stop at hbounds
  rw [Heap.copySize, if_neg (Nat.succ_ne_zero _), Nat.add_sub_cancel,
    Heap.load_eq hbounds.1 (by omega), htagged.head, hused]
  change Except.ok _ = _
  rw [toNat_tag (by omega), if_pos rfl]

/-- The copy would be at least half of all memory. Two blocks do not have room for it twice. -/
theorem not_copyInside (h : s.WellFormed config blocks) (hlive : pptr ∈ s.live.map Live.ptr)
    {b : Block} (hfind : blocks.find? (Heap.fits (words size)) = some b) :
    ¬s.CopyInside config pptr size := by
  intro hinside
  obtain ⟨hready, c, hc, hused, rfl⟩ := h.exists_used hlive
  have hlimit := h.laid.stop
  have hfits := List.find?_some hfind
  have hb := List.mem_of_find?_eq_some hfind
  have hbbounds := h.tiles.bounds hb
  have hcbounds := h.tiles.bounds hc
  have hne : b ≠ c := by
    rintro rfl
    unfold Heap.fits at hfits
    rw [hused] at hfits
    cases hfits
  have hapart := h.tiles.apart hb hc hne
  obtain ⟨heap, n, htake, hhead, hn⟩ :=
    Heap.exists_take_head hbbounds.1 hbbounds.2 hlimit (h.tagged hb) hfits
  unfold Block.stop at hbbounds hcbounds hapart
  have hmalloc : Heap.malloc config size s.heap = .ok (some (b.addr + 1), heap) := by
    rw [h.malloc_eq, hfind]
    exact htake
  have hctag := (h.tagged hc).head
  rw [hready, hused] at hctag
  obtain ⟨hold, hnew⟩ := hinside _ _ _ (h.copySize_eq hready hc hused) hmalloc (by omega)
  rw [Nat.add_sub_cancel, hctag, tagSize_tag (by omega)] at hold
  rw [Nat.add_sub_cancel, hhead, tagSize_tag (by omega)] at hnew
  omega

/-! ## Section 4: Calls without a copy -/

/-- There is no block for the request: nothing changes. -/
theorem reallocates_of_find?_eq_none (h : s.WellFormed config blocks)
    (hptr : pptr = 0 ∨ pptr ∈ s.live.map Live.ptr)
    (hfind : blocks.find? (Heap.fits (words size)) = none) : s.Reallocates config pptr size := by
  have hsize : ∃ psize, s.heap.copySize pptr = .ok psize := by
    rcases hptr with rfl | hlive
    · exact ⟨0, rfl⟩
    · obtain ⟨hready, c, hc, hused, rfl⟩ := h.exists_used hlive
      exact ⟨_, h.copySize_eq hready hc hused⟩
  obtain ⟨psize, hsize⟩ := hsize
  have hmalloc : Heap.malloc config size s.heap = .ok (none, s.heap.ready config) := by
    rw [h.malloc_eq, hfind]
  refine ⟨none, s.heap.ready config, ?_, rfl⟩
  rw [Heap.realloc, hsize]
  dsimp only [bind, Except.bind]
  rw [hmalloc]
  rfl

/-- A live block keeps its bytes where the memory outside of another block is kept. -/
theorem WellFormed.byte_eq (h : s.WellFormed config blocks) {heap : Heap} {b : Block}
    (hb : b ∈ blocks) (hfree : b.used = false)
    (hframe : ∀ i, i < b.addr ∨ b.stop ≤ i → heap.mem i = (s.heap.ready config).mem i)
    {l : Live} (hl : l ∈ s.live) {i : ℕ} (hi : i < l.request) :
    heap.byte (4 * l.ptr + i) = s.heap.byte (4 * l.ptr + i) := by
  have hlive : l.ptr ∈ s.live.map Live.ptr := List.mem_map_of_mem hl
  obtain ⟨hready, -⟩ := h.exists_used hlive
  obtain ⟨c, hc, hptr, hroom⟩ := h.room l hl
  obtain ⟨hcmem, hcused⟩ := List.mem_filter.mp hc
  have hne : b ≠ c := by
    rintro rfl
    rw [hfree] at hcused
    cases hcused
  have hapart := h.tiles.apart hb hcmem hne
  have hword : heap.mem ((4 * l.ptr + i) / 4) = s.heap.mem ((4 * l.ptr + i) / 4) := by
    rw [hframe, hready]
    unfold Block.stop at hapart ⊢
    omega
  rw [Heap.byte, hword, Heap.byte]

/-- There is a block for the request and nothing to copy: realloc is malloc. -/
theorem reallocates_null (h : s.WellFormed config blocks) {b : Block}
    (hfind : blocks.find? (Heap.fits (words size)) = some b) (hsize : size.toNat + 3 < 2 ^ 32)
    (hslip : b.size ≠ (words size).toNat + 1) : s.Reallocates config 0 size := by
  obtain ⟨s', happly, hwell, -⟩ := meets_of_find?_eq_some h hfind hsize hslip
  have hfits := List.find?_some hfind
  have hb := List.mem_of_find?_eq_some hfind
  have hfree : b.used = false := by
    unfold Heap.fits at hfits
    rw [Bool.and_eq_true, Bool.not_eq_true'] at hfits
    exact hfits.1
  obtain ⟨front, back, rfl⟩ := List.append_of_mem hb
  obtain ⟨heap, htake, -, -, -, hframe⟩ := Heap.exists_take h.laid hfits hslip
  have hmalloc : Heap.malloc config size s.heap = .ok (some (b.addr + 1), heap) := by
    rw [h.malloc_eq, hfind]
    exact htake
  rw [apply_malloc hmalloc] at happly
  cases happly
  refine ⟨some (b.addr + 1), heap, ?_, ?_, ?_, ?_, ?_⟩
  · rw [Heap.realloc]
    change (Heap.malloc config size s.heap >>= _) = _
    rw [hmalloc]
    rfl
  · rw [relive, h.filter_live]
    exact hwell
  · intro l hl hnull
    obtain ⟨c, -, hptr, -⟩ := h.room l hl
    omega
  · intro l hl _ i hi
    exact h.byte_eq hb hfree hframe hl hi
  · intro psize nptr heap hpsize _ hne
    cases hpsize
    exact absurd rfl hne

end Sys

/-! ## Section 5: All calls -/

/-- realloc of `NULL` or of a live pointer does what it should if and only if malloc has no block
for the request, or there is nothing to copy and malloc does not slip. -/
theorem realloc_meets_iff {config : HeapConfig} {s : Sys} {blocks : List Block} {pptr : ℕ}
    (h : s.WellFormed config blocks) (hptr : pptr = 0 ∨ pptr ∈ s.live.map Live.ptr) (size : Word) :
    s.Reallocates config pptr size ↔ s.NoCopy config pptr size := by
  have hlimit := h.laid.stop
  constructor
  · rintro ⟨nptr, heap, hrealloc, hpost⟩ blocks' b htiles hfind
    obtain rfl := Tiles.unique Sys.tag_inj_of_lt hlimit.le h.tiles htiles
    have hb := List.mem_of_find?_eq_some hfind
    have hbounds := h.tiles.bounds hb
    obtain ⟨heap₁, n, htake, -⟩ := Heap.exists_take_head hbounds.1 hbounds.2 hlimit (h.tagged hb)
      (List.find?_some hfind)
    have hmalloc : Heap.malloc config size s.heap = .ok (some (b.addr + 1), heap₁) := by
      rw [h.malloc_eq, hfind]
      exact htake
    -- malloc returns a pointer, and with it realloc
    obtain ⟨psize, heap₂, heap₃, hsize, hmove, hfree, hresult⟩ : ∃ psize heap₂ heap₃,
        s.heap.copySize pptr = .ok psize ∧
        heap₁.memmove (4 * (b.addr + 1)) (4 * pptr) psize = .ok heap₂ ∧
        Heap.free pptr heap₂ = .ok heap₃ ∧ (some (b.addr + 1), heap₃) = (nptr, heap) := by
      rw [Heap.realloc] at hrealloc
      cases hsize : s.heap.copySize pptr with
      | error e =>
        rw [hsize] at hrealloc
        cases hrealloc
      | ok psize =>
        rw [hsize] at hrealloc
        dsimp only [bind, Except.bind] at hrealloc
        rw [hmalloc] at hrealloc
        dsimp only at hrealloc
        cases hmove : heap₁.memmove (4 * (b.addr + 1)) (4 * pptr) psize with
        | error e =>
          rw [hmove] at hrealloc
          cases hrealloc
        | ok heap₂ =>
          rw [hmove] at hrealloc
          dsimp only at hrealloc
          cases hfree : Heap.free pptr heap₂ with
          | error e =>
            rw [hfree] at hrealloc
            cases hrealloc
          | ok heap₃ =>
            rw [hfree] at hrealloc
            exact ⟨psize, heap₂, heap₃, rfl, hmove, hfree, Except.ok.inj hrealloc⟩
    cases hresult
    have hmoved : s.Moved config pptr size (b.addr + 1) heap := hpost
    rcases hptr with rfl | hlive
    · refine ⟨rfl, ?_⟩
      cases hsize
      cases hmove
      cases hfree
      have hmeets : s.Meets config (.malloc size) := by
        refine ⟨_, Sys.apply_malloc hmalloc, ?_, ?_⟩
        · have hwell := hmoved.wellFormed
          rw [Sys.relive, h.filter_live] at hwell
          exact hwell
        · intro heap heq
          rw [hmalloc] at heq
          cases heq
      exact Sys.noSlip_of_meets h hmeets _ b h.tiles hfind
    · exact absurd hmoved.inside (Sys.not_copyInside h hlive hfind)
  · intro hnocopy
    cases hfind : blocks.find? (Heap.fits (words size)) with
    | none => exact Sys.reallocates_of_find?_eq_none h hptr hfind
    | some b =>
      obtain ⟨rfl, hsize, hslip⟩ := hnocopy blocks b h.tiles hfind
      exact Sys.reallocates_null h hfind hsize hslip

/-- A heap of eight words -/
def eightWords : HeapConfig := .onePage 8 (by decide) (by decide)

/-- The heap of eight words after `malloc(4)` -/
def fourBytes : Sys where
  heap := ⟨16376, 16384, fun a =>
    if a = 16376 ∨ a = 16378 then tag true 1
    else if a = 16379 ∨ a = 16383 then tag false 3
    else 0⟩
  live := [⟨16377, 4⟩]

theorem fourBytes_wellFormed :
    fourBytes.WellFormed eightWords [⟨16376, 1, true⟩, ⟨16379, 3, false⟩] where
  stop := rfl
  start := rfl
  tiles := ⟨rfl, ⟨rfl, rfl⟩, rfl, ⟨rfl, rfl⟩, rfl⟩
  separated := List.isChain_pair.mpr (.inl rfl)
  live := .refl _
  room l hl := by
    rw [List.mem_singleton.mp hl]
    exact ⟨⟨16376, 1, true⟩, .head _, rfl, le_rfl⟩
  fresh h := absurd h (by decide)

/-- `realloc(p, 12)` of the only live pointer -/
theorem realloc_meets_iff_fourBytes :
    fourBytes.Reallocates eightWords 16377 12 ↔ fourBytes.NoCopy eightWords 16377 12 :=
  realloc_meets_iff fourBytes_wellFormed (.inr (.head _)) 12

/-- There is a block of three words for the new size, and one word to copy: the call asks for a
copy of 2 GiB. -/
theorem not_reallocates : ¬∀ (config : HeapConfig) (s : Sys) (blocks : List Block) (pptr : ℕ)
    (size : Word), s.WellFormed config blocks → pptr = 0 ∨ pptr ∈ s.live.map Live.ptr →
      s.Reallocates config pptr size := by
  intro hclaim
  obtain ⟨nptr, heap, hrealloc, -⟩ :=
    hclaim eightWords fourBytes _ 16377 12 fourBytes_wellFormed (.inr (.head _))
  have hsize : fourBytes.heap.copySize 16377 = .ok (1 + 2 ^ 31) :=
    fourBytes_wellFormed.copySize_eq rfl (.head _) rfl
  obtain ⟨mem, htake, -⟩ := @Heap.exists_take_of_eq (words 12)
    (fourBytes.heap.ready eightWords) ⟨16379, 3, false⟩ (by decide) (by decide)
    fourBytes_wellFormed.laid.stop (fourBytes_wellFormed.tagged (.tail _ (.head _))).head (by decide)
  have hmalloc := fourBytes_wellFormed.malloc_eq 12
  rw [show List.find? (Heap.fits (words 12)) _ = some ⟨16379, 3, false⟩ from by decide] at hmalloc
  dsimp only at hmalloc
  rw [htake] at hmalloc
  have houtside : ¬4 * 16377 + (1 + 2 ^ 31) ≤ 4 * (fourBytes.heap.ready eightWords).stop := by decide
  rw [Heap.realloc, hsize] at hrealloc
  dsimp only [bind, Except.bind] at hrealloc
  rw [hmalloc] at hrealloc
  dsimp only at hrealloc
  rw [Heap.memmove, if_neg (by decide), if_neg fun hin => houtside hin.2.1] at hrealloc
  cases hrealloc

end BentoLinker.Glue
