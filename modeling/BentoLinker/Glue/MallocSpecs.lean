import BentoLinker.Glue.Malloc
import BentoLinker.Lib.BoundaryTags

/-!
# What malloc and free Do

The functions of the heap on a memory that is cut into blocks.

- `tag`: the tags of blocks, as words
- `Heap.Laid`: the memory of the heap is a list of blocks
- `mallocLoop_eq`: the loop of malloc takes the first block that fits
- `exists_take`: what becomes of this block
- `exists_free`: what becomes of a block that is freed, and of its neighbours
-/

namespace BentoLinker.Glue

open BoundaryTags

/-! ## Section 1: Tags -/

/-- The tags of a block -/
def tag (used : Bool) (size : ℕ) : Word :=
  if used then BitVec.ofNat 32 size ||| usedBit else BitVec.ofNat 32 size

theorem toNat_tag {size : ℕ} (h : size < 2 ^ 31) (used : Bool) :
    (tag used size).toNat = size + (if used then 2 ^ 31 else 0) := by
  unfold tag
  cases used with
  | false => simp; omega
  | true =>
    have hor := Nat.two_pow_add_eq_or_of_lt h 1
    rw [if_pos rfl, if_pos rfl, BitVec.toNat_or, BitVec.toNat_ofNat,
      Nat.mod_eq_of_lt (by omega), Nat.or_comm]
    unfold usedBit
    simp at hor ⊢
    omega

theorem tagSize_tag {size : ℕ} (h : size < 2 ^ 31) (used : Bool) :
    tagSize (tag used size) = size := by
  unfold tagSize
  rw [BitVec.toNat_and, toNat_tag h]
  change (_ &&& (2 ^ 31 - 1)) = _
  rw [Nat.and_two_pow_sub_one_eq_mod]
  cases used <;> simp <;> omega

theorem isFree_tag {size : ℕ} (h : size < 2 ^ 31) (used : Bool) :
    isFree (tag used size) = !used := by
  unfold isFree
  rw [BitVec.toInt_eq_toNat_cond, toNat_tag h]
  cases used <;> simp <;> omega

theorem sle_tag {n : Word} {size : ℕ} (hn : n.toNat < 2 ^ 31) (h : size < 2 ^ 31)
    (used : Bool) : n.sle (tag used size) = (!used && decide (n.toNat ≤ size)) := by
  rw [BitVec.sle_eq_decide, BitVec.toInt_eq_toNat_cond, BitVec.toInt_eq_toNat_cond, toNat_tag h]
  cases used <;> simp <;> omega

theorem tag_inj {u u' : Bool} {n n' : ℕ} (hn : n < 2 ^ 31) (hn' : n' < 2 ^ 31)
    (h : tag u n = tag u' n') : u = u' ∧ n = n' := by
  have hsize := congrArg tagSize h
  have hfree := congrArg isFree h
  rw [tagSize_tag hn, tagSize_tag hn'] at hsize
  rw [isFree_tag hn, isFree_tag hn', Bool.not_inj_iff] at hfree
  exact ⟨hfree, hsize⟩

theorem toNat_words_lt (n : Word) : (words n).toNat < 2 ^ 30 := by
  unfold words
  rw [BitVec.toNat_udiv]
  exact Nat.div_lt_of_lt_mul (n + 3).isLt

/-- A request is rounded up, if this does not overflow. -/
theorem toNat_words {n : Word} (h : n.toNat + 3 < 2 ^ 32) :
    (words n).toNat = (n.toNat + 3) / 4 := by
  unfold words
  rw [BitVec.toNat_udiv, BitVec.toNat_add]
  exact congrArg (· / 4) (Nat.mod_eq_of_lt h)

/-! ## Section 2: Heaps -/

namespace Heap

/-- The memory of the heap is a list of blocks, at addresses that exist. -/
structure Laid (heap : Heap) (blocks : List Block) : Prop where
  start : 0 < heap.start
  stop : heap.stop < 2 ^ 30
  tiles : Tiles tag heap.mem heap.start blocks heap.stop

theorem load_eq {heap : Heap} {a : ℕ} (hstart : heap.start ≤ a) (hstop : a < heap.stop) :
    heap.load a = .ok (heap.mem a) := if_pos ⟨hstart, hstop⟩

theorem store_eq {heap : Heap} {a : ℕ} (hstart : heap.start ≤ a) (hstop : a < heap.stop)
    (v : Word) : heap.store a v = .ok { heap with mem := Function.update heap.mem a v } :=
  if_pos ⟨hstart, hstop⟩

/-- A free block that is large enough -/
def fits (size : Word) (b : Block) : Bool := !b.used && decide (size.toNat ≤ b.size)

/-- The loop of malloc takes the first block that fits. -/
theorem mallocLoop_eq {size : Word} {heap : Heap} {ptr : ℕ} {blocks : List Block}
    (hsize : size.toNat < 2 ^ 31) (hstop : heap.stop < 2 ^ 30) (hptr : heap.start ≤ ptr)
    (h : Tiles tag heap.mem ptr blocks heap.stop) :
    mallocLoop size ptr heap =
      match blocks.find? (fits size) with
      | none => .ok (none, heap)
      | some b => take size b.addr heap := by
  induction blocks generalizing ptr with
  | nil =>
    obtain rfl : ptr = heap.stop := h
    rw [mallocLoop, if_neg (Nat.lt_irrefl _)]
    rfl
  | cons b blocks ih =>
    obtain ⟨rfl, htagged, hrest⟩ := h
    have hle := hrest.le
    unfold Block.stop at hle hrest
    have hlt : b.size < 2 ^ 31 := by omega
    rw [mallocLoop, if_pos (by omega), load_eq hptr (by omega), htagged.head]
    dsimp only [bind, Except.bind]
    rw [tagSize_tag hlt, load_eq (by omega) (by omega), htagged.foot]
    dsimp only
    rw [if_neg (fun hne => hne rfl), sle_tag hsize hlt, List.find?_cons]
    cases hfits : fits size b with
    | true =>
      unfold fits at hfits
      rw [if_pos hfits]
    | false =>
      unfold fits at hfits
      rw [if_neg (by rw [hfits]; exact Bool.false_ne_true), ih (by omega) hrest]

/-! ## Section 3: A block that is taken -/

/-- A block of which the front is taken -/
def allocated (size : ℕ) (b : Block) : List Block :=
  ⟨b.addr, size, true⟩ ::
    if size + 2 ≤ b.size then [⟨b.addr + size + 2, b.size - size - 2, false⟩] else []

theorem tag_false_toNat (size : Word) : tag false size.toNat = size := by
  simp [tag]

theorem tag_true_toNat (size : Word) : tag true size.toNat = size ||| usedBit := by
  simp [tag]

/-- A block that is large enough is split. -/
theorem exists_take_of_split {size : Word} {heap : Heap} {b : Block}
    (hstart : heap.start ≤ b.addr) (hbstop : b.stop ≤ heap.stop) (hstop : heap.stop < 2 ^ 30)
    (hhead : heap.mem b.addr = tag false b.size) (hsplit : size.toNat + 2 ≤ b.size) :
    ∃ mem, take size b.addr heap = .ok (some (b.addr + 1), { heap with mem }) ∧
      Tiles tag mem b.addr (allocated size.toNat b) b.stop ∧
      ∀ i, i < b.addr ∨ b.stop ≤ i → mem i = heap.mem i := by
  unfold Block.stop at hbstop ⊢
  have htoNat : (tag false b.size).toNat = b.size := toNat_tag (by omega) false
  have hadd : (size + 2).toNat = size.toNat + 2 := by
    rw [BitVec.toNat_add]
    exact Nat.mod_eq_of_lt (by simp; omega)
  have hrest : tag false b.size - (size + 2) = tag false (b.size - size.toNat - 2) := by
    apply BitVec.eq_of_toNat_eq
    rw [BitVec.toNat_sub_of_le (by rw [BitVec.le_def, htoNat, hadd]; exact hsplit), htoNat, hadd,
      toNat_tag (by omega) false]
    simp only [Bool.false_eq_true, if_false]
    omega
  let rest := tag false (b.size - size.toNat - 2)
  let split := Function.update (Function.update heap.mem (b.addr + size.toNat + 2) rest)
    (b.addr + b.size + 1) rest
  let sized := Function.update (Function.update split b.addr size) (b.addr + size.toNat + 1) size
  refine ⟨Function.update (Function.update sized b.addr (size ||| usedBit))
    (b.addr + size.toNat + 1) (size ||| usedBit), ?_, ?_, ?_⟩
  · unfold take
    rw [hhead]
    dsimp only
    rw [if_pos (by rw [BitVec.le_def, htoNat, hadd]; exact hsplit), htoNat, hrest]
    rw [store_eq (by omega) (by omega)]
    dsimp only [bind, Except.bind, pure, Except.pure]
    rw [store_eq (by dsimp only; omega) (by dsimp only; omega)]
    dsimp only
    rw [store_eq (by dsimp only; omega) (by dsimp only; omega)]
    dsimp only
    rw [store_eq (by dsimp only; omega) (by dsimp only; omega)]
    dsimp only
    rw [store_eq (by dsimp only; omega) (by dsimp only; omega)]
    dsimp only
    rw [store_eq (by dsimp only; omega) (by dsimp only; omega)]
  · unfold allocated
    rw [if_pos hsplit]
    refine ⟨rfl, ⟨?_, ?_⟩, rfl, ⟨?_, ?_⟩, ?_⟩
    all_goals dsimp only [Block.stop, sized, split, rest]
    · rw [Function.update_of_ne (by omega), Function.update_self, tag_true_toNat]
    · rw [Function.update_self, tag_true_toNat]
    · rw [Function.update_of_ne (by omega), Function.update_of_ne (by omega),
        Function.update_of_ne (by omega), Function.update_of_ne (by omega)]
      rw [Function.update_apply]
      split
      · rfl
      · exact Function.update_self ..
    · rw [Function.update_of_ne (by omega), Function.update_of_ne (by omega),
        Function.update_of_ne (by omega), Function.update_of_ne (by omega)]
      rw [show b.addr + size.toNat + 2 + (b.size - size.toNat - 2) + 1 = b.addr + b.size + 1 by
        omega]
      exact Function.update_self ..
    · change _ = _
      omega
  · intro i hi
    dsimp only [sized, split]
    rw [Function.update_of_ne (by omega), Function.update_of_ne (by omega),
      Function.update_of_ne (by omega), Function.update_of_ne (by omega),
      Function.update_of_ne (by omega), Function.update_of_ne (by omega)]

/-- A block of exactly the size is taken as it is. -/
theorem exists_take_of_eq {size : Word} {heap : Heap} {b : Block}
    (hstart : heap.start ≤ b.addr) (hbstop : b.stop ≤ heap.stop) (hstop : heap.stop < 2 ^ 30)
    (hhead : heap.mem b.addr = tag false b.size) (hsize : b.size = size.toNat) :
    ∃ mem, take size b.addr heap = .ok (some (b.addr + 1), { heap with mem }) ∧
      Tiles tag mem b.addr (allocated size.toNat b) b.stop ∧
      ∀ i, i < b.addr ∨ b.stop ≤ i → mem i = heap.mem i := by
  unfold Block.stop at hbstop ⊢
  have hadd : (size + 2).toNat = size.toNat + 2 := by
    rw [BitVec.toNat_add]
    exact Nat.mod_eq_of_lt (by simp; omega)
  rw [hsize, tag_false_toNat] at hhead
  refine ⟨Function.update (Function.update heap.mem b.addr (size ||| usedBit))
    (b.addr + size.toNat + 1) (size ||| usedBit), ?_, ?_, ?_⟩
  · unfold take
    rw [hhead]
    dsimp only
    rw [if_neg (by rw [BitVec.le_def, hadd]; omega)]
    dsimp only [bind, Except.bind, pure, Except.pure]
    rw [store_eq (by omega) (by omega)]
    dsimp only
    rw [store_eq (by dsimp only; omega) (by dsimp only; omega)]
  · unfold allocated
    rw [if_neg (by omega)]
    refine ⟨rfl, ⟨?_, ?_⟩, ?_⟩
    all_goals dsimp only [Block.stop]
    · rw [Function.update_of_ne (by omega), Function.update_self, tag_true_toNat]
    · rw [Function.update_self, tag_true_toNat]
    · change _ = _
      omega
  · intro i hi
    rw [Function.update_of_ne (by omega), Function.update_of_ne (by omega)]

/-- A block that is one word too large is taken as it is, but its second tag is not written. -/
theorem exists_take_of_slip {size : Word} {heap : Heap} {b : Block}
    (hstart : heap.start ≤ b.addr) (hbstop : b.stop ≤ heap.stop) (hstop : heap.stop < 2 ^ 30)
    (htagged : b.Tagged tag heap.mem) (hfree : b.used = false)
    (hsize : b.size = size.toNat + 1) :
    ∃ mem, take size b.addr heap = .ok (some (b.addr + 1), { heap with mem }) ∧
      mem b.addr = tag true b.size ∧ mem (b.addr + b.size + 1) = tag false b.size ∧
      ∀ i, i < b.addr → mem i = heap.mem i := by
  unfold Block.stop at hbstop
  have htoNat : (tag false b.size).toNat = b.size := toNat_tag (by omega) false
  have hadd : (size + 2).toNat = size.toNat + 2 := by
    rw [BitVec.toNat_add]
    exact Nat.mod_eq_of_lt (by simp; omega)
  have hhead := htagged.head
  have hfoot := htagged.foot
  rw [hfree] at hhead hfoot
  have hmark : tag false b.size ||| usedBit = tag true b.size := rfl
  refine ⟨Function.update (Function.update heap.mem b.addr (tag true b.size))
    (b.addr + size.toNat + 1) (tag true b.size), ?_, ?_, ?_, ?_⟩
  · unfold take
    rw [hhead]
    dsimp only
    rw [if_neg (by rw [BitVec.le_def, hadd, htoNat]; omega)]
    dsimp only [bind, Except.bind, pure, Except.pure]
    rw [hmark, store_eq (by omega) (by omega)]
    dsimp only
    rw [store_eq (by dsimp only; omega) (by dsimp only; omega)]
  · rw [Function.update_of_ne (by omega), Function.update_self]
  · rw [Function.update_of_ne (by omega), Function.update_of_ne (by omega), hfoot]
  · intro i hi
    rw [Function.update_of_ne (by omega), Function.update_of_ne (by omega)]

/-- What becomes of a block that is taken, unless one word of it would be left. -/
theorem exists_take {size : Word} {heap : Heap} {front back : List Block} {b : Block}
    (h : heap.Laid (front ++ b :: back)) (hfits : fits size b) (hslip : b.size ≠ size.toNat + 1) :
    ∃ heap', take size b.addr heap = .ok (some (b.addr + 1), heap') ∧
      heap'.start = heap.start ∧ heap'.stop = heap.stop ∧
      heap'.Laid (front ++ (allocated size.toNat b ++ back)) ∧
      ∀ i, i < b.addr ∨ b.stop ≤ i → heap'.mem i = heap.mem i := by
  obtain ⟨d, hfront, haddr, htagged, hback⟩ := tiles_append.mp h.tiles
  subst haddr
  have hstart := hfront.le
  have hbstop := hback.le
  have hstop := h.stop
  unfold fits at hfits
  rw [Bool.and_eq_true, Bool.not_eq_true', decide_eq_true_iff] at hfits
  have hhead := htagged.head
  rw [hfits.1] at hhead
  have hmem : ∃ mem, take size b.addr heap = .ok (some (b.addr + 1), { heap with mem }) ∧
      Tiles tag mem b.addr (allocated size.toNat b) b.stop ∧
      ∀ i, i < b.addr ∨ b.stop ≤ i → mem i = heap.mem i := by
    by_cases hsplit : size.toNat + 2 ≤ b.size
    · exact exists_take_of_split hstart hbstop hstop hhead hsplit
    · exact exists_take_of_eq hstart hbstop hstop hhead (by omega)
  obtain ⟨mem, htake, hnew, hframe⟩ := hmem
  exact ⟨_, htake, rfl, rfl, ⟨h.start, h.stop, hfront.replace hnew hback hframe⟩, hframe⟩

/-- In any case, the tag in front of a block that is taken has no more words than were there. -/
theorem exists_take_head {size : Word} {heap : Heap} {b : Block} (hstart : heap.start ≤ b.addr)
    (hbstop : b.stop ≤ heap.stop) (hstop : heap.stop < 2 ^ 30) (htagged : b.Tagged tag heap.mem)
    (hfits : fits size b) :
    ∃ heap' n, take size b.addr heap = .ok (some (b.addr + 1), heap') ∧
      heap'.mem b.addr = tag true n ∧ n ≤ b.size := by
  unfold fits at hfits
  rw [Bool.and_eq_true, Bool.not_eq_true', decide_eq_true_iff] at hfits
  have hhead := htagged.head
  rw [hfits.1] at hhead
  by_cases hsplit : size.toNat + 2 ≤ b.size
  · obtain ⟨mem, htake, ⟨-, hnew, -⟩, -⟩ := exists_take_of_split hstart hbstop hstop hhead hsplit
    exact ⟨_, _, htake, hnew.head, hfits.2⟩
  · by_cases heq : b.size = size.toNat
    · obtain ⟨mem, htake, ⟨-, hnew, -⟩, -⟩ := exists_take_of_eq hstart hbstop hstop hhead heq
      exact ⟨_, _, htake, hnew.head, hfits.2⟩
    · have hslip : b.size = size.toNat + 1 := by omega
      obtain ⟨mem, htake, hnew, -⟩ :=
        exists_take_of_slip hstart hbstop hstop htagged hfits.1 hslip
      exact ⟨{ heap with mem }, b.size, htake, hnew, le_rfl⟩

/-! ## Section 4: A block that is freed -/

theorem coalesce_left {heap : Heap} {ptr psize n : ℕ} (hn : n < 2 ^ 31)
    (hstart : heap.start < ptr - 1) (hfree : heap.mem (ptr - 1) = tag false n) :
    heap.coalesce ptr psize = heap.coalesce (ptr - (n + 2)) (psize + (n + 2)) := by
  rw [coalesce, if_pos ⟨hstart, by rw [hfree, isFree_tag hn]; rfl⟩, hfree, toNat_tag hn]
  rfl

theorem coalesce_right {heap : Heap} {ptr psize n : ℕ} (hn : n < 2 ^ 31)
    (hleft : ¬(heap.start < ptr - 1 ∧ isFree (heap.mem (ptr - 1))))
    (hstop : ptr + psize + 2 < heap.stop)
    (hfree : heap.mem (ptr + psize + 2) = tag false n) :
    heap.coalesce ptr psize = heap.coalesce ptr (psize + (n + 2)) := by
  rw [coalesce, if_neg hleft, if_pos ⟨hstop, by rw [hfree, isFree_tag hn]; rfl⟩, hfree,
    toNat_tag hn]
  rfl

theorem coalesce_eq {heap : Heap} {ptr psize : ℕ}
    (hleft : ¬(heap.start < ptr - 1 ∧ isFree (heap.mem (ptr - 1))))
    (hright : ¬(ptr + psize + 2 < heap.stop ∧ isFree (heap.mem (ptr + psize + 2)))) :
    heap.coalesce ptr psize = (ptr, psize) := by
  rw [coalesce, if_neg hleft, if_neg hright]

/-- Behind the last block there is no tag of a free one, if it is used. -/
theorem not_free_left {heap : Heap} {front : List Block} {ptr : ℕ} (hstop : heap.stop < 2 ^ 30)
    (hptr : ptr ≤ heap.stop) (hfront : Tiles tag heap.mem heap.start front ptr)
    (hused : ∀ l ∈ front.getLast?, l.used) :
    ¬(heap.start < ptr - 1 ∧ isFree (heap.mem (ptr - 1))) := by
  rintro ⟨hlt, hfree⟩
  rcases List.eq_nil_or_concat' front with rfl | ⟨front, b, rfl⟩
  · obtain rfl : heap.start = ptr := hfront
    omega
  · obtain ⟨-, htagged, rfl⟩ := hfront.concat
    unfold Block.stop at hfree hptr
    have hfoot := htagged.foot
    rw [hused b (by simp)] at hfoot
    rw [show b.addr + b.size + 2 - 1 = b.addr + b.size + 1 by omega, hfoot,
      isFree_tag (by omega)] at hfree
    cases hfree

/-- The block in front of a block that is freed is part of it, if it is free. -/
theorem exists_coalesce_left {heap : Heap} {front : List Block} {ptr psize : ℕ}
    (hstop : heap.stop < 2 ^ 30) (hptr : ptr ≤ heap.stop) (hsep : Separated front)
    (hfront : Tiles tag heap.mem heap.start front ptr) :
    ∃ front' ptr' psize', heap.coalesce ptr psize = heap.coalesce ptr' psize' ∧
      Tiles tag heap.mem heap.start front' ptr' ∧ Separated front' ∧
      (∀ l ∈ front'.getLast?, l.used) ∧ usedBlocks front' = usedBlocks front ∧
      ptr' ≤ ptr ∧ ptr' + psize' = ptr + psize := by
  rcases List.eq_nil_or_concat' front with rfl | ⟨rest, b, rfl⟩
  · exact ⟨[], ptr, psize, rfl, hfront, hsep, by simp, rfl, Nat.le_refl _, rfl⟩
  · cases hb : b.used with
    | true =>
      refine ⟨rest ++ [b], ptr, psize, rfl, hfront, hsep, ?_, rfl, Nat.le_refl _, rfl⟩
      intro l hl
      rw [List.getLast?_concat] at hl
      cases hl
      exact hb
    | false =>
      obtain ⟨hrest, htagged, rfl⟩ := hfront.concat
      have hle := hrest.le
      have hfoot := htagged.foot
      rw [hb] at hfoot
      unfold Block.stop at hptr ⊢
      refine ⟨rest, b.addr, psize + (b.size + 2), ?_, hrest, hsep.left,
        hsep.used_of_getLast hb, ?_, by omega, by omega⟩
      · rw [coalesce_left (n := b.size) (by omega) (by omega) ?_]
        · congr 1
          omega
        · rw [show b.addr + b.size + 2 - 1 = b.addr + b.size + 1 by omega, hfoot]
      · unfold usedBlocks
        rw [List.filter_append, List.filter_singleton, hb]
        exact (List.append_nil _).symm

/-- The block behind a block that is freed is part of it, if it is free. -/
theorem exists_coalesce_right {heap : Heap} {back : List Block} {ptr psize : ℕ}
    (hstop : heap.stop < 2 ^ 30) (hsep : Separated back)
    (hback : Tiles tag heap.mem (ptr + psize + 2) back heap.stop)
    (hleft : ¬(heap.start < ptr - 1 ∧ isFree (heap.mem (ptr - 1)))) :
    ∃ back' psize', heap.coalesce ptr psize = (ptr, psize') ∧
      Tiles tag heap.mem (ptr + psize' + 2) back' heap.stop ∧ Separated back' ∧
      (∀ r ∈ back'.head?, r.used) ∧ usedBlocks back' = usedBlocks back ∧ psize ≤ psize' := by
  have hdone : ∀ {back' : List Block} {psize' : ℕ},
      Tiles tag heap.mem (ptr + psize' + 2) back' heap.stop → (∀ r ∈ back'.head?, r.used) →
      heap.coalesce ptr psize' = (ptr, psize') := by
    intro back' psize' hback' hused
    apply coalesce_eq hleft
    rintro ⟨hlt, hfree⟩
    cases back' with
    | nil =>
      obtain heq : ptr + psize' + 2 = heap.stop := hback'
      omega
    | cons b back' =>
      obtain ⟨haddr, htagged, hrest⟩ := hback'
      have hle := hrest.le
      unfold Block.stop at hle
      have hhead := htagged.head
      rw [haddr, hused b rfl] at hhead
      rw [hhead, isFree_tag (by omega)] at hfree
      cases hfree
  cases back with
  | nil =>
    have hnil : ∀ r ∈ ([] : List Block).head?, r.used := by simp
    exact ⟨[], psize, hdone hback hnil, hback, hsep, hnil, rfl, Nat.le_refl _⟩
  | cons b back =>
    cases hb : b.used with
    | true =>
      have hused : ∀ r ∈ (b :: back).head?, r.used := by
        rintro r ⟨⟩
        exact hb
      exact ⟨b :: back, psize, hdone hback hused, hback, hsep, hused, rfl, Nat.le_refl _⟩
    | false =>
      obtain ⟨haddr, htagged, hrest⟩ := hback
      have hle := hrest.le
      have hhead := htagged.head
      rw [hb, haddr] at hhead
      unfold Block.stop at hle hrest
      rw [haddr, show ptr + psize + 2 + b.size + 2 = ptr + (psize + (b.size + 2)) + 2 by
        omega] at hrest
      have hused := hsep.used_of_head hb
      refine ⟨back, psize + (b.size + 2), ?_, hrest,
        hsep.tail, hused, ?_, by omega⟩
      · rw [coalesce_right (n := b.size) (by omega) hleft (by omega) hhead]
        exact hdone hrest hused
      · unfold usedBlocks
        rw [List.filter_cons_of_neg (by rw [hb]; exact Bool.false_ne_true)]

/-- A used block is freed. -/
theorem exists_free {heap : Heap} {front back : List Block} {b : Block}
    (h : heap.Laid (front ++ b :: back)) (hsep : Separated (front ++ b :: back)) :
    ∃ heap' front' back' new, free (b.addr + 1) heap = .ok heap' ∧
      heap'.start = heap.start ∧ heap'.stop = heap.stop ∧
      heap'.Laid (front' ++ new :: back') ∧ Separated (front' ++ new :: back') ∧
      new.used = false ∧ new.addr ≤ b.addr ∧ b.stop ≤ new.stop ∧
      (∀ l ∈ front'.getLast?, l.used) ∧ (∀ r ∈ back'.head?, r.used) ∧
      usedBlocks front' = usedBlocks front ∧ usedBlocks back' = usedBlocks back := by
  obtain ⟨d, hfront, haddr, htagged, hback⟩ := tiles_append.mp h.tiles
  subst haddr
  have hstart := hfront.le
  have hbstop := hback.le
  have hstop := h.stop
  unfold Block.stop at hbstop hback
  obtain ⟨front', ptr, psize, hleft, hfront', hsep', hused', hfront_eq, hptr, hsum⟩ :=
    @exists_coalesce_left heap front _ b.size hstop (by omega) hsep.left hfront
  rw [← hsum] at hback
  have hnot := not_free_left hstop (by omega) hfront' hused'
  obtain ⟨back', psize', hright, hback', hsepr, hhead', hback_eq, hle⟩ :=
    exists_coalesce_right hstop hsep.right.tail hback hnot
  have hstart' := hfront'.le
  have hstop' := hback'.le
  have hload : (tagSize (tag b.used b.size)) = b.size := tagSize_tag (by omega) _
  let new : Block := ⟨ptr, psize', false⟩
  let mem := Function.update (Function.update heap.mem ptr (BitVec.ofNat 32 psize'))
    (ptr + psize' + 1) (BitVec.ofNat 32 psize')
  refine ⟨{ heap with mem }, front', back', new, ?_, rfl, rfl, ?_, ?_, rfl, hptr, ?_, hused',
    hhead', hfront_eq, hback_eq⟩
  · unfold free
    rw [if_neg (Nat.succ_ne_zero _), Nat.add_sub_cancel]
    dsimp only
    rw [load_eq hstart (by omega), htagged.head]
    dsimp only [bind, Except.bind]
    rw [hload, load_eq (by omega) (by omega), htagged.foot]
    dsimp only
    rw [if_neg (fun hne => hne rfl), hleft, hright]
    dsimp only
    rw [store_eq hstart' (by omega)]
    dsimp only
    rw [store_eq (by dsimp only; omega) (by dsimp only; omega)]
  · refine ⟨h.start, h.stop, ?_⟩
    rw [← List.singleton_append]
    refine Tiles.replace hfront' ⟨rfl, ⟨?_, ?_⟩, rfl⟩ hback' ?_
    · dsimp only [new, mem]
      rw [Function.update_of_ne (by omega), Function.update_self]
      rfl
    · dsimp only [new, mem]
      rw [Function.update_self]
      rfl
    · intro i hi
      dsimp only [new, mem, Block.stop] at hi ⊢
      rw [Function.update_of_ne (by omega), Function.update_of_ne (by omega)]
  · exact Separated.around_free hsep' hsepr hused' hhead'
  · unfold Block.stop
    dsimp only [new]
    omega

end Heap

end BentoLinker.Glue
