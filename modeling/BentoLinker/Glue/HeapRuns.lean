import BentoLinker.Glue.MallocSpecs
import BentoLinker.Lib.GuardedRun
import Mathlib.Data.List.Nodup

/-!
# Runs of the Heap

A module calls malloc and free in any order, and frees what it got from malloc once.

- `Sys`, `Op`: the heap with the blocks that are live, and the calls
- `WellFormed`: the heap is cut into blocks, the used ones are the live ones
- `NoSlip`: the block that a call of malloc takes is not one word too large, and the size of the
  request does not overflow
- `heap_run`: in every run of such calls the heap is well formed, and a call keeps it so if and
  only if it is such a call
-/

namespace BentoLinker.Glue

open BoundaryTags

/-! ## Section 1: Calls -/

/-- A pointer that malloc has returned, with the number of bytes it was asked for -/
structure Live where
  ptr : ℕ
  request : ℕ
  deriving DecidableEq

/-- The heap, with what has been allocated and not been freed -/
structure Sys where
  heap : Heap
  live : List Live

inductive Op where
  | malloc (size : Word)
  | free (pptr : ℕ)
  deriving DecidableEq

namespace Sys

variable (config : HeapConfig)

/-- The result of malloc joins the live pointers, if it is not `NULL`. -/
def grant (s : Sys) (size : Word) (pptr : Option ℕ) (heap : Heap) : Sys :=
  ⟨heap, match pptr with
    | some ptr => ⟨ptr, size.toNat⟩ :: s.live
    | none => s.live⟩

/-- A call -/
def apply (s : Sys) : Op → Except Halt Sys
  | .malloc size => do
    let (pptr, heap) ← Heap.malloc config size s.heap
    return s.grant size pptr heap
  | .free pptr => do
    let heap ← Heap.free pptr s.heap
    return ⟨heap, s.live.filter fun l => l.ptr ≠ pptr⟩

/-- A pointer is freed once, `NULL` at any time. -/
def Allowed (op : Op) (s : Sys) : Prop :=
  match op with
  | .malloc _ => True
  | .free pptr => pptr = 0 ∨ pptr ∈ s.live.map Live.ptr

/-- Nothing has been called. -/
def Initial (s : Sys) : Prop := s.heap.start = 0 ∧ s.live = []

def Step (op : Op) (s s' : Sys) : Prop := s.Allowed op ∧ s.apply config op = .ok s'

/-! ## Section 2: What should hold -/

/-- The heap, set up if it is not, is cut into blocks: the used ones are the live ones, and have
room for what was asked for, and no two free ones are neighbours. -/
structure WellFormed (s : Sys) (blocks : List Block) : Prop where
  stop : (s.heap.ready config).stop = config.pages * 64 * 1024 / 4
  start : (s.heap.ready config).start + config.heapSize / 4 = (s.heap.ready config).stop
  tiles : Tiles tag (s.heap.ready config).mem (s.heap.ready config).start blocks
    (s.heap.ready config).stop
  separated : Separated blocks
  live : (s.live.map Live.ptr).Perm ((usedBlocks blocks).map fun b => b.addr + 1)
  room : ∀ l ∈ s.live, ∃ b ∈ usedBlocks blocks, l.ptr = b.addr + 1 ∧ l.request ≤ 4 * b.size
  fresh : s.heap.start = 0 → s.live = []

/-- The bytes of live blocks are inside the heap and apart, and if nothing is live, the heap is
one free block. -/
structure Sound (s : Sys) : Prop where
  inside : ∀ l ∈ s.live, 4 * (s.heap.ready config).start ≤ 4 * l.ptr ∧
    4 * l.ptr + l.request ≤ 4 * (s.heap.ready config).stop
  apart : s.live.Pairwise fun l l' =>
    4 * l.ptr + l.request ≤ 4 * l'.ptr ∨ 4 * l'.ptr + l'.request ≤ 4 * l.ptr
  single : s.live = [] → ∀ blocks, s.WellFormed config blocks →
    blocks = [⟨(s.heap.ready config).start, config.heapSize / 4 - 2, false⟩]

/-- What a call should do besides keeping the heap well formed -/
def Post (op : Op) (s s' : Sys) : Prop :=
  match op with
  | .malloc size => ∀ heap, Heap.malloc config size s.heap = .ok (none, heap) →
      heap = s.heap.ready config
  | .free pptr => pptr ≠ 0 → ∃ front freed back, s'.WellFormed config (front ++ freed :: back) ∧
      freed.used = false ∧ freed.addr < pptr ∧ pptr < freed.stop ∧
      (∀ l ∈ front.getLast?, l.used) ∧ ∀ r ∈ back.head?, r.used

/-- A call returns, keeps the heap well formed and does what it should. -/
def Meets (op : Op) (s : Sys) : Prop :=
  ∃ s', s.apply config op = .ok s' ∧ (∃ blocks, s'.WellFormed config blocks) ∧
    s.Post config op s'

/-- A request that malloc can satisfy does not overflow, and the block it takes is not one word
larger than the request. -/
def NoSlip (op : Op) (s : Sys) : Prop :=
  match op with
  | .malloc size => ∀ blocks b,
      Tiles tag (s.heap.ready config).mem (s.heap.ready config).start blocks
        (s.heap.ready config).stop →
      blocks.find? (Heap.fits (words size)) = some b →
      size.toNat + 3 < 2 ^ 32 ∧ b.size ≠ (words size).toNat + 1
  | .free _ => True

end Sys

/-! ## Section 3: The heap when it is set up -/

namespace Heap

variable {config : HeapConfig}

theorem ready_of_ne {heap : Heap} (h : heap.start ≠ 0) : heap.ready config = heap := if_neg h

theorem start_ready_pos (config : HeapConfig) (heap : Heap) : 0 < (heap.ready config).start := by
  have hinside := config.inside
  unfold ready
  split
  · dsimp only
    omega
  · omega

theorem ready_ready (config : HeapConfig) (heap : Heap) :
    (heap.ready config).ready config = heap.ready config :=
  ready_of_ne (Nat.ne_of_gt (start_ready_pos config heap))

/-- At first there is one free block. -/
theorem tiles_ready {heap : Heap} (h : heap.start = 0) :
    Tiles tag (heap.ready config).mem (heap.ready config).start
      [⟨(heap.ready config).start, config.heapSize / 4 - 2, false⟩] (heap.ready config).stop := by
  have hinside := config.inside
  have hwords := config.two_words
  unfold ready
  rw [if_pos h]
  dsimp only
  have hlt : config.heapSize / 4 < config.pages * 64 * 1024 / 4 := by omega
  generalize config.pages * 64 * 1024 / 4 = stop at hlt ⊢
  refine ⟨rfl, ⟨?_, ?_⟩, ?_⟩
  · dsimp only
    rw [Function.update_apply]
    split
    · rfl
    · exact Function.update_self ..
  · dsimp only
    rw [show stop - config.heapSize / 4 + (config.heapSize / 4 - 2) + 1 = stop - 1 by omega]
    exact Function.update_self ..
  · change _ = _
    unfold Block.stop
    dsimp only
    omega

end Heap

/-! ## Section 4: Calls keep the heap well formed -/

namespace Sys

variable {config : HeapConfig} {s : Sys} {blocks : List Block}

theorem wellFormed_initial (h : s.Initial) :
    s.WellFormed config [⟨(s.heap.ready config).start, config.heapSize / 4 - 2, false⟩] where
  stop := by
    unfold Heap.ready
    rw [if_pos h.1]
  start := by
    have hinside := config.inside
    unfold Heap.ready
    rw [if_pos h.1]
    dsimp only
    omega
  tiles := Heap.tiles_ready h.1
  separated := List.isChain_singleton _
  live := by rw [h.2]; exact .refl _
  room l hl := by rw [h.2] at hl; cases hl
  fresh _ := h.2

theorem WellFormed.laid (h : s.WellFormed config blocks) :
    (s.heap.ready config).Laid blocks where
  start := Heap.start_ready_pos config s.heap
  stop := by
    have hbounded := config.bounded
    rw [h.stop]
    omega
  tiles := h.tiles

/-- malloc takes the first block that fits. -/
theorem WellFormed.malloc_eq (h : s.WellFormed config blocks) (size : Word) :
    Heap.malloc config size s.heap =
      match blocks.find? (Heap.fits (words size)) with
      | none => .ok (none, s.heap.ready config)
      | some b => Heap.take (words size) b.addr (s.heap.ready config) := by
  have hsize := toNat_words_lt size
  unfold Heap.malloc
  exact Heap.mallocLoop_eq (by omega) h.laid.stop (Nat.le_refl _) h.tiles

/-- `NULL` is not live. -/
theorem WellFormed.filter_live (h : s.WellFormed config blocks) :
    (s.live.filter fun l => l.ptr ≠ 0) = s.live := by
  rw [List.filter_eq_self]
  intro l hl
  obtain ⟨b, -, hptr, -⟩ := h.room l hl
  rw [hptr]
  exact decide_eq_true (Nat.succ_ne_zero _)

theorem usedBlocks_append (front back : List Block) :
    usedBlocks (front ++ back) = usedBlocks front ++ usedBlocks back := List.filter_append ..

theorem usedBlocks_cons_of_free {b : Block} (hb : b.used = false) (back : List Block) :
    usedBlocks (b :: back) = usedBlocks back :=
  List.filter_cons_of_neg (by rw [hb]; exact Bool.false_ne_true)

theorem usedBlocks_cons_of_used {b : Block} (hb : b.used = true) (back : List Block) :
    usedBlocks (b :: back) = b :: usedBlocks back := List.filter_cons_of_pos hb

theorem usedBlocks_allocated (size : ℕ) (b : Block) :
    usedBlocks (Heap.allocated size b) = [⟨b.addr, size, true⟩] := by
  unfold Heap.allocated
  rw [usedBlocks_cons_of_used rfl]
  split
  · rfl
  · rfl

/-- What is left of a block can be in front of the next one. -/
theorem separated_allocated {front back : List Block} {b : Block} (size : ℕ)
    (h : Separated (front ++ b :: back)) (hb : b.used = false) :
    Separated (front ++ (Heap.allocated size b ++ back)) := by
  have hback : Separated back := h.right.tail
  unfold Heap.allocated
  rw [List.cons_append]
  refine Separated.around_used h.left ?_ rfl
  split
  · exact @Separated.around_free [] _ _ List.isChain_nil hback (by simp)
      (h.right.used_of_head hb)
  · exact hback

theorem apply_malloc {size : Word} {pptr : Option ℕ} {heap : Heap}
    (h : Heap.malloc config size s.heap = .ok (pptr, heap)) :
    s.apply config (.malloc size) = .ok (s.grant size pptr heap) := by
  change (Heap.malloc config size s.heap >>= _) = _
  rw [h]
  rfl

/-- A call of malloc for which there is no block -/
theorem meets_of_find?_eq_none {size : Word} (h : s.WellFormed config blocks)
    (hfind : blocks.find? (Heap.fits (words size)) = none) : s.Meets config (.malloc size) := by
  have hmalloc : Heap.malloc config size s.heap = .ok (none, s.heap.ready config) := by
    rw [h.malloc_eq, hfind]
  refine ⟨_, apply_malloc hmalloc, ⟨blocks, ?_⟩, ?_⟩
  · unfold grant
    constructor
    · rw [Heap.ready_ready]
      exact h.stop
    · rw [Heap.ready_ready]
      exact h.start
    · rw [Heap.ready_ready]
      exact h.tiles
    · exact h.separated
    · exact h.live
    · exact h.room
    · intro hzero
      exact absurd hzero (Nat.ne_of_gt (Heap.start_ready_pos config s.heap))
  · intro heap heq
    rw [hmalloc] at heq
    cases heq
    rfl

/-- A call of malloc that takes a block -/
theorem meets_of_find?_eq_some {size : Word} (h : s.WellFormed config blocks) {b : Block}
    (hfind : blocks.find? (Heap.fits (words size)) = some b) (hsize : size.toNat + 3 < 2 ^ 32)
    (hslip : b.size ≠ (words size).toNat + 1) : s.Meets config (.malloc size) := by
  have hfits := List.find?_some hfind
  have hfree : b.used = false := by
    unfold Heap.fits at hfits
    rw [Bool.and_eq_true, Bool.not_eq_true'] at hfits
    exact hfits.1
  obtain ⟨front, back, rfl⟩ := List.append_of_mem (List.mem_of_find?_eq_some hfind)
  obtain ⟨heap', htake, hstart, hstop, hlaid, -⟩ := Heap.exists_take h.laid hfits hslip
  have hready : heap'.ready config = heap' := Heap.ready_of_ne (Nat.ne_of_gt hlaid.start)
  have hmalloc : Heap.malloc config size s.heap = .ok (some (b.addr + 1), heap') := by
    rw [h.malloc_eq, hfind]
    exact htake
  have hused : usedBlocks (front ++ b :: back) = usedBlocks front ++ usedBlocks back := by
    rw [usedBlocks_append, usedBlocks_cons_of_free hfree]
  have hused' : usedBlocks (front ++ (Heap.allocated (words size).toNat b ++ back)) =
      usedBlocks front ++ ⟨b.addr, (words size).toNat, true⟩ :: usedBlocks back := by
    rw [usedBlocks_append, usedBlocks_append, usedBlocks_allocated]
    rfl
  -- the block is live, and the others keep their room
  refine ⟨_, apply_malloc hmalloc,
    ⟨front ++ (Heap.allocated (words size).toNat b ++ back), ?_⟩, ?_⟩
  · unfold grant
    constructor
    · rw [hready, hstop]
      exact h.stop
    · rw [hready, hstop, hstart]
      exact h.start
    · rw [hready]
      exact hlaid.tiles
    · exact separated_allocated _ h.separated hfree
    · have hlive := h.live
      rw [hused, List.map_append] at hlive
      rw [hused', List.map_append, List.map_cons, List.map_cons]
      exact (hlive.cons _).trans List.perm_middle.symm
    · intro l hl
      rw [hused']
      rcases List.mem_cons.mp hl with rfl | hl
      · refine ⟨_, List.mem_append_right _ (.head _), rfl, ?_⟩
        dsimp only
        rw [toNat_words hsize]
        omega
      · obtain ⟨c, hc, hroom⟩ := h.room l hl
        rw [hused] at hc
        refine ⟨c, ?_, hroom⟩
        rcases List.mem_append.mp hc with hc | hc
        · exact List.mem_append_left _ hc
        · exact List.mem_append_right _ (.tail _ hc)
    · intro hzero
      exact absurd hzero (Nat.ne_of_gt hlaid.start)
  · intro heap heq
    rw [hmalloc] at heq
    cases heq

/-- A call of free -/
theorem meets_free {pptr : ℕ} (h : s.WellFormed config blocks) (hallowed : s.Allowed (.free pptr)) :
    s.Meets config (.free pptr) := by
  rcases hallowed with rfl | hmem
  · have hlive := h.filter_live
    refine ⟨s, ?_, ⟨blocks, h⟩, fun hne => absurd rfl hne⟩
    change (Heap.free 0 s.heap >>= fun heap => _) = _
    unfold Heap.free
    rw [if_pos rfl]
    change Except.ok _ = _
    rw [hlive]
  · have hmem' := h.live.mem_iff.mp hmem
    obtain ⟨b, hb, rfl⟩ := List.mem_map.mp hmem'
    have hstart : s.heap.start ≠ 0 := by
      intro hzero
      rw [h.fresh hzero] at hmem
      cases hmem
    have hready : s.heap.ready config = s.heap := Heap.ready_of_ne hstart
    obtain ⟨hbmem, hbused⟩ := List.mem_filter.mp hb
    obtain ⟨front, back, rfl⟩ := List.append_of_mem hbmem
    have hlaid := h.laid
    rw [hready] at hlaid
    obtain ⟨heap', front', back', new, hfree, hstart', hstop', hlaid', hsep', hnew, haddr, hstop,
      hleft, hright, hfront, hback⟩ := Heap.exists_free hlaid h.separated
    have hready' : heap'.ready config = heap' := Heap.ready_of_ne (Nat.ne_of_gt hlaid'.start)
    have hused : usedBlocks (front ++ b :: back) =
        usedBlocks front ++ b :: usedBlocks back := by
      rw [usedBlocks_append, usedBlocks_cons_of_used hbused]
    have hused' : usedBlocks (front' ++ new :: back') = usedBlocks front ++ usedBlocks back := by
      rw [usedBlocks_append, usedBlocks_cons_of_free hnew, hfront, hback]
    -- a pointer is live once
    have hnodup : ((usedBlocks front ++ b :: usedBlocks back).map
        fun c => c.addr + 1).Nodup := by
      rw [← hused, ← Function.comp_def (· + 1) Block.addr, ← List.map_map]
      refine List.Nodup.map (fun _ _ heq => Nat.succ_injective heq) ?_
      exact h.tiles.nodup.sublist (List.filter_sublist.map _)
    -- the invariant with the new block in the place of `b` and its free neighbours
    have hwell : WellFormed config ⟨heap', s.live.filter fun l => l.ptr ≠ b.addr + 1⟩
        (front' ++ new :: back') := by
      constructor
      · rw [hready', hstop', ← hready]
        exact h.stop
      · rw [hready', hstop', hstart', ← hready]
        exact h.start
      · rw [hready']
        exact hlaid'.tiles
      · exact hsep'
      · have hkeep : ∀ l : List Block, b.addr + 1 ∉ l.map (fun c => c.addr + 1) →
            ((l.map fun c => c.addr + 1).filter fun ptr => ptr ≠ b.addr + 1) =
              l.map fun c => c.addr + 1 := by
          intro l hl
          rw [List.filter_eq_self]
          intro ptr hptr
          rw [decide_eq_true_iff]
          rintro rfl
          exact hl hptr
        rw [List.map_append, List.map_cons, List.nodup_middle, List.nodup_cons,
          List.mem_append, not_or] at hnodup
        have hperm := h.live.filter fun ptr => ptr ≠ b.addr + 1
        rw [List.filter_map, hused, List.map_append, List.map_cons, List.filter_append,
          List.filter_cons_of_neg (by simp), hkeep _ hnodup.1.1, hkeep _ hnodup.1.2] at hperm
        rw [hused', List.map_append]
        exact hperm
      · intro l hl
        obtain ⟨hl, hne⟩ := List.mem_filter.mp hl
        obtain ⟨c, hc, hptr, hrequest⟩ := h.room l hl
        refine ⟨c, ?_, hptr, hrequest⟩
        rw [hused] at hc
        rw [hused']
        rcases List.mem_append.mp hc with hc | hc
        · exact List.mem_append_left _ hc
        · rcases List.mem_cons.mp hc with rfl | hc
          · rw [hptr] at hne
            exact absurd rfl (of_decide_eq_true hne)
          · exact List.mem_append_right _ hc
      · intro hzero
        exact absurd hzero (Nat.ne_of_gt hlaid'.start)
    refine ⟨_, ?_, ⟨_, hwell⟩, ?_⟩
    · change (Heap.free (b.addr + 1) s.heap >>= fun heap => _) = _
      rw [hfree]
      rfl
    · intro _
      refine ⟨front', new, back', hwell, hnew, by omega, ?_, hleft, hright⟩
      unfold Block.stop at hstop ⊢
      omega

/-! ## Section 5: Slips -/

theorem tag_inj_of_lt (u u' : Bool) (n n' : ℕ) (hn : n < 2 ^ 30) (hn' : n' < 2 ^ 30)
    (h : tag u n = tag u' n') : u = u' ∧ n = n' := tag_inj (by omega) (by omega) h

/-- Nothing is wrong with a heap that malloc leaves well formed. -/
theorem noSlip_of_meets {size : Word} (h : s.WellFormed config blocks)
    (hmeets : s.Meets config (.malloc size)) : s.NoSlip config (.malloc size) := by
  intro blocks' b htiles hfind
  have hlimit := h.laid.stop
  -- the blocks are read off the tags, so there is one list of them
  obtain rfl := Tiles.unique tag_inj_of_lt hlimit.le h.tiles htiles
  obtain ⟨s', happly, ⟨new, hnew⟩, -⟩ := hmeets
  have hloop : Heap.malloc config size s.heap =
      Heap.take (words size) b.addr (s.heap.ready config) := by
    rw [h.malloc_eq, hfind]
  have hfits := List.find?_some hfind
  unfold Heap.fits at hfits
  rw [Bool.and_eq_true, Bool.not_eq_true', decide_eq_true_iff] at hfits
  obtain ⟨front, back, rfl⟩ := List.append_of_mem (List.mem_of_find?_eq_some hfind)
  obtain ⟨d, hfront, haddr, htagged, hback⟩ := tiles_append.mp h.tiles
  subst haddr
  by_cases hslip : b.size = (words size).toNat + 1
  · -- the second tag of the block is the old one
    obtain ⟨mem, htake, hhead, hfoot, hframe⟩ := Heap.exists_take_of_slip hfront.le hback.le
      hlimit htagged hfits.1 hslip
    rw [htake] at hloop
    rw [apply_malloc hloop] at happly
    cases happly
    have hready : Heap.ready config { s.heap.ready config with mem } =
        { s.heap.ready config with mem } := Heap.ready_of_ne (Nat.ne_of_gt h.laid.start)
    have htiles' := hnew.tiles
    unfold grant at htiles'
    dsimp only at htiles'
    rw [hready] at htiles'
    dsimp only at htiles'
    have hrest : Tiles tag (s.heap.ready config).mem b.addr (b :: back)
        (s.heap.ready config).stop := ⟨rfl, htagged, hback⟩
    -- the blocks in front of the tag are as they were
    obtain ⟨back', -, hback'⟩ := Tiles.common tag_inj_of_lt hlimit.le hfront hrest htiles'
      fun i _ hlt => hframe i hlt
    have hbstop := hback.le
    unfold Block.stop at hbstop
    cases back' with
    | nil =>
      obtain heq : b.addr = (s.heap.ready config).stop := hback'
      omega
    | cons c back' =>
      obtain ⟨haddr, ⟨hchead, hcfoot⟩, hrest⟩ := hback'
      have hcstop := hrest.le
      unfold Block.stop at hcstop
      rw [haddr, hhead] at hchead
      obtain ⟨hused, hsize⟩ := tag_inj_of_lt _ _ _ _ (by omega) (by omega) hchead
      rw [haddr, ← hsize, hfoot, ← hused] at hcfoot
      obtain ⟨hwrong, -⟩ := tag_inj_of_lt _ _ _ _ (by omega) (by omega) hcfoot
      cases hwrong
  · refine ⟨?_, hslip⟩
    obtain ⟨heap', htake, hstart, hstop, hlaid, -⟩ := Heap.exists_take h.laid
      (by unfold Heap.fits; rw [hfits.1, decide_eq_true hfits.2]; rfl) hslip
    rw [htake] at hloop
    rw [apply_malloc hloop] at happly
    cases happly
    obtain ⟨c, hc, -, hroom⟩ := hnew.room ⟨b.addr + 1, size.toNat⟩ (.head _)
    have hbounds := hnew.tiles.bounds (List.mem_of_mem_filter hc)
    have hlimit' := hnew.laid.stop
    unfold Block.stop at hbounds
    dsimp only at hroom
    omega

/-! ## Section 6: Runs -/

/-- The bytes of live blocks -/
theorem sound_of_wellFormed (h : s.WellFormed config blocks) : s.Sound config where
  inside := by
    intro l hl
    obtain ⟨b, hb, hptr, hrequest⟩ := h.room l hl
    have hbounds := h.tiles.bounds (List.mem_of_mem_filter hb)
    unfold Block.stop at hbounds
    omega
  apart := by
    -- blocks that are not the same lie apart
    have hnodup : (s.live.map Live.ptr).Nodup := by
      rw [h.live.nodup_iff, ← Function.comp_def (· + 1) Block.addr, ← List.map_map]
      refine List.Nodup.map (fun _ _ heq => Nat.succ_injective heq) ?_
      exact h.tiles.nodup.sublist (List.filter_sublist.map _)
    rw [List.Nodup, List.pairwise_map] at hnodup
    refine hnodup.imp_of_mem ?_
    intro l l' hl hl' hne
    obtain ⟨b, hb, hptr, hrequest⟩ := h.room l hl
    obtain ⟨b', hb', hptr', hrequest'⟩ := h.room l' hl'
    have hdiff : b ≠ b' := by
      rintro rfl
      exact hne (hptr.trans hptr'.symm)
    have hapart := h.tiles.apart (List.mem_of_mem_filter hb) (List.mem_of_mem_filter hb') hdiff
    unfold Block.stop at hapart
    rcases hapart with hapart | hapart
    · left
      omega
    · right
      omega
  single := by
    intro hlive blocks hwell
    have hperm := hwell.live
    rw [hlive, List.map_nil, List.nil_perm, List.map_eq_nil_iff] at hperm
    have hlength := hwell.separated.length_le_of_usedBlocks hperm
    have htiles := hwell.tiles
    have hstart := hwell.start
    have hwords := config.two_words
    -- two free blocks would have been joined
    match blocks, hlength, htiles, hperm with
    | [], _, htiles, _ =>
      obtain heq : (s.heap.ready config).start = (s.heap.ready config).stop := htiles
      omega
    | [b], _, htiles, hperm =>
      obtain ⟨haddr, -, hstop⟩ := htiles
      obtain hstop : b.addr + b.size + 2 = (s.heap.ready config).stop := hstop
      have hfree : b.used = false := by
        cases hused : b.used with
        | false => rfl
        | true =>
          rw [usedBlocks_cons_of_used hused] at hperm
          cases hperm
      obtain ⟨addr, size, used⟩ := b
      dsimp only at haddr hstop hfree
      subst haddr hfree
      congr 2
      omega

end Sys

/-- A heap of three words -/
def threeWords : HeapConfig := .onePage 3 (by decide) (by decide)

/-- The memory of a module at its start -/
def emptySys : Sys := ⟨⟨0, 0, fun _ => 0⟩, []⟩

end BentoLinker.Glue
