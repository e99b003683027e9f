import BentoLinker.Recipe.Memory

/-!
# Consuming a Memory

`Memory.consume` serves requests from both ends of what a memory has left: `_addr` and `_size`
shrink together. A request from the front moves `_addr` before it is returned as the address.

- `Pool`: a memory with what is left of it
- `Pool.consume`, `Pool.consumes`: a call, and a sequence of calls that all succeed
- `Allocation`: what the calls should have handed out
- `allocation_iff`: they have if and only if nothing came from the front
-/

namespace BentoLinker.Recipe

/-- A `Memory` in use -/
structure Pool where
  memory : Memory
  /-- `_addr` -/
  addr_ : Option ℕ
  /-- `_size` -/
  size_ : ℕ
  deriving Repr, DecidableEq

/-- `Memory.__init__` -/
def Memory.fresh (memory : Memory) : Pool := ⟨memory, memory.addr, memory.size⟩

/-- Why `consume` raises: `align` is not implemented, not enough memory, or arithmetic with an
address that is `None` -/
inductive ConsumeError where
  | align
  | full
  | address
  deriving Repr, DecidableEq

namespace Pool

/-- `Memory.unused` -/
def unused (pool : Pool) : ℕ := pool.size_

/-- `Memory.used` -/
def used (pool : Pool) : ℕ := pool.memory.size - pool.size_

/-- `Memory(self, mode=self.mode, addr=addr, size=size, align=None)` -/
def part (pool : Pool) (addr size : ℕ) : Memory :=
  ⟨pool.memory.name, pool.memory.mode, some addr, size, none⟩

/-- `Memory.consume` -/
def consume (pool : Pool) (size : ℕ) (align : Option ℕ) (reverse : Bool) :
    Except ConsumeError Memory × Pool :=
  if align.isSome then (.error .align, pool)
  else if size > pool.size_ then (.error .full, pool)
  else
    match reverse, pool.addr_ with
    | false, none => (.error .address, pool)
    | false, some addr =>
      -- what is returned starts at the new `_addr`
      (.ok (pool.part (addr + size) size),
        { pool with addr_ := some (addr + size), size_ := pool.size_ - size })
    | true, none => (.error .address, { pool with size_ := pool.size_ - size })
    | true, some addr =>
      (.ok (pool.part (addr + (pool.size_ - size)) size), { pool with size_ := pool.size_ - size })

/-- The arguments of a call -/
structure Request where
  size : ℕ
  reverse : Bool
  deriving Repr, DecidableEq

/-- The memories that a sequence of calls returns, if none of them raises -/
def consumes (pool : Pool) : List Request → Option (List Memory × Pool)
  | [] => some ([], pool)
  | request :: requests =>
    match pool.consume request.size none request.reverse with
    | (.error _, _) => none
    | (.ok memory, pool) =>
      (pool.consumes requests).map fun (memories, pool) => (memory :: memories, pool)

/-- The range that is still recorded as unused -/
def rest? (pool : Pool) : Option Region := pool.addr_.map fun addr => ⟨addr, pool.size_⟩

end Pool

/-- The address is one of a memory that has been placed. -/
def Memory.Holds (memory : Memory) (a : ℕ) : Prop :=
  ∃ region, memory.region? = some region ∧ region.Contains a

/-- The address is one of the unused range. -/
def Pool.Holds (pool : Pool) (a : ℕ) : Prop :=
  ∃ region, pool.rest? = some region ∧ region.Contains a

/-- Memories without a common address -/
def Memory.Apart (memory other : Memory) : Prop := ∀ a, memory.Holds a → ¬ other.Holds a

/-- Disjoint space: what the calls returned, and the pool they leave -/
structure Allocation (memory : Memory) (requests : List Pool.Request) (memories : List Memory)
    (pool : Pool) : Prop where
  sizes : memories.map Memory.size = requests.map Pool.Request.size
  inside : ∀ part ∈ memories, ∃ region whole, part.region? = some region ∧
    memory.region? = some whole ∧ region.Within whole
  disjoint : memories.Pairwise Memory.Apart
  unused : ∀ part ∈ memories, ∀ a, part.Holds a → ¬ pool.Holds a
  total : (memories.map Memory.size).sum + pool.unused = memory.size
  unfit : ∀ size reverse, pool.unused < size → pool.consume size none reverse = (.error .full, pool)

/-! ## Section 1: One call -/

namespace Pool

/-- All that a call does which returns -/
theorem consume_ok {pool pool' : Pool} {request : Request} {memory : Memory}
    (h : pool.consume request.size none request.reverse = (.ok memory, pool')) :
    ∃ addr, pool.addr_ = some addr ∧ request.size ≤ pool.size_ ∧
      ((request.reverse = false ∧ memory = pool.part (addr + request.size) request.size ∧
        pool' = { pool with addr_ := some (addr + request.size),
                            size_ := pool.size_ - request.size }) ∨
      (request.reverse = true ∧
        memory = pool.part (addr + (pool.size_ - request.size)) request.size ∧
        pool' = { pool with size_ := pool.size_ - request.size })) := by
  unfold consume at h
  rw [if_neg (by decide)] at h
  split at h
  · cases h
  · next hfull =>
    have hfits : request.size ≤ pool.size_ := Nat.le_of_not_gt hfull
    split at h
    · cases h
    · next addr hreverse haddr =>
      rw [Prod.mk.injEq, Except.ok.injEq] at h
      exact ⟨addr, haddr, hfits, .inl ⟨hreverse, h.1.symm, h.2.symm⟩⟩
    · cases h
    · next addr hreverse haddr =>
      rw [Prod.mk.injEq, Except.ok.injEq] at h
      exact ⟨addr, haddr, hfits, .inr ⟨hreverse, h.1.symm, h.2.symm⟩⟩

/-- A request that does not fit leaves the memory as it is. -/
theorem consume_unfit {pool : Pool} {size : ℕ} (reverse : Bool) (h : pool.unused < size) :
    pool.consume size none reverse = (.error .full, pool) := by
  unfold consume
  exact (if_neg (by decide)).trans (if_pos h)

theorem consumes_cons {pool pool' : Pool} {request : Request} {requests : List Request}
    {memories : List Memory} (h : pool.consumes (request :: requests) = some (memories, pool')) :
    ∃ memory mid rest, pool.consume request.size none request.reverse = (.ok memory, mid) ∧
      mid.consumes requests = some (rest, pool') ∧ memories = memory :: rest := by
  unfold consumes at h
  split at h
  · cases h
  · next memory mid hcall =>
    obtain ⟨⟨rest, last⟩, hrest, heq⟩ := Option.map_eq_some_iff.mp h
    rw [Prod.mk.injEq] at heq
    obtain ⟨rfl, rfl⟩ := heq
    exact ⟨memory, mid, rest, hcall, hrest, rfl⟩

theorem part_holds (pool : Pool) (addr size a : ℕ) :
    (pool.part addr size).Holds a ↔ addr ≤ a ∧ a < addr + size := by
  unfold Memory.Holds part Memory.region?
  simp only [Option.map_some, Option.some.injEq, exists_eq_left']
  rfl

theorem holds_iff {pool : Pool} {addr : ℕ} (h : pool.addr_ = some addr) (a : ℕ) :
    pool.Holds a ↔ addr ≤ a ∧ a < addr + pool.size_ := by
  unfold Holds rest?
  rw [h]
  simp only [Option.map_some, Option.some.injEq, exists_eq_left']
  rfl

/-! ## Section 2: Sequences of calls -/

/-- The sizes are those of the requests, and nothing is lost. -/
theorem sizes_consumes {requests : List Request} {pool pool' : Pool} {memories : List Memory}
    (h : pool.consumes requests = some (memories, pool')) :
    memories.map Memory.size = requests.map Request.size ∧
      (memories.map Memory.size).sum + pool'.size_ = pool.size_ := by
  induction requests generalizing pool memories with
  | nil =>
    cases h
    exact ⟨rfl, Nat.zero_add _⟩
  | cons request requests ih =>
    obtain ⟨memory, mid, rest, hcall, hrest, rfl⟩ := consumes_cons h
    obtain ⟨hmap, hsum⟩ := ih hrest
    obtain ⟨addr, -, hfits, ⟨-, rfl, rfl⟩ | ⟨-, rfl, rfl⟩⟩ := consume_ok hcall
    all_goals
      rw [List.map_cons, List.map_cons, List.sum_cons, hmap]
      rw [hmap] at hsum
      exact ⟨rfl, by simp only [part] at hsum ⊢; omega⟩

/-- Requests that move `_addr` -/
def Request.Forward (request : Request) : Prop := request.reverse = false ∧ request.size ≠ 0

instance (request : Request) : Decidable request.Forward := inferInstanceAs (Decidable (_ ∧ _))

/-- From the back a piece comes, and what is left lies in front of it. -/
theorem consume_backward {pool mid : Pool} {request : Request} {memory : Memory} {addr : ℕ}
    (haddr : pool.addr_ = some addr) (hback : ¬ request.Forward)
    (h : pool.consume request.size none request.reverse = (.ok memory, mid)) :
    mid.addr_ = some addr ∧ mid.size_ + request.size = pool.size_ ∧
      ∃ start, memory = pool.part start request.size ∧ addr ≤ start ∧
        start + request.size ≤ addr + pool.size_ ∧
        (request.size ≠ 0 → start = addr + mid.size_) := by
  obtain ⟨addr', haddr', hfits, hcases⟩ := consume_ok h
  obtain rfl : addr = addr' := Option.some.inj (haddr.symm.trans haddr')
  rcases hcases with ⟨hreverse, rfl, rfl⟩ | ⟨-, rfl, rfl⟩
  · -- an empty piece from the front
    have hzero : request.size = 0 := by
      by_contra hsize
      exact hback ⟨hreverse, hsize⟩
    refine ⟨by rw [hzero]; rfl, by simp only; omega, _, rfl, by omega, by omega, ?_⟩
    intro hsize
    exact absurd hzero hsize
  · refine ⟨haddr, by simp only; omega, _, rfl, by omega, by omega, fun _ => rfl⟩

/-- Pieces from the back: inside the range, behind what is left of it and apart -/
theorem consumes_backward {requests : List Request} {pool pool' : Pool} {memories : List Memory}
    {addr : ℕ} (haddr : pool.addr_ = some addr) (hback : ∀ request ∈ requests, ¬ request.Forward)
    (h : pool.consumes requests = some (memories, pool')) :
    pool'.addr_ = some addr ∧ memories.Pairwise Memory.Apart ∧
      (∀ part ∈ memories, ∃ region, part.region? = some region ∧ addr ≤ region.addr ∧
        region.addr + region.size ≤ addr + pool.size_) ∧
      ∀ part ∈ memories, ∀ a, part.Holds a → addr + pool'.size_ ≤ a ∧ a < addr + pool.size_ := by
  induction requests generalizing pool memories with
  | nil =>
    cases h
    refine ⟨haddr, .nil, ?_, ?_⟩
    · intro part hpart
      cases hpart
    · intro part hpart
      cases hpart
  | cons request requests ih =>
    obtain ⟨memory, mid, rest, hcall, hrest, rfl⟩ := consumes_cons h
    obtain ⟨hmid, hsize, start, rfl, hlow, hhigh, hstart⟩ :=
      consume_backward haddr (hback request (.head _)) hcall
    obtain ⟨hlast, hapart, hinside, hbehind⟩ :=
      ih hmid (fun request hrequest => hback request (List.mem_cons_of_mem _ hrequest)) hrest
    have hshrinks := (sizes_consumes hrest).2
    -- an address of the new piece is not below what is left after it
    have hpiece : ∀ a, (pool.part start request.size).Holds a →
        addr + mid.size_ ≤ a ∧ a < addr + pool.size_ := by
      intro a ha
      rw [part_holds] at ha
      have hnonzero : request.size ≠ 0 := by omega
      have hstart' := hstart hnonzero
      omega
    refine ⟨hlast, List.pairwise_cons.mpr ⟨?_, hapart⟩, ?_, ?_⟩
    · intro part hpart a ha hother
      have hlow := (hpiece a ha).1
      have hhigh := (hbehind part hpart a hother).2
      omega
    · intro part hpart
      rcases List.mem_cons.mp hpart with rfl | hpart
      · exact ⟨⟨start, request.size⟩, rfl, hlow, hhigh⟩
      · obtain ⟨region, hregion, hge, hle⟩ := hinside part hpart
        exact ⟨region, hregion, hge, by omega⟩
    · intro part hpart a ha
      rcases List.mem_cons.mp hpart with rfl | hpart
      · have hbounds := hpiece a ha
        exact ⟨by omega, hbounds.2⟩
      · have hbounds := hbehind part hpart a ha
        exact ⟨hbounds.1, by omega⟩

/-- The end of the unused range only moves by pieces that take what it leaves. -/
theorem consumes_covers {requests : List Request} {pool pool' : Pool} {memories : List Memory}
    {addr : ℕ} (haddr : pool.addr_ = some addr)
    (h : pool.consumes requests = some (memories, pool')) :
    ∃ addr', pool'.addr_ = some addr' ∧
      ∀ a, addr' + pool'.size_ ≤ a → a < addr + pool.size_ → ∃ part ∈ memories, part.Holds a := by
  induction requests generalizing pool memories addr with
  | nil =>
    cases h
    exact ⟨addr, haddr, fun a hlow hhigh => absurd hlow (Nat.not_le_of_gt hhigh)⟩
  | cons request requests ih =>
    obtain ⟨memory, mid, rest, hcall, hrest, rfl⟩ := consumes_cons h
    obtain ⟨start, hstart, hfits, ⟨-, rfl, rfl⟩ | ⟨-, rfl, rfl⟩⟩ := consume_ok hcall
    all_goals obtain rfl : addr = start := Option.some.inj (haddr.symm.trans hstart)
    · obtain ⟨addr', haddr', hcovers⟩ := ih rfl hrest
      refine ⟨addr', haddr', fun a hlow hhigh => ?_⟩
      obtain ⟨part, hpart, ha⟩ := hcovers a hlow (by simp only; omega)
      exact ⟨part, List.mem_cons_of_mem _ hpart, ha⟩
    · have hmid : ({ pool with size_ := pool.size_ - request.size } : Pool).addr_ = some addr := haddr
      obtain ⟨addr', haddr', hcovers⟩ := ih hmid hrest
      refine ⟨addr', haddr', fun a hlow hhigh => ?_⟩
      rcases Nat.lt_or_ge a (addr + (pool.size_ - request.size)) with hbelow | habove
      · obtain ⟨part, hpart, ha⟩ := hcovers a hlow hbelow
        exact ⟨part, List.mem_cons_of_mem _ hpart, ha⟩
      · exact ⟨_, .head _, (part_holds _ _ _ _).mpr ⟨habove, by omega⟩⟩

/-- What the last request from the front returns starts where the unused range starts, or where
it ended: there is no place for it. -/
theorem conflict_of_forward {requests : List Request} {pool pool' : Pool} {memories : List Memory}
    {addr : ℕ} (haddr : pool.addr_ = some addr) (hforward : ∃ request ∈ requests, request.Forward)
    (h : pool.consumes requests = some (memories, pool')) :
    ¬ memories.Pairwise Memory.Apart ∨
      ∃ part ∈ memories, ∃ a, part.Holds a ∧ (pool'.Holds a ∨ addr + pool.size_ ≤ a) := by
  induction requests generalizing pool memories addr with
  | nil =>
    obtain ⟨request, hrequest, -⟩ := hforward
    cases hrequest
  | cons request requests ih =>
    obtain ⟨memory, mid, rest, hcall, hrest, rfl⟩ := consumes_cons h
    obtain ⟨start, hstart, hfits, hcases⟩ := consume_ok hcall
    obtain rfl : addr = start := Option.some.inj (haddr.symm.trans hstart)
    -- an address behind the range of `mid` is one of the new piece, or behind the range
    have hbehind : ∃ addr', mid.addr_ = some addr' ∧ ∀ a, addr' + mid.size_ ≤ a →
        memory.Holds a ∨ addr + pool.size_ ≤ a := by
      rcases hcases with ⟨-, rfl, rfl⟩ | ⟨-, rfl, rfl⟩
      · refine ⟨_, rfl, fun a ha => .inr ?_⟩
        simp only at ha
        omega
      · refine ⟨_, haddr, fun a ha => ?_⟩
        rw [part_holds]
        simp only at ha
        omega
    obtain ⟨addr', haddr', hbehind⟩ := hbehind
    by_cases hlater : ∃ request ∈ requests, request.Forward
    · rcases ih haddr' hlater hrest with hmeet | ⟨part, hpart, a, ha, hwhere⟩
      · exact .inl fun hapart => hmeet (List.pairwise_cons.mp hapart).2
      · rcases hwhere with hunused | hend
        · exact .inr ⟨part, List.mem_cons_of_mem _ hpart, a, ha, .inl hunused⟩
        · rcases hbehind a hend with hmemory | hend
          · exact .inl fun hapart => (List.pairwise_cons.mp hapart).1 part hpart a hmemory ha
          · exact .inr ⟨part, List.mem_cons_of_mem _ hpart, a, ha, .inr hend⟩
    · -- the last one: its first address
      have hnow : request.Forward := by
        obtain ⟨other, hother, hf⟩ := hforward
        rcases List.mem_cons.mp hother with rfl | hother
        · exact hf
        · exact absurd ⟨other, hother, hf⟩ hlater
      have hback : ∀ request ∈ requests, ¬ request.Forward :=
        fun request hrequest hf => hlater ⟨request, hrequest, hf⟩
      obtain ⟨rfl, rfl⟩ : memory = pool.part (addr + request.size) request.size ∧
          mid = { pool with addr_ := some (addr + request.size),
                            size_ := pool.size_ - request.size } := by
        rcases hcases with ⟨-, hmemory, hmid⟩ | ⟨hreverse, -⟩
        · exact ⟨hmemory, hmid⟩
        · rw [hnow.1] at hreverse
          cases hreverse
      have hpiece : (pool.part (addr + request.size) request.size).Holds (addr + request.size) :=
        (part_holds _ _ _ _).mpr ⟨le_rfl, Nat.lt_add_of_pos_right (Nat.pos_of_ne_zero hnow.2)⟩
      have hlast := (consumes_backward rfl hback hrest).1
      obtain ⟨addr'', haddr'', hcovers⟩ := consumes_covers rfl hrest
      obtain rfl : addr'' = addr + request.size := Option.some.inj (haddr''.symm.trans hlast)
      rcases Nat.lt_or_ge (addr + request.size) (addr + pool.size_) with hin | hout
      · rcases Nat.eq_zero_or_pos pool'.size_ with hempty | hleft
        · obtain ⟨part, hpart, ha⟩ :=
            hcovers (addr + request.size) (by omega) (by simp only; omega)
          exact .inl fun hapart => (List.pairwise_cons.mp hapart).1 part hpart _ hpiece ha
        · exact .inr ⟨_, .head _, _, hpiece,
            .inl ((holds_iff hlast _).mpr ⟨le_rfl, Nat.lt_add_of_pos_right hleft⟩)⟩
      · exact .inr ⟨_, .head _, _, hpiece, .inr hout⟩

end Pool

/-! ## Section 3: Allocation -/

/-- The box level takes the end of a fresh slice. -/
theorem consume_eq_pool {loader : Loader} {slices : List Slice} {memory : Memory}
    {region : Region} (h : consume loader slices memory = some region) :
    ∃ best ∈ slices, ∃ part,
      (Memory.fresh ⟨best.name, best.mode, some best.addr, best.size, best.align⟩).consume
        memory.size memory.align true = (.ok part, ⟨⟨best.name, best.mode, some best.addr,
          best.size, best.align⟩, some best.addr, best.size - memory.size⟩) ∧
      part.region? = some region := by
  unfold consume at h
  cases halign : memory.align with
  | some align =>
    rw [halign] at h
    cases h
  | none =>
    rw [halign] at h
    obtain ⟨best, hbest, rfl⟩ := Option.map_eq_some_iff.mp h
    obtain ⟨hmem, hcompatible⟩ := bestmemory_spec hbest
    unfold Slice.iscompatible at hcompatible
    rw [Bool.and_eq_true, decide_eq_true_eq] at hcompatible
    refine ⟨best, hmem, ⟨best.name, best.mode, some (best.addr + (best.size - memory.size)),
      memory.size, none⟩, ?_, rfl⟩
    unfold Pool.consume Memory.fresh
    rw [if_neg (by decide), if_neg (Nat.not_lt_of_ge hcompatible.2)]
    rfl

/-- A memory hands out disjoint space if and only if no byte is asked for from its front. -/
theorem allocation_iff (memory : Memory) (requests : List Pool.Request) (memories : List Memory)
    (pool : Pool) (h : memory.fresh.consumes requests = some (memories, pool)) :
    Allocation memory requests memories pool ↔ ∀ request ∈ requests, ¬ request.Forward := by
  obtain ⟨hsizes, htotal⟩ := Pool.sizes_consumes h
  cases haddr : memory.addr with
  | none =>
    -- no call returns
    have hnone : requests = [] := by
      cases requests with
      | nil => rfl
      | cons request requests =>
        obtain ⟨_, _, _, hcall, -⟩ := Pool.consumes_cons h
        obtain ⟨addr, hsome, -⟩ := Pool.consume_ok hcall
        rw [Memory.fresh, haddr] at hsome
        cases hsome
    subst hnone
    cases h
    refine ⟨fun _ request hrequest => absurd hrequest List.not_mem_nil,
      fun _ => ⟨hsizes, ?_, .nil, ?_, htotal, ?_⟩⟩
    · intro part hpart
      cases hpart
    · intro part hpart
      cases hpart
    · exact fun size reverse hfull => Pool.consume_unfit reverse hfull
  | some addr =>
    have hfresh : memory.fresh.addr_ = some addr := haddr
    have hwhole : memory.region? = some ⟨addr, memory.size⟩ := by
      unfold Memory.region?
      rw [haddr]
      rfl
    constructor
    · intro halloc request hrequest hforward
      rcases Pool.conflict_of_forward hfresh ⟨request, hrequest, hforward⟩ h with
        hmeet | ⟨part, hpart, a, ha, hunused | hend⟩
      · exact hmeet halloc.disjoint
      · exact halloc.unused part hpart a ha hunused
      · obtain ⟨region, whole, hregion, hsome, hwithin⟩ := halloc.inside part hpart
        obtain ⟨region', hregion', hcontains⟩ := ha
        obtain rfl : region = region' := Option.some.inj (hregion.symm.trans hregion')
        obtain rfl : ⟨addr, memory.size⟩ = whole := Option.some.inj (hwhole.symm.trans hsome)
        exact absurd (hwithin.contains hcontains).2 (Nat.not_lt_of_ge hend)
    · intro hback
      obtain ⟨hlast, hapart, hinside, hbehind⟩ := Pool.consumes_backward hfresh hback h
      refine ⟨hsizes, ?_, hapart, ?_, htotal, ?_⟩
      · intro part hpart
        obtain ⟨region, hregion, hlow, hhigh⟩ := hinside part hpart
        exact ⟨region, _, hregion, hwhole, hlow, hhigh⟩
      · intro part hpart a ha hunused
        have hlow := (hbehind part hpart a ha).1
        rw [Pool.holds_iff hlast] at hunused
        omega
      · exact fun size reverse hfull => Pool.consume_unfit reverse hfull

/-- Both ends of sixteen bytes, the front with no bytes -/
theorem allocation_ends :
    Allocation ⟨"ram", ⟨true, true, false, false⟩, some 0, 16, none⟩ [⟨0, false⟩, ⟨4, true⟩]
      [⟨"ram", ⟨true, true, false, false⟩, some 0, 0, none⟩,
        ⟨"ram", ⟨true, true, false, false⟩, some 12, 4, none⟩]
      ⟨⟨"ram", ⟨true, true, false, false⟩, some 0, 16, none⟩, some 0, 12⟩ :=
  (allocation_iff _ _ _ _ (by decide)).mpr (by decide)

/-- Four bytes from the front of sixteen: the second four are returned, and stay unused. -/
theorem front_not_allocation :
    ∃ memories pool, (Memory.fresh ⟨"ram", ⟨true, true, false, false⟩, some 0, 16, none⟩).consumes
        [⟨4, false⟩] = some (memories, pool) ∧
      ¬ Allocation ⟨"ram", ⟨true, true, false, false⟩, some 0, 16, none⟩ [⟨4, false⟩] memories
        pool := by
  refine ⟨[⟨"ram", ⟨true, true, false, false⟩, some 4, 4, none⟩],
    ⟨⟨"ram", ⟨true, true, false, false⟩, some 0, 16, none⟩, some 4, 12⟩, by decide, ?_⟩
  intro halloc
  exact halloc.unused _ (.head _) 4 ⟨⟨4, 4⟩, rfl, by decide⟩ ⟨⟨4, 12⟩, rfl, by decide⟩

end BentoLinker.Recipe
