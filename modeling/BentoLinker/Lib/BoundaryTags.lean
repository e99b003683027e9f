import Mathlib.Data.List.Chain
import Mathlib.Data.List.Pairwise
import Mathlib.Data.Nat.Notation

/-!
# Boundary Tags

A memory that is cut into blocks. A block is a tag, a number of words, and the tag once more, so
that one can go from a block to the next one and to the one before.

- `Block`, `Tiles`: blocks without gaps from one address to another, with their tags in memory
- `Tiles.congr`: only the memory between these addresses matters
- `Tiles.pairwise`: the blocks are one behind the other
- `Tiles.unique`: there is one way only to read a memory as blocks
- `Separated`: no two free blocks are neighbours
- `Separated.around_used`, `Separated.around_free`: when a block may be between others
-/

namespace BoundaryTags

/-- A block at an address, with the number of words between its tags -/
structure Block where
  addr : ℕ
  size : ℕ
  used : Bool
  deriving Repr, DecidableEq

/-- The first address behind a block -/
def Block.stop (b : Block) : ℕ := b.addr + b.size + 2

/-! ## Section 1: Memory -/

section Memory

variable {τ : Type*} (tag : Bool → ℕ → τ)

/-- Both tags of a block are in memory. -/
structure Block.Tagged (mem : ℕ → τ) (b : Block) : Prop where
  head : mem b.addr = tag b.used b.size
  foot : mem (b.addr + b.size + 1) = tag b.used b.size

/-- The memory from one address to another is a list of blocks. -/
def Tiles (mem : ℕ → τ) : ℕ → List Block → ℕ → Prop
  | a, [], c => a = c
  | a, b :: blocks, c => b.addr = a ∧ b.Tagged tag mem ∧ Tiles mem b.stop blocks c

variable {tag} {mem mem' : ℕ → τ} {a c : ℕ} {blocks : List Block}

theorem tiles_append {front back : List Block} :
    Tiles tag mem a (front ++ back) c ↔
      ∃ b, Tiles tag mem a front b ∧ Tiles tag mem b back c := by
  induction front generalizing a with
  | nil =>
    constructor
    · intro h
      exact ⟨a, rfl, h⟩
    · rintro ⟨b, rfl, h⟩
      exact h
  | cons first front ih =>
    constructor
    · rintro ⟨haddr, htagged, hrest⟩
      obtain ⟨b, hfront, hback⟩ := ih.mp hrest
      exact ⟨b, ⟨haddr, htagged, hfront⟩, hback⟩
    · rintro ⟨b, ⟨haddr, htagged, hfront⟩, hback⟩
      exact ⟨haddr, htagged, ih.mpr ⟨b, hfront, hback⟩⟩

namespace Tiles

theorem le (h : Tiles tag mem a blocks c) : a ≤ c := by
  induction blocks generalizing a with
  | nil => exact Nat.le_of_eq h
  | cons b blocks ih =>
    obtain ⟨rfl, -, hrest⟩ := h
    have hle := ih hrest
    unfold Block.stop at hle
    omega

/-- A block is between the addresses. -/
theorem bounds (h : Tiles tag mem a blocks c) {b : Block} (hb : b ∈ blocks) :
    a ≤ b.addr ∧ b.stop ≤ c := by
  induction blocks generalizing a with
  | nil => cases hb
  | cons first blocks ih =>
    obtain ⟨rfl, -, hrest⟩ := h
    rcases List.mem_cons.mp hb with rfl | hb
    · exact ⟨Nat.le_refl _, hrest.le⟩
    · have hbounds := ih hrest hb
      unfold Block.stop at hbounds ⊢
      omega

theorem congr (h : Tiles tag mem a blocks c) (hmem : ∀ i, a ≤ i → i < c → mem' i = mem i) :
    Tiles tag mem' a blocks c := by
  induction blocks generalizing a with
  | nil => exact h
  | cons b blocks ih =>
    obtain ⟨rfl, ⟨hhead, hfoot⟩, hrest⟩ := h
    have hle := hrest.le
    unfold Block.stop at hle hrest
    refine ⟨rfl, ⟨?_, ?_⟩, ih hrest ?_⟩
    · rw [hmem _ (Nat.le_refl _) (by omega), hhead]
    · rw [hmem _ (by omega) (by omega), hfoot]
    · intro i hi hlt
      unfold Block.stop at hi
      exact hmem i (by omega) hlt

/-- Each block ends where the next ones begin. -/
theorem pairwise (h : Tiles tag mem a blocks c) :
    blocks.Pairwise fun b b' => b.stop ≤ b'.addr := by
  induction blocks generalizing a with
  | nil => exact .nil
  | cons b blocks ih =>
    obtain ⟨-, -, hrest⟩ := h
    exact .cons (fun b' hb' => (hrest.bounds hb').1) (ih hrest)

/-- Blocks do not overlap. -/
theorem apart (h : Tiles tag mem a blocks c) {b b' : Block} (hb : b ∈ blocks) (hb' : b' ∈ blocks)
    (hne : b ≠ b') : b.stop ≤ b'.addr ∨ b'.stop ≤ b.addr := by
  have hsymm : Std.Symm fun b b' : Block => b.stop ≤ b'.addr ∨ b'.stop ≤ b.addr :=
    ⟨fun _ _ hor => hor.symm⟩
  have hpairwise : blocks.Pairwise fun b b' => b.stop ≤ b'.addr ∨ b'.stop ≤ b.addr :=
    h.pairwise.imp Or.inl
  exact hpairwise.forall hb hb' hne

/-- No two blocks have one address. -/
theorem nodup (h : Tiles tag mem a blocks c) : (blocks.map Block.addr).Nodup := by
  rw [List.Nodup, List.pairwise_map]
  refine h.pairwise.imp fun {b b'} hle heq => ?_
  unfold Block.stop at hle
  omega

/-- New blocks between others, if nothing else is written. -/
theorem replace {front new back : List Block} {b d : ℕ} (hfront : Tiles tag mem a front b)
    (hnew : Tiles tag mem' b new d) (hback : Tiles tag mem d back c)
    (hmem : ∀ i, i < b ∨ d ≤ i → mem' i = mem i) :
    Tiles tag mem' a (front ++ (new ++ back)) c := by
  refine tiles_append.mpr ⟨b, ?_, tiles_append.mpr ⟨d, hnew, ?_⟩⟩
  · exact hfront.congr fun i _ hlt => hmem i (.inl hlt)
  · exact hback.congr fun i hle _ => hmem i (.inr hle)

/-- The last block ends where the blocks end. -/
theorem concat {front : List Block} {b : Block} (h : Tiles tag mem a (front ++ [b]) c) :
    Tiles tag mem a front b.addr ∧ b.Tagged tag mem ∧ b.stop = c := by
  obtain ⟨d, hfront, haddr, htagged, hstop⟩ := tiles_append.mp h
  subst haddr
  exact ⟨hfront, htagged, hstop⟩

/-- Where two memories are the same, so are their blocks. -/
theorem common {front back blocks' : List Block} {d limit : ℕ}
    (htag : ∀ u u' n n', n < limit → n' < limit → tag u n = tag u' n' → u = u' ∧ n = n')
    (hc : c ≤ limit) (hfront : Tiles tag mem a front d) (hback : Tiles tag mem d back c)
    (h' : Tiles tag mem' a blocks' c) (hmem : ∀ i, a ≤ i → i < d → mem' i = mem i) :
    ∃ back', blocks' = front ++ back' ∧ Tiles tag mem' d back' c := by
  induction front generalizing a blocks' with
  | nil =>
    obtain rfl : a = d := hfront
    exact ⟨blocks', rfl, h'⟩
  | cons b front ih =>
    obtain ⟨rfl, htagged, hrest⟩ := hfront
    have hle := hrest.le
    have hle' := hback.le
    unfold Block.stop at hle
    cases blocks' with
    | nil =>
      obtain rfl : b.addr = c := h'
      omega
    | cons b' blocks' =>
      obtain ⟨haddr, htagged', hrest'⟩ := h'
      have hstop' := hrest'.le
      unfold Block.stop at hstop'
      have hhead := htagged'.head
      rw [haddr, hmem _ (Nat.le_refl _) (by omega), htagged.head] at hhead
      obtain ⟨hused, hsize⟩ := htag _ _ _ _ (by omega) (by omega) hhead
      obtain rfl : b = b' := by
        cases b
        cases b'
        cases haddr
        cases hused
        cases hsize
        rfl
      have hmem' : ∀ i, b.stop ≤ i → i < d → mem' i = mem i := by
        intro i hi hlt
        unfold Block.stop at hi
        exact hmem i (by omega) hlt
      obtain ⟨back', rfl, hback'⟩ := ih hrest hrest' hmem'
      exact ⟨back', rfl, hback'⟩

/-- Tags that differ for different blocks can be read in one way only. -/
theorem unique {blocks' : List Block} {limit : ℕ}
    (htag : ∀ u u' n n', n < limit → n' < limit → tag u n = tag u' n' → u = u' ∧ n = n')
    (hc : c ≤ limit) (h : Tiles tag mem a blocks c) (h' : Tiles tag mem a blocks' c) :
    blocks' = blocks := by
  have hnil : Tiles tag mem c [] c := rfl
  obtain ⟨back', rfl, hback'⟩ := common htag hc h hnil h' fun _ _ _ => rfl
  cases back' with
  | nil => exact List.append_nil _
  | cons b' back' =>
    obtain ⟨haddr, -, hrest⟩ := hback'
    have hle := hrest.le
    unfold Block.stop at hle
    omega

end Tiles

end Memory

/-! ## Section 2: Neighbours -/

/-- Of two neighbours one is used. -/
def Separated (blocks : List Block) : Prop :=
  blocks.IsChain fun b b' => b.used ∨ b'.used

/-- The blocks in use -/
def usedBlocks (blocks : List Block) : List Block := blocks.filter Block.used

namespace Separated

variable {front back : List Block} {b : Block}

theorem left (h : Separated (front ++ back)) : Separated front := h.left_of_append

theorem right (h : Separated (front ++ back)) : Separated back := h.right_of_append

theorem tail (h : Separated (b :: back)) : Separated back :=
  right (show Separated ([b] ++ back) from h)

/-- The block behind a free one is used. -/
theorem used_of_head (h : Separated (b :: back)) (hb : b.used = false) :
    ∀ r ∈ back.head?, r.used := by
  intro r hr
  have hpair := (List.isChain_cons.mp h).1 r hr
  rwa [hb, Bool.false_eq_true, false_or] at hpair

/-- The block in front of a free one is used. -/
theorem used_of_getLast (h : Separated (front ++ b :: back)) (hb : b.used = false) :
    ∀ l ∈ front.getLast?, l.used := by
  intro l hl
  have hpair := (List.isChain_append.mp h).2.2 l hl b rfl
  rwa [hb, Bool.false_eq_true, or_false] at hpair

/-- Anything can be around a used block. -/
theorem around_used (hfront : Separated front) (hback : Separated back) (hb : b.used) :
    Separated (front ++ b :: back) := by
  refine List.isChain_append.mpr ⟨hfront, List.isChain_cons.mpr ⟨?_, hback⟩, ?_⟩
  · intro r _
    exact .inl hb
  · rintro l _ _ ⟨⟩
    exact .inr hb

/-- Used blocks can be around any block. -/
theorem around_free (hfront : Separated front) (hback : Separated back)
    (hl : ∀ l ∈ front.getLast?, l.used) (hr : ∀ r ∈ back.head?, r.used) :
    Separated (front ++ b :: back) := by
  refine List.isChain_append.mpr ⟨hfront, List.isChain_cons.mpr ⟨?_, hback⟩, ?_⟩
  · intro r hmem
    exact .inr (hr r hmem)
  · rintro l hmem _ ⟨⟩
    exact .inl (hl l hmem)

/-- All blocks are free: there is one at most. -/
theorem length_le_of_usedBlocks {blocks : List Block} (h : Separated blocks)
    (hused : usedBlocks blocks = []) : blocks.length ≤ 1 := by
  match blocks, h with
  | [], _ => exact Nat.zero_le 1
  | [_], _ => exact Nat.le_refl 1
  | b :: b' :: blocks, h =>
    have hpair := (List.isChain_cons_cons.mp h).1
    unfold usedBlocks at hused
    rw [List.filter_eq_nil_iff] at hused
    rcases hpair with hb | hb
    · exact absurd hb (hused b (.head _))
    · exact absurd hb (hused b' (.tail _ (.head _)))

end Separated

end BoundaryTags
