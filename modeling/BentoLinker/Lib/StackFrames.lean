import Mathlib.Data.List.Pairwise
import Mathlib.Data.Nat.Notation
import Mathlib.Tactic.TypeStar

/-!
# Stack Frames

Frames on a stack that grows up or down, in the order in which they are taken off again.

- `Frame`: some bytes, and the stack pointer that they were taken from
- `Growth.Between`: the bytes of a frame are between its stack pointer and the next one
- `Stacked`: a stack pointer with the frames that it was moved for
- `Stacked.behind`, `Stacked.apart`: frames do not overlap

Pointers are of any type that can be read as numbers.
-/

namespace StackFrames

inductive Growth where
  | up
  | down
  deriving DecidableEq, Repr

/-- Bytes `[ptr, ptr + size)`, and the stack pointer from before they were taken -/
structure Frame (ω : Type*) where
  ptr : ω
  size : ω
  saved : ω
  deriving DecidableEq, Repr

section Frames

variable {ω : Type*} (val : ω → ℕ)

/-- Two frames have no byte in common. -/
def Frame.Apart (f f' : Frame ω) : Prop :=
  val f.ptr + val f.size ≤ val f'.ptr ∨ val f'.ptr + val f'.size ≤ val f.ptr

/-- A frame is between the stack pointer it was taken from and another one. -/
def Growth.Between : Growth → ω → Frame ω → Prop
  | .up, sp, f => val f.saved ≤ val f.ptr ∧ val f.ptr + val f.size ≤ val sp
  | .down, sp, f => val sp ≤ val f.ptr ∧ val f.ptr + val f.size ≤ val f.saved

/-- A frame is on the side of a stack pointer that is in use. -/
def Growth.Behind : Growth → ω → Frame ω → Prop
  | .up, sp, f => val f.ptr + val f.size ≤ val sp
  | .down, sp, f => val sp ≤ val f.ptr

variable (g : Growth) (valid : ω → Prop) (holds : ω → Frame ω → Prop)

/-- A stack pointer with the frames it was moved for, the latest first. Stack pointers are `valid`,
and of a frame and the stack pointer behind it something `holds`. -/
def Stacked : ω → List (Frame ω) → Prop
  | sp, [] => valid sp
  | sp, f :: frames =>
    valid sp ∧ g.Between val sp f ∧ holds sp f ∧ Stacked f.saved frames

variable {val g valid holds} {sp : ω} {f : Frame ω} {frames : List (Frame ω)}

theorem Growth.behind_of_between (h : g.Between val sp f) : g.Behind val sp f := by
  cases g with
  | up => exact h.2
  | down => exact h.1

/-- What is behind the old stack pointer is behind the new one. -/
theorem Growth.Behind.between {f' : Frame ω} (h : g.Behind val f.saved f')
    (hf : g.Between val sp f) : g.Behind val sp f' := by
  cases g with
  | up =>
    obtain ⟨hle, hle'⟩ := hf
    have hbehind : val f'.ptr + val f'.size ≤ val f.saved := h
    change _ ≤ _
    omega
  | down =>
    obtain ⟨hle, hle'⟩ := hf
    have hbehind : val f.saved ≤ val f'.ptr := h
    change _ ≤ _
    omega

/-- A new frame is apart from what is behind the stack pointer it was taken from. -/
theorem Growth.Between.apart {f' : Frame ω} (hf : g.Between val sp f)
    (h : g.Behind val f.saved f') : f.Apart val f' := by
  cases g with
  | up =>
    have hbehind : val f'.ptr + val f'.size ≤ val f.saved := h
    exact .inr (Nat.le_trans hbehind hf.1)
  | down =>
    have hbehind : val f.saved ≤ val f'.ptr := h
    exact .inl (Nat.le_trans hf.2 hbehind)

namespace Stacked

theorem pointer (h : Stacked val g valid holds sp frames) : valid sp := by
  cases frames with
  | nil => exact h
  | cons f frames => exact h.1

theorem behind (h : Stacked val g valid holds sp frames) :
    ∀ f ∈ frames, g.Behind val sp f := by
  induction frames generalizing sp with
  | nil =>
    intro f hf
    cases hf
  | cons first frames ih =>
    obtain ⟨-, hbetween, -, hrest⟩ := h
    intro f hf
    rcases List.mem_cons.mp hf with rfl | hf
    · exact Growth.behind_of_between hbetween
    · exact (ih hrest f hf).between hbetween

theorem apart (h : Stacked val g valid holds sp frames) : frames.Pairwise (Frame.Apart val) := by
  induction frames generalizing sp with
  | nil => exact .nil
  | cons first frames ih =>
    obtain ⟨-, hbetween, -, hrest⟩ := h
    exact .cons (fun f hf => hbetween.apart (hrest.behind f hf)) (ih hrest)

/-- Frames are where the stack pointers are. -/
theorem inside {low high : ℕ} (h : Stacked val g valid holds sp frames)
    (hvalid : ∀ sp, valid sp → low ≤ val sp ∧ val sp ≤ high) :
    ∀ f ∈ frames, low ≤ val f.ptr ∧ val f.ptr + val f.size ≤ high := by
  induction frames generalizing sp with
  | nil =>
    intro f hf
    cases hf
  | cons first frames ih =>
    obtain ⟨hsp, hbetween, -, hrest⟩ := h
    intro f hf
    rcases List.mem_cons.mp hf with rfl | hf
    · have hsp := hvalid sp hsp
      have hsaved := hvalid _ hrest.pointer
      cases g with
      | up =>
        obtain ⟨hle, hle'⟩ := hbetween
        omega
      | down =>
        obtain ⟨hle, hle'⟩ := hbetween
        omega
    · exact ih hrest f hf

end Stacked

end Frames

end StackFrames
