import Mathlib.Data.List.Nodup
import Mathlib.Logic.Function.Basic

/-!
# Traced Memory

A memory from addresses to values that records the addresses stored to.

- `store`, `storeAll`: one store, and a list of stores in order
- `Tracks t t'`: `t'` comes from `t` by stores; whatever the trace does not name is
  unchanged
- `cells_storeAll`: what a list of stores to distinct addresses leaves in memory

The trace makes "where does this code write" a question about a list.
-/

/-- A memory together with the addresses stored to, latest first. -/
structure TracedMemory (α β : Type) where
  cells : α → β
  stores : List α

namespace TracedMemory

variable {α β : Type} [DecidableEq α]

/-- Store one value. -/
def store (t : TracedMemory α β) (a : α) (v : β) : TracedMemory α β :=
  ⟨Function.update t.cells a v, a :: t.stores⟩

/-- Stores in the order of the list. -/
def storeAll (t : TracedMemory α β) (writes : List (α × β)) : TracedMemory α β :=
  writes.foldl (fun t w => t.store w.1 w.2) t

@[simp] theorem stores_store (t : TracedMemory α β) (a : α) (v : β) :
    (t.store a v).stores = a :: t.stores := rfl

theorem cells_store (t : TracedMemory α β) (a : α) (v : β) (b : α) :
    (t.store a v).cells b = if b = a then v else t.cells b :=
  Function.update_apply t.cells a v b

@[simp] theorem cells_store_self (t : TracedMemory α β) (a : α) (v : β) :
    (t.store a v).cells a = v := by
  rw [cells_store, if_pos rfl]

theorem cells_store_of_ne {t : TracedMemory α β} {a b : α} {v : β} (h : b ≠ a) :
    (t.store a v).cells b = t.cells b := by
  rw [cells_store, if_neg h]

@[simp] theorem stores_storeAll (t : TracedMemory α β) (writes : List (α × β)) :
    (t.storeAll writes).stores = (writes.map Prod.fst).reverse ++ t.stores := by
  induction writes generalizing t with
  | nil => rfl
  | cons w writes ih =>
    rw [storeAll, List.foldl_cons]
    change ((t.store w.1 w.2).storeAll writes).stores = _
    rw [ih, stores_store, List.map_cons, List.reverse_cons, List.append_assoc]
    rfl

theorem cells_storeAll_of_notMem {t : TracedMemory α β} {writes : List (α × β)} {b : α}
    (h : b ∉ writes.map Prod.fst) : (t.storeAll writes).cells b = t.cells b := by
  induction writes generalizing t with
  | nil => rfl
  | cons w writes ih =>
    rw [List.map_cons, List.mem_cons, not_or] at h
    rw [storeAll, List.foldl_cons]
    change ((t.store w.1 w.2).storeAll writes).cells b = _
    rw [ih h.2, cells_store_of_ne h.1]

/-- Stores to distinct addresses leave each its value. -/
theorem cells_storeAll {t : TracedMemory α β} {writes : List (α × β)} {a : α} {v : β}
    (hnodup : (writes.map Prod.fst).Nodup) (h : (a, v) ∈ writes) :
    (t.storeAll writes).cells a = v := by
  induction writes generalizing t with
  | nil => cases h
  | cons w writes ih =>
    rw [List.map_cons, List.nodup_cons] at hnodup
    rw [storeAll, List.foldl_cons]
    change ((t.store w.1 w.2).storeAll writes).cells a = _
    rcases List.mem_cons.mp h with rfl | h
    · rw [cells_storeAll_of_notMem hnodup.1, cells_store_self]
    · exact ih hnodup.2 h

/-! ## What stores leave alone -/

/-- `t'` comes from `t` by stores to `new`, latest first; nothing else has changed. -/
structure Tracks (new : List α) (t t' : TracedMemory α β) : Prop where
  stores : t'.stores = new ++ t.stores
  cells : ∀ b, b ∉ new → t'.cells b = t.cells b

omit [DecidableEq α] in
theorem Tracks.refl (t : TracedMemory α β) : Tracks [] t t :=
  ⟨rfl, fun _ _ => rfl⟩

theorem Tracks.store {new : List α} {t t' : TracedMemory α β} (h : Tracks new t t') (a : α)
    (v : β) : Tracks (a :: new) t (t'.store a v) where
  stores := by rw [stores_store, h.stores, List.cons_append]
  cells := by
    intro b hb
    rw [List.mem_cons, not_or] at hb
    rw [cells_store_of_ne hb.1, h.cells b hb.2]

theorem Tracks.storeAll {new : List α} {t t' : TracedMemory α β} (h : Tracks new t t')
    (writes : List (α × β)) :
    Tracks ((writes.map Prod.fst).reverse ++ new) t (t'.storeAll writes) where
  stores := by rw [stores_storeAll, h.stores, List.append_assoc]
  cells := by
    intro b hb
    rw [List.mem_append, List.mem_reverse, not_or] at hb
    rw [cells_storeAll_of_notMem hb.1, h.cells b hb.2]

end TracedMemory
