import Mathlib.Data.List.Basic

/-!
# Bounded queues

A first-in first-out queue of at most `C` elements.  Both operations move as
many elements as fit or are there, and return how many they moved.  Memories
of elements are functions of the index.
-/

namespace Uhs.Support

/-- A list of at most `C` elements. -/
structure Fifo (α : Type*) (C : ℕ) where
  items : List α
  bounded : items.length ≤ C

namespace Fifo

variable {α : Type*} {C : ℕ}

/-- The empty queue. -/
def empty : Fifo α C where
  items := []
  bounded := Nat.zero_le C

/-- Append the first `min len (C - count)` elements of `src`. -/
def enqueue (f : Fifo α C) (src : ℕ → α) (len : ℕ) : Fifo α C × ℕ :=
  let n := min len (C - f.items.length)
  (⟨f.items ++ (List.range n).map src, by
    have hfree : n ≤ C - f.items.length := Nat.min_le_right _ _
    have hbound := f.bounded
    rw [List.length_append, List.length_map, List.length_range]
    omega⟩, n)

/-- Move the first `min len count` elements to `dst`. -/
def dequeue (f : Fifo α C) (dst : ℕ → α) (len : ℕ) :
    Fifo α C × (ℕ → α) × ℕ :=
  let n := min len f.items.length
  (⟨f.items.drop n, by
    have hbound := f.bounded
    rw [List.length_drop]
    omega⟩, fun i => (f.items.take n).getD i (dst i), n)

/-- Append one element: the queue and the number appended. -/
def push (f : Fifo α C) (x : α) : Fifo α C × ℕ := f.enqueue (fun _ => x) 1

/-- Move the first element to `dst`: the queue, `dst` and the number moved. -/
def pop (f : Fifo α C) (dst : α) : Fifo α C × α × ℕ :=
  let (f, dst, n) := f.dequeue (fun _ => dst) 1
  (f, dst 0, n)

/-- Nothing is moved out of an empty queue. -/
theorem pop_of_items_nil {f : Fifo α C} (h : f.items = []) (dst : α) :
    f.pop dst = (f, dst, 0) := by
  obtain ⟨items, bounded⟩ := f
  obtain rfl : items = [] := h
  rfl

end Fifo

end Uhs.Support
