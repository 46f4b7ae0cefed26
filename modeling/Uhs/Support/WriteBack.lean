import Mathlib.Data.Finset.Card
import Mathlib.Logic.Function.Basic

/-!
# A bounded write-back map

The map holds the latest data of at most `cap` keys.  A write of a key it
holds replaces the data.  A write of another key adds that key, after all keys
have been written back when there was no room left.
-/

namespace Uhs.Support

/-- The keys held and the data written to them. -/
structure WriteBack (κ β : Type*) where
  dirty : Finset κ
  data : κ → β

variable {κ β : Type*} [DecidableEq κ]

/-- The write of `k` first writes all keys back. -/
def WriteBack.Flushes (w : WriteBack κ β) (cap : ℕ) (k : κ) : Prop :=
  k ∉ w.dirty ∧ w.dirty.card = cap

instance (w : WriteBack κ β) (cap : ℕ) (k : κ) : Decidable (w.Flushes cap k) :=
  inferInstanceAs (Decidable (_ ∧ _))

/-- Write `x` to `k`. -/
def WriteBack.write (w : WriteBack κ β) (cap : ℕ) (k : κ) (x : β) :
    WriteBack κ β where
  dirty := insert k (if w.Flushes cap k then ∅ else w.dirty)
  data := Function.update w.data k x

/-- The map that holds no key. -/
def WriteBack.clean (data : κ → β) : WriteBack κ β := ⟨∅, data⟩

variable {w : WriteBack κ β} {cap : ℕ} {k : κ} {x : β}

theorem WriteBack.write_dirty_of_mem (hk : k ∈ w.dirty) :
    (w.write cap k x).dirty = w.dirty := by
  have hflush : ¬ w.Flushes cap k := fun h => h.1 hk
  simp [write, hflush, hk]

theorem WriteBack.write_dirty_of_flushes (h : w.Flushes cap k) :
    (w.write cap k x).dirty = {k} := by
  simp [write, h]

theorem WriteBack.write_dirty_of_not (h : ¬ w.Flushes cap k) :
    (w.write cap k x).dirty = insert k w.dirty := by
  simp [write, h]

theorem WriteBack.write_data_self : (w.write cap k x).data k = x := by
  simp [write]

theorem WriteBack.write_data_of_ne {j : κ} (hj : j ≠ k) :
    (w.write cap k x).data j = w.data j := by
  simp [write, hj]

end Uhs.Support
