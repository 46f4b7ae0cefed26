import Mathlib.Data.List.GetD
import Mathlib.Data.Nat.Basic

/-!
# Block devices

A block device is known only through the blocks read from it.  The single law
says that a write of consecutive blocks is seen by later reads of them and by
no other read.
-/

namespace Uhs.Support

/-- A device `σ` of blocks `β` with reads and writes of consecutive blocks. -/
class BlockDevice (σ : Type*) (β : outParam Type*) where
  /-- Contents of one block. -/
  read : σ → ℕ → β
  /-- Write consecutive blocks from an offset on. -/
  write : σ → ℕ → List β → σ
  read_write : ∀ d offset blocks a,
    read (write d offset blocks) a =
      if offset ≤ a then blocks.getD (a - offset) (read d a) else read d a

namespace BlockDevice

variable {σ β : Type*} [BlockDevice σ β]

theorem read_write_singleton (d : σ) (offset : ℕ) (x : β) (a : ℕ) :
    read (write d offset [x]) a = if a = offset then x else read d a := by
  rw [read_write]
  rcases lt_trichotomy a offset with hlt | rfl | hgt
  · rw [if_neg (by omega), if_neg (by omega)]
  · simp
  · rw [if_pos (by omega), if_neg (by omega),
      List.getD_eq_default _ _ (by simpa using by omega)]

theorem read_write_of_notMem (d : σ) (offset : ℕ) (blocks : List β) {a : ℕ}
    (ha : a < offset ∨ offset + blocks.length ≤ a) :
    read (write d offset blocks) a = read d a := by
  rw [read_write]
  split
  · exact List.getD_eq_default _ _ (by omega)
  · rfl

theorem read_write_of_mem (d : σ) (offset : ℕ) (blocks : List β) {a : ℕ}
    (hle : offset ≤ a) (hlt : a < offset + blocks.length) :
    read (write d offset blocks) a = blocks[a - offset] := by
  rw [read_write, if_pos hle, List.getD_eq_getElem]

/-- The device whose state is the table of its blocks. -/
instance table (β : Type*) : BlockDevice (ℕ → β) β where
  read d a := d a
  write d offset blocks a :=
    if offset ≤ a then blocks.getD (a - offset) (d a) else d a
  read_write _ _ _ _ := rfl

end BlockDevice

end Uhs.Support
