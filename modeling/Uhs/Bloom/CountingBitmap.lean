import Uhs.Core.Bitmap
import Uhs.Support.Nibbles

/-!
# The counting bitmap

Model of the counting functions of `mix_bitmap.c`, which keep two counters of
four bits in each byte.  An increment of `15` and a decrement of `0` report
`-1` and store nothing.
-/

namespace Uhs

open Support

/-- `mix_counting_bitmap_increment`: the result and the new bitmap. -/
def mixCountingBitmapIncrement (bitmap : MixBitmap) (index offset : ℕ) :
    ℤ × MixBitmap :=
  let access := index / 2 + offset
  let n := bitmap.array access
  let (temp, n) :=
    if index % 2 ≠ 0 then
      (n &&& 0x0f#8, (n &&& 0xf0#8) + ((n &&& 0x0f#8) + 0x01#8))
    else
      ((n &&& 0xf0#8) >>> 4, (n &&& 0x0f#8) + ((n &&& 0xf0#8) + 0x10#8))
  if temp = 0x0f#8 then
    (-1, bitmap)
  else
    (0, { bitmap with array := Function.update bitmap.array access n })

/-- `mix_counting_bitmap_decrement`: the result and the new bitmap. -/
def mixCountingBitmapDecrement (bitmap : MixBitmap) (index offset : ℕ) :
    ℤ × MixBitmap :=
  let access := index / 2 + offset
  let n := bitmap.array access
  let (temp, n) :=
    if index % 2 ≠ 0 then
      (n &&& 0x0f#8, (n &&& 0xf0#8) + ((n &&& 0x0f#8) - 0x01#8))
    else
      ((n &&& 0xf0#8) >>> 4, (n &&& 0x0f#8) + ((n &&& 0xf0#8) - 0x10#8))
  if temp = 0x00#8 then
    (-1, bitmap)
  else
    (0, { bitmap with array := Function.update bitmap.array access n })

/-- `mix_counting_bitmap_check`: the counter as it stands in its byte. -/
def mixCountingBitmapCheck (bitmap : MixBitmap) (index offset : ℕ) : ℕ :=
  let access := index / 2 + offset
  if index % 2 ≠ 0 then
    (bitmap.array access &&& 0x0f#8).toNat
  else
    (bitmap.array access &&& 0xf0#8).toNat

/-! ## Counters in a byte -/

theorem raise_low (n : BitVec 8) (h : n &&& 0x0f#8 ≠ 0x0f#8) :
    let n' := (n &&& 0xf0#8) + ((n &&& 0x0f#8) + 0x01#8)
    (n' &&& 0x0f#8).toNat = min 15 ((n &&& 0x0f#8).toNat + 1) ∧
      n' &&& 0xf0#8 = n &&& 0xf0#8 := by
  revert n
  decide +kernel

theorem raise_high (n : BitVec 8) (h : (n &&& 0xf0#8) >>> 4 ≠ 0x0f#8) :
    let n' := (n &&& 0x0f#8) + ((n &&& 0xf0#8) + 0x10#8)
    ((n' &&& 0xf0#8) >>> 4).toNat =
        min 15 (((n &&& 0xf0#8) >>> 4).toNat + 1) ∧
      n' &&& 0x0f#8 = n &&& 0x0f#8 := by
  revert n
  decide +kernel

theorem lower_low (n : BitVec 8) (h : n &&& 0x0f#8 ≠ 0x00#8) :
    let n' := (n &&& 0xf0#8) + ((n &&& 0x0f#8) - 0x01#8)
    (n' &&& 0x0f#8).toNat = (n &&& 0x0f#8).toNat - 1 ∧
      n' &&& 0xf0#8 = n &&& 0xf0#8 := by
  revert n
  decide +kernel

theorem lower_high (n : BitVec 8) (h : (n &&& 0xf0#8) >>> 4 ≠ 0x00#8) :
    let n' := (n &&& 0x0f#8) + ((n &&& 0xf0#8) - 0x10#8)
    ((n' &&& 0xf0#8) >>> 4).toNat = ((n &&& 0xf0#8) >>> 4).toNat - 1 ∧
      n' &&& 0x0f#8 = n &&& 0x0f#8 := by
  revert n
  decide +kernel

theorem high_eq_zero_iff (n : BitVec 8) :
    (n &&& 0xf0#8).toNat = 0 ↔ ((n &&& 0xf0#8) >>> 4).toNat = 0 := by
  revert n
  decide +kernel

/-! ## Counters of the bitmap -/

/-- Both functions change a nibble unless it is `stop`, by `low` or by `high`
as its counter is odd or even. -/
theorem updatesNibble_unless {f : ℕ → ℕ} {stop : BitVec 8}
    {low high : BitVec 8 → BitVec 8} (hstop : f stop.toNat = stop.toNat)
    (hlow : ∀ n : BitVec 8, n &&& 0x0f#8 ≠ stop →
      (low n &&& 0x0f#8).toNat = f (n &&& 0x0f#8).toNat ∧
        low n &&& 0xf0#8 = n &&& 0xf0#8)
    (hhigh : ∀ n : BitVec 8, (n &&& 0xf0#8) >>> 4 ≠ stop →
      ((high n &&& 0xf0#8) >>> 4).toNat = f ((n &&& 0xf0#8) >>> 4).toNat ∧
        high n &&& 0x0f#8 = n &&& 0x0f#8)
    {m m' : ByteMemory} {base i : ℕ}
    (hodd : i % 2 ≠ 0 → m' =
      if m (i / 2 + base) &&& 0x0f#8 = stop then m
      else Function.update m (i / 2 + base) (low (m (i / 2 + base))))
    (heven : ¬ i % 2 ≠ 0 → m' =
      if (m (i / 2 + base) &&& 0xf0#8) >>> 4 = stop then m
      else Function.update m (i / 2 + base) (high (m (i / 2 + base)))) :
    UpdatesNibble base i (f (nibble m base i)) m m' := by
  have hstay : half (m (i / 2 + base)) i = stop.toNat →
      UpdatesNibble base i (f (nibble m base i)) m m := by
    intro hhalf
    have hsame : f (nibble m base i) = nibble m base i := by
      rw [nibble, hhalf, hstop]
    rw [hsame]
    exact UpdatesNibble.refl base i m
  by_cases hi : i % 2 ≠ 0
  · have hnext : ¬ (i + 1) % 2 ≠ 0 := by omega
    rw [hodd hi]
    split_ifs with htemp
    · apply hstay
      rw [half_of_odd hi, htemp]
    · obtain ⟨hself, hother⟩ := hlow _ htemp
      apply updatesNibble_update
      · rw [nibble, half_of_odd hi, half_of_odd hi, hself]
      · rw [half_of_even hnext, half_of_even hnext, hother]
  · have hnext : (i + 1) % 2 ≠ 0 := by omega
    rw [heven hi]
    split_ifs with htemp
    · apply hstay
      rw [half_of_even hi, htemp]
    · obtain ⟨hself, hother⟩ := hhigh _ htemp
      apply updatesNibble_update
      · rw [nibble, half_of_even hi, half_of_even hi, hself]
      · rw [half_of_odd hnext, half_of_odd hnext, hother]

/-- A counter below `15` is raised, and `15` stays. -/
theorem mixCountingBitmapIncrement_updates (bitmap : MixBitmap)
    (index offset : ℕ) :
    UpdatesNibble offset index
      (min 15 (nibble bitmap.array offset index + 1)) bitmap.array
      (mixCountingBitmapIncrement bitmap index offset).2.array := by
  apply updatesNibble_unless (f := fun c => min 15 (c + 1)) rfl raise_low
    raise_high
  · intro hodd
    simp only [mixCountingBitmapIncrement, if_pos hodd]
    split_ifs <;> rfl
  · intro heven
    simp only [mixCountingBitmapIncrement, if_neg heven]
    split_ifs <;> rfl

/-- A counter above `0` is lowered, and `0` stays. -/
theorem mixCountingBitmapDecrement_updates (bitmap : MixBitmap)
    (index offset : ℕ) :
    UpdatesNibble offset index
      (nibble bitmap.array offset index - 1) bitmap.array
      (mixCountingBitmapDecrement bitmap index offset).2.array := by
  apply updatesNibble_unless (f := fun c => c - 1) rfl lower_low lower_high
  · intro hodd
    simp only [mixCountingBitmapDecrement, if_pos hodd]
    split_ifs <;> rfl
  · intro heven
    simp only [mixCountingBitmapDecrement, if_neg heven]
    split_ifs <;> rfl

theorem mixCountingBitmapCheck_eq_zero_iff (bitmap : MixBitmap)
    (index offset : ℕ) :
    mixCountingBitmapCheck bitmap index offset = 0 ↔
      nibble bitmap.array offset index = 0 := by
  rw [mixCountingBitmapCheck, nibble]
  by_cases hodd : index % 2 ≠ 0
  · rw [half_of_odd hodd]
    simp only [if_pos hodd]
  · rw [half_of_even hodd]
    simp only [if_neg hodd]
    exact high_eq_zero_iff _

end Uhs
