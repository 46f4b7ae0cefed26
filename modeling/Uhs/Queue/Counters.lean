import Uhs.Queue.MixQueue
import Uhs.Support.RingSlots

/-!
# Free-running counters of a queue

The counters of a queue are positions modulo `2 ^ 32`.  Slots and differences
computed from them are those of the positions themselves.
-/

namespace Uhs

open Support

/-- The slot of element `i` of a copy that starts at `count`. -/
def slotOf (mask count : UInt32) (i : ℕ) : ℕ :=
  ((count + UInt32.ofNat i) &&& mask).toNat

variable {mask : UInt32} {k : ℕ}

theorem slotOf_eq (hmask : mask.toNat = 2 ^ k - 1) (hk : k ≤ 31)
    (count : UInt32) (i : ℕ) :
    slotOf mask count i = (count.toNat + i) % 2 ^ k := by
  rw [slotOf, UInt32.toNat_and, hmask, Nat.and_two_pow_sub_one_eq_mod,
    UInt32.toNat_add, UInt32.toNat_ofNat', Nat.add_mod_mod,
    Nat.mod_mod_of_dvd _ (Nat.pow_dvd_pow 2 (by omega))]

/-- The slot of a position. -/
theorem slotOf_ofNat (hmask : mask.toNat = 2 ^ k - 1) (hk : k ≤ 31)
    (p i : ℕ) : slotOf mask (UInt32.ofNat p) i = (p + i) % 2 ^ k := by
  rw [slotOf_eq hmask hk, UInt32.toNat_ofNat',
    slot_wrap (Nat.pow_dvd_pow 2 (by omega))]

theorem ofNat_add_ofNat (p n : ℕ) :
    UInt32.ofNat p + UInt32.ofNat n = UInt32.ofNat (p + n) :=
  (UInt32.ofNat_add p n).symm

/-- The number of positions between two counters. -/
theorem toNat_ofNat_sub_ofNat {p q : ℕ} (hle : q ≤ p) (hlt : p - q < 2 ^ 32) :
    (UInt32.ofNat p - UInt32.ofNat q).toNat = p - q := by
  rw [UInt32.toNat_sub, UInt32.toNat_ofNat', UInt32.toNat_ofNat']
  omega

theorem toNat_capacity (hmask : mask.toNat = 2 ^ k - 1) (hk : k ≤ 31) :
    (mask + 1).toNat = 2 ^ k := by
  have hle : 2 ^ k ≤ 2 ^ 31 := Nat.pow_le_pow_right (by decide) hk
  rw [UInt32.toNat_add, hmask, UInt32.toNat_one,
    Nat.sub_add_cancel (Nat.two_pow_pos k)]
  exact Nat.mod_eq_of_lt (hle.trans_lt (by decide))

/-- The free slots between two counters. -/
theorem toNat_mixQueueUnused (hmask : mask.toNat = 2 ^ k - 1) (hk : k ≤ 31)
    {p q : ℕ} (hle : q ≤ p) (hfull : p ≤ q + 2 ^ k) :
    (mixQueueUnused mask (UInt32.ofNat p) (UInt32.ofNat q)).toNat =
      2 ^ k - (p - q) := by
  have hcap := toNat_capacity hmask hk
  have hpow : 2 ^ k ≤ 2 ^ 31 := Nat.pow_le_pow_right (by decide) hk
  have hsub := toNat_ofNat_sub_ofNat hle (by omega)
  have hpos := Nat.two_pow_pos k
  rw [mixQueueUnused, UInt32.toNat_sub_of_le, hcap, hsub]
  rw [UInt32.le_iff_toNat_le, hcap, hsub]
  omega

/-- The length of a copy never exceeds what fits or is there. -/
theorem toNat_clamp (len l : UInt32) :
    (clamp len l).toNat = min len.toNat l.toNat := by
  rw [clamp]
  split_ifs with h
  · have hlt := UInt32.lt_iff_toNat_lt.mp h
    omega
  · have hle := UInt32.le_iff_toNat_le.mp (UInt32.not_lt.mp h)
    omega

end Uhs
