import Mathlib.Data.BitVec
import Mathlib.Data.Finset.Card
import Mathlib.Data.Finset.Range
import Mathlib.Logic.Function.Basic

/-!
# Bits of a byte memory

A byte memory is read bit by bit: bit `n` is bit `n % 8` of byte `n / 8`.
This module defines the three masked accesses used by every byte-wise bitmap,
their effect on one bit, and the number of set bits below a bound.
-/

namespace Uhs.Support

/-- Bytes addressed from `0`. -/
abbrev ByteMemory := ℕ → BitVec 8

/-- The mask `1 << (n & 7)`, kept in one byte. -/
def bitMask (n : ℕ) : BitVec 8 := 1#8 <<< (n &&& 7)

/-- Bit `n`, read as `(mask & byte) != 0`. -/
def testBit (m : ByteMemory) (n : ℕ) : Bool :=
  bitMask n &&& m (n >>> 3) != 0#8

/-- Set bit `n`. -/
def setBit (m : ByteMemory) (n : ℕ) : ByteMemory :=
  Function.update m (n >>> 3) (m (n >>> 3) ||| bitMask n)

/-- Clear bit `n`. -/
def clearBit (m : ByteMemory) (n : ℕ) : ByteMemory :=
  Function.update m (n >>> 3) (m (n >>> 3) &&& ~~~(bitMask n))

/-- Zero the first `k` bytes. -/
def zeroBytes (m : ByteMemory) (k : ℕ) : ByteMemory :=
  fun a => if a < k then 0#8 else m a

theorem and_seven (n : ℕ) : n &&& 7 = n % 8 :=
  Nat.and_two_pow_sub_one_eq_mod n 3

theorem shiftRight_three (n : ℕ) : n >>> 3 = n / 8 :=
  Nat.shiftRight_eq_div_pow n 3

theorem bitMask_getLsbD (n i : ℕ) (_hi : i < 8) :
    (bitMask n).getLsbD i = decide (i = n % 8) := by
  have hn : n % 8 < 8 := Nat.mod_lt n (by decide)
  rw [bitMask, and_seven, BitVec.getLsbD_shiftLeft, BitVec.getLsbD_one]
  by_cases heq : i = n % 8
  · simp [heq, hn]
  · simp [heq]
    omega

theorem testBit_eq_getLsbD (m : ByteMemory) (n : ℕ) :
    testBit m n = (m (n / 8)).getLsbD (n % 8) := by
  have hn : n % 8 < 8 := Nat.mod_lt n (by decide)
  rw [testBit, shiftRight_three]
  cases hbit : (m (n / 8)).getLsbD (n % 8) with
  | true =>
      have hne : bitMask n &&& m (n / 8) ≠ 0#8 := by
        intro hzero
        have hlsb := congrArg (fun v : BitVec 8 => v.getLsbD (n % 8)) hzero
        simp [bitMask_getLsbD n _ hn, hbit] at hlsb
      simpa using hne
  | false =>
      have heq : bitMask n &&& m (n / 8) = 0#8 := by
        apply BitVec.eq_of_getLsbD_eq
        intro i hi
        rw [BitVec.getLsbD_and, bitMask_getLsbD n i hi]
        by_cases hin : i = n % 8
        · simp [hin, hbit]
        · simp [hin]
      simp [heq]

theorem eq_of_div_mod {n k : ℕ} (hdiv : k / 8 = n / 8) (hmod : k % 8 = n % 8) :
    k = n := by
  omega

theorem testBit_setBit (m : ByteMemory) (n k : ℕ) :
    testBit (setBit m n) k = (decide (k = n) || testBit m k) := by
  have hk : k % 8 < 8 := Nat.mod_lt k (by decide)
  rw [testBit_eq_getLsbD, testBit_eq_getLsbD, setBit,
    shiftRight_three]
  by_cases hdiv : k / 8 = n / 8
  · rw [hdiv, Function.update_self, BitVec.getLsbD_or,
      bitMask_getLsbD n _ hk]
    have hiff : k % 8 = n % 8 ↔ k = n :=
      ⟨eq_of_div_mod hdiv, fun h => by rw [h]⟩
    simp [hiff, Bool.or_comm]
  · have hne : k ≠ n := fun h => hdiv (by rw [h])
    rw [Function.update_of_ne hdiv]
    simp [hne]

theorem testBit_clearBit (m : ByteMemory) (n k : ℕ) :
    testBit (clearBit m n) k = (!decide (k = n) && testBit m k) := by
  have hk : k % 8 < 8 := Nat.mod_lt k (by decide)
  rw [testBit_eq_getLsbD, testBit_eq_getLsbD, clearBit,
    shiftRight_three]
  by_cases hdiv : k / 8 = n / 8
  · rw [hdiv, Function.update_self, BitVec.getLsbD_and,
      BitVec.getLsbD_not, bitMask_getLsbD n _ hk]
    have hiff : k % 8 = n % 8 ↔ k = n :=
      ⟨eq_of_div_mod hdiv, fun h => by rw [h]⟩
    simp [hiff, hk, Bool.and_comm]
  · have hne : k ≠ n := fun h => hdiv (by rw [h])
    rw [Function.update_of_ne hdiv]
    simp [hne]

theorem testBit_zeroBytes (m : ByteMemory) (k n : ℕ) :
    testBit (zeroBytes m k) n = (decide (8 * k ≤ n) && testBit m n) := by
  rw [testBit_eq_getLsbD, testBit_eq_getLsbD, zeroBytes]
  by_cases hlt : n / 8 < k
  · have hn : ¬ 8 * k ≤ n := by omega
    simp [hlt, hn]
  · have hn : 8 * k ≤ n := by omega
    simp [hlt, hn]

/-- Setting a bit that is set changes nothing. -/
theorem setBit_eq_self {m : ByteMemory} {n : ℕ} (h : testBit m n = true) :
    setBit m n = m := by
  have hn : n % 8 < 8 := Nat.mod_lt n (by decide)
  rw [testBit_eq_getLsbD] at h
  rw [setBit, shiftRight_three, Function.update_eq_self_iff]
  apply BitVec.eq_of_getLsbD_eq
  intro i hi
  rw [BitVec.getLsbD_or, bitMask_getLsbD n i hi]
  by_cases hin : i = n % 8
  · simp [hin, h]
  · simp [hin]

/-! ## Counting set bits -/

/-- The set bits below `n`. -/
def setBits (m : ByteMemory) (n : ℕ) : Finset ℕ :=
  (Finset.range n).filter fun i => testBit m i = true

@[simp] theorem mem_setBits {m : ByteMemory} {n i : ℕ} :
    i ∈ setBits m n ↔ i < n ∧ testBit m i = true := by
  simp [setBits]

theorem setBits_setBit {m : ByteMemory} {n i : ℕ} (hi : i < n) :
    setBits (setBit m i) n = insert i (setBits m n) := by
  ext j
  by_cases hj : j = i
  · simp [testBit_setBit, hj, hi]
  · simp [testBit_setBit, hj]

theorem setBits_clearBit (m : ByteMemory) (n i : ℕ) :
    setBits (clearBit m i) n = (setBits m n).erase i := by
  ext j
  by_cases hj : j = i
  · simp [testBit_clearBit, hj]
  · simp [testBit_clearBit, hj]

theorem card_setBits_setBit {m : ByteMemory} {n i : ℕ} (hi : i < n)
    (hclear : testBit m i = false) :
    (setBits (setBit m i) n).card = (setBits m n).card + 1 := by
  rw [setBits_setBit hi, Finset.card_insert_of_notMem]
  simp [hclear]

theorem card_setBits_clearBit {m : ByteMemory} {n i : ℕ} (hi : i < n)
    (hset : testBit m i = true) :
    (setBits (clearBit m i) n).card + 1 = (setBits m n).card := by
  rw [setBits_clearBit]
  exact Finset.card_erase_add_one (by simp [hi, hset])

/-- A memory with fewer than `n` set bits below `n` has a clear one. -/
theorem exists_clear_bit {m : ByteMemory} {n : ℕ}
    (hcard : (setBits m n).card < n) :
    ∃ i < n, testBit m i = false := by
  by_contra hall
  push Not at hall
  have hfull : setBits m n = Finset.range n := by
    ext i
    constructor
    · intro hi
      exact Finset.mem_range.mpr (mem_setBits.mp hi).1
    · intro hi
      have hin := Finset.mem_range.mp hi
      exact mem_setBits.mpr ⟨hin, by simpa using hall i hin⟩
  rw [hfull, Finset.card_range] at hcard
  exact lt_irrefl n hcard

end Uhs.Support
