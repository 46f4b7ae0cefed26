import Mathlib.Data.BitVec
import Mathlib.Data.Nat.ModEq
import Mathlib.Data.Nat.Prime.Basic
import Mathlib.Logic.Function.Basic

/-!
# Mixing steps of hash functions

A hash function on words of width `w` mixes a word by steps that each can be
taken back: the exclusive or with what a shift leaves, a rotation, and the
product with an odd number, of which the sum with a shifted copy is a case.
A composition of such steps loses nothing.
-/

namespace Uhs.Support

open Function

variable {w : ℕ}

theorem xor_injective (b : BitVec w) : Injective fun v : BitVec w => v ^^^ b := by
  intro v u heq
  have h := congrArg (· ^^^ b) heq
  simpa [BitVec.xor_assoc] using h

theorem xorShift_injective {k : ℕ} (hk : 0 < k) :
    Injective fun v : BitVec w => v ^^^ v >>> k := by
  intro v u heq
  -- the difference of the two words is its own copy moved down
  have hdiff : (v ^^^ u) >>> k = v ^^^ u := by
    have heq' : v ^^^ v >>> k = u ^^^ u >>> k := heq
    rw [BitVec.ushiftRight_xor_distrib]
    calc v >>> k ^^^ u >>> k
        = v ^^^ (v ^^^ v >>> k) ^^^ u >>> k := by
          rw [← BitVec.xor_assoc, BitVec.xor_self, BitVec.zero_xor]
      _ = v ^^^ u := by
          rw [heq', BitVec.xor_assoc, BitVec.xor_assoc, BitVec.xor_self,
            BitVec.xor_zero]
  have hzero : (v ^^^ u).toNat = 0 := by
    have hnat := congrArg BitVec.toNat hdiff
    rw [BitVec.toNat_ushiftRight, Nat.shiftRight_eq_div_pow] at hnat
    by_contra hpos
    have hless := Nat.div_lt_self (Nat.pos_of_ne_zero hpos)
      (Nat.one_lt_two_pow hk.ne')
    omega
  have hxor : v ^^^ u = 0#w := BitVec.eq_of_toNat_eq (by simpa using hzero)
  exact BitVec.xor_eq_zero_iff.mp hxor

theorem rotate_injective {r : ℕ} (hr : r ≤ w) :
    Injective fun v : BitVec w => v <<< r ||| v >>> (w - r) := by
  have hbit : ∀ v : BitVec w, ∀ i < w, v.getLsbD i =
      (v <<< r ||| v >>> (w - r)).getLsbD
        (if i + r < w then i + r else i + r - w) := by
    intro v i hi
    rw [BitVec.getLsbD_or, BitVec.getLsbD_shiftLeft, BitVec.getLsbD_ushiftRight]
    by_cases hwrap : i + r < w
    · rw [if_pos hwrap, BitVec.getLsbD_of_ge v (w - r + (i + r)) (by omega)]
      simp [hwrap]
    · have hback : w - r + (i + r - w) = i := by omega
      rw [if_neg hwrap, hback]
      simp [show i + r - w < r by omega]
  intro v u heq
  apply BitVec.eq_of_getLsbD_eq
  intro i hi
  have heq' : v <<< r ||| v >>> (w - r) = u <<< r ||| u >>> (w - r) := heq
  rw [hbit v i hi, hbit u i hi, heq']

theorem eq_of_mul_odd {a b c : ℕ} (hc : c % 2 = 1) (ha : a < 2 ^ w)
    (hb : b < 2 ^ w) (heq : a * c % 2 ^ w = b * c % 2 ^ w) : a = b := by
  have hcoprime : (2 ^ w).gcd c = 1 := by
    refine Nat.Coprime.pow_left w ?_
    rw [Nat.coprime_comm, Nat.coprime_two_right]
    exact Nat.odd_iff.mpr hc
  have hmod : a ≡ b [MOD 2 ^ w] :=
    Nat.ModEq.cancel_right_of_coprime hcoprime heq
  exact hmod.eq_of_lt_of_lt ha hb

theorem mulOdd_injective {c : BitVec w} (hc : c.toNat % 2 = 1) :
    Injective fun v : BitVec w => v * c := by
  intro v u heq
  apply BitVec.eq_of_toNat_eq
  refine eq_of_mul_odd hc v.isLt u.isLt ?_
  have hnat := congrArg BitVec.toNat heq
  simpa only [BitVec.toNat_mul] using hnat

theorem addShift_injective {k : ℕ} (hk : 0 < k) :
    Injective fun v : BitVec w => v + v <<< k := by
  intro v u heq
  have hprod : ∀ v : BitVec w,
      (v + v <<< k).toNat = v.toNat * (1 + 2 ^ k) % 2 ^ w := by
    intro v
    rw [BitVec.toNat_add, BitVec.toNat_shiftLeft, Nat.shiftLeft_eq,
      Nat.add_mod_mod, Nat.mul_add, Nat.mul_one]
  have hodd : (1 + 2 ^ k) % 2 = 1 := by
    have heven : 2 ^ k = 2 * 2 ^ (k - 1) := by
      rw [← Nat.pow_succ', Nat.succ_eq_add_one, Nat.sub_add_cancel hk]
    omega
  apply BitVec.eq_of_toNat_eq
  refine eq_of_mul_odd hodd v.isLt u.isLt ?_
  have hnat := congrArg BitVec.toNat heq
  simpa only [hprod] using hnat

/-- A shift by `k` loses the low `k` bits only. -/
theorem eq_of_ushiftRight_eq {k : ℕ} {v u : BitVec w}
    (hdown : v >>> k = u >>> k) (hlow : v.setWidth k = u.setWidth k) :
    v = u := by
  apply BitVec.eq_of_getLsbD_eq
  intro i hi
  by_cases hk : i < k
  · have h := congrArg (·.getLsbD i) hlow
    simpa [hk] using h
  · have h := congrArg (·.getLsbD (i - k)) hdown
    simpa [Nat.add_sub_cancel' (Nat.le_of_not_lt hk)] using h

end Uhs.Support
