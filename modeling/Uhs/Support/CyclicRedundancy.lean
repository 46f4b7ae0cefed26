import Mathlib.Algebra.CharP.Two
import Mathlib.Algebra.Field.ZMod
import Mathlib.Algebra.Polynomial.FieldDivision
import Mathlib.Algebra.Polynomial.OfFn
import Mathlib.Data.BitVec
import Mathlib.Tactic.LinearCombination

/-!
# Cyclic redundancy codes

A word of width `w` is shifted out at its low end, and a divisor is taken off
it whenever the bit that leaves is set.  Read as polynomials over two elements
with the lowest bit at the highest power, a shift multiplies by `X` modulo
`X ^ w` plus the polynomial of the divisor, so the code of a string is the
remainder of its message polynomial, and what the code cannot tell apart is
exactly what the modulus divides.
-/

namespace Uhs.Support

open Polynomial

variable {w : ℕ}

/-! ## The register -/

/-- One bit leaves at the low end. -/
def shiftBit (p v : BitVec w) : BitVec w :=
  if v.getLsbD 0 then (v >>> 1) ^^^ p else v >>> 1

def shiftBits (p : BitVec w) : ℕ → BitVec w → BitVec w
  | 0, v => v
  | n + 1, v => shiftBits p n (shiftBit p v)

/-- One byte is taken in at the low end and shifted out. -/
def crcByte (p v : BitVec w) (c : BitVec 8) : BitVec w :=
  shiftBits p 8 (v ^^^ c.setWidth w)

def crc (p v : BitVec w) (s : List (BitVec 8)) : BitVec w :=
  s.foldl (crcByte p) v

theorem shiftBit_xor (p a b : BitVec w) :
    shiftBit p (a ^^^ b) = shiftBit p a ^^^ shiftBit p b := by
  unfold shiftBit
  rw [BitVec.getLsbD_xor, BitVec.ushiftRight_xor_distrib]
  have hcancel : (a >>> 1 ^^^ p) ^^^ (b >>> 1 ^^^ p) = a >>> 1 ^^^ b >>> 1 := by
    rw [BitVec.xor_comm (b >>> 1), ← BitVec.xor_assoc,
      BitVec.xor_assoc _ p p, BitVec.xor_self, BitVec.xor_zero]
  cases a.getLsbD 0 <;> cases b.getLsbD 0
  · simp
  · simp [BitVec.xor_assoc]
  · simp only [Bool.xor_false, if_true, if_false, Bool.false_eq_true]
    ac_rfl
  · simpa using hcancel.symm

theorem shiftBits_xor (p : BitVec w) (n : ℕ) (a b : BitVec w) :
    shiftBits p n (a ^^^ b) = shiftBits p n a ^^^ shiftBits p n b := by
  induction n generalizing a b with
  | zero => rfl
  | succ n ih => rw [shiftBits, shiftBit_xor, ih]; rfl

/-- While no set bit leaves, nothing is taken off. -/
theorem shiftBits_eq_ushiftRight (p : BitVec w) (n : ℕ) {v : BitVec w}
    (hlow : ∀ i < n, v.getLsbD i = false) : shiftBits p n v = v >>> n := by
  induction n generalizing v with
  | zero => simp [shiftBits]
  | succ n ih =>
      have hbit : shiftBit p v = v >>> 1 := by
        simp [shiftBit, hlow 0 (by omega)]
      rw [shiftBits, hbit, ih, ← BitVec.shiftRight_add, Nat.add_comm]
      intro i hi
      rw [BitVec.getLsbD_ushiftRight]
      exact hlow (1 + i) (by omega)

/-- The low byte decides what is taken off; the rest only moves down. -/
theorem shiftBits_eight (p v : BitVec w) :
    shiftBits p 8 v =
      shiftBits p 8 ((v.setWidth 8).setWidth w) ^^^ v >>> 8 := by
  let low : BitVec w := (v.setWidth 8).setWidth w
  have hhigh : ∀ i < 8, (low ^^^ v).getLsbD i = false := by
    intro i hi
    by_cases hw : i < w
    · simp [low, hi, hw]
    · simp [BitVec.getLsbD_of_ge _ i (Nat.le_of_not_lt hw)]
  have hmove : (low ^^^ v) >>> 8 = v >>> 8 := by
    apply BitVec.eq_of_getLsbD_eq
    intro i _
    simp [low]
  have hsplit : v = low ^^^ (low ^^^ v) := by
    rw [← BitVec.xor_assoc, BitVec.xor_self, BitVec.zero_xor]
  calc shiftBits p 8 v = shiftBits p 8 (low ^^^ (low ^^^ v)) := by rw [← hsplit]
    _ = shiftBits p 8 low ^^^ v >>> 8 := by
        rw [shiftBits_xor, shiftBits_eq_ushiftRight p 8 hhigh, hmove]

/-- A byte at a time: the step of the low byte, and the rest moved down. -/
theorem crcByte_eq (p v : BitVec w) (c : BitVec 8) :
    crcByte p v c =
      shiftBits p 8 ((v.setWidth 8 ^^^ c).setWidth w) ^^^ v >>> 8 := by
  have hlow : ((v ^^^ c.setWidth w).setWidth 8).setWidth w =
      (v.setWidth 8 ^^^ c).setWidth w := by
    apply BitVec.eq_of_getLsbD_eq
    intro i hi
    by_cases h8 : i < 8
    · simp [hi, h8]
    · simp [h8, BitVec.getLsbD_of_ge c i (by omega)]
  have hhigh : (v ^^^ c.setWidth w) >>> 8 = v >>> 8 := by
    apply BitVec.eq_of_getLsbD_eq
    intro i _
    simp
  rw [crcByte, shiftBits_eight, hlow, hhigh]

/-! ## Words as polynomials -/

/-- The polynomial of a word, the lowest bit at the highest power. -/
noncomputable def reflected (v : BitVec w) : (ZMod 2)[X] :=
  ofFn w fun i => if v.getMsbD i then 1 else 0

theorem coeff_reflected (v : BitVec w) (n : ℕ) :
    (reflected v).coeff n = if v.getMsbD n then 1 else 0 := by
  by_cases hn : n < w
  · rw [reflected, ofFn_coeff_eq_val_of_lt _ hn]
  · rw [reflected, ofFn_coeff_eq_zero_of_ge _ (Nat.le_of_not_lt hn),
      BitVec.getMsbD_of_ge _ _ (Nat.le_of_not_lt hn)]
    rfl

theorem degree_reflected_lt (v : BitVec w) : (reflected v).degree < w :=
  ofFn_degree_lt _

@[simp] theorem reflected_zero : reflected (0#w) = 0 := by
  ext n
  simp [coeff_reflected]

theorem reflected_xor (a b : BitVec w) :
    reflected (a ^^^ b) = reflected a + reflected b := by
  ext n
  rw [coeff_add, coeff_reflected, coeff_reflected, coeff_reflected,
    BitVec.getMsbD_xor]
  cases a.getMsbD n <;> cases b.getMsbD n <;> decide

theorem reflected_twoPow {i : ℕ} (hi : i < w) :
    reflected (BitVec.twoPow w i) = X ^ (w - 1 - i) := by
  ext n
  rw [coeff_reflected, coeff_X_pow, BitVec.getMsbD_twoPow, Nat.sub_right_comm]
  simp [hi]

theorem reflected_injective :
    Function.Injective (reflected : BitVec w → (ZMod 2)[X]) := by
  intro a b heq
  apply BitVec.eq_of_getMsbD_eq
  intro i _
  have hcoeff := congrArg (coeff · i) heq
  simp only [coeff_reflected] at hcoeff
  cases ha : a.getMsbD i <;> cases hb : b.getMsbD i <;> simp_all

theorem reflected_setWidth {k : ℕ} (hk : k ≤ w) (c : BitVec k) :
    reflected (c.setWidth w) = X ^ (w - k) * reflected c := by
  ext n
  rw [coeff_reflected, coeff_X_pow_mul', BitVec.getMsbD_setWidth]
  by_cases hn : w - k ≤ n
  · rw [if_pos hn, coeff_reflected]
    have hidx : n + k - w = n - (w - k) := by omega
    simp [hn, hidx]
  · simp [hn]

/-- Multiplying by `X` moves the word down and carries the bit that leaves. -/
theorem X_mul_reflected (v : BitVec w) :
    X * reflected v =
      reflected (v >>> 1) + if v.getLsbD 0 then X ^ w else 0 := by
  have hcarry : ∀ n, (if v.getLsbD 0 then X ^ w else 0 : (ZMod 2)[X]).coeff n =
      if n = w ∧ v.getLsbD 0 then 1 else 0 := by
    intro n
    cases v.getLsbD 0 <;> simp [coeff_X_pow]
  ext n
  rw [coeff_add, coeff_reflected, hcarry, BitVec.getMsbD_ushiftRight]
  cases n with
  | zero =>
      rw [coeff_X_mul_zero]
      rcases Nat.eq_zero_or_pos w with hw | hw
      · subst hw
        simp
      · simp [hw.ne]
  | succ n =>
      rw [coeff_X_mul, coeff_reflected]
      rcases Nat.lt_trichotomy (n + 1) w with hn | hn | hn
      · simp [hn, hn.ne]
      · have hlast : v.getMsbD n = v.getLsbD 0 := by
          have hidx : w - 1 - n = 0 := by omega
          simp [BitVec.getMsbD_eq_getLsbD, hidx, show n < w by omega]
        simp [hn, hlast]
      · have hout : v.getMsbD n = false := BitVec.getMsbD_of_ge v n (by omega)
        simp [hout, hn.ne', show ¬ n + 1 < w by omega]

/-! ## The modulus -/

/-- The modulus of a code with divisor `p`. -/
noncomputable def modulus (p : BitVec w) : (ZMod 2)[X] :=
  X ^ w + reflected p

theorem modulus_monic (p : BitVec w) : (modulus p).Monic :=
  monic_X_pow_add (degree_reflected_lt p)

theorem degree_modulus (p : BitVec w) : (modulus p).degree = w := by
  rw [modulus, degree_add_eq_left_of_degree_lt, degree_X_pow]
  rw [degree_X_pow]
  exact degree_reflected_lt p

theorem shiftBit_congr (p v : BitVec w) :
    ∃ q, reflected (shiftBit p v) + modulus p * q = X * reflected v := by
  rw [X_mul_reflected]
  by_cases hbit : v.getLsbD 0
  · refine ⟨1, ?_⟩
    rw [shiftBit, if_pos hbit, if_pos hbit, reflected_xor, modulus]
    linear_combination (CharTwo.add_self_eq_zero (reflected p))
  · refine ⟨0, ?_⟩
    rw [shiftBit, if_neg hbit, if_neg hbit]
    ring

theorem shiftBits_congr (p : BitVec w) (n : ℕ) (v : BitVec w) :
    ∃ q, reflected (shiftBits p n v) + modulus p * q =
      X ^ n * reflected v := by
  induction n generalizing v with
  | zero => exact ⟨0, by simp [shiftBits]⟩
  | succ n ih =>
      obtain ⟨q, hq⟩ := ih (shiftBit p v)
      obtain ⟨r, hr⟩ := shiftBit_congr p v
      refine ⟨q + X ^ n * r, ?_⟩
      rw [shiftBits]
      linear_combination hq + X ^ n * hr

/-! ## Strings -/

/-- The polynomial of a string, its first byte at the highest powers. -/
noncomputable def messagePoly (s : List (BitVec 8)) : (ZMod 2)[X] :=
  s.foldl (fun m c => X ^ 8 * m + reflected c) 0

theorem messagePoly_foldl (m : (ZMod 2)[X]) (s : List (BitVec 8)) :
    s.foldl (fun m c => X ^ 8 * m + reflected c) m =
      X ^ (8 * s.length) * m + messagePoly s := by
  unfold messagePoly
  induction s generalizing m with
  | nil => simp
  | cons c s ih =>
      rw [List.foldl_cons, List.foldl_cons, ih, ih (X ^ 8 * 0 + _),
        List.length_cons]
      ring

theorem messagePoly_append (s t : List (BitVec 8)) :
    messagePoly (s ++ t) =
      X ^ (8 * t.length) * messagePoly s + messagePoly t := by
  rw [messagePoly, List.foldl_append]
  exact messagePoly_foldl _ t

theorem messagePoly_cons (c : BitVec 8) (s : List (BitVec 8)) :
    messagePoly (c :: s) = X ^ (8 * s.length) * reflected c + messagePoly s := by
  rw [messagePoly, List.foldl_cons, messagePoly_foldl]
  simp

theorem degree_messagePoly_lt (s : List (BitVec 8)) :
    (messagePoly s).degree < ((8 * s.length : ℕ) : WithBot ℕ) := by
  rw [degree_lt_iff_coeff_zero]
  induction s with
  | nil => simp [messagePoly]
  | cons c s ih =>
      intro n hn
      rw [List.length_cons] at hn
      rw [messagePoly_cons, coeff_add, ih n (by omega), coeff_X_pow_mul',
        if_pos (by omega), coeff_reflected,
        BitVec.getMsbD_of_ge _ _ (by omega)]
      simp

/-- The code of a string is congruent to what is shifted in above it. -/
theorem crc_congr (hw : 8 ≤ w) (p v : BitVec w) (s : List (BitVec 8)) :
    ∃ q, reflected (crc p v s) + modulus p * q =
      X ^ (8 * s.length) * reflected v + X ^ w * messagePoly s := by
  induction s using List.reverseRecOn with
  | nil => exact ⟨0, by simp [crc, messagePoly]⟩
  | append_singleton s c ih =>
      obtain ⟨q, hq⟩ := ih
      obtain ⟨r, hr⟩ := shiftBits_congr p 8 (crc p v s ^^^ c.setWidth w)
      have hstep : crc p v (s ++ [c]) =
          shiftBits p 8 (crc p v s ^^^ c.setWidth w) := by
        rw [crc, List.foldl_append]
        rfl
      have hpow : (X : (ZMod 2)[X]) ^ w = X ^ 8 * X ^ (w - 8) := by
        rw [← pow_add, Nat.add_sub_cancel' hw]
      refine ⟨r + X ^ 8 * q, ?_⟩
      rw [reflected_xor, reflected_setWidth hw] at hr
      rw [hstep, messagePoly_append, messagePoly_cons, List.length_append]
      simp only [List.length_singleton, List.length_nil, Nat.mul_zero,
        pow_zero, one_mul, Nat.mul_add, Nat.mul_one, pow_add]
      have hnil : messagePoly [] = 0 := rfl
      rw [hnil, add_zero]
      linear_combination hr + X ^ 8 * hq - reflected c * hpow

/-- The code of a string is the remainder of its polynomial. -/
theorem reflected_crc (hw : 8 ≤ w) (p : BitVec w) (s : List (BitVec 8)) :
    reflected (crc p 0 s) = (X ^ w * messagePoly s) %ₘ modulus p := by
  obtain ⟨q, hq⟩ := crc_congr hw p 0 s
  refine (div_modByMonic_unique q _ (modulus_monic p) ⟨?_, ?_⟩).2.symm
  · simpa using hq
  · rw [degree_modulus]
    exact degree_reflected_lt _

/-! ## What the code tells apart -/

theorem messagePoly_injective {s t : List (BitVec 8)}
    (hlen : s.length = t.length) (heq : messagePoly s = messagePoly t) :
    s = t := by
  induction s generalizing t with
  | nil => exact (List.length_eq_zero_iff.mp hlen.symm).symm
  | cons c s ih =>
      cases t with
      | nil => simp at hlen
      | cons d t =>
          rw [List.length_cons, List.length_cons, Nat.add_right_cancel_iff]
            at hlen
          rw [messagePoly_cons, messagePoly_cons, hlen] at heq
          have hlow : ∀ m < 8 * t.length,
              (messagePoly s).coeff m = (messagePoly t).coeff m := by
            intro m hm
            simpa [coeff_X_pow_mul', Nat.not_le.mpr hm] using
              congrArg (coeff · m) heq
          have htail : messagePoly s = messagePoly t := by
            ext m
            rcases Nat.lt_or_ge m (8 * t.length) with hm | hm
            · exact hlow m hm
            · rw [degree_lt_iff_coeff_zero _ _ |>.mp (degree_messagePoly_lt s) m
                  (by omega),
                degree_lt_iff_coeff_zero _ _ |>.mp (degree_messagePoly_lt t) m hm]
          rw [htail, add_left_inj] at heq
          have hhead : reflected c = reflected d :=
            mul_left_cancel₀ (pow_ne_zero _ X_ne_zero) heq
          rw [reflected_injective hhead, ih hlen htail]

/-- A divisor with its top bit set has a modulus prime to `X`. -/
theorem isCoprime_X_pow_modulus (hw : 0 < w) {p : BitVec w} (hp : p.msb)
    (n : ℕ) : IsCoprime (X ^ n) (modulus p) := by
  have hirr : Irreducible (X : (ZMod 2)[X]) := irreducible_X
  refine IsCoprime.pow_left ?_
  rw [hirr.coprime_iff_not_dvd, X_dvd_iff, modulus, coeff_add,
    coeff_reflected, coeff_X_pow, if_neg hw.ne]
  rw [BitVec.msb] at hp
  simp [hp]

/-- Two strings have one code exactly when the modulus divides the difference
of their polynomials. -/
theorem crc_eq_iff (hw : 8 ≤ w) {p : BitVec w} (hp : p.msb)
    (s t : List (BitVec 8)) :
    crc p 0 s = crc p 0 t ↔ modulus p ∣ messagePoly s - messagePoly t := by
  have hcoprime : IsCoprime (modulus p) (X ^ w) :=
    (isCoprime_X_pow_modulus (by omega) hp w).symm
  calc crc p 0 s = crc p 0 t
      ↔ reflected (crc p 0 s) = reflected (crc p 0 t) :=
        reflected_injective.eq_iff.symm
    _ ↔ (X ^ w * (messagePoly s - messagePoly t)) %ₘ modulus p = 0 := by
        rw [reflected_crc hw, reflected_crc hw, mul_sub, sub_modByMonic,
          sub_eq_zero]
    _ ↔ modulus p ∣ X ^ w * (messagePoly s - messagePoly t) :=
        modByMonic_eq_zero_iff_dvd (modulus_monic p)
    _ ↔ modulus p ∣ messagePoly s - messagePoly t :=
        ⟨hcoprime.dvd_of_dvd_mul_left, fun h => h.mul_left _⟩

/-- Strings that differ in one window no wider than the code get different
codes. -/
theorem crc_ne_of_burst (hw : 8 ≤ w) {p : BitVec w} (hp : p.msb)
    (s t : List (BitVec 8)) {a b : List (BitVec 8)}
    (hlen : a.length = b.length) (hwidth : 8 * a.length ≤ w) (hne : a ≠ b) :
    crc p 0 (s ++ a ++ t) ≠ crc p 0 (s ++ b ++ t) := by
  intro heq
  rw [crc_eq_iff hw hp] at heq
  have hdiff : messagePoly (s ++ a ++ t) - messagePoly (s ++ b ++ t) =
      X ^ (8 * t.length) * (messagePoly a - messagePoly b) := by
    simp only [messagePoly_append, hlen]
    ring
  rw [hdiff] at heq
  have hdvd : modulus p ∣ messagePoly a - messagePoly b :=
    (isCoprime_X_pow_modulus (by omega) hp _).symm.dvd_of_dvd_mul_left heq
  have hdegree : (messagePoly a - messagePoly b).degree < (modulus p).degree := by
    rw [degree_modulus]
    refine (degree_sub_le _ _).trans_lt (max_lt ?_ ?_)
    · exact (degree_messagePoly_lt a).trans_le (by exact_mod_cast hwidth)
    · exact (degree_messagePoly_lt b).trans_le
        (by exact_mod_cast hlen ▸ hwidth)
  have hzero : messagePoly a - messagePoly b = 0 := by
    by_contra hsub
    exact absurd (degree_le_of_dvd hdvd hsub) (not_le.mpr hdegree)
  exact hne (messagePoly_injective hlen (sub_eq_zero.mp hzero))

end Uhs.Support
