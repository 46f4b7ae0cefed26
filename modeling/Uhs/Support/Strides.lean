import Mathlib.Data.List.Nodup
import Mathlib.Data.List.Perm.Basic
import Mathlib.Data.Nat.ModEq

/-!
# Residue strides

`T` workers share the indices below `n` by residue class: worker `t` visits
`t, t + T, t + 2 T, ...`.  Together the strides visit every index once.
-/

namespace Uhs.Support

/-- The indices `i, i + step, ...` below `n`; `fuel` bounds their number. -/
def strideFrom (n step : ℕ) : ℕ → ℕ → List ℕ
  | 0, _ => []
  | fuel + 1, i => if i < n then i :: strideFrom n step fuel (i + step) else []

/-- The indices below `n` visited by worker `t` of `step` workers. -/
def stride (n step t : ℕ) : List ℕ :=
  strideFrom n step n t

theorem mem_strideFrom_iff {n step : ℕ} (hstep : 0 < step) {fuel i j : ℕ}
    (hfuel : n ≤ i + fuel) :
    j ∈ strideFrom n step fuel i ↔
      i ≤ j ∧ j < n ∧ j % step = i % step := by
  induction fuel generalizing i with
  | zero =>
      simp only [strideFrom, List.not_mem_nil, false_iff]
      omega
  | succ fuel ih =>
      rw [strideFrom]
      by_cases hi : i < n
      · rw [if_pos hi, List.mem_cons, ih (by omega), Nat.add_mod_right]
        constructor
        · rintro (rfl | ⟨hle, hlt, hmod⟩)
          · exact ⟨le_rfl, hi, rfl⟩
          · exact ⟨by omega, hlt, hmod⟩
        · rintro ⟨hle, hlt, hmod⟩
          by_cases hji : j = i
          · exact Or.inl hji
          · refine Or.inr ⟨?_, hlt, hmod⟩
            -- two indices of one residue class are at least `step` apart
            by_contra _hnear
            have hdiff : j - i < step := by omega
            have hdvd : step ∣ j - i :=
              (Nat.modEq_iff_dvd' hle).mp hmod.symm
            have hzero := Nat.eq_zero_of_dvd_of_lt hdvd hdiff
            omega
      · rw [if_neg hi]
        simp only [List.not_mem_nil, false_iff]
        omega

theorem nodup_strideFrom {n step : ℕ} (hstep : 0 < step) (fuel i : ℕ) :
    (strideFrom n step fuel i).Nodup := by
  have hge : ∀ fuel i, ∀ j ∈ strideFrom n step fuel i, i ≤ j := by
    intro fuel
    induction fuel with
    | zero => simp [strideFrom]
    | succ fuel ih =>
        intro i j hj
        rw [strideFrom] at hj
        split at hj
        · rcases List.mem_cons.mp hj with rfl | hj
          · exact le_rfl
          · have := ih (i + step) j hj
            omega
        · simp at hj
  induction fuel generalizing i with
  | zero => simp [strideFrom]
  | succ fuel ih =>
      rw [strideFrom]
      split
      · refine List.nodup_cons.mpr ⟨?_, ih (i + step)⟩
        intro hi
        have := hge fuel (i + step) i hi
        omega
      · simp

theorem mem_stride_iff {n step t j : ℕ} (ht : t < step) :
    j ∈ stride n step t ↔ j < n ∧ j % step = t := by
  rw [stride, mem_strideFrom_iff (by omega) (by omega),
    Nat.mod_eq_of_lt ht]
  constructor
  · rintro ⟨-, hlt, hmod⟩
    exact ⟨hlt, hmod⟩
  · rintro ⟨hlt, hmod⟩
    exact ⟨hmod ▸ Nat.mod_le j step, hlt, hmod⟩

/-- The strides of all workers visit every index exactly once. -/
theorem flatMap_stride_perm_range (n : ℕ) {step : ℕ} (hstep : 0 < step) :
    ((List.range step).flatMap (stride n step)).Perm (List.range n) := by
  rw [List.perm_ext_iff_of_nodup _ List.nodup_range]
  · intro j
    simp only [List.mem_flatMap, List.mem_range]
    constructor
    · rintro ⟨t, ht, hj⟩
      exact ((mem_stride_iff ht).mp hj).1
    · intro hj
      have ht : j % step < step := Nat.mod_lt j hstep
      exact ⟨j % step, ht, (mem_stride_iff ht).mpr ⟨hj, rfl⟩⟩
  · refine List.nodup_flatMap.mpr ⟨fun t _ => nodup_strideFrom hstep n t, ?_⟩
    refine List.nodup_range.pairwise_of_forall_ne ?_
    intro t ht u hu htu j hjt hju
    have htmod := ((mem_stride_iff (List.mem_range.mp ht)).mp hjt).2
    have humod := ((mem_stride_iff (List.mem_range.mp hu)).mp hju).2
    exact htu (htmod.symm.trans humod)

end Uhs.Support
