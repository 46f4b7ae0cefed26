import Mathlib.Data.Nat.ModEq

/-!
# Cyclic search

`cyclicSearch p n fuel i` walks `i, i + 1, ...` modulo `n` past the positions
where `p` holds.  The walk visits `fuel` positions at most; with `n` of them
it has gone round once, so it fails exactly when `p` holds everywhere and the
unbounded walk would never end.
-/

namespace Uhs.Support

/-- First position from `i` on, modulo `n`, where `p` fails. -/
def cyclicSearch (p : ℕ → Bool) (n : ℕ) : ℕ → ℕ → Option ℕ
  | 0, _ => none
  | fuel + 1, i =>
      if p i then cyclicSearch p n fuel ((i + 1) % n) else some i

variable {p : ℕ → Bool} {n : ℕ}

theorem succ_mod_add_mod (i d : ℕ) :
    ((i + 1) % n + d) % n = (i + (d + 1)) % n := by
  rw [Nat.mod_add_mod, Nat.add_assoc, Nat.add_comm 1 d]

/-- The position found is the first one in cyclic order where `p` fails. -/
theorem cyclicSearch_spec {fuel i j : ℕ} (hi : i < n)
    (h : cyclicSearch p n fuel i = some j) :
    ∃ d < fuel, j = (i + d) % n ∧ p j = false ∧
      ∀ e < d, p ((i + e) % n) = true := by
  induction fuel generalizing i with
  | zero => simp [cyclicSearch] at h
  | succ fuel ih =>
      rw [cyclicSearch] at h
      by_cases hp : p i = true
      · rw [if_pos hp] at h
        have hpos : 0 < n := by omega
        obtain ⟨d, hd, hj, hpj, hbefore⟩ := ih (Nat.mod_lt _ hpos) h
        refine ⟨d + 1, by omega, ?_, hpj, ?_⟩
        · rw [hj, succ_mod_add_mod]
        · intro e he
          cases e with
          | zero => simpa [Nat.mod_eq_of_lt hi] using hp
          | succ e =>
              rw [← succ_mod_add_mod]
              exact hbefore e (by omega)
      · rw [if_neg hp, Option.some.injEq] at h
        subst h
        refine ⟨0, by omega, ?_, by simpa using hp, by simp⟩
        simpa using (Nat.mod_eq_of_lt hi).symm

theorem cyclicSearch_isSome {fuel i : ℕ} (hi : i < n)
    (h : ∃ d < fuel, p ((i + d) % n) = false) :
    ∃ j, cyclicSearch p n fuel i = some j := by
  induction fuel generalizing i with
  | zero =>
      obtain ⟨d, hd, -⟩ := h
      omega
  | succ fuel ih =>
      rw [cyclicSearch]
      by_cases hp : p i = true
      · rw [if_pos hp]
        obtain ⟨d, hd, hpd⟩ := h
        apply ih (Nat.mod_lt _ (by omega))
        cases d with
        | zero => simp [Nat.mod_eq_of_lt hi, hp] at hpd
        | succ d =>
            refine ⟨d, by omega, ?_⟩
            rw [succ_mod_add_mod]
            exact hpd
      · exact ⟨i, by rw [if_neg hp]⟩

/-- Going round once meets every position. -/
theorem cyclicSearch_isSome_of_exists {i k : ℕ} (hi : i < n) (hk : k < n)
    (hpk : p k = false) :
    ∃ j, cyclicSearch p n n i = some j := by
  apply cyclicSearch_isSome hi
  refine ⟨(k + n - i) % n, Nat.mod_lt _ (by omega), ?_⟩
  have hsum : (i + (k + n - i) % n) % n = k := by
    rw [Nat.add_mod_mod, Nat.add_sub_of_le (by omega), Nat.add_mod_right,
      Nat.mod_eq_of_lt hk]
  rw [hsum, hpk]

theorem cyclicSearch_lt {fuel i j : ℕ} (hi : i < n)
    (h : cyclicSearch p n fuel i = some j) : j < n := by
  obtain ⟨d, -, hj, -⟩ := cyclicSearch_spec hi h
  rw [hj]
  exact Nat.mod_lt _ (by omega)

theorem cyclicSearch_false {fuel i j : ℕ} (hi : i < n)
    (h : cyclicSearch p n fuel i = some j) : p j = false := by
  obtain ⟨d, -, -, hpj, -⟩ := cyclicSearch_spec hi h
  exact hpj

/-! ## The first position in cyclic order -/

/-- Position `s` is the first one from `i` on, in cyclic order, where `p`
fails. -/
def FirstFrom (p : ℕ → Bool) (n i s : ℕ) : Prop :=
  p s = false ∧
    ∃ d < n, s = (i + d) % n ∧ ∀ e < d, p ((i + e) % n) = true

instance (i s : ℕ) : Decidable (FirstFrom p n i s) :=
  inferInstanceAs (Decidable (_ ∧ ∃ d < n, _ ∧ ∀ e < d, _))

theorem firstFrom_mod_iff {i s : ℕ} :
    FirstFrom p n (i % n) s ↔ FirstFrom p n i s := by
  simp only [FirstFrom, Nat.mod_add_mod]

/-- Starting `k` positions later finds the same one exactly when the clear
positions lie all before the later start or all behind it. -/
theorem FirstFrom.add_iff {i k s : ℕ} (hk : k < n) (h : FirstFrom p n i s) :
    FirstFrom p n (i + k) s ↔
      (∀ e < k, p ((i + e) % n) = true) ∨
        ∀ e < n, k ≤ e → p ((i + e) % n) = true := by
  obtain ⟨hs, d, hd, rfl, hbefore⟩ := h
  constructor
  · rintro ⟨-, d', hd', heq, hbefore'⟩
    by_cases hkd : k ≤ d
    · left
      intro e he
      exact hbefore e (by omega)
    · right
      intro e he hke
      have hd'' : d' = n + d - k := by
        have hmod : d % n = (k + d') % n := by
          apply Nat.ModEq.add_left_cancel' i
          rw [Nat.ModEq, heq, Nat.add_assoc]
        rw [Nat.mod_eq_of_lt hd] at hmod
        by_cases hsum : k + d' < n
        · rw [Nat.mod_eq_of_lt hsum] at hmod
          omega
        · rw [Nat.mod_eq_sub_mod (by omega), Nat.mod_eq_of_lt (by omega)]
            at hmod
          omega
      have hset := hbefore' (e - k) (by omega)
      rwa [Nat.add_assoc, Nat.add_sub_of_le hke] at hset
  · intro hsides
    by_cases hkd : k ≤ d
    · refine ⟨hs, d - k, by omega, ?_, ?_⟩
      · rw [Nat.add_assoc, Nat.add_sub_of_le hkd]
      · intro e he
        have hset := hbefore (k + e) (by omega)
        rwa [← Nat.add_assoc] at hset
    · have hbehind : ∀ e < n, k ≤ e → p ((i + e) % n) = true := by
        rcases hsides with hfirst | hsecond
        · have hset := hfirst d (by omega)
          rw [hs] at hset
          exact Bool.noConfusion hset
        · exact hsecond
      refine ⟨hs, n + d - k, by omega, ?_, ?_⟩
      · have hround : i + k + (n + d - k) = i + d + n := by omega
        rw [hround, Nat.add_mod_right]
      · intro e he
        by_cases hlast : k + e < n
        · have hset := hbehind (k + e) hlast (by omega)
          rwa [← Nat.add_assoc] at hset
        · have hset := hbefore (k + e - n) (by omega)
          have hround : i + k + e = i + (k + e - n) + n := by omega
          rw [hround, Nat.add_mod_right]
          exact hset

end Uhs.Support
