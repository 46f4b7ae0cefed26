import Mathlib.Algebra.BigOperators.Ring.Finset
import Mathlib.Data.Fintype.Card

/-!
# Counting over a family

How the number of members of a finite family with a property changes when one
member is replaced.
-/

namespace Uhs.Support

variable {ι α : Type*} [Fintype ι] [DecidableEq ι]

/-- Number of members of `f` with the property `p`. -/
def countWith (p : α → Prop) [DecidablePred p] (f : ι → α) : ℕ :=
  (Finset.univ.filter fun i => p (f i)).card

variable {p : α → Prop} [DecidablePred p] {f : ι → α}

theorem countWith_update (f : ι → α) (i : ι) (x : α) :
    countWith p (Function.update f i x) + (if p (f i) then 1 else 0) =
      countWith p f + (if p x then 1 else 0) := by
  have hrest : ∑ j ∈ Finset.univ.erase i,
      (if p (Function.update f i x j) then 1 else 0) =
        ∑ j ∈ Finset.univ.erase i, (if p (f j) then 1 else 0) := by
    apply Finset.sum_congr rfl
    intro j hj
    rw [Function.update_of_ne (Finset.ne_of_mem_erase hj)]
  have hnew := Finset.add_sum_erase Finset.univ
    (fun j => if p (Function.update f i x j) then 1 else 0)
    (Finset.mem_univ i)
  have hold := Finset.add_sum_erase Finset.univ
    (fun j => if p (f j) then 1 else 0) (Finset.mem_univ i)
  simp only [Function.update_self] at hnew
  rw [countWith, countWith, Finset.card_filter, Finset.card_filter, ← hnew,
    ← hold, hrest]
  omega

omit [DecidableEq ι] in
theorem countWith_eq_zero_iff : countWith p f = 0 ↔ ∀ i, ¬ p (f i) := by
  simp [countWith, Finset.filter_eq_empty_iff]

omit [DecidableEq ι] in
theorem countWith_eq_card (h : ∀ i, p (f i)) :
    countWith p f = Fintype.card ι := by
  rw [countWith, Finset.filter_true_of_mem fun i _ => h i, Finset.card_univ]

omit [DecidableEq ι] in
theorem countWith_le_card : countWith p f ≤ Fintype.card ι :=
  Finset.card_filter_le _ _

omit [DecidableEq ι] in
/-- The property holds throughout once it has been counted everywhere. -/
theorem forall_of_card_le_countWith (h : Fintype.card ι ≤ countWith p f)
    (i : ι) : p (f i) := by
  have heq := Finset.eq_univ_of_card _ (le_antisymm countWith_le_card h)
  have hi := Finset.mem_univ i
  rw [← heq, Finset.mem_filter] at hi
  exact hi.2

omit [DecidableEq ι] in
/-- A member without the property is missing from the count. -/
theorem countWith_lt_card {i : ι} (h : ¬ p (f i)) :
    countWith p f < Fintype.card ι := by
  by_contra hle
  exact h (forall_of_card_le_countWith (by omega) i)

end Uhs.Support
