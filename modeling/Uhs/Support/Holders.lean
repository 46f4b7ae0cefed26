import Mathlib.Data.List.FinRange
import Mathlib.Logic.Function.Basic

/-!
# What the members of a family hold

Every member of a finite family holds at most one item.  The items held form
a list, and replacing what one member holds changes the list accordingly.
-/

namespace Uhs.Support

variable {n : ℕ} {α : Type*}

/-- The items held, member by member. -/
def held (f : Fin n → Option α) : List α := (List.finRange n).filterMap f

theorem mem_held {f : Fin n → Option α} {x : α} :
    x ∈ held f ↔ ∃ i, f i = some x := by
  simp [held]

theorem held_eq_nil_iff {f : Fin n → Option α} :
    held f = [] ↔ ∀ i, f i = none := by
  simp [held, List.filterMap_eq_nil_iff]

/-- What a member takes is added to the items held. -/
theorem held_update_some (f : Fin n → Option α) (i : Fin n) (x : α) :
    (held (Function.update f i (some x))).Perm
      (x :: held (Function.update f i none)) := by
  have hmem := List.mem_finRange i
  have hnodup := List.nodup_finRange n
  rw [held, held]
  generalize List.finRange n = l at hmem hnodup
  induction l with
  | nil => simp at hmem
  | cons j l ih =>
      rw [List.nodup_cons] at hnodup
      by_cases hji : j = i
      · subst hji
        have hrest : ∀ o : Option α,
            l.filterMap (Function.update f j o) = l.filterMap f := by
          intro o
          apply List.filterMap_congr
          intro k hk
          rw [Function.update_of_ne]
          rintro rfl
          exact hnodup.1 hk
        simp [hrest]
      · have hrest := ih ((List.mem_cons.mp hmem).resolve_left (Ne.symm hji))
          hnodup.2
        simp only [List.filterMap_cons, Function.update_of_ne hji]
        cases f j with
        | none => exact hrest
        | some y => exact (hrest.cons y).trans (List.Perm.swap x y _)

theorem held_take {f : Fin n → Option α} {i : Fin n} (hi : f i = none)
    (x : α) : (held (Function.update f i (some x))).Perm (x :: held f) := by
  have htake := held_update_some f i x
  rwa [← hi, Function.update_eq_self] at htake

theorem held_give {f : Fin n → Option α} {i : Fin n} {x : α}
    (hi : f i = some x) :
    (held f).Perm (x :: held (Function.update f i none)) := by
  have hgive := held_update_some f i x
  rwa [← hi, Function.update_eq_self] at hgive

/-- When the items are told apart by `g`, so are their holders. -/
theorem holder_unique {κ : Type*} {g : α → κ} {f : Fin n → Option α}
    (hnodup : ((held f).map g).Nodup) {i j : Fin n} {x y : α}
    (hi : f i = some x) (hj : f j = some y) (hg : g x = g y) : i = j := by
  by_contra hij
  have hperm := (held_give hi).map g
  have hy : y ∈ held (Function.update f i none) := by
    rw [mem_held]
    exact ⟨j, by rw [Function.update_of_ne (Ne.symm hij), hj]⟩
  have hnodup' := hperm.nodup_iff.mp hnodup
  rw [List.map_cons, List.nodup_cons] at hnodup'
  exact hnodup'.1 (hg ▸ List.mem_map_of_mem hy)

end Uhs.Support
