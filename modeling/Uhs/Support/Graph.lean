import Mathlib.Data.List.Nodup
import Mathlib.Data.List.Perm.Basic
import Mathlib.Logic.Function.Basic

/-!
# Pairs that are the graph of a partial function

A table of pairs of a key and a place, beside records kept at the places.  The
table agrees with the records if it lists just the keys that they hold.
-/

namespace Uhs.Support

variable {κ ν : Type*}

/-- The pairs are the keys held at the places. -/
def IsGraph (es : List (κ × ν)) (record : ν → Option κ) : Prop :=
  ∀ k v, (k, v) ∈ es ↔ record v = some k

namespace IsGraph

variable {es es' : List (κ × ν)} {record record' : ν → Option κ} {k : κ}
  {v : ν}

theorem nil (hnone : ∀ v, record v = none) : IsGraph [] record := by
  intro k v
  rw [hnone v]
  simp

theorem congr (h : IsGraph es record) (hrecord : ∀ v, record' v = record v) :
    IsGraph es record' := by
  rwa [show record' = record from funext hrecord]

variable [DecidableEq ν]

/-- A key that is written again to its place. -/
theorem rewrite (h : IsGraph es record) (hmem : (k, v) ∈ es) :
    IsGraph es (Function.update record v (some k)) := by
  rwa [← (h k v).mp hmem, Function.update_eq_self]

/-- A key that is written to a free place. -/
theorem put (h : IsGraph es record) (hfree : ∀ k, (k, v) ∉ es)
    (hperm : es'.Perm ((k, v) :: es)) :
    IsGraph es' (Function.update record v (some k)) := by
  intro k' v'
  rw [hperm.mem_iff, List.mem_cons, Prod.mk.injEq]
  by_cases hv : v' = v
  · subst hv
    rw [Function.update_self, Option.some.injEq]
    constructor
    · rintro (⟨rfl, -⟩ | hmem)
      · rfl
      · exact absurd hmem (hfree k')
    · rintro rfl
      exact Or.inl ⟨rfl, rfl⟩
  · rw [Function.update_of_ne hv, ← h k' v']
    simp [hv]

/-- A key that is removed from its place. -/
theorem erase (h : IsGraph es record) (hnodup : (es.map Prod.snd).Nodup)
    (hperm : es.Perm ((k, v) :: es')) :
    IsGraph es' (Function.update record v none) := by
  have hfree := (hperm.map Prod.snd).nodup_iff.mp hnodup
  rw [List.map_cons, List.nodup_cons] at hfree
  intro k' v'
  have hmem := hperm.mem_iff (a := (k', v'))
  rw [List.mem_cons, Prod.mk.injEq] at hmem
  by_cases hv : v' = v
  · subst hv
    rw [Function.update_self]
    constructor
    · intro hmem'
      exact absurd (List.mem_map_of_mem hmem') hfree.1
    · intro hnone
      cases hnone
  · rw [Function.update_of_ne hv, ← h k' v', hmem]
    simp [hv]

end IsGraph

end Uhs.Support
